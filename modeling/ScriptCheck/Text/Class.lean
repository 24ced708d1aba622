/-!
# Classes of ASCII characters

The characters that make up words and numbers. All are ASCII: a script has no other letters or
digits outside its literals and comments.
-/

namespace ScriptCheck.Text

/-- A decimal digit. -/
def isDigit (c : Char) : Bool := '0' ≤ c && c ≤ '9'

/-- A letter. -/
def isLetter (c : Char) : Bool := ('a' ≤ c && c ≤ 'z') || ('A' ≤ c && c ≤ 'Z')

/-- A character that may start a word. -/
def isWordStart (c : Char) : Bool := isLetter c || c == '_'

/-- A character that may continue a word. -/
def isWordChar (c : Char) : Bool := isLetter c || isDigit c || c == '_'

/-- The value of a digit in radices up to sixteen. -/
def digitValue? (c : Char) : Option Nat :=
  if isDigit c then some (c.toNat - '0'.toNat)
  else if 'a' ≤ c && c ≤ 'f' then some (c.toNat - 'a'.toNat + 10)
  else if 'A' ≤ c && c ≤ 'F' then some (c.toNat - 'A'.toNat + 10)
  else none

/-- Whether a character is a digit of a radix up to sixteen. -/
def isDigitOf (radix : Nat) (c : Char) : Bool :=
  (digitValue? c).any (· < radix)

/-- A hexadecimal digit. -/
def isHexDigit (c : Char) : Bool := isDigitOf 16 c

/-- An octal digit. -/
def isOctalDigit (c : Char) : Bool := isDigitOf 8 c

/-- The number that digits of a radix stand for, the most significant first. -/
def positional (radix : Nat) (digits : List Char) : Nat :=
  digits.foldl (fun n c => n * radix + (digitValue? c).getD 0) 0

/-- Whether a text starts with a character of a class. -/
def startsWith (p : Char → Bool) (cs : List Char) : Bool := cs.head?.any p

end ScriptCheck.Text
