import ScriptCheck.Text.Class

/-!
# Escape sequences

A backslash in a string or a template starts an escape sequence. `isValid` says whether the text
after a backslash is well formed; `decode` gives the text that a body with escape sequences stands
for. Decoding answers for every text: a number that is malformed or that names no character is
decoded as the replacement character.
-/

namespace ScriptCheck.Escape

open Text

/-- The character put in place of one that cannot be decoded. -/
def replacement : Char := '�'

/-- Whether the text after a backslash is a well formed escape sequence. Numbers take two digits
after `x`, four after `u` and one to six in braces; any other character stands for itself. -/
def isValid : List Char → Bool
  | 'x' :: rest => (rest.take 2).length == 2 && (rest.take 2).all isHexDigit
  | 'u' :: '\x7b' :: rest =>
    let digits := rest.takeWhile isHexDigit
    1 ≤ digits.length && digits.length ≤ 6 && (rest.drop digits.length).head? == some '\x7d'
  | 'u' :: rest => (rest.take 4).length == 4 && (rest.take 4).all isHexDigit
  | _ => true

/-- The character with a code point, or the replacement character if there is none. -/
def charOf (code : Option Nat) : Char :=
  match code with
  | some n => if n.isValidChar then Char.ofNat n else replacement
  | none => replacement

/-- The value of a hexadecimal number, which may have a plus sign. -/
def hexValue? (cs : List Char) : Option Nat :=
  let digits := match cs with
    | '+' :: rest => rest
    | _ => cs
  if digits.isEmpty || !digits.all isHexDigit then none else some (positional 16 digits)

/-- The character of an escape sequence of one letter; other characters stand for themselves. -/
def letter : Char → Char
  | 'n' => '\n'
  | 't' => '\t'
  | 'r' => '\r'
  | 'b' => '\x08'
  | 'f' => '\x0c'
  | 'v' => '\x0b'
  | 'a' => '\x07'
  | 'e' => '\x1b'
  | c => c

/-- The value of the escape sequence at the start of a text that follows a backslash, and the number
of characters it takes. A line break after the backslash continues the line and has no value. -/
def value : List Char → Option Char × Nat
  | [] => (none, 0)
  | '\n' :: _ => (none, 1)
  | 'x' :: rest => (some (charOf (hexValue? (rest.take 2))), 1 + (rest.take 2).length)
  | 'u' :: '\x7b' :: rest =>
    let body := rest.takeWhile (· != '\x7d')
    (some (charOf (hexValue? body)), 2 + body.length + ((rest.drop body.length).take 1).length)
  | 'u' :: rest => (some (charOf (hexValue? (rest.take 4))), 1 + (rest.take 4).length)
  | c :: rest =>
    if isOctalDigit c then
      let more := (rest.take 2).takeWhile isOctalDigit
      (some (charOf (some (positional 8 (c :: more)))), 1 + more.length)
    else
      (some (letter c), 1)

/-- The units of a literal's body, each with the character that it stands for: an escape sequence
with its backslash, or a character alone. -/
def units (cs : List Char) : List (List Char × Option Char) :=
  match cs with
  | [] => []
  | '\\' :: rest =>
    let (c, n) := value rest
    ('\\' :: rest.take n, c) :: units (rest.drop n)
  | c :: rest => ([c], some c) :: units rest
termination_by cs.length
decreasing_by
  · simp only [List.length_drop, List.length_cons]
    omega
  · simp

/-- The text that a literal's body stands for. A backslash at the very end is dropped. -/
def decode (cs : List Char) : List Char := (units cs).flatMap (·.2.toList)

example : decode "a\\n\\x41\\u\x7b1F600\x7d\\101\\q\\\nz\\".toList = "a\nA😀Aqz".toList := by
  decide +kernel

end ScriptCheck.Escape
