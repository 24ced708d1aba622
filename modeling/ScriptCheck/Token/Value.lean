import ScriptCheck.Decimal.Binary64
import ScriptCheck.Token.Basic
import ScriptCheck.Token.Escape

/-!
# Values of literals

What the text of a literal token stands for. The functions answer for any text, but mean something
only for tokens of their own kind.
-/

namespace ScriptCheck

open Text

/-! ### Numbers -/

/-- The integers that a literal can stand for lie below this bound. -/
def integerBound : Nat := Nat.pow 2 63

/-- Why a text does not stand for an integer of 64 bits. -/
inductive IntegerFault where
  | empty
  | invalidDigit
  | posOverflow
  | negOverflow
  deriving DecidableEq, Repr

/-- The name a fault is listed under. -/
def IntegerFault.name : IntegerFault → String
  | empty => "Empty"
  | invalidDigit => "InvalidDigit"
  | posOverflow => "PosOverflow"
  | negOverflow => "NegOverflow"

/-- Reads digits of a radix behind an integer, away from zero, as long as 64 bits hold it. -/
def readDigits (radix : Nat) (negative : Bool) (n : Int) : List Char → Except IntegerFault Int
  | [] => .ok n
  | c :: cs =>
    match (digitValue? c).filter (· < radix) with
    | none => .error .invalidDigit
    | some d =>
      if negative then
        if -(integerBound : Int) ≤ n * radix - d then readDigits radix negative (n * radix - d) cs
        else .error .negOverflow
      else
        if n * radix + d < integerBound then readDigits radix negative (n * radix + d) cs
        else .error .posOverflow

/-- Reads an integer of 64 bits in a radix up to sixteen, which may have a sign. -/
def readInteger (radix : Nat) : List Char → Except IntegerFault Int
  | [] => .error .empty
  | ['+'] | ['-'] => .error .invalidDigit
  | '+' :: digits => readDigits radix false 0 digits
  | '-' :: digits => readDigits radix true 0 digits
  | digits => readDigits radix false 0 digits

/-- Radix and digits of an integer literal. -/
def radixDigits : List Char → Nat × List Char
  | '0' :: 'x' :: digits | '0' :: 'X' :: digits => (16, digits)
  | '0' :: 'o' :: digits | '0' :: 'O' :: digits => (8, digits)
  | '0' :: 'b' :: digits | '0' :: 'B' :: digits => (2, digits)
  | digits => (10, digits)

/-- What an integer literal stands for, or why it stands for nothing. -/
def integerValue (text : List Char) : Except IntegerFault Int :=
  let (radix, digits) := radixDigits text
  readInteger radix digits

/-- The value of an integer literal, if it has one. -/
def integerValue? (text : List Char) : Option Nat :=
  match integerValue text with
  | .ok n => some n.toNat
  | .error _ => none

/-- The value of an exponent: a letter, perhaps a sign, and digits. Zero for no exponent. -/
def exponentValue : List Char → Int
  | _ :: '-' :: digits => -(positional 10 digits : Int)
  | _ :: '+' :: digits => positional 10 digits
  | _ :: digits => positional 10 digits
  | [] => 0

/-- The value of a literal with a fraction or an exponent. -/
def doubleValue (text : List Char) : Binary64 :=
  let whole := text.takeWhile isDigit
  let rest := text.drop whole.length
  let fraction := match rest with
    | '.' :: digits => digits.takeWhile isDigit
    | _ => []
  let exponent := rest.dropWhile fun c => isDigit c || c == '.'
  Binary64.ofDecimal (positional 10 (whole ++ fraction))
    (exponentValue exponent - fraction.length)

/-! ### Strings and regular expressions -/

/-- The text of a literal without its first and last character. -/
def unquoted (text : List Char) : List Char := text.tail.dropLast

/-- The text that a string literal stands for. -/
def stringValue (text : List Char) : List Char := Escape.decode (unquoted text)

/-- Pattern and flags of a regular expression literal: what stands before and after its last
slash. -/
def regexpValue (text : List Char) : List Char × List Char :=
  let flags := (text.reverse.takeWhile (· != '/')).reverse
  ((text.take (text.length - flags.length - 1)).tail, flags)

/-! ### Interpolations -/

/-- A part of a script: the offset of its start and its text. -/
structure Excerpt where
  lo : Nat
  text : List Char
  deriving DecidableEq, Repr

/-- The region of a part of a script. -/
def Excerpt.span (e : Excerpt) : Span := ⟨e.lo, bytes e.text⟩

/-- The number of characters before the brace that closes an interpolation, in a text inside of it
with some braces open and perhaps inside a quoted part. All of the text, if no brace closes it. -/
def bodyLength (braces : Nat) : Option Char → List Char → Nat
  | _, [] => 0
  | none, c :: rest =>
    if c = '\x7b' then bodyLength (braces + 1) none rest + 1
    else if c = '\x7d' then
      if braces = 0 then 0 else bodyLength (braces - 1) none rest + 1
    else if c = '"' || c = '\'' || c = '`' then bodyLength braces (some c) rest + 1
    else bodyLength braces none rest + 1
  | some _, ['\\'] => 1
  | some quote, '\\' :: _ :: rest => bodyLength braces (some quote) rest + 2
  | some quote, c :: rest =>
    bodyLength braces (if c = quote then none else some quote) rest + 1

/-- The bodies of the interpolations in the text of a template that starts at offset `lo`. -/
def interpolationsFrom (lo : Nat) (cs : List Char) : List Excerpt :=
  match cs with
  | [] => []
  | ['\\'] => []
  | '\\' :: c :: rest => interpolationsFrom (lo + bytes ['\\', c]) rest
  | '$' :: '\x7b' :: rest =>
    let body := rest.take (bodyLength 0 none rest)
    ⟨lo + 2, body⟩ ::
      interpolationsFrom (lo + 2 + bytes body + 1) (rest.drop (bodyLength 0 none rest + 1))
  | c :: rest => interpolationsFrom (lo + bytes [c]) rest
termination_by cs.length
decreasing_by
  · simp only [List.length_cons]
    omega
  · simp only [List.length_drop, List.length_cons]
    omega
  · simp

namespace Token

/-- The bodies of the interpolations of a template, in order. -/
def interpolations (t : Token) : List Excerpt :=
  interpolationsFrom (t.lo + bytes (t.text.take 1)) (t.text.drop 1)

end Token

example : regexpValue "/a[/]b/gi".toList = ("a[/]b".toList, "gi".toList) := by decide +kernel

end ScriptCheck
