import ScriptCheck.Text.Printable

/-!
# Quoted text

How a text is shown between double quotes: the quote and the backslash are preceded by a
backslash, the commonest control characters have a letter, and any other character that is not
printable is given by its code point in lower case hexadecimal.
-/

namespace ScriptCheck.Text

/-- The digits of a number in lower case hexadecimal, without leading zeros. -/
def hexDigits (n : Nat) : List Char :=
  Nat.toDigits 16 n

/-- How one character is written between double quotes. -/
def quoteChar (c : Char) : List Char :=
  match c with
  | '\x00' => ['\\', '0']
  | '\t' => ['\\', 't']
  | '\r' => ['\\', 'r']
  | '\n' => ['\\', 'n']
  | '"' => ['\\', '"']
  | '\\' => ['\\', '\\']
  | c => if isPrintable c then [c] else ['\\', 'u', '\x7b'] ++ hexDigits c.toNat ++ ['\x7d']

/-- A text in double quotes. -/
def quote (cs : List Char) : List Char :=
  '"' :: cs.flatMap quoteChar ++ ['"']

/-- A string in double quotes. -/
def quoteString (s : String) : String :=
  String.ofList (quote s.toList)

example : quoteString "é\"\t\x07" = "\"é\\\"\\t\\u\x7b7\x7d\"" := by decide +kernel

end ScriptCheck.Text
