import ScriptCheck.Span
import ScriptCheck.Token.Kind

/-!
# Tokens

A token keeps the text it covers and the text that was skipped before it, so that a list of tokens
spells out the script it was read from. Its span follows from its start and its text, and thus
never ends before it starts.
-/

namespace ScriptCheck

/-- A token of a script: its kind, the offset of its start, the skipped text before it and its own
text. -/
structure Token where
  kind : TokenKind
  lo : Nat
  gap : List Char
  text : List Char
  deriving DecidableEq, Repr

namespace Token

/-- The region a token covers. -/
def span (t : Token) : Span := ⟨t.lo, Text.bytes t.text⟩

/-- Whether a token marks the end of the script. -/
def isEof (t : Token) : Bool := t.kind == .eof

/-- The end of a script, as a token with nothing before it. -/
def endOf (source : List Char) : Token := ⟨.eof, Text.bytes source, [], []⟩

/-- The text of a token, as a string. -/
def word (t : Token) : String := String.ofList t.text

/-- Whether a line ends in the text skipped before a token. -/
def onNewLine (t : Token) : Bool := t.gap.contains '\n'

/-- A token as it is listed. -/
def display (t : Token) : String := "Token(" ++ t.kind.name ++ ", " ++ t.span.display ++ ")"

/-- The text that a token and the gap before it cover. -/
def covered (t : Token) : List Char := t.gap ++ t.text

@[simp] theorem lo_span (t : Token) : t.span.lo = t.lo := rfl

@[simp] theorem hi_span (t : Token) : t.span.hi = t.lo + Text.bytes t.text := rfl

end Token

end ScriptCheck
