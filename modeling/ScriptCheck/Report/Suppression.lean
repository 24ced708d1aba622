import ScriptCheck.Report.Diagnostic
import ScriptCheck.Text.Position
import ScriptCheck.Text.Slice
import ScriptCheck.Token.Basic

/-!
# Suppression

A comment with a marker keeps the diagnostics that start on its line from being reported. The marker
counts only in what is skipped between tokens, not within a string.
-/

namespace ScriptCheck

namespace Suppression

open Text

/-- The text that suppresses the diagnostics of its line. -/
def marker : String := "// ucode-lsp disable"

/-- The lines on which the marker starts, in a text that starts on some line. -/
def markedLines (line : Nat) : List Char → List Nat
  | [] => []
  | c :: cs =>
    let rest := markedLines (if c = '\n' then line + 1 else line) cs
    if marker.toList.isPrefixOf (c :: cs) then line :: rest else rest

/-- The number of line ends in a text. -/
def lineEnds (cs : List Char) : Nat := cs.count '\n'

/-- The lines on which the marker starts between tokens, the first of which stands on some line with
what is skipped before it. -/
def linesBetween (line : Nat) : List Token → List Nat
  | [] => []
  | t :: rest => markedLines line t.gap ++ linesBetween (line + lineEnds t.covered) rest

/-- Tokens of which the first one keeps all the text before it, also where only a part of the text
was read. -/
def fromStart (text : List Char) : List Token → List Token
  | [] => []
  | t :: rest => { t with gap := ((cut? t.lo text).map Prod.fst).getD t.gap } :: rest

/-- The lines of a text whose diagnostics are not reported. -/
def suppressedLines (text : List Char) (tokens : List Token) : List Nat :=
  linesBetween 0 (fromStart text tokens)

/-- The diagnostics of a text that are reported. -/
def kept (text : List Char) (tokens : List Token) (diagnostics : List Diagnostic) :
    List Diagnostic :=
  match suppressedLines text tokens with
  | [] => diagnostics
  | lines => diagnostics.filter fun d => !lines.contains (positionAt text d.span.lo).line

end Suppression

end ScriptCheck
