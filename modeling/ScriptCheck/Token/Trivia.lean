import ScriptCheck.Text.Blank
import ScriptCheck.Text.Measure

/-!
# Skipped text

Between tokens stand blanks, comments to the end of the line, comments in brackets and, at the very
start of a script, a line that names its interpreter. `triviaLength` measures the longest such
stretch at the start of a text. A bracketed comment that is never closed is not skipped.
-/

namespace ScriptCheck

open Text

/-- The number of characters up to the end of the line. -/
def lineLength (cs : List Char) : Nat := (cs.takeWhile (· != '\n')).length

/-- The number of characters through the end of a bracketed comment, if it is closed. -/
def commentLength? : List Char → Option Nat
  | [] => none
  | '*' :: '/' :: _ => some 2
  | _ :: cs => (commentLength? cs).map (· + 1)

/-- The length of the piece of skipped text at the start of a text: one blank or one comment. Zero
if a token or the end is there. -/
def pieceLength (atStart : Bool) : List Char → Nat
  | '/' :: '/' :: cs => 2 + lineLength cs
  | '/' :: '*' :: cs => ((commentLength? cs).map (· + 2)).getD 0
  | '#' :: '!' :: cs => if atStart then 2 + lineLength cs else 0
  | c :: _ => if isBlank c then 1 else 0
  | [] => 0

/-- The length of the skipped text at the start of a text, which may be the start of the script. -/
def triviaLength (atStart : Bool) (cs : List Char) : Nat :=
  match cs with
  | [] => 0
  | c :: rest =>
    match pieceLength atStart (c :: rest) with
    | 0 => 0
    | n + 1 => n + 1 + triviaLength false (rest.drop n)
termination_by cs.length
decreasing_by
  simp only [List.length_drop, List.length_cons]
  omega

end ScriptCheck
