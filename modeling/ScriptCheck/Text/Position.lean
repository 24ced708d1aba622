import ScriptCheck.Text.Blank
import ScriptCheck.Text.Measure

/-!
# Positions

Editors count lines and the UTF-16 units within a line, both from zero. `positionAt` gives the
position of a byte offset and `offsetAt` the offset of a position; each answers the nearest place
that exists. An editor is told of positions in numbers of 32 bits (`editorPosition`).
-/

namespace ScriptCheck.Text

/-- A line, and the number of units before a place in it. -/
structure Position where
  line : Nat
  character : Nat
  deriving DecidableEq, Repr

namespace Position

/-- The start of a text. -/
def start : Position := ⟨0, 0⟩

/-- The position behind a character. -/
def next (p : Position) (c : Char) : Position :=
  if c = '\n' then ⟨p.line + 1, 0⟩ else ⟨p.line, p.character + unitsOf c⟩

/-- The greatest number in a position that an editor is told of. -/
def maxNumber : Nat := Nat.pow 2 32 - 1

/-- A position in numbers of 32 bits. One that needs more of them is cut off at the greatest. -/
def clamped (p : Position) : Position := ⟨min p.line maxNumber, min p.character maxNumber⟩

/-- Lines come first, then units. -/
instance : LT Position :=
  ⟨fun p q => p.line < q.line ∨ p.line = q.line ∧ p.character < q.character⟩

instance : LE Position :=
  ⟨fun p q => p.line < q.line ∨ p.line = q.line ∧ p.character ≤ q.character⟩

end Position

/-- The position `n` bytes behind a position, in the text from there on. -/
def positionFrom (p : Position) : Nat → List Char → Position
  | _, [] => p
  | n, c :: cs => if c.utf8Size ≤ n then positionFrom (p.next c) (n - c.utf8Size) cs else p

/-- The position of a byte offset. An offset inside a character stands for its start, and one behind
the text for its end. -/
def positionAt (text : List Char) (offset : Nat) : Position := positionFrom .start offset text

/-- The position of a byte offset, as an editor is told of it. -/
def editorPosition (text : List Char) (offset : Nat) : Position := (positionAt text offset).clamped

/-- The lines of a text, without their ends. -/
def lines (text : List Char) : List (List Char) := splitAtChar '\n' text

/-- The bytes of the shortest start of a line that has some number of units, or of the whole
line. -/
def bytesOfUnits : Nat → List Char → Nat
  | 0, _ => 0
  | _ + 1, [] => 0
  | n + 1, c :: cs => c.utf8Size + bytesOfUnits (n + 1 - unitsOf c) cs

/-- The byte offset of a position in a list of lines. -/
def offsetInLines (p : Position) : List (List Char) → Nat
  | [] => 0
  | line :: rest =>
    match p.line, rest with
    | 0, _ => bytesOfUnits p.character line
    | _ + 1, [] => bytes line
    | n + 1, rest => bytes line + 1 + offsetInLines ⟨n, p.character⟩ rest

/-- The byte offset of a position. One behind the end of its line stands for that end, and one on no
line for the end of the text. -/
def offsetAt (text : List Char) (p : Position) : Nat := offsetInLines p (lines text)

end ScriptCheck.Text
