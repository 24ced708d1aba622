import ScriptCheck.Token.Basic
import ScriptCheck.Token.Scan
import ScriptCheck.Token.Trivia

/-!
# The tokens of a script

`tokensFrom` reads a text into tokens, the last of which marks its end. Each token keeps the text
skipped before it, so the tokens spell out what was read (`covered_tokensFrom`). A slash is read by
the two tokens before it: it divides after a token that may end an expression, and after a keyword
that is the name of a property.
-/

namespace ScriptCheck

open Text

/-- The kinds of the last two tokens read, the latest first. -/
structure Preceding where
  last : Option TokenKind
  beforeLast : Option TokenKind
  deriving DecidableEq, Repr

namespace Preceding

/-- No token is read yet. -/
def none : Preceding := ⟨Option.none, Option.none⟩

/-- One more token is read. -/
def push (p : Preceding) (kind : TokenKind) : Preceding := ⟨some kind, p.last⟩

/-- Whether a slash after these tokens divides. -/
def divides (p : Preceding) : Bool :=
  match p.last with
  | Option.none => false
  | some kind =>
    kind.endsExpression ||
      (kind.isKeyword &&
        (p.beforeLast == some (.punct .dot) || p.beforeLast == some (.punct .questionDot)))

end Preceding

/-- The tokens of a text that starts at offset `lo` of its script, up to the end of the text. -/
def tokensFrom (mode : LexMode) (before : Preceding) (lo : Nat) (cs : List Char) : List Token :=
  let skipped := triviaLength (lo == 0) cs
  let gap := cs.take skipped
  let start := lo + bytes gap
  match _h : cs.drop skipped with
  | [] => [⟨.eof, start, gap, []⟩]
  | c :: rest =>
    let (kind, n) := scan mode before.divides c rest
    let text := c :: rest.take n
    ⟨kind, start, gap, text⟩ ::
      tokensFrom mode (before.push kind) (start + bytes text) (rest.drop n)
termination_by cs.length
decreasing_by
  have hlen := congrArg List.length _h
  simp only [List.length_drop, List.length_cons] at hlen ⊢
  omega

/-- The tokens of a whole script. -/
def tokenize (mode : LexMode) (source : List Char) : List Token :=
  tokensFrom mode .none 0 source

/-- The tokens of the part of a script between two offsets, with the offsets they have in the whole
script. Nothing, if the part is not within the script or does not start and end between
characters. -/
def tokenizeRange? (mode : LexMode) (source : List Char) (lo hi : Nat) : Option (List Token) :=
  (slice? source lo hi).map (tokensFrom mode .none lo)

/-- The tokens and the gaps before them spell out the text they were read from. -/
theorem covered_tokensFrom (mode : LexMode) (before : Preceding) (lo : Nat) (cs : List Char) :
    (tokensFrom mode before lo cs).flatMap Token.covered = cs := by
  fun_induction tokensFrom mode before lo cs with
  | case1 before lo cs skipped gap start h =>
    have split := List.take_append_drop skipped cs
    rw [h] at split
    simpa [Token.covered, gap] using split
  | case2 before lo cs skipped gap start c rest h kind n hscan text ih =>
    have split := List.take_append_drop skipped cs
    rw [h] at split
    rw [List.flatMap_cons, ih]
    simp only [Token.covered, gap, text, List.append_assoc, List.cons_append,
      List.take_append_drop]
    exact split

end ScriptCheck
