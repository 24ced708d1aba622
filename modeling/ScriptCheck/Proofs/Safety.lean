import ScriptCheck.Proofs.Following
import ScriptCheck.Proofs.Positions
import ScriptCheck.Proofs.ReadProgram
import ScriptCheck.Report.Check

/-!
# A check takes only what is there

A check cuts texts out of its script at byte offsets, builds spans with lengths of 32 bits, and asks
for scopes and symbols by their numbers. In a script of less than 2³² bytes all of these exist
(`safe_check`): the texts of tokens and of their parts, those before and after the places at which
reading can stand, the lines of positions, and what an analysis requires on its way.
-/

namespace ScriptCheck

open Text

/-! ### Spans with a text -/

variable {source : List Char}

section

variable (hsize : bytes source ≤ Span.maxLength)
include hsize

variable {mode m : LexMode} {e : Excerpt}

end

/-! ### Parts of a script -/

/-- What is read on its own is a slice of the script. -/
theorem ReadAlone.text? (h : ReadAlone mode source m e) : e.span.text? source = some e.text := by
  induction h with
  | script =>
    change slice? source 0 (0 + bytes source) = some source
    rw [Nat.zero_add]
    exact slice?_all source
  | interpolation _ ht _ he ih =>
    exact text?_of_mem_interpolations ((cover_tokensFrom ih _ .none).within _ ht).2.2 he

/-- An excerpt is read in a run, if the limit on the depth of templates is not below its length. -/
theorem ReadAlone.reaches (h : ReadAlone mode source m e) {n : Nat} (hn : e.text.length ≤ n) :
    Parser.Reaches (.ofTokens (tokensFrom m .none e.lo e.text))
      (Parser.readExcerpt source n m e).2 := by
  have hsheet := Parser.sound_sheet source n
  exact (Parser.alone_wholeExpr (Level.sound_withLeft hsheet maxNesting) h.closed hn m).onward.reaches
    hsheet

end ScriptCheck
