import ScriptCheck.Proofs.Cover
import ScriptCheck.Proofs.Positions
import ScriptCheck.Report.Check

/-!
# What is reported

The diagnostics of a script are the faults of grammar and then the findings, in the order of their
starts, where those with one start stay in order (`StablySorted`). Left out are those that start on
a line with the marker, if the marker stands as a whole in the text between two tokens, or before
the first one (`Suppression.Marked`). All of this is said of the script and the regions of its
tokens. That tokens keep the text skipped before them, and that lines are counted on the way, are
matters of the proof of `diagnostics_check`.
-/

namespace ScriptCheck

open List

open Text

/-! ### Sorting -/

/-- An offset lies on a line, counted by line ends. An offset inside a character counts as its
start, and one behind the text as its end. -/
def OnLine (source : List Char) (offset line : Nat) : Prop :=
  ∃ before after, source = before ++ after ∧ bytes before ≤ offset ∧
    (∀ c ∈ after.head?, offset < bytes before + c.utf8Size) ∧ before.count '\n' = line

theorem OnLine.unique {source : List Char} {offset line line' : Nat} (h : OnLine source offset line)
    (h' : OnLine source offset line') : line' = line := by
  have key {before after before' after' : List Char} (heq : before ++ after = before' ++ after')
      (hle : bytes before ≤ bytes before') (hbytes' : bytes before' ≤ offset)
      (hhead : ∀ c ∈ after.head?, offset < bytes before + c.utf8Size) : before' = before := by
    obtain ⟨mid, rfl, rfl⟩ := exists_eq_append heq hle
    cases mid with
    | nil => exact append_nil _
    | cons c mid =>
      have hlt := hhead c rfl
      rw [bytes_append, bytes_cons] at hbytes'
      omega
  obtain ⟨before, after, rfl, hbytes, hhead, rfl⟩ := h
  obtain ⟨before', after', heq, hbytes', hhead', rfl⟩ := h'
  rcases Nat.le_total (bytes before) (bytes before') with hle | hle
  · rw [key heq hle hbytes' hhead]
  · rw [key heq.symm hle hbytes hhead']

namespace Suppression

/-! ### Markers between tokens -/

section Tokens

variable {source : List Char} {tokens : List Token}

end Tokens

end Suppression

end ScriptCheck
