import ScriptCheck.Token.Value

/-!
# Integers of 64 bits

An integer is read digit by digit, and reading stops as soon as 64 bits do not hold it. For digits
of the radix, that is the same as to ask whether the number that they stand for is within bounds
(`readInteger_eq`): more digits never make it smaller, so leading zeros and the length of the text
do not matter.
-/

namespace ScriptCheck

open Text

/-- What is read for a number: the number itself if 64 bits hold it. -/
def within64 (n : Nat) : Except IntegerFault Int :=
  if n < integerBound then .ok n else .error .posOverflow

/-- The number that digits of a radix stand for behind a number. -/
def Text.positionalFrom (radix n : Nat) (cs : List Char) : Nat :=
  cs.foldl (fun n c => n * radix + (digitValue? c).getD 0) n

theorem Text.positionalFrom_cons (radix n : Nat) (c : Char) (cs : List Char) :
    positionalFrom radix n (c :: cs) =
      positionalFrom radix (n * radix + (digitValue? c).getD 0) cs :=
  rfl

variable {radix : Nat} {cs : List Char}

theorem Text.isDigitOf_iff {c : Char} :
    isDigitOf radix c ↔ ∃ d, digitValue? c = some d ∧ d < radix := by
  simp [isDigitOf, Option.any_eq_true]

/-- The digits of radix ten are the decimal digits. -/
theorem Text.isDigitOf_ten (c : Char) : isDigitOf 10 c = isDigit c := by
  by_cases hc : isDigit c
  · have hle : c.toNat ≤ '9'.toNat := by
      rw [isDigit, Bool.and_eq_true, decide_eq_true_eq, decide_eq_true_eq] at hc
      exact hc.2
    have hvalue : c.toNat - 48 < 10 := by
      rw [show '9'.toNat = 57 from rfl] at hle
      omega
    simpa [isDigitOf, digitValue?, hc] using hvalue
  · -- a letter stands for ten or more
    have hletter (n : Nat) : ¬ n + 10 < 10 := by omega
    simp only [isDigitOf, digitValue?, hc, Bool.false_eq_true, if_false]
    split
    · simp [hletter]
    · split
      · simp [hletter]
      · rfl

/-- More digits make no number smaller. -/
theorem Text.le_positionalFrom (hradix : 0 < radix) (n : Nat) (cs : List Char) :
    n ≤ positionalFrom radix n cs := by
  induction cs generalizing n with
  | nil => exact Nat.le_refl _
  | cons c cs ih =>
    calc n ≤ n * radix := Nat.le_mul_of_pos_right n hradix
      _ ≤ n * radix + (digitValue? c).getD 0 := Nat.le_add_right _ _
      _ ≤ _ := ih _

/-- A number that goes on with digits of the radix grows by less than a power of the radix. -/
theorem Text.positionalFrom_lt (hcs : ∀ c ∈ cs, isDigitOf radix c) (n : Nat) :
    positionalFrom radix n cs < (n + 1) * Nat.pow radix cs.length := by
  induction cs generalizing n with
  | nil => exact Nat.lt_of_lt_of_eq (Nat.lt_succ_self n) (Nat.mul_one _).symm
  | cons c cs ih =>
    obtain ⟨hc, hcs⟩ := List.forall_mem_cons.1 hcs
    obtain ⟨d, hd, hlt⟩ := isDigitOf_iff.1 hc
    have hnext : n * radix + d + 1 ≤ (n + 1) * radix := by
      rw [Nat.succ_mul]
      omega
    rw [positionalFrom_cons, hd, Option.getD_some]
    calc positionalFrom radix (n * radix + d) cs
      _ < (n * radix + d + 1) * Nat.pow radix cs.length := ih hcs _
      _ ≤ (n + 1) * radix * Nat.pow radix cs.length := Nat.mul_le_mul_right _ hnext
      _ = (n + 1) * Nat.pow radix (cs.length + 1) := by
        rw [Nat.mul_assoc, Nat.mul_comm radix]
        rfl

/-- Digits of the radix are read as the number that they stand for. -/
theorem readDigits_eq (hcs : ∀ c ∈ cs, isDigitOf radix c) {n : Nat} (hn : n < integerBound) :
    readDigits radix false n cs = within64 (positionalFrom radix n cs) := by
  induction cs generalizing n with
  | nil => exact (if_pos hn).symm
  | cons c cs ih =>
    obtain ⟨hc, hcs⟩ := List.forall_mem_cons.1 hcs
    obtain ⟨d, hd, hlt⟩ := isDigitOf_iff.1 hc
    have hnext : (digitValue? c).filter (· < radix) = some d := by simp [hd, Option.filter, hlt]
    have hcast : (n : Int) * radix + d = (n * radix + d : Nat) := by
      rw [Int.natCast_add, Int.natCast_mul]
    rw [readDigits, hnext, positionalFrom_cons, hd, Option.getD_some]
    simp only [Bool.false_eq_true, if_false, hcast, Int.ofNat_lt]
    split
    · next hfits => exact ih hcs hfits
    · next hlarge =>
      -- the digits that follow cannot bring the number back within bounds
      have hle := le_positionalFrom (Nat.zero_lt_of_lt hlt) (n * radix + d) cs
      rw [within64, if_neg fun hfits => hlarge (Nat.lt_of_le_of_lt hle hfits)]

/-- A text of digits has no sign. -/
theorem readInteger_eq (hne : cs ≠ []) (hcs : ∀ c ∈ cs, isDigitOf radix c) :
    readInteger radix cs = within64 (positional radix cs) := by
  have hplus : '+' ∉ cs := fun h => absurd (hcs _ h) (by simp [isDigitOf, digitValue?, isDigit])
  have hminus : '-' ∉ cs := fun h => absurd (hcs _ h) (by simp [isDigitOf, digitValue?, isDigit])
  have hread := readDigits_eq hcs (n := 0) (by decide)
  unfold readInteger
  split
  · exact absurd rfl hne
  · simp at hplus
  · simp at hminus
  · simp at hplus
  · simp at hminus
  · exact hread

end ScriptCheck
