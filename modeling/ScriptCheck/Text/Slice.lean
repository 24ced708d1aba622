import ScriptCheck.Text.Measure

/-!
# Cutting a text at byte offsets

A text can be cut only between characters. `cut?` splits at a byte offset and answers nothing when
the offset lies outside the text or inside a character; `slice?` takes the part between two
offsets. `cut?_eq_some` says that the two parts are the text and the first one has the bytes asked
for.
-/

namespace ScriptCheck.Text

/-- Splits a text after its first `n` bytes, if a character ends there. -/
def cut? : Nat → List Char → Option (List Char × List Char)
  | 0, cs => some ([], cs)
  | _ + 1, [] => none
  | n + 1, c :: cs =>
    if c.utf8Size ≤ n + 1 then
      (cut? (n + 1 - c.utf8Size) cs).map fun (before, after) => (c :: before, after)
    else
      none

/-- The part of a text between two byte offsets, both at character boundaries. -/
def slice? (cs : List Char) (lo hi : Nat) : Option (List Char) :=
  if lo ≤ hi then
    (cut? lo cs).bind fun (_, after) => (cut? (hi - lo) after).map Prod.fst
  else
    none

/-- The greatest character boundary of a text that is not above `n` bytes. -/
def floorBoundary (n : Nat) : List Char → Nat
  | [] => 0
  | c :: cs => if c.utf8Size ≤ n then c.utf8Size + floorBoundary (n - c.utf8Size) cs else 0

/-- Cutting returns the text in two parts, the first of exactly the bytes asked for. -/
theorem cut?_eq_some {n : Nat} {cs before after : List Char}
    (h : cut? n cs = some (before, after)) : before ++ after = cs ∧ bytes before = n := by
  induction cs generalizing n before with
  | nil =>
    cases n with
    | zero => simp_all [cut?]
    | succ n => simp [cut?] at h
  | cons c cs ih =>
    cases n with
    | zero =>
      simp only [cut?, Option.some.injEq, Prod.mk.injEq] at h
      simp [← h.1, ← h.2]
    | succ n =>
      rw [cut?] at h
      split at h
      · rename_i hle
        obtain ⟨⟨before', after'⟩, hcut, heq⟩ := Option.map_eq_some_iff.1 h
        simp only [Prod.mk.injEq] at heq
        obtain ⟨rfl, rfl⟩ := heq
        obtain ⟨happ, hbytes⟩ := ih hcut
        refine ⟨by simp [happ], ?_⟩
        simp only [bytes_cons, hbytes]
        omega
      · simp at h

end ScriptCheck.Text
