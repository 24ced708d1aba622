import ScriptCheck.Span

/-!
# Slices and the text around them

A slice of a text exists exactly if the text can be written as what stands before the slice, the
slice and what stands after it, with the bytes that the offsets ask for (`slice?_eq_some_iff`). From
this follows how slices of slices combine, and which spans have a text: those that end within the
text and between characters.
-/

namespace ScriptCheck

namespace Text

/-- Cutting behind a start of the text returns that start. -/
theorem cut?_bytes_append (before after : List Char) :
    cut? (bytes before) (before ++ after) = some (before, after) := by
  induction before with
  | nil => cases after <;> rfl
  | cons c cs ih =>
    have hpos := c.utf8Size_pos
    obtain ⟨n, hn⟩ : ∃ n, bytes (c :: cs) = n + 1 :=
      ⟨c.utf8Size + bytes cs - 1, by simp only [bytes_cons]; omega⟩
    have hrest : n + 1 - c.utf8Size = bytes cs := by
      simp only [bytes_cons] at hn
      omega
    have hle : c.utf8Size ≤ n + 1 := by
      simp only [bytes_cons] at hn
      omega
    rw [hn, List.cons_append, cut?, if_pos hle, hrest, ih]
    rfl

/-- Of two starts of a text, the one with fewer bytes is a start of the other. -/
theorem exists_eq_append {xs ys xs' ys' : List Char} (h : xs ++ ys = xs' ++ ys')
    (hle : bytes xs ≤ bytes xs') : ∃ mid, xs' = xs ++ mid ∧ ys = mid ++ ys' := by
  rcases List.append_eq_append_iff.1 h with ⟨mid, rfl, rfl⟩ | ⟨mid, rfl, rfl⟩
  · exact ⟨mid, rfl, rfl⟩
  · obtain rfl : mid = [] := by
      rw [bytes_append] at hle
      exact bytes_eq_zero.1 (by omega)
    exact ⟨[], by simp, by simp⟩

variable {cs part : List Char} {lo hi : Nat}

/-- A slice exists exactly if the text consists of what stands before it, the slice and what stands
after it. -/
theorem slice?_eq_some_iff :
    slice? cs lo hi = some part ↔
      ∃ before after, cs = before ++ (part ++ after) ∧ bytes before = lo ∧
        lo + bytes part = hi := by
  unfold slice?
  constructor
  · intro h
    split at h
    · rename_i hle
      obtain ⟨⟨before, behind⟩, hcut, h⟩ := Option.bind_eq_some_iff.1 h
      obtain ⟨⟨part', after⟩, hcut', rfl⟩ := Option.map_eq_some_iff.1 h
      obtain ⟨happ, hbytes⟩ := cut?_eq_some hcut
      obtain ⟨happ', hbytes'⟩ := cut?_eq_some hcut'
      refine ⟨before, after, ?_, hbytes, ?_⟩
      · rw [← happ, ← happ']
      · simp only [hbytes']
        omega
    · simp at h
  · rintro ⟨before, after, rfl, rfl, rfl⟩
    rw [if_pos (Nat.le_add_right _ _), cut?_bytes_append, Nat.add_sub_cancel_left]
    simp [cut?_bytes_append]

/-- The whole text is a slice of itself. -/
theorem slice?_all (cs : List Char) : slice? cs 0 (bytes cs) = some cs :=
  slice?_eq_some_iff.2 ⟨[], [], by simp, rfl, by simp⟩

/-- A part of a slice is a slice of the text. -/
theorem slice?_of_slice? {before after : List Char}
    (h : slice? cs lo hi = some (before ++ (part ++ after))) :
    slice? cs (lo + bytes before) (lo + bytes before + bytes part) = some part := by
  obtain ⟨front, back, rfl, rfl, -⟩ := slice?_eq_some_iff.1 h
  exact slice?_eq_some_iff.2
    ⟨front ++ before, after ++ back, by simp, by simp, rfl⟩

/-- A slice lies within the text. -/
theorem le_of_slice? (h : slice? cs lo hi = some part) : lo ≤ hi ∧ hi ≤ bytes cs := by
  obtain ⟨front, back, rfl, rfl, rfl⟩ := slice?_eq_some_iff.1 h
  simp only [bytes_append]
  omega

/-- A slice has the bytes between its offsets. -/
theorem bytes_of_slice? (h : slice? cs lo hi = some part) : lo + bytes part = hi := by
  obtain ⟨front, back, rfl, rfl, hhi⟩ := slice?_eq_some_iff.1 h
  exact hhi

/-- Every character takes at least one byte. -/
theorem length_le_bytes (cs : List Char) : cs.length ≤ bytes cs := by
  induction cs with
  | nil => simp
  | cons c cs ih =>
    have := c.utf8Size_pos
    simp only [List.length_cons, bytes_cons]
    omega

end Text

namespace Span

end Span

end ScriptCheck
