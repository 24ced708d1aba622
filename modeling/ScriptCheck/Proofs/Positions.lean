import Mathlib.Data.List.Induction
import ScriptCheck.Proofs.Slices
import ScriptCheck.Text.Position

/-!
# Where positions stand

The position of an offset is found by cutting the text: at the character boundary at or before the
offset, and behind the last line end before that. What stands between both is the part of the line
whose units are counted (`positionAt_spec`).
-/

namespace ScriptCheck.Text

/-- A position is reached by going over the characters that end by an offset. -/
theorem positionFrom_eq_foldl (p : Position) (n : Nat) (cs : List Char) :
    ∃ front after, cs = front ++ after ∧ bytes front = floorBoundary n cs ∧
      positionFrom p n cs = front.foldl Position.next p := by
  induction cs generalizing p n with
  | nil => exact ⟨[], [], rfl, rfl, rfl⟩
  | cons c cs ih =>
    by_cases hle : c.utf8Size ≤ n
    · obtain ⟨front, after, rfl, hbytes, hposition⟩ := ih (p.next c) (n - c.utf8Size)
      refine ⟨c :: front, after, rfl, ?_, ?_⟩
      · simp [floorBoundary, hle, hbytes]
      · simp [positionFrom, hle, hposition]
    · exact ⟨[], c :: cs, rfl, by simp [floorBoundary, hle], by simp [positionFrom, hle]⟩

/-- Going over some characters counts the line ends, and the units behind the last one. -/
theorem foldl_next (cs : List Char) :
    ∃ before line, cs = before ++ line ∧ '\n' ∉ line ∧
      (before = [] ∨ ∃ init, before = init ++ ['\n']) ∧
      cs.foldl Position.next .start = ⟨before.count '\n', units line⟩ := by
  -- from the right, as the last line end decides where the line starts
  induction cs using List.reverseRecOn with
  | nil => exact ⟨[], [], rfl, by simp, .inl rfl, rfl⟩
  | append_singleton cs c ih =>
    obtain ⟨before, line, rfl, hline, hbefore, hposition⟩ := ih
    rw [List.foldl_append, hposition]
    by_cases hc : c = '\n'
    · refine ⟨before ++ line ++ ['\n'], [], by simp [hc], by simp, .inr ⟨_, rfl⟩, ?_⟩
      simp [Position.next, hc, List.count_eq_zero.2 hline]
    · refine ⟨before, line ++ [c], by simp, ?_, hbefore, ?_⟩
      · simpa [hline, eq_comm] using hc
      · simp [Position.next, hc]

/-- A text has one piece more than separators. -/
theorem length_splitAtChar (sep : Char) (text : List Char) :
    (splitAtChar sep text).length = text.count sep + 1 := by
  induction text with
  | nil => rfl
  | cons c cs ih =>
    rw [splitAtChar]
    split
    · next h => simp [h] at ih
    · next piece pieces h =>
      rw [h, List.length_cons] at ih
      by_cases hc : c = sep <;> simp [hc, ih]

theorem splitAtChar_of_notMem {sep : Char} {piece : List Char} (h : sep ∉ piece) :
    splitAtChar sep piece = [piece] := by
  induction piece with
  | nil => rfl
  | cons c cs ih =>
    obtain ⟨hc, hcs⟩ := List.ne_and_not_mem_of_not_mem_cons h
    rw [splitAtChar, ih hcs]
    exact if_neg (Ne.symm hc)

theorem splitAtChar_append {sep : Char} {piece : List Char} (h : sep ∉ piece) (rest : List Char) :
    splitAtChar sep (piece ++ sep :: rest) = piece :: splitAtChar sep rest := by
  induction piece with
  | nil =>
    rw [List.nil_append, splitAtChar]
    cases hrest : splitAtChar sep rest with
    | nil => simpa [hrest] using length_splitAtChar sep rest
    | cons piece pieces => exact if_pos rfl
  | cons c cs ih =>
    obtain ⟨hc, hcs⟩ := List.ne_and_not_mem_of_not_mem_cons h
    rw [List.cons_append, splitAtChar, ih hcs]
    exact if_neg (Ne.symm hc)

/-- What is true of a single piece, and of a text with one piece more in front, is true of every
text. -/
theorem pieces_rule (sep : Char) {P : List Char → Prop} (hpiece : ∀ piece, sep ∉ piece → P piece)
    (hmore : ∀ first rest, sep ∉ first → P rest → P (first ++ sep :: rest)) (text : List Char) :
    P text := by
  induction hlength : text.length using Nat.strongRecOn generalizing text with
  | _ n ih =>
    by_cases hmem : sep ∈ text
    · obtain ⟨first, rest, rfl, hfirst⟩ := List.eq_append_cons_of_mem hmem
      refine hmore first rest hfirst (ih _ ?_ rest rfl)
      rw [← hlength, List.length_append, List.length_cons]
      omega
    · exact hpiece text hmem

theorem length_lines (text : List Char) : (lines text).length = text.count '\n' + 1 :=
  length_splitAtChar '\n' text

/-- The position of an offset: the text is cut at the boundary below the offset and behind the last
line end before it. -/
theorem positionAt_spec (text : List Char) (offset : Nat) :
    ∃ start line, slice? text start (floorBoundary offset text) = some line ∧
      (positionAt text offset).line < (lines text).length ∧
      (positionAt text offset).character = units line ∧
      (start = 0 ∨ slice? text (start - 1) start = some ['\n']) ∧ '\n' ∉ line := by
  obtain ⟨front, after, hsplit, hbytes, hposition⟩ := positionFrom_eq_foldl .start offset text
  obtain ⟨before, line, rfl, hline, hbefore, hfold⟩ := foldl_next front
  rw [positionAt, hposition, hfold, ← hbytes]
  refine ⟨bytes before, line, ?_, ?_, rfl, ?_, hline⟩
  · exact slice?_eq_some_iff.2 ⟨before, after, by simp [hsplit], rfl, by simp⟩
  · rw [length_lines, hsplit]
    simp only [List.count_append]
    omega
  · obtain rfl | ⟨init, rfl⟩ := hbefore
    · exact .inl rfl
    · have hsize : bytes (init ++ ['\n']) = bytes init + 1 := by
        rw [bytes_append]
        rfl
      rw [hsize, Nat.add_sub_cancel]
      exact .inr (slice?_eq_some_iff.2 ⟨init, line ++ after, by simp [hsplit], rfl, rfl⟩)

end ScriptCheck.Text
