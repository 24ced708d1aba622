import Mathlib.Order.Bounds.Defs
import ScriptCheck.Proofs.Positions

/-!
# Positions and offsets

The offsets between the characters of a text are its *boundaries*. From one boundary to the next the
position grows, lines first and then units; any other offset has the position of the boundary below
it. The other way round, a position leads to the first boundary on its line that is not before it,
or to the end of the line or of the text where there is none (`Navigable`). So an offset that is
turned into a position and back is the boundary below it.

This is shown of exact positions for every text, and of those that an editor is told of for every
text whose lines and units can be counted with 32 bits (`navigable_editorPosition`).
-/

namespace ScriptCheck.Text

open List

variable {before line first : List Char}

/-- An offset between two characters, or at an end of the text. -/
def IsBoundary (text : List Char) (offset : Nat) : Prop :=
  ∃ before after, text = before ++ after ∧ bytes before = offset

/-- A line starts behind some text. -/
def IsLineStart (before : List Char) : Prop := before = [] ∨ ∃ init, before = init ++ ['\n']

/-- The boundaries that have a position on some line. -/
def lineBoundaries (text : List Char) (position : Nat → Position) (line : Nat) : Set Nat :=
  {b | IsBoundary text b ∧ (position b).line = line}

/-- What the positions of offsets, and the offsets of positions, have to do with each other. -/
structure Navigable (text : List Char) (position : Nat → Position) : Prop where
  /-- A position counts the line ends before the line, and the units before the place on it. -/
  counted : ∀ before line after, text = before ++ (line ++ after) → IsLineStart before →
    '\n' ∉ line → position (bytes before + bytes line) = ⟨before.count '\n', units line⟩
  increasing : ∀ a b, IsBoundary text a → IsBoundary text b → a < b → position a < position b
  /-- An offset stands for the greatest boundary that is not behind it, also on the way back. -/
  rounded : ∀ o, ∃ b, IsGreatest {b | IsBoundary text b ∧ b ≤ o} b ∧ position o = position b ∧
    offsetAt text (position o) = b
  least : ∀ p, (∃ b ∈ lineBoundaries text position p.line, p ≤ position b) →
    IsLeast {b | b ∈ lineBoundaries text position p.line ∧ p ≤ position b} (offsetAt text p)
  lineEnd : ∀ p, p.line ≤ text.count '\n' →
    (∀ b ∈ lineBoundaries text position p.line, ¬p ≤ position b) →
    IsGreatest (lineBoundaries text position p.line) (offsetAt text p)
  textEnd : ∀ p, text.count '\n' < p.line → offsetAt text p = bytes text

/-! ### Positions behind characters -/

namespace Position

theorem lt_trans {p q r : Position} (h : p < q) (h' : q < r) : p < r := by
  change _ ∨ _ at h h'
  change _ ∨ _
  omega

theorem lt_next (p : Position) (c : Char) : p < p.next c := by
  unfold next
  split
  · exact .inl (Nat.lt_succ_self _)
  · exact .inr ⟨rfl, Nat.lt_add_of_pos_right (unitsOf_pos c)⟩

theorem lt_foldl_next (p : Position) {cs : List Char} (h : cs ≠ []) : p < cs.foldl next p := by
  induction cs generalizing p with
  | nil => exact absurd rfl h
  | cons c cs ih =>
    cases cs with
    | nil => exact p.lt_next c
    | cons d cs => exact lt_trans (p.lt_next c) (ih _ (cons_ne_nil d cs))

theorem line_foldl_next (p : Position) (cs : List Char) :
    (cs.foldl next p).line = p.line + cs.count '\n' := by
  induction cs generalizing p with
  | nil => rfl
  | cons c cs ih =>
    rw [foldl_cons, ih, next]
    by_cases hc : c = '\n'
    · simp only [hc, if_true, count_cons_self]
      omega
    · simp only [hc, if_false, count_cons_of_ne hc]

/-- Without a line end, only units are counted. -/
theorem foldl_next_of_notMem (p : Position) {line : List Char} (h : '\n' ∉ line) :
    line.foldl next p = ⟨p.line, p.character + units line⟩ := by
  induction line generalizing p with
  | nil => rfl
  | cons c cs ih =>
    obtain ⟨hc, hcs⟩ := ne_and_not_mem_of_not_mem_cons h
    rw [foldl_cons, ih _ hcs, next, if_neg (Ne.symm hc), units_cons, Nat.add_assoc]

theorem foldl_next_of_isLineStart {before : List Char} (h : IsLineStart before) :
    before.foldl next start = ⟨before.count '\n', 0⟩ := by
  rcases h with rfl | ⟨init, rfl⟩
  · rfl
  · have hline := line_foldl_next start init
    rw [foldl_append, count_append]
    simp only [foldl_cons, foldl_nil, next, if_true, hline, count_cons_self,
      count_nil]
    rw [show start.line = 0 from rfl, Nat.zero_add]

end Position

variable {text : List Char}

theorem positionFrom_append (p : Position) (before after : List Char) :
    positionFrom p (bytes before) (before ++ after) = before.foldl Position.next p := by
  induction before generalizing p with
  | nil =>
    cases after with
    | nil => rfl
    | cons c cs => exact if_neg (Nat.not_le.2 c.utf8Size_pos)
  | cons c cs ih =>
    rw [cons_append, bytes_cons, positionFrom, if_pos (Nat.le_add_right _ _),
      Nat.add_sub_cancel_left]
    exact ih _

theorem positionAt_append (before after : List Char) :
    positionAt (before ++ after) (bytes before) = before.foldl Position.next .start :=
  positionFrom_append _ before after

theorem positionAt_line {after : List Char} (hstart : IsLineStart before) (hline : '\n' ∉ line) :
    positionAt (before ++ (line ++ after)) (bytes before + bytes line) =
      ⟨before.count '\n', units line⟩ := by
  rw [← append_assoc, ← bytes_append, positionAt_append, foldl_append,
    Position.foldl_next_of_isLineStart hstart, Position.foldl_next_of_notMem _ hline, Nat.zero_add]

theorem positionAt_lt {a b : Nat} (ha : IsBoundary text a) (hb : IsBoundary text b) (hlt : a < b) :
    positionAt text a < positionAt text b := by
  obtain ⟨before, after, rfl, rfl⟩ := ha
  obtain ⟨before', after', heq, rfl⟩ := hb
  obtain ⟨mid, rfl, -⟩ := exists_eq_append heq (Nat.le_of_lt hlt)
  have hmid : mid ≠ [] := by
    rintro rfl
    rw [append_nil] at hlt
    exact Nat.lt_irrefl _ hlt
  rw [positionAt_append, heq, positionAt_append, foldl_append]
  exact Position.lt_foldl_next _ hmid

/-! ### Boundaries below an offset -/

theorem floorBoundary_le (n : Nat) (cs : List Char) : floorBoundary n cs ≤ n := by
  induction cs generalizing n with
  | nil => exact Nat.zero_le n
  | cons c cs ih =>
    rw [floorBoundary]
    split
    · have := ih (n - c.utf8Size)
      omega
    · exact Nat.zero_le n

theorem le_floorBoundary {n : Nat} (after : List Char) (h : bytes before ≤ n) :
    bytes before ≤ floorBoundary n (before ++ after) := by
  induction before generalizing n with
  | nil => exact Nat.zero_le _
  | cons c cs ih =>
    rw [bytes_cons] at h
    rw [cons_append, floorBoundary, if_pos (by omega), bytes_cons]
    have := @ih (n - c.utf8Size) (by omega)
    omega

theorem isGreatest_floorBoundary (text : List Char) (o : Nat) :
    IsGreatest {b | IsBoundary text b ∧ b ≤ o} (floorBoundary o text) := by
  obtain ⟨front, after, hsplit, hbytes, -⟩ := positionFrom_eq_foldl .start o text
  refine ⟨⟨⟨front, after, hsplit, hbytes⟩, floorBoundary_le o text⟩, ?_⟩
  rintro b ⟨⟨before, after, rfl, rfl⟩, hle⟩
  exact le_floorBoundary after hle

theorem positionAt_floorBoundary (text : List Char) (o : Nat) :
    positionAt text o = positionAt text (floorBoundary o text) := by
  obtain ⟨front, after, hsplit, hbytes, hposition⟩ := positionFrom_eq_foldl .start o text
  rw [← hbytes, hsplit, positionAt_append, ← hsplit]
  exact hposition

/-! ### Lines -/

theorem lines_of_notMem (h : '\n' ∉ line) : lines line = [line] :=
  splitAtChar_of_notMem h

theorem lines_append (h : '\n' ∉ first) (rest : List Char) :
    lines (first ++ '\n' :: rest) = first :: lines rest :=
  splitAtChar_append h rest

theorem offsetAt_of_notMem (h : '\n' ∉ line) (p : Position) :
    offsetAt line p = if p.line = 0 then bytesOfUnits p.character line else bytes line := by
  rw [offsetAt, lines_of_notMem h]
  obtain ⟨n, k⟩ := p
  cases n <;> rfl

/-- The offset of a position on a later line is counted from there on. -/
theorem offsetAt_append (h : '\n' ∉ first) (rest : List Char) (n k : Nat) :
    offsetAt (first ++ '\n' :: rest) ⟨n + 1, k⟩ = bytes first + 1 + offsetAt rest ⟨n, k⟩ := by
  rw [offsetAt, lines_append h, offsetAt]
  cases hrest : lines rest with
  | nil =>
    have hlength := length_lines rest
    rw [hrest] at hlength
    exact absurd hlength (Nat.succ_ne_zero _).symm
  | cons piece pieces => rfl

/-- A text with one line more in front has one line end more. -/
theorem count_lineEnds_append (h : '\n' ∉ first) (rest : List Char) :
    (first ++ '\n' :: rest).count '\n' = rest.count '\n' + 1 := by
  rw [count_append, count_eq_zero.2 h, count_cons_self, Nat.zero_add]

theorem offsetAt_textEnd (text : List Char) :
    ∀ p : Position, text.count '\n' < p.line → offsetAt text p = bytes text := by
  induction text using pieces_rule '\n' with
  | hpiece line hplain =>
    intro p hp
    rw [offsetAt_of_notMem hplain, if_neg (Nat.ne_of_gt (Nat.zero_lt_of_lt hp))]
  | hmore first rest hplain ih =>
    rintro ⟨n, k⟩ hp
    rw [count_lineEnds_append hplain] at hp
    cases n with
    | zero => exact absurd hp (Nat.not_lt_zero _)
    | succ n =>
      rw [offsetAt_append hplain, ih ⟨n, k⟩ (Nat.lt_of_succ_lt_succ hp), bytes_append, bytes_cons]
      exact Nat.add_assoc ..

/-- A line of a text, with its number and what stands around it. -/
structure LineAt (text : List Char) (n : Nat) (before line after : List Char) : Prop where
  text_eq : text = before ++ (line ++ after)
  start : IsLineStart before
  number : before.count '\n' = n
  plain : '\n' ∉ line
  stop : after = [] ∨ ∃ rest, after = '\n' :: rest

theorem IsLineStart.append_cons (h : IsLineStart before) (first : List Char) :
    IsLineStart (first ++ '\n' :: before) := by
  rcases h with rfl | ⟨init, rfl⟩
  · exact .inr ⟨first, rfl⟩
  · exact .inr ⟨first ++ '\n' :: init, by simp⟩

/-- Each line has its place in the text, and the offsets of its positions lie in it. -/
theorem exists_lineAt (text : List Char) : ∀ n ≤ text.count '\n', ∃ before line after,
    LineAt text n before line after ∧
      ∀ k, offsetAt text ⟨n, k⟩ = bytes before + bytesOfUnits k line := by
  induction text using pieces_rule '\n' with
  | hpiece line hplain =>
    intro n hn
    rw [count_eq_zero.2 hplain] at hn
    obtain rfl := Nat.le_zero.1 hn
    refine ⟨[], line, [], ⟨by simp, .inl rfl, rfl, hplain, .inl rfl⟩, fun k => ?_⟩
    rw [offsetAt_of_notMem hplain, bytes_nil, Nat.zero_add]
    rfl
  | hmore first rest hplain ih =>
    intro n hn
    rw [count_lineEnds_append hplain] at hn
    cases n with
    | zero =>
      refine ⟨[], first, '\n' :: rest, ⟨rfl, .inl rfl, rfl, hplain, .inr ⟨rest, rfl⟩⟩, fun k => ?_⟩
      rw [offsetAt, lines_append hplain, bytes_nil, Nat.zero_add]
      rfl
    | succ n =>
      obtain ⟨before, line, after, hat, hoffset⟩ := ih n (Nat.le_of_succ_le_succ hn)
      refine ⟨first ++ '\n' :: before, line, after, ⟨?_, hat.start.append_cons first, ?_, hat.plain,
        hat.stop⟩, fun k => ?_⟩
      · rw [hat.text_eq]
        simp
      · rw [count_lineEnds_append hplain, hat.number]
      · rw [offsetAt_append hplain, hoffset, bytes_append, bytes_cons, ← Nat.add_assoc,
          ← Nat.add_assoc]
        rfl

/-! ### Places on a line -/

/-- The shortest start of a line that has some number of units, or all of the line. -/
theorem bytesOfUnits_spec (k : Nat) (line : List Char) : ∃ front back, line = front ++ back ∧
    bytesOfUnits k line = bytes front ∧ (k ≤ units front ∨ back = []) ∧
      ∀ init rest, line = init ++ rest → k ≤ units init → bytes front ≤ bytes init := by
  induction line generalizing k with
  | nil => exact ⟨[], [], rfl, by cases k <;> rfl, .inr rfl, fun _ _ _ _ => Nat.zero_le _⟩
  | cons c cs ih =>
    cases k with
    | zero => exact ⟨[], c :: cs, rfl, rfl, .inl (Nat.zero_le _), fun _ _ _ _ => Nat.zero_le _⟩
    | succ k =>
      obtain ⟨front, back, rfl, hbytes, hreached, hleast⟩ := ih (k + 1 - unitsOf c)
      refine ⟨c :: front, back, rfl, ?_, ?_, ?_⟩
      · rw [bytesOfUnits, hbytes, bytes_cons]
      · refine hreached.imp_left fun hle => ?_
        rw [units_cons]
        omega
      · intro init rest hinit hle
        cases init with
        | nil => exact absurd hle (Nat.not_succ_le_zero k)
        | cons d init =>
          obtain ⟨rfl, htail⟩ := List.cons.inj hinit
          rw [units_cons] at hle
          have := hleast init rest htail (by omega)
          rw [bytes_cons, bytes_cons]
          omega

namespace LineAt

variable {n : Nat} {before line after : List Char}

/-- A place on a line is a boundary, and its position is on the line. -/
theorem position_eq (h : LineAt text n before line after) {init rest : List Char}
    (hline : line = init ++ rest) :
    IsBoundary text (bytes before + bytes init) ∧
      positionAt text (bytes before + bytes init) = ⟨n, units init⟩ := by
  have hplain : '\n' ∉ init := fun hmem => h.plain (hline ▸ mem_append_left rest hmem)
  have htext : text = before ++ (init ++ (rest ++ after)) := by
    rw [h.text_eq, hline, append_assoc]
  refine ⟨⟨before ++ init, rest ++ after, by rw [htext, append_assoc], bytes_append _ _⟩, ?_⟩
  rw [htext, positionAt_line h.start hplain, h.number]

/-- A boundary with a position on the line stands on it. -/
theorem exists_of_line_eq (h : LineAt text n before line after) {b : Nat} (hb : IsBoundary text b)
    (hposition : (positionAt text b).line = n) :
    ∃ init rest, line = init ++ rest ∧ b = bytes before + bytes init := by
  obtain ⟨front, back, htext, rfl⟩ := hb
  have hcount : front.count '\n' = n := by
    rw [htext, positionAt_append, Position.line_foldl_next] at hposition
    exact (Nat.zero_add _).symm.trans hposition
  have hboth : before ++ (line ++ after) = front ++ back := h.text_eq.symm.trans htext
  rcases append_eq_append_iff.1 hboth with ⟨mid, rfl, hrest⟩ | ⟨mid, hbefore, -⟩
  · -- the boundary is not before the line, so no line end stands between both
    have hmid : '\n' ∉ mid := by
      rw [count_append, h.number] at hcount
      exact count_eq_zero.1 (by omega)
    rcases append_eq_append_iff.1 hrest with ⟨excess, rfl, hafter⟩ | ⟨rest, hline, -⟩
    · obtain rfl : excess = [] := by
        rcases h.stop with rfl | ⟨rest, rfl⟩
        · exact (append_eq_nil_iff.1 hafter.symm).1
        · cases excess with
          | nil => rfl
          | cons c excess =>
            obtain ⟨rfl, -⟩ := List.cons.inj hafter
            exact absurd (mem_append_right line mem_cons_self) hmid
      exact ⟨line, [], by simp, by simp⟩
    · exact ⟨mid, rest, hline, bytes_append _ _⟩
  · -- it is not before the start of the line, which is behind a line end
    have hmid : '\n' ∉ mid := by
      have hnumber := h.number
      rw [hbefore, count_append] at hnumber
      exact count_eq_zero.1 (by omega)
    obtain rfl : mid = [] := by
      rcases h.start with rfl | ⟨init, rfl⟩
      · exact (append_eq_nil_iff.1 hbefore.symm).2
      · rcases eq_nil_or_concat mid with rfl | ⟨excess, c, rfl⟩
        · rfl
        · rw [concat_eq_append, ← append_assoc] at hbefore
          obtain ⟨-, hc⟩ := append_inj' hbefore rfl
          obtain rfl := singleton_inj.1 hc
          exact absurd (by simp) hmid
    exact ⟨[], line, rfl, by simp [hbefore]⟩

end LineAt

/-! ### Positions and offsets -/

theorem le_position_iff {n k l : Nat} : (⟨n, k⟩ : Position) ≤ ⟨n, l⟩ ↔ k ≤ l := by
  change (n < n ∨ n = n ∧ k ≤ l) ↔ _
  omega

/-- The offset of a position on a line: it stands on the line, no place on the line that is not
before the position comes earlier, and it is such a place itself unless it is the last one. -/
theorem offsetAt_spec {p : Position} (hp : p.line ≤ text.count '\n') :
    offsetAt text p ∈ lineBoundaries text (positionAt text) p.line ∧
      (∀ b ∈ lineBoundaries text (positionAt text) p.line, p ≤ positionAt text b →
        offsetAt text p ≤ b) ∧
      (p ≤ positionAt text (offsetAt text p) ∨
        ∀ b ∈ lineBoundaries text (positionAt text) p.line, b ≤ offsetAt text p) := by
  obtain ⟨n, k⟩ := p
  obtain ⟨before, line, after, hat, hoffset⟩ := exists_lineAt text n hp
  obtain ⟨front, back, hline, hbytes, hreached, hleast⟩ := bytesOfUnits_spec k line
  obtain ⟨hboundary, hposition⟩ := hat.position_eq hline
  have heq : offsetAt text ⟨n, k⟩ = bytes before + bytes front := by rw [hoffset, hbytes]
  rw [heq]
  refine ⟨⟨hboundary, by rw [hposition]⟩, ?_, ?_⟩
  · rintro b ⟨hb, hbline⟩ hle
    obtain ⟨init, rest, hinit, rfl⟩ := hat.exists_of_line_eq hb hbline
    rw [(hat.position_eq hinit).2, le_position_iff] at hle
    exact Nat.add_le_add_left (hleast init rest hinit hle) _
  · rw [hposition, le_position_iff]
    refine hreached.imp_right ?_
    rintro rfl b ⟨hb, hbline⟩
    obtain ⟨init, rest, hinit, rfl⟩ := hat.exists_of_line_eq hb hbline
    rw [append_nil] at hline
    rw [← hline, hinit, bytes_append]
    omega

theorem line_positionAt_le (text : List Char) (o : Nat) :
    (positionAt text o).line ≤ text.count '\n' := by
  obtain ⟨-, -, -, hlt, -⟩ := positionAt_spec text o
  rw [length_lines] at hlt
  exact Nat.le_of_lt_succ hlt

/-- A boundary comes back from its position. -/
theorem offsetAt_positionAt {b : Nat} (hb : IsBoundary text b) :
    offsetAt text (positionAt text b) = b := by
  obtain ⟨⟨hboundary, -⟩, hleast, hreached⟩ := offsetAt_spec (line_positionAt_le text b)
  have hself : positionAt text b ≤ positionAt text b := .inr ⟨rfl, Nat.le_refl _⟩
  have hle := hleast b ⟨hb, rfl⟩ hself
  rcases hreached with hreached | hlast
  · -- an earlier boundary would have an earlier position
    refine Nat.le_antisymm hle (Nat.le_of_not_lt fun hlt => ?_)
    have hposition := positionAt_lt hboundary hb hlt
    change _ ∨ _ at hposition hreached
    omega
  · exact Nat.le_antisymm hle (hlast b ⟨hb, rfl⟩)

/-- Exact positions, in any text. -/
theorem navigable_positionAt (text : List Char) : Navigable text (positionAt text) where
  counted := by
    rintro before line after rfl hstart hline
    exact positionAt_line hstart hline
  increasing _ _ ha hb hlt := positionAt_lt ha hb hlt
  rounded o := by
    have hgreatest := isGreatest_floorBoundary text o
    refine ⟨_, hgreatest, positionAt_floorBoundary text o, ?_⟩
    rw [positionAt_floorBoundary]
    exact offsetAt_positionAt hgreatest.1.1
  least p hsome := by
    obtain ⟨b, ⟨hb, hline⟩, hle⟩ := hsome
    obtain ⟨hmem, hleast, hreached⟩ := offsetAt_spec (hline ▸ line_positionAt_le text b)
    refine ⟨⟨hmem, hreached.elim id fun hlast => ?_⟩, fun b hb => hleast b hb.1 hb.2⟩
    rwa [Nat.le_antisymm (hleast b ⟨hb, hline⟩ hle) (hlast b ⟨hb, hline⟩)]
  lineEnd p hp hnone := by
    obtain ⟨hmem, -, hreached⟩ := offsetAt_spec hp
    exact ⟨hmem, fun b hb => (hreached.resolve_left (hnone _ hmem)) b hb⟩
  textEnd p hp := offsetAt_textEnd text p hp

/-- In a text whose lines and units can be counted with 32 bits, nothing is cut off. -/
theorem editorPosition_eq (hlines : (lines text).length ≤ Position.maxNumber)
    (hunits : units text ≤ Position.maxNumber) : editorPosition text = positionAt text := by
  funext o
  obtain ⟨start, line, hslice, hlt, hcharacter, -, -⟩ := positionAt_spec text o
  obtain ⟨before, after, htext, -, -⟩ := slice?_eq_some_iff.1 hslice
  have hle : units line ≤ units text := by
    rw [htext, units_append, units_append]
    omega
  have hline : min (positionAt text o).line Position.maxNumber = (positionAt text o).line := by
    omega
  have hunit : min (positionAt text o).character Position.maxNumber =
      (positionAt text o).character := by
    omega
  rw [editorPosition, Position.clamped, hline, hunit]

/-- Positions that an editor is told of, in a text of less than 2³² lines and units. -/
theorem navigable_editorPosition (text : List Char)
    (hlines : (lines text).length ≤ Position.maxNumber)
    (hunits : units text ≤ Position.maxNumber) : Navigable text (editorPosition text) := by
  rw [editorPosition_eq hlines hunits]
  exact navigable_positionAt text

theorem navigable_editorPosition_clef :
    (lines "let a;\n\nlet b = 'é𝄞x';\n".toList).length ≤ Position.maxNumber ∧
      units "let a;\n\nlet b = 'é𝄞x';\n".toList ≤ Position.maxNumber ∧
      Navigable "let a;\n\nlet b = 'é𝄞x';\n".toList
        (editorPosition "let a;\n\nlet b = 'é𝄞x';\n".toList) :=
  ⟨by decide, by decide, navigable_editorPosition _ (by decide) (by decide)⟩

end ScriptCheck.Text
