import Mathlib.Data.List.Infix
import ScriptCheck.Token.Trivia

/-!
# What may stand between tokens

`Skipped` is the grammar of the text between two tokens: blanks, comments to the end of a line,
closed comments in brackets and, at the start of a script only, a line that names its interpreter.
`skipped_take_triviaLength` says that what the measure `triviaLength` skips is of this form. A
comment to the end of a line really goes to the end of a line: behind it stands a line break that is
skipped too, or the end of what is read.
-/

namespace ScriptCheck

open List

open Text

/-- Whether a line ends before a text that is skipped: at a line break or, if nothing follows the
skipped text, at its end. -/
def EndsLine (final : Prop) (cs : List Char) : Prop :=
  cs.head? = some '\n' ∨ cs = [] ∧ final

/-- Text that may stand between two tokens, at the start of a script or elsewhere. `final` says that
nothing follows it. -/
inductive Skipped (final : Prop) : Bool → List Char → Prop where
  | nil {atStart : Bool} : Skipped final atStart []
  | blank {atStart : Bool} {c : Char} {cs : List Char} :
      isBlank c → Skipped final false cs → Skipped final atStart (c :: cs)
  | line {atStart : Bool} {body cs : List Char} :
      '\n' ∉ body → EndsLine final cs → Skipped final false cs →
        Skipped final atStart ('/' :: '/' :: (body ++ cs))
  | bracket {atStart : Bool} {body cs : List Char} :
      ¬ ['*', '/'] <:+: body → Skipped final false cs →
        Skipped final atStart ('/' :: '*' :: (body ++ '*' :: '/' :: cs))
  | interpreter {body cs : List Char} :
      '\n' ∉ body → EndsLine final cs → Skipped final false cs →
        Skipped final true ('#' :: '!' :: (body ++ cs))

/-! ### The pieces of skipped text -/

/-- One piece of skipped text at the start of a text, with what follows it. -/
inductive Piece : Bool → List Char → List Char → Prop where
  | blank {atStart : Bool} {c : Char} {after : List Char} :
      isBlank c → Piece atStart [c] after
  | line {atStart : Bool} {body after : List Char} :
      '\n' ∉ body → EndsLine True after → Piece atStart ('/' :: '/' :: body) after
  | bracket {atStart : Bool} {body after : List Char} :
      ¬ ['*', '/'] <:+: body → Piece atStart ('/' :: '*' :: (body ++ ['*', '/'])) after
  | interpreter {body after : List Char} :
      '\n' ∉ body → EndsLine True after → Piece true ('#' :: '!' :: body) after

/-- The rest of a line holds no line break, and a line break or nothing follows it. -/
theorem lineLength_spec (cs : List Char) :
    '\n' ∉ cs.take (lineLength cs) ∧ EndsLine True (cs.drop (lineLength cs)) := by
  unfold lineLength
  induction cs with
  | nil => simp [EndsLine]
  | cons c cs ih =>
    by_cases hc : c = '\n'
    · subst hc
      simp [EndsLine]
    · have hrun : (c :: cs).takeWhile (· != '\n') = c :: cs.takeWhile (· != '\n') := by
        simp [hc]
      rw [hrun, length_cons, take_succ_cons, drop_succ_cons]
      refine ⟨?_, ih.2⟩
      rw [mem_cons, not_or]
      exact ⟨fun h => hc h.symm, ih.1⟩

/-- A bracketed comment is closed by the first `*/` in it. -/
theorem commentLength?_eq_some {cs : List Char} {n : Nat} (h : commentLength? cs = some n) :
    ∃ body after, cs = body ++ '*' :: '/' :: after ∧ n = body.length + 2 ∧
      ¬ ['*', '/'] <:+: body := by
  fun_induction commentLength? cs generalizing n with
  | case1 => simp at h
  | case2 after =>
    simp only [Option.some.injEq] at h
    exact ⟨[], after, by simp, by simp [← h], by simp⟩
  | case3 c cs hne ih =>
    obtain ⟨m, hm, rfl⟩ := Option.map_eq_some_iff.1 h
    obtain ⟨body, after, rfl, rfl, hbody⟩ := ih hm
    refine ⟨c :: body, after, by simp, by simp, ?_⟩
    -- a `*/` at the very start would have closed the comment there
    rw [infix_cons_iff, not_or]
    refine ⟨?_, hbody⟩
    rintro ⟨tail, htail⟩
    simp only [cons_append, nil_append, List.cons.injEq] at htail
    exact hne (tail ++ '*' :: '/' :: after) htail.1.symm (by simp [← htail.2])

/-- What `pieceLength` measures is one piece of skipped text. -/
theorem piece_of_pieceLength {atStart : Bool} {cs : List Char} {n : Nat}
    (h : pieceLength atStart cs = n + 1) :
    Piece atStart (cs.take (n + 1)) (cs.drop (n + 1)) := by
  unfold pieceLength at h
  split at h
  · rename_i rest
    obtain ⟨hbody, hafter⟩ := lineLength_spec rest
    obtain rfl : n = 1 + lineLength rest := by omega
    rw [show 1 + lineLength rest + 1 = lineLength rest + 2 by omega]
    exact .line hbody hafter
  · rename_i rest
    cases hlen : commentLength? rest with
    | none => simp [hlen] at h
    | some m =>
      obtain ⟨body, after, rfl, rfl, hbody⟩ := commentLength?_eq_some hlen
      obtain rfl : n = body.length + 3 := by
        simp only [hlen, Option.map_some, Option.getD_some] at h
        omega
      have htake : ('/' :: '*' :: (body ++ '*' :: '/' :: after)).take (body.length + 3 + 1) =
          '/' :: '*' :: (body ++ ['*', '/']) := by
        simp [take_append]
      rw [htake]
      exact .bracket hbody
  · rename_i rest
    split at h
    · rename_i hstart
      obtain ⟨hbody, hafter⟩ := lineLength_spec rest
      obtain rfl : n = 1 + lineLength rest := by omega
      rw [show 1 + lineLength rest + 1 = lineLength rest + 2 by omega, hstart]
      exact .interpreter hbody hafter
    · simp at h
  · rename_i c rest _ _ _
    split at h
    · rename_i hblank
      obtain rfl : n = 0 := by omega
      simpa using Piece.blank hblank
    · simp at h
  · simp at h

/-! ### The whole of the skipped text -/

/-- A line break is always skipped. -/
theorem triviaLength_newline (cs : List Char) :
    triviaLength false ('\n' :: cs) = 1 + triviaLength false cs := by
  have hpiece : pieceLength false ('\n' :: cs) = 0 + 1 := by
    unfold pieceLength
    exact if_pos rfl
  rw [triviaLength]
  simp [hpiece]

/-- A line that ends before a text also ends before the part of it that is skipped. -/
theorem EndsLine.take_triviaLength {cs : List Char} (h : EndsLine True cs) :
    EndsLine (cs.drop (triviaLength false cs) = []) (cs.take (triviaLength false cs)) := by
  rcases h with h | ⟨rfl, -⟩
  · cases cs with
    | nil => simp at h
    | cons c cs =>
      obtain rfl : c = '\n' := by simpa using h
      rw [triviaLength_newline, Nat.add_comm, take_succ_cons]
      exact .inl rfl
  · exact .inr ⟨by simp, by simp⟩

/-- One piece more is skipped. -/
theorem Piece.skipped_append {atStart : Bool} {piece after : List Char}
    (hpiece : Piece atStart piece after)
    (hafter : Skipped (after.drop (triviaLength false after) = []) false
      (after.take (triviaLength false after))) :
    Skipped (after.drop (triviaLength false after) = []) atStart
      (piece ++ after.take (triviaLength false after)) := by
  cases hpiece with
  | blank hc => exact .blank hc hafter
  | line hbody hend => exact .line hbody hend.take_triviaLength hafter
  | bracket hbody =>
    rw [cons_append, cons_append, append_assoc]
    exact .bracket hbody hafter
  | interpreter hbody hend => exact .interpreter hbody hend.take_triviaLength hafter

/-- What `triviaLength` measures is text that may stand between tokens, and nothing follows it if
the text ends there. -/
theorem skipped_take_triviaLength (atStart : Bool) (cs : List Char) :
    Skipped (cs.drop (triviaLength atStart cs) = []) atStart
      (cs.take (triviaLength atStart cs)) := by
  fun_induction triviaLength atStart cs with
  | case1 => exact .nil
  | case2 => exact .nil
  | case3 atStart c rest n hlen ih =>
    have hpiece := (piece_of_pieceLength hlen).skipped_append ih
    rw [take_add, ← drop_drop]
    exact hpiece

end ScriptCheck
