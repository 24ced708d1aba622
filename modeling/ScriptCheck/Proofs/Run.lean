import Mathlib.Order.Nat
import ScriptCheck.Grammar.Recovery

/-!
# Runs of reading

All that reading does to its state is one of six steps: a token is passed, the fault of a malformed
token is listed, some other fault is listed, it is listed that a part is nested too deep, the faults
of an interpolation are listed after the template it stands in was passed, and reading goes to
another level of nesting (`Step`). A run is a sequence of steps (`Reaches`), and in a run reading
stands somewhere in the list of its tokens (`Reaches.stands`).
-/

namespace ScriptCheck

open List

/-- Whether a region holds another one. -/
def Span.Encloses (s t : Span) : Prop := s.lo ≤ t.lo ∧ t.hi ≤ s.hi

instance (s t : Span) : Decidable (s.Encloses t) := inferInstanceAs (Decidable (_ ∧ _))

theorem Span.Encloses.trans {s t u : Span} (h : s.Encloses t) (h' : t.Encloses u) :
    s.Encloses u :=
  ⟨h.1.trans h'.1, h'.2.trans h.2⟩

namespace Parser

variable {tokens : List Token}

/-- The steps of reading. -/
inductive Step : State → State → Prop
  /-- A token is passed, a malformed one only after its fault is listed. -/
  | pass {s : State} (h : s.kind.isError → s.reported) : Step s s.advance
  /-- The fault of the current token is listed, if it has one that is not listed yet. -/
  | lexical (s : State) : Step s s.reportLexical
  /-- A fault other than that of a single token is listed. -/
  | fault (s : State) (span : Span) {e : SyntaxError} (h : e.isLexical = false) :
    Step s (s.report span e)
  /-- It is listed that a part is nested too deep, unless that is listed already. -/
  | depth (s : State) : Step s s.reportDepth
  /-- The faults of an interpolation of the template passed last are listed. -/
  | nested {s : State} {t : Token} {es : List (Located SyntaxError)} (hlast : s.last = some t)
    (hkind : t.kind = .template)
    (hes : ∀ e ∈ es, e.value.isLexical → t.span.Encloses e.span) :
    Step s { s with errors := s.errors ++ es }
  /-- Reading goes to another level of nesting. -/
  | level {s : State} {depth : Nat} (h : depth ≤ maxNesting) : Step s { s with depth }

/-- A state can be reached from another one by steps. -/
def Reaches : State → State → Prop := Relation.ReflTransGen Step

/-- What every step keeps, every run keeps. -/
theorem Reaches.keeps {P : State → Prop} (hstep : ∀ {s t}, Step s t → P s → P t) {s t : State}
    (h : Reaches s t) (hs : P s) : P t := by
  induction h with
  | refl => exact hs
  | tail _ hlast ih => exact hstep hlast ih

/-! ### The single steps -/

namespace State

variable (s : State)

/-- Passing a token either removes the first one, or does nothing at the end. -/
theorem advance_cases :
    (s.rest = [] ∧ s.advance = s) ∨
      ∃ rest, s.rest = s.current :: rest ∧
        s.advance = { s with rest, last := some s.current, reported := false } := by
  cases hrest : s.rest with
  | nil => exact .inl ⟨rfl, by simp [advance, hrest]⟩
  | cons t rest => exact .inr ⟨rest, by simp [current, hrest], by simp [advance, current, hrest]⟩

/-- Listing the fault of the current token changes nothing, or adds the one fault it has. -/
theorem reportLexical_cases :
    (s.reportLexical = s ∧ (s.kind.isError → s.reported)) ∨
      ∃ e, s.kind = .error e ∧ s.reported = false ∧
        s.reportLexical =
          { s with errors := s.errors ++ [⟨s.current.span, .lexical e⟩], reported := true } := by
  unfold reportLexical
  split
  · next e he =>
    split
    · next hrep => exact .inl ⟨rfl, fun _ => hrep⟩
    · next hrep => exact .inr ⟨e, he, by simpa using hrep, rfl⟩
  · next hne =>
    refine .inl ⟨rfl, fun h => ?_⟩
    cases hk : s.kind <;> simp_all [TokenKind.isError]

/-- Listing that a part is nested too deep changes nothing, or adds that one fault. -/
theorem reportDepth_cases :
    (s.reportDepth = s ∧ s.tooDeep) ∨
      (s.tooDeep = false ∧ s.reportDepth =
        { s with errors := s.errors ++ [⟨s.current.span, .nestingTooDeep⟩], tooDeep := true }) := by
  unfold reportDepth
  split
  · next h => exact .inl ⟨rfl, h⟩
  · next h => exact .inr ⟨by simpa using h, rfl⟩

@[simp] theorem rest_reportLexical : s.reportLexical.rest = s.rest := by
  rcases s.reportLexical_cases with ⟨h, -⟩ | ⟨e, -, -, h⟩ <;> rw [h]

@[simp] theorem eof_reportLexical : s.reportLexical.eof = s.eof := by
  rcases s.reportLexical_cases with ⟨h, -⟩ | ⟨e, -, -, h⟩ <;> rw [h]

@[simp] theorem kind_reportLexical : s.reportLexical.kind = s.kind := by
  simp [kind, current]

/-- After the fault of the current token is listed, the token can be passed. -/
theorem reported_reportLexical (h : s.kind.isError) : s.reportLexical.reported := by
  rcases s.reportLexical_cases with ⟨heq, hrep⟩ | ⟨e, -, -, heq⟩
  · rw [heq]
    exact hrep h
  · rw [heq]

end State

/-! ### Where a run stands -/

/-- Reading stands in a list of tokens: some are read, the last of them last, and the others
follow. -/
def State.Stands (tokens : List Token) (s : State) : Prop :=
  ∃ read, read ++ (s.rest ++ [s.eof]) = tokens ∧ s.last = read.getLast?

theorem State.stands_ofTokens (h : tokens ≠ []) :
    (State.ofTokens tokens).Stands tokens := by
  refine ⟨[], ?_, rfl⟩
  rw [nil_append]
  change tokens.dropLast ++ [tokens.getLastD _] = tokens
  rw [getLastD_eq_getLast?, getLast?_eq_some_getLast h, Option.getD_some]
  exact dropLast_concat_getLast h

namespace State.Stands

variable {tokens : List Token} {s : State}

theorem current_mem (h : s.Stands tokens) : s.current ∈ tokens := by
  obtain ⟨read, rfl, -⟩ := h
  cases hrest : s.rest <;> simp [current, hrest]

theorem last_mem (h : s.Stands tokens) {t : Token} (hlast : s.last = some t) : t ∈ tokens := by
  obtain ⟨read, rfl, heq⟩ := h
  rw [hlast] at heq
  exact mem_append_left _ (mem_of_getLast? heq.symm)

end State.Stands

/-- A step keeps its place in the list of tokens, or moves on by one token. -/
theorem Step.stands {s t : State} (hstep : Step s t) (h : s.Stands tokens) : t.Stands tokens := by
  cases hstep with
  | pass =>
    rcases s.advance_cases with ⟨-, heq⟩ | ⟨rest, hrest, heq⟩
    · rwa [heq]
    · obtain ⟨read, rfl, hlast⟩ := h
      rw [heq]
      exact ⟨read ++ [s.current], by simp [hrest], by simp⟩
  | lexical =>
    rcases s.reportLexical_cases with ⟨heq, -⟩ | ⟨e, -, -, heq⟩ <;> rw [heq] <;> exact h
  | fault => exact h
  | depth =>
    rcases s.reportDepth_cases with ⟨heq, -⟩ | ⟨-, heq⟩ <;> rw [heq] <;> exact h
  | nested => exact h
  | level => exact h

theorem Reaches.stands {s t : State} (h : Reaches s t) (hs : s.Stands tokens) : t.Stands tokens :=
  h.keeps Step.stands hs

end Parser

end ScriptCheck
