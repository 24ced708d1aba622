import Mathlib.Data.List.Nodup
import Mathlib.Data.List.Pairwise
import ScriptCheck.Proofs.ReadProgram

/-!
# Faults of single tokens

The fault of every malformed token of a script is listed exactly once, in the order of the tokens;
all other faults of single tokens come from the interpolations of templates and lie inside of them.

A fault is *outer* if it lies in no template of the script. The invariant of a run is that the outer
faults listed so far are those of the tokens read so far, and that of the current token if it is
marked as listed (`State.Listed`). Malformed tokens are never inside of templates (`Apart`), since
tokens do not overlap.
-/

namespace ScriptCheck

open List

open Text

/-- The fault of a malformed token, where it stands. -/
def Token.fault? (t : Token) : Option (Located SyntaxError) :=
  match t.kind with
  | .error e => some ⟨t.span, .lexical e⟩
  | _ => none

theorem Token.fault?_eq_some_iff {t : Token} {x : Located SyntaxError} :
    t.fault? = some x ↔ ∃ e, t.kind = .error e ∧ x = ⟨t.span, .lexical e⟩ := by
  unfold fault?
  split
  · next e he => simp [he, eq_comm]
  · next h => exact ⟨by simp, fun ⟨e, he, _⟩ => absurd he (h e)⟩

/-- Whether a fault is that of a single token in none of the templates. -/
def isOuter (tokens : List Token) (x : Located SyntaxError) : Bool :=
  x.value.isLexical && !tokens.any fun t => t.kind == .template && decide (t.span.Encloses x.span)

theorem isOuter_eq_false {tokens : List Token} {x : Located SyntaxError}
    (h : x.value.isLexical → ∃ t ∈ tokens, t.kind = .template ∧ t.span.Encloses x.span) :
    isOuter tokens x = false := by
  cases hlex : x.value.isLexical with
  | false => simp [isOuter, hlex]
  | true => simpa [isOuter, hlex] using h hlex

/-- Whether no malformed token lies inside of a template. -/
def Apart (tokens : List Token) : Prop :=
  ∀ t ∈ tokens, ∀ e, t.kind = .error e → ∀ u ∈ tokens, u.kind = .template →
    ¬ u.span.Encloses t.span

theorem isOuter_fault {tokens : List Token} (hapart : Apart tokens) {t : Token} (ht : t ∈ tokens)
    {e : LexError} (he : t.kind = .error e) : isOuter tokens ⟨t.span, .lexical e⟩ = true := by
  simpa [isOuter, SyntaxError.isLexical] using hapart t ht e he

namespace Parser

/-- The outer faults in the list are those of the tokens read so far, in their order, and that of
the current token if it is marked as listed. -/
def State.Listed (tokens : List Token) (s : State) : Prop :=
  ∃ read, read ++ (s.rest ++ [s.eof]) = tokens ∧ s.last = read.getLast? ∧
    s.errors.filter (isOuter tokens) =
      read.filterMap Token.fault? ++ if s.reported then s.current.fault?.toList else []

namespace State.Listed

variable {tokens : List Token} {s : State}

theorem stands (h : s.Listed tokens) : s.Stands tokens := by
  obtain ⟨read, hread, hlast, -⟩ := h
  exact ⟨read, hread, hlast⟩

/-- Listing faults that are not outer keeps the account. -/
theorem of_inner (h : s.Listed tokens) {es : List (Located SyntaxError)}
    (hes : ∀ x ∈ es, isOuter tokens x = false) (tooDeep : Bool) :
    State.Listed tokens { s with errors := s.errors ++ es, tooDeep } := by
  obtain ⟨read, hread, hlast, hfaults⟩ := h
  refine ⟨read, hread, hlast, ?_⟩
  have hnil : es.filter (isOuter tokens) = [] := by simpa using hes
  change (s.errors ++ es).filter (isOuter tokens) = _
  rw [filter_append, hnil, append_nil]
  exact hfaults

end State.Listed

theorem State.listed_ofTokens {tokens : List Token} (h : tokens ≠ []) :
    (State.ofTokens tokens).Listed tokens := by
  obtain ⟨read, hread, hlast⟩ := State.stands_ofTokens h
  obtain rfl : read = [] := getLast?_eq_none_iff.1 hlast.symm
  exact ⟨[], hread, rfl, rfl⟩

/-- A malformed token can be passed only after it is listed, and any other token has no fault. -/
theorem fault?_current {s : State} (h : s.kind.isError → s.reported) :
    (if s.reported then s.current.fault?.toList else []) = s.current.fault?.toList := by
  cases hfault : s.current.fault? with
  | none => simp
  | some x =>
    obtain ⟨e, he, -⟩ := Token.fault?_eq_some_iff.1 hfault
    have hkind : s.kind.isError := by
      change s.current.kind.isError
      rw [he]
      rfl
    simp [h hkind]

/-- A step keeps the account of the outer faults. -/
theorem Step.outer {tokens : List Token} (hapart : Apart tokens) {s t : State} (hstep : Step s t)
    (h : s.Listed tokens) : t.Listed tokens := by
  cases hstep with
  | pass herr =>
    rcases s.advance_cases with ⟨-, heq⟩ | ⟨rest, hrest, heq⟩
    · rwa [heq]
    · obtain ⟨read, hread, hlast, hfaults⟩ := h
      rw [heq]
      refine ⟨read ++ [s.current], by simpa [hrest] using hread, by simp, ?_⟩
      rw [hfaults, fault?_current herr, filterMap_append]
      cases hfault : s.current.fault? <;> simp [hfault]
  | lexical =>
    rcases s.reportLexical_cases with ⟨heq, -⟩ | ⟨e, hkind, hrep, heq⟩
    · rwa [heq]
    · have houter := isOuter_fault hapart h.stands.current_mem hkind
      have hfault := Token.fault?_eq_some_iff.2 ⟨e, hkind, rfl⟩
      obtain ⟨read, hread, hlast, hfaults⟩ := h
      rw [heq]
      -- the fault of the current token moves to the list, and the mark says so
      refine ⟨read, hread, hlast, ?_⟩
      simp only [hrep, Bool.false_eq_true, if_false, append_nil] at hfaults
      rw [filter_append, hfaults, filter_singleton, houter]
      change _ = _ ++ s.current.fault?.toList
      rw [hfault]
      rfl
  | @fault span e he =>
    refine h.of_inner (forall_mem_singleton.2 (isOuter_eq_false fun hlex => ?_)) s.tooDeep
    exact absurd hlex (by simp [he])
  | depth =>
    rcases s.reportDepth_cases with ⟨heq, -⟩ | ⟨-, heq⟩
    · rwa [heq]
    · rw [heq]
      refine h.of_inner (forall_mem_singleton.2 (isOuter_eq_false fun hlex => ?_)) true
      exact absurd hlex (by simp [SyntaxError.isLexical])
  | @nested t es hlast hkind hes =>
    refine h.of_inner (fun x hx => isOuter_eq_false fun hlex => ?_) s.tooDeep
    exact ⟨t, h.stands.last_mem hlast, hkind, hes x hx hlex⟩
  | level => exact h

end Parser

/-! ### Faults of a script -/

section Tokens

variable {source : List Char} {lo hi : Nat} {tokens : List Token}

/-- A malformed token is not empty. -/
theorem Cover.lo_lt_hi (h : Cover source lo hi tokens) {t : Token} (ht : t ∈ tokens) {e : LexError}
    (he : t.kind = .error e) : t.span.lo < t.span.hi := by
  obtain ⟨body, last, rfl, hlast, -, hbody⟩ := h.ends
  rcases mem_append.1 ht with ht | ht
  · have := (hbody t ht).2
    simp only [Span.hi]
    omega
  · rw [mem_singleton.1 ht, hlast] at he
    exact absurd he (by simp)

/-- Tokens do not overlap, so none lies inside of another one. -/
theorem Cover.apart (h : Cover source lo hi tokens) : Apart tokens := by
  intro t ht e he u hu hu' henc
  have hsymm : Std.Symm fun s t : Token => s.span.hi ≤ t.span.lo ∨ t.span.hi ≤ s.span.lo :=
    ⟨fun _ _ => Or.symm⟩
  have hne : t ≠ u := by
    rintro rfl
    simp [he] at hu'
  have hpairwise : tokens.Pairwise fun s t => s.span.hi ≤ t.span.lo ∨ t.span.hi ≤ s.span.lo :=
    h.ordered.imp Or.inl
  have hdisjoint := hpairwise.forall ht hu hne
  have hpos := h.lo_lt_hi ht he
  obtain ⟨hlo, hhi⟩ := henc
  omega

/-- Faults of different tokens differ, as they stand at different places. -/
theorem Cover.nodup_faults (h : Cover source lo hi tokens) :
    (tokens.filterMap Token.fault?).Nodup := by
  refine List.Pairwise.filterMap _ ?_ (List.Pairwise.and_mem.1 h.ordered)
  rintro s t ⟨hs, ht, hst⟩ x hx y hy rfl
  obtain ⟨e, he, rfl⟩ := Token.fault?_eq_some_iff.1 hx
  obtain ⟨e', he', heq⟩ := Token.fault?_eq_some_iff.1 hy
  have hpos := h.lo_lt_hi hs he
  have hspan : s.span = t.span := congrArg Located.span heq
  rw [hspan] at hpos hst
  omega

end Tokens

/-- The outer faults of a script are those of its malformed tokens, in their order. -/
theorem outer_errors_parse (mode : LexMode) (source : List Char) :
    (parse mode source).errors.filter (isOuter (tokenize mode source)) =
      (tokenize mode source).filterMap Token.fault? := by
  have hcover := cover_tokenize mode source
  obtain ⟨body, last, heq, hlast, -, -⟩ := hcover.ends
  have hne : tokenize mode source ≠ [] := by simp [heq]
  have hreach := (Parser.got_readScript mode source).reaches
  have hlisted := hreach.keeps (Parser.Step.outer hcover.apart) (Parser.State.listed_ofTokens hne)
  obtain ⟨read, hread, -, hfaults⟩ := hlisted
  have hrest := Parser.rest_readScript mode source
  -- all tokens are read, and the end has no fault
  rw [hrest, nil_append, heq] at hread
  obtain ⟨rfl, heof⟩ := append_inj' hread rfl
  have hcurrent : (Parser.readScript mode source).2.current = last := by
    simpa [Parser.State.current, hrest] using heof
  have hnone : last.fault? = none := by simp [Token.fault?, hlast]
  rw [hcurrent, hnone] at hfaults
  rw [heq] at hfaults ⊢
  have herrors : (parse mode source).errors = (Parser.readScript mode source).2.errors := rfl
  simpa [herrors, hnone] using hfaults

/-- The fault of every malformed token is listed exactly once, in the order of the tokens, and every
other fault of a single token lies inside of a template. -/
theorem lexical_errors_parse (mode : LexMode) (source : List Char) :
    (∀ t ∈ tokenize mode source, ∀ e, t.kind = .error e →
        (parse mode source).errors.count ⟨t.span, .lexical e⟩ = 1) ∧
      ((tokenize mode source).filterMap Token.fault?).Sublist (parse mode source).errors ∧
      ∀ x ∈ (parse mode source).errors, x.value.isLexical →
        x ∈ (tokenize mode source).filterMap Token.fault? ∨
          ∃ t ∈ tokenize mode source, t.kind = .template ∧ t.span.Encloses x.span := by
  have hcover := cover_tokenize mode source
  have houter := outer_errors_parse mode source
  refine ⟨fun t ht e he => ?_, houter ▸ List.filter_sublist, fun x hx hlex => ?_⟩
  · rw [← List.count_filter (isOuter_fault hcover.apart ht he), houter]
    refine List.count_eq_one_of_mem hcover.nodup_faults (List.mem_filterMap.2 ⟨t, ht, ?_⟩)
    exact Token.fault?_eq_some_iff.2 ⟨e, he, rfl⟩
  · by_cases hin : isOuter (tokenize mode source) x = true
    · exact .inl (houter ▸ List.mem_filter.2 ⟨hx, hin⟩)
    · right
      simpa [isOuter, hlex] using hin

end ScriptCheck
