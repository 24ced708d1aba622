import ScriptCheck.Proofs.Growth

/-!
# Where reading stands

All that reading does to its state is one of a few moves (`Move`): the current token is passed, a
fault is listed, or the level of nesting changes. In a state where the tokens that follow are laid
out in the script one after the other (`State.Fine`), reading only *moves on* (`Onward`): no token
comes back and no fault is taken back.

A part of a script that was read *passes* the nodes it has: they lie in order between the token it
starts at and the token read last (`Passes`). So nodes that are read one after another are in order
(`Passes.append`), and a node whose region goes from the first token to the one read last has its
parts in it (`Passes.node`).
-/

namespace ScriptCheck

open List

open Text

/-! ### Offsets between characters -/

/-- An offset lies in a text, between characters. -/
def Edge (source : List Char) (offset : Nat) : Prop :=
  ∃ before after, source = before ++ after ∧ bytes before = offset

theorem Span.edges_of_text? {source text : List Char} {span : Span}
    (h : span.text? source = some text) : Edge source span.lo ∧ Edge source span.hi := by
  obtain ⟨before, after, rfl, hlo, hhi⟩ := slice?_eq_some_iff.1 h
  refine ⟨⟨before, text ++ after, rfl, hlo⟩, ⟨before ++ text, after, by simp, ?_⟩⟩
  rw [bytes_append, hlo, hhi]

/-- A region that starts and ends between characters has a text. -/
theorem Span.isSome_text? {source : List Char} {span : Span} (hlo : Edge source span.lo)
    (hhi : Edge source span.hi) : (span.text? source).isSome := by
  obtain ⟨before, after, rfl, hlo⟩ := hlo
  obtain ⟨before', after', heq, hhi⟩ := hhi
  have hle := span.lo_le_hi
  rcases append_eq_append_iff.1 heq with ⟨text, rfl, rfl⟩ | ⟨text, rfl, rfl⟩
  · have htext : span.text? (before ++ (text ++ after')) = some text :=
      slice?_eq_some_iff.2 ⟨before, after', rfl, hlo, by rw [← hlo, ← bytes_append, hhi]⟩
    rw [htext]
    rfl
  · -- the end lies not before the start, so there is nothing between them
    have hbytes : bytes text = 0 := by
      rw [bytes_append] at hlo
      omega
    have htext : span.text? (before' ++ text ++ after) = some [] :=
      slice?_eq_some_iff.2 ⟨before' ++ text, after, rfl, hlo, by
        rw [bytes_append] at hlo
        simp only [bytes_nil]
        omega⟩
    rw [htext]
    rfl

/-! ### What stays while a script is read -/

/-- A script, and how many templates may stand in each other where it is read. -/
structure Sheet where
  source : List Char
  fuel : Nat

namespace Sheet

/-- How the interpolations of a template are read. -/
def template (c : Sheet) : Token → StateM Parser.State (List Expr) :=
  Parser.interpolations (bytes c.source) c.fuel

/-- What is read of the interpolations of a template. -/
def parts (c : Sheet) (t : Token) : List Expr := ((c.template t).run (.ofTokens [])).1

/-- The faults in the interpolations of a template. -/
def faults (c : Sheet) (t : Token) : List (Located SyntaxError) :=
  ((c.template t).run (.ofTokens [])).2.errors

end Sheet

/-- A token other than the end has its place in a script, and the limit on templates in each other is
not below its length. -/
structure Token.Laid (c : Sheet) (t : Token) : Prop where
  text : t.span.text? c.source = some t.text
  pos : 0 < t.span.len
  word : t.kind = .label ∨ t.kind.isKeyword → t.ident.IsWord c.source
  keyword {w : Keyword} : t.kind = .keyword w → t.text = w.lexeme.toList
  backtick : t.kind = .template → t.text.getLast? = some '`'
  notEof : t.kind ≠ .eof
  length_le : t.text.length ≤ c.fuel

theorem Token.Laid.hi_le {c : Sheet} {t : Token} (h : t.Laid c) : t.span.hi ≤ bytes c.source :=
  (le_of_slice? h.text).2

theorem Token.Laid.fuel_pos {c : Sheet} {t : Token} (h : t.Laid c) : 0 < c.fuel := by
  refine (length_pos_iff.2 fun hnil => ?_).trans_le h.length_le
  have hpos := h.pos
  simp [Token.span, hnil] at hpos

/-- Whether a fault is neither that of a single token nor about nesting. -/
def SyntaxError.isPlain : SyntaxError → Bool
  | .lexical _ => false
  | .nestingTooDeep => false
  | _ => true

theorem SyntaxError.isLexical_of_isPlain {e : SyntaxError} (h : e.isPlain) :
    e.isLexical = false := by
  cases e with
  | lexical => exact absurd h Bool.false_ne_true
  | _ => rfl

namespace Parser

variable {c : Sheet}

/-! ### States -/

/-- Where the token read last ends. -/
def State.reach (s : State) : Nat := (s.last.map fun t => t.span.hi).getD 0

/-- The tokens that follow, with the end. -/
def State.tokens (s : State) : List Token := s.rest ++ [s.eof]

theorem State.current_mem_tokens (s : State) : s.current ∈ s.tokens := by
  cases hrest : s.rest <;> simp [current, tokens, hrest]

/-- What was done about faults so far has left a fault in the list. -/
def State.Noted (s : State) : Prop := s.tooDeep ∨ s.reported ∨ s.afterFault → s.errors ≠ []

/-- The tokens that follow have their places in a script, one after the other, with one end behind
them; faults are noted, and the nesting is not too deep. -/
structure State.Fine (c : Sheet) (s : State) : Prop where
  isEof : s.eof.kind = .eof
  edge : Edge c.source s.eof.lo
  tokens : ∀ t ∈ s.rest, t.Laid c
  last : ∀ t ∈ s.last, t.Laid c
  ordered : InOrder s.reach s.eof.lo (s.rest.map Token.span)
  noted : s.Noted
  depth_le : s.depth ≤ maxNesting

namespace State.Fine

variable {s : State} (h : s.Fine c)

include h

/-- A state whose current token is not the end has a token to pass. -/
theorem exists_rest (hkind : s.kind ≠ .eof) : ∃ rest, s.rest = s.current :: rest := by
  cases hrest : s.rest with
  | nil => exact absurd (by simp [kind, current, hrest, h.isEof]) hkind
  | cons t rest => exact ⟨rest, by simp [current, hrest]⟩

theorem current_laid (hkind : s.kind ≠ .eof) : s.current.Laid c := by
  obtain ⟨rest, hrest⟩ := h.exists_rest hkind
  exact h.tokens _ (by simp [hrest])

/-- At the end no token follows. -/
theorem rest_eq_nil (hkind : s.kind = .eof) : s.rest = [] := by
  cases hrest : s.rest with
  | nil => rfl
  | cons t rest =>
    refine absurd ?_ (h.tokens t (by simp [hrest])).notEof
    simpa [kind, current, hrest] using hkind

/-- The current token starts behind the one read last. -/
theorem reach_le : s.reach ≤ s.current.lo := by
  have hordered := h.ordered
  cases hrest : s.rest with
  | nil => simpa [hrest, current, InOrder] using hordered
  | cons t rest =>
    rw [hrest] at hordered
    simpa [current, hrest] using hordered.1

theorem edge_current : Edge c.source s.current.lo := by
  cases hrest : s.rest with
  | nil => simpa [current, hrest] using h.edge
  | cons t rest =>
    have ht := h.tokens t (by simp [hrest])
    simpa [current, hrest] using (Span.edges_of_text? ht.text).1

/-- If some token is read, the one read last ends between characters. -/
theorem edge_reach (hpos : 0 < s.reach) : Edge c.source s.reach := by
  unfold reach at hpos ⊢
  cases hlast : s.last with
  | none => simp [hlast] at hpos
  | some t => exact (Span.edges_of_text? (h.last t hlast).text).2

end State.Fine

theorem State.hi_lastSpan {s : State} (hpos : 0 < s.reach) : s.lastSpan.hi = s.reach := by
  unfold reach at hpos
  unfold lastSpan reach
  cases hlast : s.last with
  | none => simp [hlast] at hpos
  | some t => rfl

/-! ### Moves -/

/-- What reading does to its state. -/
inductive Move (c : Sheet) : State → State → Prop
  /-- A token is passed, a malformed one only after its fault is listed. -/
  | pass {s : State} (h : s.kind.isError → s.reported) : Move c s s.advance
  /-- A template is passed, and the faults in it are listed. -/
  | template {s : State} (hkind : s.kind = .template) :
    Move c s { s.advance with errors := s.errors ++ c.faults s.current }
  /-- The fault of the current token is listed, if it has one that is not listed yet. -/
  | lexical (s : State) : Move c s s.reportLexical
  /-- Some other fault is listed. If it names the kind of a token, it does so at that token. -/
  | fault (s : State) (span : Span) {e : SyntaxError} (he : e.isPlain)
    (hfound : ∀ kind ∈ e.found?, kind = s.kind ∧ span = s.current.span) : Move c s (s.report span e)
  /-- It is listed that a part is nested too deep, unless that is listed already. -/
  | depth (s : State) : Move c s s.reportDepth
  /-- Reading goes to another level of nesting. -/
  | level {s : State} {depth : Nat} (h : depth ≤ maxNesting) : Move c s { s with depth }

namespace Move

variable {s t : State}

/-- A move leaves the tokens as they are, or passes the current one. -/
theorem cursor (h : Move c s t) : t.eof = s.eof ∧
    (t.rest = s.rest ∧ t.last = s.last ∨ s.rest = s.current :: t.rest ∧ t.last = some s.current) := by
  cases h with
  | pass | template =>
    rcases s.advance_cases with ⟨-, heq⟩ | ⟨rest, hrest, heq⟩
    · exact ⟨by rw [heq], .inl ⟨by rw [heq], by rw [heq]⟩⟩
    · exact ⟨by rw [heq], .inr ⟨by rw [heq, ← hrest], by rw [heq]⟩⟩
  | lexical =>
    rcases s.reportLexical_cases with ⟨heq, -⟩ | ⟨e, -, -, heq⟩ <;> rw [heq] <;>
      exact ⟨rfl, .inl ⟨rfl, rfl⟩⟩
  | depth =>
    rcases s.reportDepth_cases with ⟨heq, -⟩ | ⟨-, heq⟩ <;> rw [heq] <;>
      exact ⟨rfl, .inl ⟨rfl, rfl⟩⟩
  | fault | level => exact ⟨rfl, .inl ⟨rfl, rfl⟩⟩

/-- A move keeps the faults found before it. -/
theorem listed (h : Move c s t) : s.errors <+: t.errors := by
  cases h with
  | pass => rcases s.advance_cases with ⟨-, heq⟩ | ⟨rest, -, heq⟩ <;> simp [heq]
  | lexical => rcases s.reportLexical_cases with ⟨heq, -⟩ | ⟨e, -, -, heq⟩ <;> simp [heq]
  | depth => rcases s.reportDepth_cases with ⟨heq, -⟩ | ⟨-, heq⟩ <;> simp [heq]
  | template | fault => exact prefix_append _ _
  | level => exact prefix_rfl

theorem noted (h : Move c s t) (hs : s.Noted) : t.Noted := by
  -- the token passed last is malformed only if its fault was listed before
  have hpass (herr : s.kind.isError → s.reported) : s.advance.Noted := by
    rcases s.advance_cases with ⟨-, heq⟩ | ⟨rest, hrest, heq⟩
    · rwa [heq]
    · rw [heq]
      rintro (hdeep | hrep | hfault)
      · exact hs (.inl hdeep)
      · exact absurd hrep Bool.false_ne_true
      · exact hs (.inr (.inl (herr hfault)))
  cases h with
  | pass herr => exact hpass herr
  | template hkind =>
    intro hflag hnil
    refine hpass (fun herr => absurd herr (by simp [hkind, TokenKind.isError])) hflag ?_
    rcases s.advance_cases with ⟨-, heq⟩ | ⟨rest, hrest, heq⟩ <;> rw [heq] <;>
      exact (append_eq_nil_iff.1 hnil).1
  | lexical =>
    rcases s.reportLexical_cases with ⟨heq, -⟩ | ⟨e, -, -, heq⟩ <;> rw [heq]
    · exact hs
    · exact fun _ => by simp
  | fault => exact fun _ => by simp [State.report]
  | depth =>
    rcases s.reportDepth_cases with ⟨heq, -⟩ | ⟨-, heq⟩ <;> rw [heq]
    · exact hs
    · exact fun _ => by simp
  | level => exact hs

theorem depth_le (h : Move c s t) (hs : s.depth ≤ maxNesting) : t.depth ≤ maxNesting := by
  cases h with
  | pass | template => rcases s.advance_cases with ⟨-, heq⟩ | ⟨rest, -, heq⟩ <;> simpa [heq]
  | lexical => rcases s.reportLexical_cases with ⟨heq, -⟩ | ⟨e, -, -, heq⟩ <;> simpa [heq]
  | depth => rcases s.reportDepth_cases with ⟨heq, -⟩ | ⟨-, heq⟩ <;> simpa [heq]
  | fault => exact hs
  | level h => exact h

/-- A move leads to a state in which the tokens are laid out too, not before the one it starts
from. -/
theorem fine (h : Move c s t) (hs : s.Fine c) :
    t.Fine c ∧ s.reach ≤ t.reach ∧ s.current.lo ≤ t.current.lo := by
  obtain ⟨heof, ⟨hrest, hlast⟩ | ⟨hrest, hlast⟩⟩ := h.cursor
  · have hreach : t.reach = s.reach := by rw [State.reach, State.reach, hlast]
    have hcurrent : t.current = s.current := by rw [State.current, State.current, hrest, heof]
    refine ⟨⟨heof ▸ hs.isEof, heof ▸ hs.edge, hrest ▸ hs.tokens, hlast ▸ hs.last, ?_,
      h.noted hs.noted, h.depth_le hs.depth_le⟩, Nat.le_of_eq hreach.symm,
      Nat.le_of_eq (congrArg Token.lo hcurrent.symm)⟩
    rw [hreach, hrest, heof]
    exact hs.ordered
  · have hreach : t.reach = s.current.span.hi := by
      rw [State.reach, hlast]
      rfl
    obtain ⟨hlo, hlt, hmore⟩ : InOrder s.reach s.eof.lo ((s.current :: t.rest).map Token.span) :=
      hrest ▸ hs.ordered
    obtain ⟨hcurrent, htokens⟩ := forall_mem_cons.1 (hrest ▸ hs.tokens)
    have hfine : t.Fine c := by
      refine ⟨heof ▸ hs.isEof, heof ▸ hs.edge, htokens, ?_, ?_, h.noted hs.noted,
        h.depth_le hs.depth_le⟩
      · rw [hlast]
        rintro u ⟨⟩
        exact hcurrent
      · rw [hreach, heof]
        exact hmore
    have hle := hfine.reach_le
    simp only [Token.lo_span] at hlo hlt
    exact ⟨hfine, by omega, by omega⟩

end Move

/-- A state comes after another one, in which the tokens are laid out, by some moves. -/
structure Onward (c : Sheet) (s t : State) : Prop where
  start : s.Fine c
  moves : Relation.ReflTransGen (Move c) s t

namespace Onward

variable {s t u : State}

theorem refl (h : s.Fine c) : Onward c s s := ⟨h, .refl⟩

variable (h : Onward c s t)
include h

theorem trans (h' : Onward c t u) : Onward c s u :=
  ⟨h.start, h.moves.trans h'.moves⟩

/-- What every move keeps is kept. -/
theorem keeps {P : State → Prop}
    (hmove : ∀ {u v}, u.Fine c → Move c u v → P u → P v) (hs : P s) : P t := by
  obtain ⟨hfine, hmoves⟩ := h
  suffices t.Fine c ∧ P t from this.2
  induction hmoves with
  | refl => exact ⟨hfine, hs⟩
  | tail _ hlast ih => exact ⟨(hlast.fine ih.1).1, hmove ih.1 hlast ih.2⟩

theorem fine : t.Fine c := h.keeps (fun hu hm _ => (hm.fine hu).1) h.start

theorem eof_eq : t.eof = s.eof :=
  h.keeps (P := fun u => u.eof = s.eof) (fun _ hm hu => hm.cursor.1.trans hu) rfl

theorem reach_le : s.reach ≤ t.reach :=
  h.keeps (P := fun u => s.reach ≤ u.reach)
    (fun hu hm hle => hle.trans (hm.fine hu).2.1) le_rfl

theorem lo_le : s.current.lo ≤ t.current.lo :=
  h.keeps (P := fun u => s.current.lo ≤ u.current.lo)
    (fun hu hm hle => hle.trans (hm.fine hu).2.2) le_rfl

/-- No token comes back. -/
theorem suffix : t.rest <:+ s.rest := by
  refine h.keeps (P := fun u => u.rest <:+ s.rest) (fun _ hm hu => IsSuffix.trans ?_ hu) suffix_rfl
  obtain ⟨-, ⟨hrest, -⟩ | ⟨hrest, -⟩⟩ := hm.cursor
  · exact hrest ▸ suffix_rfl
  · exact hrest ▸ suffix_cons _ _

theorem length_le : t.rest.length ≤ s.rest.length := h.suffix.length_le

/-- As long as no token is passed, the token read last is the same. -/
theorem last_eq (hlen : s.rest.length ≤ t.rest.length) : t.last = s.last := by
  refine (h.keeps (P := fun u => u.rest.length ≤ s.rest.length ∧
    (s.rest.length ≤ u.rest.length → u.last = s.last)) (fun _ hm hu => ?_)
    ⟨le_rfl, fun _ => rfl⟩).2 hlen
  obtain ⟨-, ⟨hrest, hlast⟩ | ⟨hrest, -⟩⟩ := hm.cursor
  · rwa [hrest, hlast]
  · have hlen := congrArg List.length hrest
    simp only [length_cons] at hlen
    exact ⟨by omega, fun hle => absurd hu.1 (by omega)⟩

/-- If the token read last ends behind the start of the first one, some token was passed. -/
theorem length_lt (hlt : s.current.lo < t.reach) : t.rest.length < s.rest.length := by
  by_contra hle
  have hreach : t.reach = s.reach := by rw [State.reach, State.reach, h.last_eq (by omega)]
  have := h.start.reach_le
  omega

/-- No fault is taken back. -/
theorem listed : s.errors <+: t.errors :=
  h.keeps (P := fun u => s.errors <+: u.errors) (fun _ hm hu => hu.trans hm.listed) prefix_rfl

/-- Without a fault there was none before. -/
theorem clean (ht : t.errors = []) : s.errors = [] :=
  prefix_nil.1 (ht ▸ h.listed)

end Onward

/-! ### Ways to move on -/

namespace State.Fine

variable {s : State} (h : s.Fine c) {e : SyntaxError}

include h

theorem move {t : State} (hm : Move c s t) : Onward c s t := ⟨h, .single hm⟩

theorem level {depth : Nat} (hle : depth ≤ maxNesting) : Onward c s { s with depth } :=
  h.move (.level hle)

theorem report (span : Span) (he : e.isPlain) (hfound : e.found? = none) :
    Onward c s (s.report span e) :=
  h.move (.fault s span he (by simp [hfound]))

/-- A fault that names the current token is listed at it. -/
theorem reportFound (he : e.isPlain) (hfound : e.found? = some s.kind) :
    Onward c s (s.report s.current.span e) :=
  h.move (.fault s _ he (by simp [hfound]))

theorem reportLexical : Onward c s s.reportLexical := h.move (.lexical s)

/-- A well-formed token can be passed. -/
theorem advance (herr : s.kind.isError = false) : Onward c s s.advance :=
  h.move (.pass fun hkind => absurd hkind (by simp [herr]))

theorem advance_of_atMark {p : Punct} (hmark : s.atMark p = true) : Onward c s s.advance := by
  have hkind : s.kind = .punct p := by simpa [atMark] using hmark
  exact h.advance (by simp [hkind, TokenKind.isError])

theorem reportCurrent (he : e.isPlain) (hfound : e.found? = some s.kind) :
    Onward c s (s.reportCurrent e) := by
  unfold State.reportCurrent
  split
  · exact h.reportLexical
  · exact h.reportFound he hfound

theorem unexpected (kinds : List TokenKind) : Onward c s (s.unexpected kinds) :=
  h.reportCurrent rfl rfl

theorem skip : Onward c s s.skip :=
  h.reportLexical.trans (h.reportLexical.fine.move
    (.pass fun herr => s.reported_reportLexical (by simpa using herr)))

omit h in
theorem skipUpTo (stop : State → Bool) (n : Nat) (h : s.Fine c) :
    Onward c s (State.skipUpTo stop n s) := by
  induction n generalizing s with
  | zero => exact .refl h
  | succ n ih =>
    rw [State.skipUpTo]
    split
    · exact .refl h
    · exact h.skip.trans (ih h.skip.fine)

theorem skipUntil (stop : State → Bool) : Onward c s (s.skipUntil stop) := skipUpTo stop _ h

theorem passSemicolon : Onward c s s.passSemicolon := by
  unfold State.passSemicolon
  split
  · next hmark => exact h.advance_of_atMark hmark
  · exact .refl h

theorem terminate : Onward c s s.terminate := by
  unfold State.terminate
  split
  · next hmark => exact h.advance_of_atMark hmark
  · split
    · exact .refl h
    · have hlist := h.unexpected [.punct .semicolon]
      dsimp only
      split
      · exact hlist
      · have hskip := hlist.trans (hlist.fine.skipUntil atBoundary)
        exact hskip.trans hskip.fine.passSemicolon

theorem recover (ends : List TokenKind) (stuck : Bool) : Onward c s (s.recover ends stuck) := by
  have hfirst : Onward c s (if stuck then s.skip else s) := by
    split
    · exact h.skip
    · exact .refl h
  have hskip := hfirst.trans (hfirst.fine.skipUntil (resumes ends))
  unfold State.recover
  generalize (if stuck then s.skip else s).skipUntil (resumes ends) = t at hskip ⊢
  dsimp only
  split
  · exact hskip
  · exact hskip.trans hskip.fine.passSemicolon

theorem passComma? (close : TokenKind) : Onward c s (s.passComma? close).2 := by
  have hskip := h.skipUntil fun s => s.breaksList close || s.atMark .comma
  unfold State.passComma?
  dsimp only
  split
  · exact hskip
  · exact hskip.trans hskip.fine.skip

/-! ### Faults that are listed -/

/-- A fault about the current token is in the list afterwards, even if it is listed already. -/
theorem reportCurrent_listed (e : SyntaxError) : (s.reportCurrent e).errors ≠ [] := by
  unfold State.reportCurrent
  split
  · next herr => exact h.reportLexical.fine.noted (.inr (.inl (s.reported_reportLexical herr)))
  · simp [State.report]

theorem unexpected_listed (kinds : List TokenKind) : (s.unexpected kinds).errors ≠ [] :=
  h.reportCurrent_listed _

theorem reportDepth_listed : s.reportDepth.errors ≠ [] := by
  rcases s.reportDepth_cases with ⟨heq, hdeep⟩ | ⟨-, heq⟩
  · rw [heq]
    exact h.noted (.inl hdeep)
  · simp [heq]

/-- A malformed token that is skipped has its fault listed. -/
theorem skip_listed (herr : s.kind.isError) : s.skip.errors ≠ [] := by
  have hlisted := h.reportLexical.fine.noted (.inr (.inl (s.reported_reportLexical herr)))
  exact mt (h.reportLexical.fine.move (.pass fun _ => s.reported_reportLexical herr)).clean hlisted

/-- A statement that ends without a fault ends with a semicolon, which is passed, or before a token
that closes its block. -/
theorem terminate_clean (hclean : s.terminate.errors = []) :
    (s.kind = .punct .semicolon ∧ s.terminate = s.advance) ∨
      (s.kind.closesBlock ∧ s.terminate = s) := by
  unfold State.terminate at hclean ⊢
  split
  · next hmark => exact .inl ⟨by simpa [atMark] using hmark, rfl⟩
  · next hmark =>
    rw [if_neg hmark] at hclean
    split
    · next hclose =>
      rw [if_pos hclose] at hclean
      refine .inr ⟨?_, rfl⟩
      rcases Bool.or_eq_true_iff.1 hclose with hclose | hfault
      · exact hclose
      · exact absurd hclean (h.noted (.inr (.inr hfault)))
    · next hclose =>
      -- in the other cases it was listed that a semicolon is missing
      rw [if_neg hclose] at hclean
      dsimp only at hclean
      refine absurd ?_ (h.unexpected_listed [.punct .semicolon])
      split at hclean
      · exact hclean
      · have hskip := (h.unexpected [.punct .semicolon]).fine.skipUntil atBoundary
        exact (hskip.trans hskip.fine.passSemicolon).clean hclean

end State.Fine

/-! ### Nodes that are passed -/

/-- Between two states some nodes are passed, in order, which have grown from the tokens there with
`k` levels. -/
structure Passes (c : Sheet) (k : Nat) (s t : State) (ns : List Node) : Prop where
  onward : Onward c s t
  inOrder : InOrder s.current.lo t.current.lo (ns.map Node.span)
  hi_le : ∀ n ∈ ns, n.span.hi ≤ t.reach
  laid : ∀ n ∈ ns, n.All (Node.Laid c.source)
  grown : ∀ n ∈ ns, n.Grown c.source s.rest k

namespace Passes

variable {k l : Nat} {s t u : State} {n : Node} {ns ms : List Node}

theorem nil (h : Onward c s t) : Passes c k s t [] :=
  ⟨h, h.lo_le, by simp, by simp, by simp⟩

theorem append (h : Passes c k s t ns) (h' : Passes c k t u ms) :
    Passes c k s u (ns ++ ms) where
  onward := h.onward.trans h'.onward
  inOrder := by
    rw [map_append]
    exact h.inOrder.append h'.inOrder
  hi_le m hm := by
    rcases mem_append.1 hm with hm | hm
    · exact (h.hi_le m hm).trans h'.onward.reach_le
    · exact h'.hi_le m hm
  laid m hm := (mem_append.1 hm).elim (h.laid m) (h'.laid m)
  grown m hm := (mem_append.1 hm).elim (h.grown m) fun hm =>
    (h'.grown m hm).mono h.onward.suffix.subset le_rfl

/-- Nodes and then no more. -/
theorem onto (h : Passes c k s t ns) (h' : Onward c t u) : Passes c k s u ns := by
  simpa using h.append (.nil h')

/-- No node and then some. -/
theorem after (h : Passes c k t u ns) (h' : Onward c s t) : Passes c k s u ns :=
  (Passes.nil h').append h

theorem cons (h : Passes c k s t [n]) (h' : Passes c k t u ns) : Passes c k s u (n :: ns) :=
  h.append h'

/-- More levels may be there. -/
theorem mono (h : Passes c k s t ns) (hkl : k ≤ l) : Passes c l s t ns :=
  ⟨h.onward, h.inOrder, h.hi_le, h.laid, fun n hn => (h.grown n hn).mono (List.Subset.refl _) hkl⟩

theorem lt_reach (h : Passes c k s t (n :: ns)) : s.current.lo < t.reach := by
  obtain ⟨hlo, hlt, -⟩ := h.inOrder
  exact hlo.trans_lt (hlt.trans_le (h.hi_le n (by simp)))

/-- Over a node at least one token is passed. -/
theorem length_lt (h : Passes c k s t (n :: ns)) : t.rest.length < s.rest.length :=
  h.onward.length_lt h.lt_reach

theorem le_lo (h : Passes c k s t (n :: ns)) : s.current.lo ≤ n.span.lo := h.inOrder.1

/-- A node that ends with the token read last and has the passed nodes as its parts. -/
theorem nodeFrom (h : Passes c k s t ns) {start : Span} (hlo : s.current.lo ≤ start.lo)
    (hedge : Edge c.source start.lo) (hparts : InOrder start.lo t.current.lo (ns.map Node.span))
    (hlt : start.lo < t.reach) (hspan : n.span = start.through t.lastSpan)
    (heq : n.parts = ns) (hcomposite : n.isComposite) (hhead : n.Proper (bytes c.source))
    (hmade : n.Made c.source s.rest k l) : Passes c l s t [n] := by
  have hpos : 0 < t.reach := Nat.zero_lt_of_lt hlt
  have hhi : n.span.hi = t.reach := by
    rw [hspan, Span.hi_through, State.hi_lastSpan hpos]
    omega
  have hstart : n.span.lo = start.lo := by
    rw [hspan]
    rfl
  refine ⟨h.onward, ⟨?_, ?_, ?_⟩, by simp [hhi], forall_mem_singleton.2 ?_,
    forall_mem_singleton.2 (.node (heq ▸ h.grown) hmade)⟩
  · rw [hstart]
    exact hlo
  · rw [hstart, hhi]
    exact hlt
  · rw [hhi]
    exact h.onward.fine.reach_le
  · refine Node.all_iff.2 ⟨⟨?_, ?_, ?_, hhead⟩, heq ▸ h.laid⟩
    · refine Span.isSome_text? (hstart ▸ hedge) ?_
      rw [hhi]
      exact h.onward.fine.edge_reach hpos
    · rw [Node.standing_eq_parts hcomposite, heq, hstart, hhi]
      refine hparts.upTo hlt.le fun span hmem => ?_
      obtain ⟨c, hc, rfl⟩ := mem_map.1 hmem
      exact h.hi_le c hc
    · rintro x rfl
      exact absurd hcomposite Bool.false_ne_true

/-- A node from the first token to the one read last. -/
theorem node (h : Passes c k s t ns) (hlt : s.current.lo < t.reach)
    {start : Span} (hstart : start = s.current.span) (hspan : n.span = start.through t.lastSpan)
    (heq : n.parts = ns) (hcomposite : n.isComposite) (hhead : n.Proper (bytes c.source))
    (hmade : n.Made c.source s.rest k l) : Passes c l s t [n] := by
  subst hstart
  exact h.nodeFrom le_rfl h.onward.start.edge_current h.inOrder hlt hspan heq hcomposite
    hhead hmade

/-- A node that starts with the first of its parts. -/
theorem nodeOnto {m : Node} (h : Passes c k s t (m :: ns))
    (hspan : n.span = m.span.through t.lastSpan) (heq : n.parts = m :: ns)
    (hcomposite : n.isComposite) (hhead : n.Proper (bytes c.source))
    (hmade : n.Made c.source s.rest k l) : Passes c l s t [n] := by
  obtain ⟨hlo, hlt, hrest⟩ := h.inOrder
  obtain ⟨text, htext⟩ := Option.isSome_iff_exists.1 (h.laid m (by simp)).self.text
  refine h.nodeFrom hlo (Span.edges_of_text? htext).1 ⟨le_rfl, hlt, hrest⟩ ?_ hspan heq
    hcomposite hhead hmade
  exact hlt.trans_le (h.hi_le m (by simp))

/-- A node around a single one, with its region. -/
theorem around {m : Node} (h : Passes c k s t [m]) (hspan : n.span = m.span)
    (heq : n.parts = [m]) (hcomposite : n.isComposite) (hhead : n.Proper (bytes c.source))
    (hmade : n.Made c.source s.rest k l) : Passes c l s t [n] := by
  have hm := h.laid m (by simp)
  obtain ⟨hlo, hlt, hhi⟩ := h.inOrder
  refine ⟨h.onward, ?_, ?_, forall_mem_singleton.2 (Node.all_iff.2 ⟨⟨?_, ?_, ?_, hhead⟩, ?_⟩),
    forall_mem_singleton.2 (.node (heq ▸ h.grown) hmade)⟩
  · rw [map_singleton, hspan]
    exact h.inOrder
  · rw [forall_mem_singleton, hspan]
    exact h.hi_le m (by simp)
  · rw [hspan]
    exact hm.self.text
  · rw [Node.standing_eq_parts hcomposite, heq, hspan]
    exact ⟨le_rfl, hlt, le_rfl⟩
  · rintro x rfl
    exact absurd hcomposite Bool.false_ne_true
  · rw [heq]
    exact h.laid

end Passes

/-! ### Tokens that are passed -/

/-- A token was passed. -/
structure Took (c : Sheet) (s : State) (tok : Token) (t : State) : Prop where
  eq : tok = s.current
  rest : s.rest = tok :: t.rest
  onward : Onward c s t
  reach : t.reach = tok.span.hi

/-- A keyword was passed. -/
structure TookWord (c : Sheet) (w : Keyword) (s : State) (tok : Token) (t : State) : Prop
    extends Took c s tok t where
  kind : tok.kind = .keyword w

namespace Took

variable {k l : Nat} {s t u : State} {tok : Token} {n : Node} {ns : List Node}

variable (h : Took c s tok t)

include h

theorem passes : Passes c k s t [] := .nil h.onward

theorem mem : tok ∈ s.rest := h.rest ▸ mem_cons_self

theorem laid : tok.Laid c := h.onward.start.tokens tok h.mem

/-- After the token was passed, reading is behind its start. -/
theorem lt_reach (htu : Onward c t u) : s.current.lo < u.reach := by
  have hpos := h.laid.pos
  have hreach := h.reach
  have hle := htu.reach_le
  rw [h.eq] at hpos hreach
  simp only [Token.hi_span] at hreach
  simp only [Token.span] at hpos
  omega

theorem length_lt : t.rest.length < s.rest.length := by
  rw [h.rest]
  exact Nat.lt_succ_self _

/-- What is read after a token lies behind it. -/
theorem hi_le : tok.span.hi ≤ t.current.lo := h.reach ▸ h.onward.fine.reach_le

theorem lo_lt : tok.span.lo < t.current.lo := by
  have hpos := h.laid.pos
  have hle := h.hi_le
  simp only [Span.hi] at hle
  omega

/-- A token that is a node by itself. -/
theorem node (hspan : n.span = tok.span)
    (hstanding : InOrder tok.span.lo tok.span.hi ((n.standing (bytes c.source)).map Node.span))
    (hparts : ∀ m ∈ n.parts, m.All (Node.Laid c.source))
    (hword : ∀ x, n = .name x → x.IsWord c.source) (hhead : n.Proper (bytes c.source))
    (hgrown : n.Grown c.source s.rest k) : Passes c k s t [n] := by
  have hpos := h.laid.pos
  refine ⟨h.onward, ⟨?_, ?_, ?_⟩, forall_mem_singleton.2 ?_,
    forall_mem_singleton.2 (Node.all_iff.2 ⟨⟨?_, ?_, hword, hhead⟩, hparts⟩),
    forall_mem_singleton.2 hgrown⟩ <;> rw [hspan]
  · exact Nat.le_of_eq (congrArg Token.lo h.eq.symm)
  · rw [Span.hi]
    omega
  · exact h.hi_le
  · exact Nat.le_of_eq h.reach.symm
  · exact Option.isSome_iff_exists.2 ⟨_, h.laid.text⟩
  · exact hstanding

/-- A word that was passed is a name. -/
theorem name (hkind : tok.kind = .label ∨ tok.kind.isKeyword) :
    Passes c k s t [.name tok.ident] := by
  refine h.node rfl tok.span.lo_le_hi (by simp [Node.parts]) ?_ trivial
    (Node.grown_leaf rfl (Node.made_plain rfl))
  rintro x ⟨⟩
  exact h.laid.word hkind

/-- A token that is a node without parts. -/
theorem leaf (hspan : n.span = tok.span) (hparts : n.parts = [])
    (hcomposite : n.isComposite) (hhead : n.Proper (bytes c.source))
    (hmade : n.Made c.source s.rest k k) : Passes c k s t [n] := by
  refine h.node hspan ?_ (by simp [hparts]) ?_ hhead (Node.grown_leaf hparts hmade)
  · rw [Node.standing_eq_parts hcomposite, hparts]
    exact tok.span.lo_le_hi
  · rintro x rfl
    exact absurd hcomposite Bool.false_ne_true

/-- A node that starts with the token. -/
theorem opens (hparts : Passes c k t u ns)
    (hspan : n.span = tok.span.through u.lastSpan) (heq : n.parts = ns) (hcomposite : n.isComposite)
    (hhead : n.Proper (bytes c.source)) (hmade : n.Made c.source s.rest k l) : Passes c l s u [n] :=
  (hparts.after h.onward).node (h.lt_reach hparts.onward) (congrArg Token.span h.eq) hspan heq
    hcomposite hhead hmade

end Took

namespace TookWord

variable {k : Nat} {s t : State} {tok : Token} {n : Node} {w : Keyword}

theorem occursIn (h : TookWord c w s tok t) : w.OccursIn s.rest := ⟨tok, h.mem, h.kind⟩

/-- The keyword makes a node that takes no level. -/
theorem made (h : TookWord c w s tok t) (hmem : w ∈ n.words) (hnests : n.nests = false) :
    n.Made c.source s.rest k k :=
  Node.made_word h.occursIn hmem hnests

/-- The keyword makes a node that takes a level. -/
theorem madeOver (h : TookWord c w s tok t) (hmem : w ∈ n.words) :
    n.Made c.source s.rest k (k + 1) :=
  Node.made_over h.occursIn hmem

end TookWord

section

variable {s : State} (hs : s.Fine c)

include hs

/-- A move that passes the current token. -/
theorem took_of_move {t : State} (hkind : s.kind ≠ .eof) (hmove : Move c s t)
    (hrest : t.rest = s.advance.rest) (hlast : t.last = s.advance.last) :
    Took c s s.current t := by
  obtain ⟨rest, heq⟩ := hs.exists_rest hkind
  have hadvance : s.advance = { s with rest, last := some s.current, reported := false } := by
    unfold State.advance
    rw [heq]
  refine ⟨rfl, by rw [hrest, hadvance, heq], hs.move hmove, ?_⟩
  rw [State.reach, hlast, hadvance]
  rfl

/-- A well-formed token other than the end can be passed. -/
theorem took_advance (hkind : s.kind ≠ .eof) (herr : s.kind.isError = false) :
    Took c s s.current s.advance :=
  took_of_move hs hkind (.pass fun hbad => absurd hbad (by simp [herr])) rfl rfl

/-- A template is passed with its interpolations. -/
theorem took_template (hkind : s.kind = .template) : Took c s s.current
    { s.advance with errors := s.errors ++ c.faults s.current } :=
  took_of_move hs (by simp [hkind]) (.template hkind) rfl rfl

/-- A token that is skipped is passed. -/
theorem took_skip (hkind : s.kind ≠ .eof) : Took c s s.current s.skip := by
  have hcurrent : s.reportLexical.current = s.current := by
    unfold State.current
    rw [s.rest_reportLexical, s.eof_reportLexical]
  obtain ⟨-, hrest, honward, hreach⟩ := took_of_move hs.reportLexical.fine
    (s.kind_reportLexical ▸ hkind) (.pass fun h => s.reported_reportLexical (by simpa using h))
    rfl rfl
  rw [hcurrent] at hrest hreach
  exact ⟨rfl, s.rest_reportLexical ▸ hrest, hs.reportLexical.trans honward, hreach⟩

end

end Parser

end ScriptCheck
