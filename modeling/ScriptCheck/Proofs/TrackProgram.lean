import ScriptCheck.Proofs.TrackStatement

/-!
# Programs in parallel

One more level reads in parallel, where the level below does. A template is read by its
interpolations: those that do not hold the place of the semicolon are the same in both readings, and
the one that holds it is read in parallel from its own tokens. So a script without the semicolon has
the faults of the omission and the same program up to regions, unless the semicolon is needed
(`needed_or_parse`).
-/

namespace ScriptCheck

open List

open Text

/-! ### Levels -/

/-- Templates are read in parallel, at any level that reads their interpolations. -/
def Parser.Setting.MirrorsTemplates (c : Setting) : Prop :=
  ∀ L : Level, L.template = c.sheet.template → ∀ {P : Prop} {s : State} (s' : State),
    s.kind = .template → TracksExpr c s s' P False (templateOperand L) (templateOperand L)

/-- One part after another, where the first one takes over what was needed before and its values are
related. -/
theorem Parser.Tracks.upon {α β : Type} {c : Setting} {s s' : State} {P K : Prop} {p p' : Parser α}
    {f f' : α → Parser β} {B : α → State → Prop} {T : β → β → State → State → Prop}
    {C : β → State → Prop} {A : α → α → Prop} (hA : ∀ a, A a a)
    (hp : Tracks c s s' P K p p' (fun a a' _ _ => A a a') B)
    (hf : ∀ a a' t t', A a a' → Tracks c t t' P (B a t) (f a) (f' a') T C) :
    Tracks c s s' P K (p >>= f) (p' >>= f') T C := by
  refine hp.onto fun a a' t t' => ?_
  obtain ⟨hruns, hkeeps, -⟩ := hf a a t t' (hA a)
  exact ⟨hruns, hkeeps, fun ⟨hP, haa'⟩ => (hf a a' t t' haa').follows hP⟩

namespace Level

variable {c : Parser.Setting} {k : Nat}

theorem mirrors_bottom (hc : c.MirrorsTemplates) : (bottom c.sheet.template).Mirrors c 0 where
  sound := sound_bottom (Parser.sound_sheet _ _)
  sound' := c.template_eq ▸ sound_bottom (Parser.sound_sheet c.source' c.fuel)
  stmt _ _ _ := Parser.tracks_tooDeep
  stmt_atGap _ _ _ hexec := by cases hexec
  expr _ _ _ _ := Parser.tracks_tooDeep
  expr_atGap _ _ _ _ := rfl
  operators power _ _ hlhs _ _ _ :=
    Parser.tracks_withOperator power hlhs fun _ _ _ => Parser.tracks_tooDeep
  template s' hkind := hc _ rfl s' hkind

/-- One more level reads in parallel. -/
theorem Mirrors.above {below : Level} (hbelow : below.Mirrors c k) (hc : c.MirrorsTemplates) :
    below.above.Mirrors c (k + 1) where
  sound := hbelow.sound.above
  sound' := hbelow.sound'.above
  stmt := Parser.mirrors_nested (Parser.mirrors_statement hbelow)
  stmt_atGap {s s'} hgap a t hexec := by
    obtain ⟨u, hexec⟩ := Parser.exec_of_nested hexec
    exact Parser.needed_of_exec_statement (hgap.level _) a u hexec
  expr power := by
    refine Parser.mirrors_nested fun P s s' => ?_
    refine .bind (Parser.mirrors_operand hbelow) fun lhs lhs' t t' hlhs => ?_
    exact (hbelow.operators power hlhs t t').weaken id fun h => h.resolve_left id
  expr_atGap power s s' hgap := by
    by_contra hne
    obtain ⟨e, he⟩ := Option.ne_none_iff_exists'.1 hne
    obtain ⟨u, hexec⟩ := Parser.exec_of_nested (Prod.ext he rfl)
    exact absurd (Parser.exec_bind_of_none (Parser.exec_operand_atGap (hgap.level _)))
      (by rw [hexec]; simp)
  operators power lhs lhs' hlhs P s s' := by
    refine Parser.tracks_withOperator power hlhs fun op t t' => ?_
    refine .pass Parser.tracks_descend fun _ _ u u' => ?_
    exact .upon (A := fun e e' => e'.stripped = e.stripped) (fun _ => rfl)
      (Parser.tracks_applied hbelow op hlhs) fun e e' v v' he => hbelow.operators power he v v'
  template s' hkind := hc _ hbelow.sound.template s' hkind

theorem mirrors_withLeft (hc : c.MirrorsTemplates) (n : Nat) :
    (withLeft c.sheet.template n).Mirrors c n := by
  induction n with
  | zero => exact mirrors_bottom hc
  | succ n ih => exact ih.above hc

end Level

namespace Parser

variable {c : Setting} {k : Nat} {L : Level} {s s' : State}

/-! ### Interpolations -/

/-- An expression up to the end is read in parallel. -/
theorem Parallel.wholeExpr (h : Parallel c s s') (hL : L.Mirrors c k) (textEnd : Nat)
    (hclean : ((wholeExpr L textEnd).run s).2.errors = []) :
    c.Needed [.expr ((wholeExpr L textEnd).run s).1] ∨
      ((wholeExpr L textEnd).run s').1.stripped = ((wholeExpr L textEnd).run s).1.stripped ∧
        ((wholeExpr L textEnd).run s').2.errors = c.faults := by
  have hrun (u : State) : (Parser.wholeExpr L textEnd).run u =
      ((exec (L.expr 0) u).1.getD (.invalid ⟨textEnd, 0⟩),
        (exec (expect .eof) (exec (L.expr 0) u).2).2) := rfl
  rw [hrun] at hclean
  rw [hrun, hrun]
  obtain ⟨t, heq, hst, hlisted⟩ | ⟨e, t, heq, hst, -⟩ := (hL.sound.expr 0 s).outcome h.fine
  · rw [heq] at hclean
    exact absurd ((exec_expect_eof hst.fine).1.clean hclean) hlisted
  · rw [heq] at hclean ⊢
    obtain ⟨htu, hnil⟩ := exec_expect_eof hst.fine
    refine ((hL.expr 0 s s').follows trivial h e t heq (htu.clean hclean)).imp id ?_
    rintro ⟨e', t', heq', ht, hstripped⟩
    rw [heq']
    have hnil' : t'.rest = [] := ht.follow.eq_nil (hnil hclean)
    have hkind' : t'.kind = .eof := by
      simp [State.kind, State.current, hnil', ht.fine'.isEof]
    refine ⟨hstripped, ?_⟩
    rw [exec_expect_of_eq hkind']
    have hadvance : t'.advance = t' := by simp [State.advance, hnil']
    rcases ht.place with ⟨homits, -⟩ | ⟨-, hfault⟩
    · exact absurd (hnil hclean) homits.ne_nil
    · exact (congrArg State.errors hadvance).trans hfault

/-- An interpolation that holds the place is read in parallel. -/
theorem needed_or_alone {e e' : Excerpt} {inner inner' : List Token} {eof eof' : Token}
    (hL : L.Mirrors c k) (he : e.Closed c.source) (he' : e'.Closed c.source')
    (hlen : e.text.length ≤ c.fuel) (hlen' : e'.text.length ≤ c.fuel)
    (hinner : tokensFrom .normal .none e.lo e.text = inner ++ [eof])
    (hinner' : tokensFrom .normal .none e'.lo e'.text = inner' ++ [eof']) (halike : eof.Alike eof')
    (h : c.Omits inner inner') (textEnd : Nat) (hclean : (alone L textEnd e).2.errors = []) :
    c.Needed [.expr (alone L textEnd e).1] ∨
      (alone L textEnd e').1.stripped = (alone L textEnd e).1.stripped ∧
        (alone L textEnd e').2.errors = c.faults := by
  refine Parallel.wholeExpr (c := c) ?_ hL textEnd hclean
  have hrest : (State.ofTokens (inner ++ [eof])).rest = inner := dropLast_concat
  have hrest' : (State.ofTokens (inner' ++ [eof'])).rest = inner' := dropLast_concat
  have heof : (State.ofTokens (inner ++ [eof])).eof = eof := getLastD_concat ..
  have heof' : (State.ofTokens (inner' ++ [eof'])).eof = eof' := getLastD_concat ..
  refine ⟨fine_ofTokens he hlen _, fine_ofTokens he' hlen' _, rfl, ?_, rfl, fun _ => rfl,
    .inl ⟨?_, rfl⟩⟩
  · rw [hinner, hinner', heof, heof']
    exact halike
  · rw [hinner, hinner', hrest, hrest']
    exact h

/-! ### Templates -/

/-- Both readings stand at a template: at the same one, or at one with the place in one of its
interpolations. -/
theorem Parallel.template_cases (h : Parallel c s s') (hkind : s.kind = .template) :
    ∃ ts ts', s.rest = s.current :: ts ∧ s'.rest = s'.current :: ts' ∧
      (s.current.Alike s'.current ∧ ((c.Omits ts ts' ∧ s'.errors = []) ∨
          (List.Forall₂ Token.Alike ts ts' ∧ s'.errors = c.faults)) ∨
        (∃ e e' es fs inner inner' eof eof', s.current.interpolations = es ++ e :: fs ∧
          s'.current.interpolations = es ++ e' :: fs ∧
          tokensFrom .normal .none e.lo e.text = inner ++ [eof] ∧
          tokensFrom .normal .none e'.lo e'.text = inner' ++ [eof'] ∧ eof.Alike eof' ∧
          c.Omits inner inner') ∧
          List.Forall₂ Token.Alike ts ts' ∧ s'.errors = []) := by
  have hne : s.kind ≠ .eof := by simp [hkind]
  obtain ⟨rest, hrest⟩ := h.fine.exists_rest hne
  unfold State.current at hrest ⊢
  unfold State.kind State.current at hkind
  rcases h.place with ⟨hplace, hclean⟩ | ⟨hplace, hfault⟩
  · generalize s.rest = ts at *
    generalize s'.rest = ts' at *
    cases hplace with
    | here => simp [c.isSemicolon] at hkind
    | template _ _ _ hes hes' hinner hinner' heof h hts =>
      exact ⟨_, _, rfl, rfl,
        .inr ⟨⟨_, _, _, _, _, _, _, _, hes, hes', hinner, hinner', heof, h⟩, hts, hclean⟩⟩
    | later ht h => exact ⟨_, _, rfl, rfl, .inl ⟨ht, .inl ⟨h, hclean⟩⟩⟩
  · rw [hrest] at hplace
    generalize s'.rest = ts' at *
    cases hplace with
    | cons ht hts => exact ⟨_, _, hrest, rfl, .inl ⟨ht, .inr ⟨hts, hfault⟩⟩⟩

/-- Both readings pass a template, the first one without a fault. The faults of the other template
come to those listed before. -/
theorem Parallel.passTemplate (h : Parallel c s s') (hkind : s.kind = .template)
    (hclean : c.sheet.faults s.current = []) {ts ts' : List Token}
    (hrest : s.rest = s.current :: ts) (hrest' : s'.rest = s'.current :: ts')
    (hplace : (c.Omits ts ts' ∧ s'.errors ++ c.sheet.faults s'.current = []) ∨
      (List.Forall₂ Token.Alike ts ts' ∧ s'.errors ++ c.sheet.faults s'.current = c.faults)) :
    Parallel c { s.advance with errors := s.errors ++ c.sheet.faults s.current }
      { s'.advance with errors := s'.errors ++ c.sheet.faults s'.current } := by
  have hgap : ¬AtGap c s s' := fun hgap => by simp [hgap.kind] at hkind
  have hfine' := (h.fine'.move (.template ((h.kind_eq hgap).trans hkind))).fine
  rw [c.faults_eq] at hfine'
  have hs := State.advance_eq hrest
  have hs' := State.advance_eq hrest'
  refine ⟨(h.fine.move (.template hkind)).fine, hfine', ?_, ?_, ?_, ?_, ?_⟩
  · rw [hs, hs']
    exact h.depth
  · rw [hs, hs']
    exact h.eof
  · rw [hclean, append_nil]
    exact h.clean
  · rw [hs, hs']
    exact fun _ => rfl
  · rw [hs, hs']
    exact hplace

theorem exec_templateOperand {o : Sheet} (h : L.template = o.template) (s : State) :
    exec (templateOperand L) s = (some (.template s.current.span (o.parts s.current)),
      { s.advance with errors := s.errors ++ o.faults s.current }) := by
  have hexec : exec (templateOperand L) s =
      (some (.template s.current.span ((L.template s.current).run s.advance).1),
        ((L.template s.current).run s.advance).2) := rfl
  rw [hexec, h, o.run_template, s.errors_advance]

/-- Templates are read in parallel. An interpolation is shorter than its template, by which the limit
on templates in each other goes down too. -/
theorem mirrorsTemplates (o : Omission) (source source' : List Char)
    (hbytes : bytes source' = bytes source) (n : Nat) :
    Setting.MirrorsTemplates { o with source, source', fuel := n, bytes_eq := hbytes } := by
  induction n with
  | zero =>
    intro L _ P s s' hkind
    -- no token is as short as the limit
    have hnone {o : Sheet} (hzero : o.fuel = 0) (hs : s.Fine o) : False := by
      have hpos := (hs.current_laid (by simp [hkind])).fuel_pos
      omega
    exact ⟨fun hs => (hnone rfl hs).elim, fun _ h => h.elim, fun _ hs => (hnone rfl hs.fine).elim⟩
  | succ n ih =>
    intro L htemplate P s s' hkind
    have hL : (Sheet.inner source n).Mirrors _ maxNesting := Level.mirrors_withLeft ih maxNesting
    have hexec := exec_templateOperand htemplate
    refine ⟨fun hs => ?_, fun _ h => h.elim, fun _ hs a t heq hclean => ?_⟩
    · rw [hexec]
      exact hs.move (.template hkind)
    rw [hexec] at heq ⊢
    cases heq
    obtain ⟨-, hparts⟩ := append_eq_nil_iff.1 hclean
    obtain ⟨ts, ts', hrest, hrest', hcases⟩ := hs.template_cases hkind
    have hpass := hs.passTemplate hkind hparts hrest hrest'
    rw [Sheet.faults_succ] at hparts
    dsimp only at hparts
    rcases hcases with ⟨halike, hplace⟩ | ⟨⟨e, e', es, fs, inner, inner', eof, eof', hes, hes',
      hinner, hinner', heof, homits⟩, hts, herrors⟩
    · -- the same template stands at both places
      refine .inr ⟨_, _, rfl, hpass ?_, ?_⟩
      · rwa [Sheet.faults_succ, halike.interpolations, hparts, append_nil]
      · rw [Sheet.parts_succ, Sheet.parts_succ, halike.interpolations]
        simp
    · -- the place is in one of the interpolations
      have hkind' : s'.kind = .template :=
        (hs.kind_eq fun hgap => by simp [hgap.kind] at hkind).trans hkind
      have hlaid := hs.fine.current_laid (by simp [hkind])
      have hlaid' := hs.fine'.current_laid (by simp [hkind'])
      have hmem : e ∈ s.current.interpolations := by simp [hes]
      have hmem' : e' ∈ s'.current.interpolations := by simp [hes']
      have hlen := (inside_of_mem_interpolations hmem).2.trans_le hlaid.length_le
      have hlen' := (inside_of_mem_interpolations hmem').2.trans_le hlaid'.length_le
      rw [hes, flatMap_append, flatMap_cons] at hparts
      obtain ⟨hfaults, hparts⟩ := append_eq_nil_iff.1 hparts
      obtain ⟨hinnerClean, hfaults'⟩ := append_eq_nil_iff.1 hparts
      refine (needed_or_alone hL (closed_of_mem_interpolations hlaid hkind hmem)
        (closed_of_mem_interpolations hlaid' hkind' hmem') (Nat.le_of_lt_succ hlen)
        (Nat.le_of_lt_succ hlen') hinner hinner' heof homits _ hinnerClean).imp ?_ ?_
      · rintro ⟨n, hn, hneeded⟩
        refine .node ⟨n, ?_, hneeded⟩
        rw [mem_singleton.1 hn, Sheet.parts_succ]
        exact mem_map_of_mem (mem_map_of_mem hmem)
      · rintro ⟨hstripped, hfault⟩
        refine ⟨_, _, rfl, hpass (.inr ⟨hts, ?_⟩), ?_⟩
        · rw [Sheet.faults_succ]
          dsimp only
          rw [hes', flatMap_append, flatMap_cons, hfaults, hfaults', herrors, hfault]
          simp
        · rw [Sheet.parts_succ, Sheet.parts_succ, hes, hes']
          simp [hstripped]

/-! ### Whole scripts -/

/-- A script is read without a semicolon: it has the faults of the omission and the same program up
to regions, unless the semicolon is needed. -/
theorem needed_or_parse {o : Omission} {mode : LexMode} {source source' : List Char}
    {ts ts' : List Token} {eof eof' : Token} (h : o.Omits ts ts') (heof : eof.Alike eof')
    (htokens : tokenize mode source = ts ++ [eof])
    (htokens' : tokenize mode source' = ts' ++ [eof']) (hbytes : bytes source' = bytes source)
    (hclean : (parse mode source).errors = []) :
    o.Needed ((parse mode source).program.body.map .stmt) ∨
      (parse mode source').errors = o.faults ∧
        (parse mode source').program.stripped = (parse mode source).program.stripped := by
  let c : Setting := { o with source, source', fuel := bytes source, bytes_eq := hbytes }
  have hL : (top (bytes source)).Mirrors c maxNesting :=
    Level.mirrors_withLeft (mirrorsTemplates o source source' hbytes _) maxNesting
  have hstart : Parallel c (.ofTokens (tokenize mode source)) (.ofTokens (tokenize mode source')) := by
    have hfine' := fine_tokenize mode source'
    rw [wholeSheet, hbytes] at hfine'
    refine ⟨fine_tokenize mode source, hfine', rfl, ?_, rfl, fun _ => rfl, .inl ⟨?_, rfl⟩⟩
    · rw [htokens, htokens']
      simpa [State.ofTokens] using heof
    · rw [htokens, htokens']
      simpa [State.ofTokens] using h
  have hstatements := hstart.statementsUpTo hL.sound.stmt hL.sound'.stmt hL.stmt hL.stmt_atGap
    (not_mem_nil) le_rfl le_rfl hclean
  refine hstatements.imp id ?_
  rintro ⟨hend, hbody⟩
  have hread' : parse mode source' =
      ⟨⟨((statements (top (bytes source)).stmt []).run (.ofTokens (tokenize mode source'))).1⟩,
        ((statements (top (bytes source)).stmt []).run
          (.ofTokens (tokenize mode source'))).2.errors⟩ := by
    rw [← hbytes]
    rfl
  rw [hread']
  constructor
  · -- at the end of the script, the place of the semicolon has been passed
    have hnil : (readScript mode source).2.rest = [] := rest_readScript mode source
    rcases hend.place with ⟨homits, -⟩ | ⟨-, hfault⟩
    · exact absurd hnil homits.ne_nil
    · exact hfault
  · unfold Program.stripped
    rw [strippedStmts_eq, strippedStmts_eq]
    exact congrArg Program.mk hbody

end Parser

end ScriptCheck
