import ScriptCheck.Proofs.TrackExpression

/-!
# Statements in parallel

Each part of a statement is read in parallel, where the same is known of the level below. The
semicolon that is left out ends a statement, and then `terminate` lists that it is missing, if the
token behind it does not close a list of statements; or it is a statement by itself, or it stands in
the head of a loop. In the last two cases it is needed, which follows from where the parts of a loop
lie. It is also needed by an exported function before a token that closes a list, since such a
function does not end with `terminate`.
-/

namespace ScriptCheck

open List

namespace Parser

variable {c : Setting} {below : Level} {s s' : State} {P K : Prop}

/-! ### Declarations -/

variable (hbelow : below.Mirrors c k)

include hbelow

theorem mirrors_declarator (kind : DeclKind) :
    Mirrors c (declarator below kind) Declarator.stripped Declarator.parts := by
  intro P s s'
  rw [declarator]
  refine .same mirrors_ident fun name t t' => ?_
  refine .taking (tracks_takeMark (by decide)) fun hasInit u u' => ?_
  refine .bind (mirrors_optionally (hbelow.expr 0)) fun init init' v v' hinit => ?_
  refine .pass (tracks_reportWhen (fun _ => ?_) _ _ rfl rfl) fun _ _ w w' =>
    .pure (fun _ => ?_) fun h => ?_
  · rw [← Option.isNone_map (f := Expr.stripped), hinit, Option.isNone_map]
  · simp [hinit]
  · exact Omission.needed_cons.2 (.inr (h.resolve_left id))

/-- Declared names, of which there are no more than tokens. -/
theorem tracks_declaratorsUpTo (kind : DeclKind) (n n' : Nat) :
    Tracks c s s' (P ∧ s.rest.length < n ∧ s'.rest.length < n') False
      (declaratorsUpTo below kind n) (declaratorsUpTo below kind n')
      (fun ds ds' _ _ => ds'.map Declarator.stripped = ds.map Declarator.stripped)
      fun ds _ => c.Needed (ds.flatMap Declarator.parts) := by
  induction n generalizing P s s' n' with
  | zero => exact ⟨fun hs => .refl hs, fun _ h => h.elim, fun h => absurd h.2.1 (by simp)⟩
  | succ n ih =>
    refine .upTo n' fun n' => ?_
    rw [declaratorsUpTo, declaratorsUpTo]
    refine .bindConsuming (mirrors_declarator hbelow kind)
      ⟨reads_declarator hbelow.sound kind, reads_declarator hbelow.sound' kind⟩ fun first first' t t' hfirst => ?_
    refine .taking (tracks_takeMark (by decide)) fun b u u' => ?_
    cases b with
    | true =>
      refine .andThen ((ih (P := P) n').weaken (fun h => ?_) id) ?_
      · obtain ⟨⟨⟨hP, hn, hn'⟩, hle, hle'⟩, hlt⟩ := h
        obtain ⟨hlt, hlt'⟩ := hlt rfl
        exact ⟨hP, by omega, by omega⟩
      · intro rest rest' v v'
        refine .pure (fun h => ?_) fun h => ?_
        · rw [map_cons, map_cons, hfirst, h.2]
        · rw [flatMap_cons, Omission.needed_append]
          exact h.imp_left fun h => h.resolve_left id
    | false =>
      refine .pure (fun _ => ?_) fun h => ?_
      · rw [map_singleton, map_singleton, hfirst]
      · rw [flatMap_singleton]
        exact h.resolve_left id

theorem mirrors_declaration (kind : DeclKind)
    {finish : StateM State Unit}
    (hfinish : ∀ {P : Prop} {u u' : State}, Tracks c u u' P False (liftM finish) (liftM finish)
      (fun _ _ _ _ => True) fun _ _ => False) : MirrorsStmt c (declaration below kind finish) := by
  intro P s s'
  rw [declaration]
  refine .passKeyword fun start start' t t' => .get ?_
  refine .andThen ((tracks_declaratorsUpTo (P := P) hbelow kind _ _).weaken (fun h => ?_) id)
    fun ds ds' u u' => ?_
  · exact ⟨h, Nat.lt_succ_self _, Nat.lt_succ_self _⟩
  · refine .pass hfinish fun _ _ v v' => .spanFrom fun span' => ?_
    exact .pure (fun h => by simp [h.2]) fun h => .node (h.resolve_left id)

variable {start : Span} {k : Nat} {α : Type}

omit hbelow in
/-- A statement whose parts are read ends in both readings. -/
theorem tracks_terminated {start' : Span} {make make' : Span → Stmt}
    (hmake : ∀ span span', (make' span').stripped = (make span).stripped)
    (hneeded : K → ∀ span, c.Needed (make span).parts) :
    TracksStmt c s s' P K (terminated start make) (terminated start' make') := by
  unfold terminated
  refine .pass tracks_terminate fun _ _ t t' => .spanFrom fun span' => ?_
  exact .pure (fun _ => hmake _ span') fun h => .node (hneeded h _)

/-! ### Branches and loops -/

theorem mirrors_colonBlock {ends : List TokenKind}
    (hends : .punct .semicolon ∉ ends) : MirrorsStmt c (colonBlock below ends) := by
  intro P s s'
  rw [colonBlock]
  refine .passMark (by simp) fun colon colon' t t' => ?_
  refine .bind (mirrors_stmts hbelow hends)
    fun body body' u u' hbody => ?_
  refine .spanFrom fun span' => ?_
  exact .pure (fun _ => by simp [hbody]) fun h => .node (h.resolve_left id)

theorem mirrors_loopBody (close : Keyword) :
    MirrorsStmt c (loopBody below close) := by
  intro P s s'
  rw [loopBody]
  refine .get (.ite (fun _ hs => hs.atMark (by decide)) (fun _ => ?_) fun _ => hbelow.stmt s s')
  refine .passMark (by simp) fun colon colon' t t' => ?_
  refine .bind (mirrors_stmts hbelow (by simp))
    fun body body' u u' hbody => ?_
  refine .passKeyword fun _ _ v v' => .spanFrom fun span' => ?_
  exact .pure (fun _ => by simp [hbody]) fun h => .node (h.resolve_left id)

omit hbelow in
/-- The token after the first branch of an `if` is tested for one word after the other. -/
theorem colonAlternative_eq (branches : Span → Expr → Parser Stmt) :
    colonAlternative below branches = do
      let s ← get
      if s.kind == .keyword .elifKw then
        let start ← expectKeyword .elifKw
        let test ← parenExpr below
        let no ← branches start.span test
        return some no
      else if s.kind == .keyword .elseKw then
        let _ ← expectKeyword .elseKw
        let no ← colonBlock below [.keyword .endifKw]
        let _ ← expectKeyword .endifKw
        return some no
      else
        let _ ← expectKeyword .endifKw
        return none := by
  rw [colonAlternative]
  congr
  funext s
  split <;> simp_all

/-- What follows the first branch of an `if`, where the further branches are read in parallel. -/
theorem tracks_colonAlternative
    {branches branches' : Span → Expr → Parser Stmt}
    (hbranches : ∀ {start start' : Span} {test test' : Expr} {t t' : State},
      test'.stripped = test.stripped →
      TracksStmt c t t' (P ∧ t.rest.length < s.rest.length ∧ t'.rest.length < s'.rest.length)
        (c.Needed [.expr test]) (branches start test) (branches' start' test')) :
    Tracks c s s' P False (colonAlternative below branches) (colonAlternative below branches')
      (fun o o' _ _ => o'.map Stmt.stripped = o.map Stmt.stripped)
      fun o _ => c.Needed (o.toList.map .stmt) := by
  rw [colonAlternative_eq, colonAlternative_eq]
  refine .get (.offGap (fun _ hgap o t hexec => ?_) ?_)
  · -- none of the words that may follow is there
    rw [if_neg (by simp [hgap.kind]), if_neg (by simp [hgap.kind])] at hexec
    obtain ⟨tok, u, hword, -⟩ := exec_bind_eq_some hexec
    rw [expectKeyword, exec_expect_of_ne (by simp [hgap.kind])] at hword
    cases hword
  refine .ite (fun h hs => by rw [hs.kind_eq h.2]) (fun _ => ?_) fun _ => ?_
  · refine .andThen (tracks_expectKeyword _) fun start start' t t' => ?_
    refine .bindConsuming (mirrors_parenExpr hbelow)
      ⟨reads_parenExpr hbelow.sound, reads_parenExpr hbelow.sound'⟩ fun test test' u u' htest => ?_
    refine .onto ((hbranches htest).weaken (fun h => ?_) fun h => ?_) fun no no' v v' => ?_
    · obtain ⟨⟨⟨hP, -⟩, hpassed⟩, hle, hle'⟩ := h
      have hlength := hpassed.length
      have hlength' := hpassed.length'
      exact ⟨hP, by omega, by omega⟩
    · exact h.resolve_left fun h => h.elim id id
    · exact .pure (fun h => congrArg some h.2) id
  · refine .ite (fun h hs => by rw [hs.kind_eq h.2]) (fun _ => ?_) fun _ => ?_
    · refine .passKeyword fun _ _ t t' => ?_
      refine .bind (mirrors_colonBlock hbelow (by decide)) fun no no' u u' hno => ?_
      refine .passKeyword fun _ _ v v' => ?_
      exact .pure (fun _ => congrArg some hno) fun h => h.resolve_left id
    · refine .passKeyword fun _ _ t t' => ?_
      exact .pure (fun _ => rfl) False.elim

omit hbelow in
theorem needed_ifElse {span : Span} {test : Expr} {yes : Stmt} {no : Option Stmt}
    (h : (c.Needed [.expr test] ∨ c.Needed [.stmt yes]) ∨ c.Needed (no.toList.map .stmt)) :
    c.Needed [.stmt (.ifElse span test yes no)] := by
  refine .node ?_
  rw [Node.parts, Stmt.parts, Omission.needed_cons_cons]
  exact (or_assoc.1 h).imp_right Omission.needed_cons.2

/-- The branches of an `if`, of which there are no more than tokens. -/
theorem tracks_colonBranches (n n' : Nat) {start' : Span}
    {test test' : Expr} (htest : test'.stripped = test.stripped) :
    TracksStmt c s s' (P ∧ s.rest.length < n ∧ s'.rest.length < n') (c.Needed [.expr test])
      (colonBranches below n start test) (colonBranches below n' start' test') := by
  induction n generalizing P s s' n' start start' test test' with
  | zero => exact .fails (fun hs => .refl hs) rfl
  | succ n ih =>
    refine .upTo (q := (colonBranches below · start' test')) n' fun n' => ?_
    rw [colonBranches, colonBranches]
    refine .bindConsuming (mirrors_colonBlock hbelow (by decide))
      ⟨reads_colonBlock hbelow.sound _, reads_colonBlock hbelow.sound' _⟩ fun yes yes' t t' hyes => ?_
    refine .andThen (tracks_colonAlternative hbelow fun htest => ?_) fun no no' u u' => ?_
    · refine (ih (P := P) n' htest).weaken ?_ id
      rintro ⟨⟨⟨hP, hn, hn'⟩, hle, hle'⟩, hlt, hlt'⟩
      exact ⟨hP, by omega, by omega⟩
    · refine .spanFrom fun span' => ?_
      exact .pure (fun h => by simp [htest, hyes, h.2]) needed_ifElse

theorem mirrors_ifStmt : MirrorsStmt c (ifStmt below) := by
  intro P s s'
  rw [ifStmt]
  refine .passKeyword fun start start' t t' => ?_
  refine .bind (mirrors_parenExpr hbelow) fun test test' u u' htest => ?_
  refine .get (.ite (fun _ hs => hs.atMark (by decide)) (fun _ => ?_) fun _ => ?_)
  · refine (tracks_colonBranches (P := P) hbelow _ _ htest).weaken (fun h => ?_)
      fun h => h.resolve_left id
    exact ⟨h, Nat.lt_succ_self _, Nat.lt_succ_self _⟩
  · refine .bind hbelow.stmt fun yes yes' v v' hyes => ?_
    refine .taking (tracks_takeKeyword (by decide)) fun hasElse w w' => ?_
    refine .bind (mirrors_optionally hbelow.stmt) fun no no' x x' hno => ?_
    refine .spanFrom fun span' => ?_
    refine .pure (fun _ => by simp [htest, hyes, hno]) fun h => needed_ifElse ?_
    exact h.imp_left fun h => h.imp_left fun h => h.resolve_left id

theorem mirrors_whileStmt : MirrorsStmt c (whileStmt below) := by
  intro P s s'
  rw [whileStmt]
  refine .passKeyword fun start start' t t' => ?_
  refine .bind (mirrors_parenExpr hbelow) fun test test' u u' htest => ?_
  refine .bind (mirrors_loopBody hbelow _) fun body body' v v' hbody => ?_
  refine .spanFrom fun span' => ?_
  refine .pure (fun _ => by simp [htest, hbody]) fun h => .node ?_
  simpa [Node.parts, Stmt.parts] using h

omit hbelow in
theorem tracks_declWord (kind : Option DeclKind) :
    Tracks c s s' P False (declWord kind) (declWord kind) (fun _ _ _ _ => True)
      fun _ _ => False := by
  cases kind with
  | none => exact .pure (fun _ => trivial) id
  | some kind =>
    exact .passKeyword fun _ _ t t' => .pure (fun _ => trivial) id

omit hbelow in
theorem mirrors_forNames : Mirrors c forNames id fun _ => [] := by
  intro P s s'
  rw [forNames]
  refine .same mirrors_ident fun first t t' => ?_
  refine .taking (tracks_takeMark (by decide)) fun b u u' => ?_
  cases b with
  | true => exact .same mirrors_ident fun second v v' => .pure (fun _ => rfl) False.elim
  | false => exact .pure (fun _ => rfl) False.elim

theorem tracks_forIn (start start' : Span) (kind : Option DeclKind) :
    TracksStmt c s s' P False (forIn below start kind) (forIn below start' kind) := by
  rw [forIn, forIn]
  refine .pass (tracks_declWord kind) fun _ _ t t' => ?_
  refine .same mirrors_forNames fun names u u' => ?_
  obtain ⟨key, value⟩ := names
  refine .passKeyword fun _ _ v v' => ?_
  refine .bind (hbelow.expr 0) fun iterable iterable' w w' hiterable => ?_
  refine .passMark (by simp) fun _ _ x x' => ?_
  refine .bind (mirrors_loopBody hbelow _) fun body body' y y' hbody => ?_
  refine .spanFrom fun span' => ?_
  refine .pure (fun _ => by simp [hiterable, hbody]) fun h => .node ?_
  have h : c.Needed [.expr iterable] ∨ c.Needed [.stmt body] := h.imp_left fun h => h.resolve_left id
  simp only [Node.parts, Stmt.parts, Omission.needed_append, Omission.needed_cons_cons]
  exact .inr (.inr h)

omit hbelow in
theorem exec_forInit_of_semicolon (hkind : s.kind = .punct .semicolon) :
    exec (forInit below) s = (some none, s) := by
  rw [forInit, exec_get, hkind]
  rfl

/-- At the place of the semicolon nothing is read, so it is the first one in the head of a loop. -/
theorem tracks_forInit :
    Tracks c s s' P False (forInit below) (forInit below)
      (fun o o' _ _ => o'.map Stmt.stripped = o.map Stmt.stripped)
      fun o t => c.Needed (o.toList.map .stmt) ∨ t.current = c.semi := by
  refine .unlessGap id (reads_forInit hbelow.sound s) (fun hgap o t hexec _ => .inr ?_)
    fun _ _ hkind => ?_
  · rw [exec_forInit_of_semicolon hgap.kind] at hexec
    cases hexec
    exact hgap.current
  · rw [forInit]
    refine .get ?_
    rw [hkind]
    split
    · exact .pure (fun _ => rfl) False.elim
    · refine .bind (mirrors_declaration hbelow _ ?_) fun d d' t t' hd => ?_
      · exact .lift (fun hs => .refl hs) id fun _ hs _ => .inr ⟨hs, trivial⟩
      · exact .pure (fun _ => congrArg some hd) fun h => .inl (h.resolve_left id)
    · refine .bind (hbelow.expr 0) fun e e' t t' he => .pure (fun _ => ?_) fun h => .inl ?_
      · simp [he]
      · exact .node (h.resolve_left id)

/-- At the place of the semicolon nothing is read, so it is the second one in the head of a loop. -/
theorem tracks_beforeSemicolon :
    Tracks c s s' P False (optionally (!s.atMark .semicolon) (below.expr 0))
      (optionally (!s'.atMark .semicolon) (below.expr 0))
      (fun o o' _ _ => o'.map Expr.stripped = o.map Expr.stripped)
      fun o t => c.Needed (o.toList.map .expr) ∨ t.current = c.semi := by
  refine .unlessGap id (reads_optionally (hbelow.sound.expr 0) s)
    (fun hgap o t hexec _ => .inr ?_) fun _ _ hkind => ?_
  · rw [State.atMark, hgap.kind] at hexec
    cases hexec
    exact hgap.current
  · rw [State.atMark, State.atMark, hkind]
    exact (mirrors_optionally (hbelow.expr 0) s s').mono id id (fun _ _ _ _ h => h) fun _ _ => .inl

omit hbelow in
/-- A semicolon between the parts of a node lies in the node, and in none of the parts. -/
theorem between_of_passes {u v w z : State} {n : Node} {before after : List Node}
    (hbefore : Passes c.sheet k u v before) (htook : Took c.sheet v c.semi w)
    (hafter : Passes c.sheet k w z after) (hstart : start.lo ≤ u.current.lo)
    (hspan : n.span = start.through z.lastSpan) (hparts : n.parts = before ++ after) :
    n.span.Encloses c.semi.span ∧ (∀ m ∈ n.parts, ¬m.span.Encloses c.semi.span) ∧
      n.span.hi = z.reach := by
  have hpos := htook.laid.pos
  have hsemi : c.semi.span.hi = c.semi.span.lo + c.semi.span.len := rfl
  have hlo : u.current.lo ≤ c.semi.span.lo := by
    rw [htook.eq]
    exact hbefore.onward.lo_le
  have hreach : c.semi.span.hi ≤ z.reach := htook.reach ▸ hafter.onward.reach_le
  have hhi : n.span.hi = z.reach := by
    rw [hspan, Span.hi_through, State.hi_lastSpan (by omega)]
    omega
  refine ⟨⟨?_, hhi ▸ hreach⟩, fun m hm henc => ?_, hhi⟩
  · rw [hspan, Span.lo_through]
    exact hstart.trans hlo
  · rw [hparts, mem_append] at hm
    rcases hm with hm | hm
    · have hle : m.span.hi ≤ c.semi.span.lo := by
        rw [htook.eq]
        exact (hbefore.hi_le m hm).trans hbefore.onward.fine.reach_le
      have henc := henc.2
      omega
    · have hle : c.semi.span.hi ≤ m.span.lo :=
        htook.hi_le.trans (hafter.inOrder.mem (mem_map_of_mem hm)).1
      have henc := henc.1
      omega

omit hbelow in
/-- A semicolon between the parts of a node, the last of which ends the node, is needed by it. -/
theorem neededBy_of_passes {u v w z : State} {n body : Node} {before after : List Node}
    (hbefore : Passes c.sheet k u v before) (htook : Took c.sheet v c.semi w)
    (hafter : Passes c.sheet k w z (after ++ [body])) (hstart : start.lo ≤ u.current.lo)
    (hspan : n.span = start.through z.lastSpan) (hparts : n.parts = before ++ (after ++ [body])) :
    c.NeededBy n := by
  obtain ⟨hencloses, hbetween, hhi⟩ :=
    between_of_passes hbefore htook hafter hstart hspan hparts
  refine ⟨hencloses, hbetween, .inr (.inl ?_)⟩
  have hmem : body ∈ after ++ [body] := by simp
  obtain ⟨hle, hlt, -⟩ := hafter.inOrder.mem (mem_map_of_mem hmem)
  have hsemi := htook.hi_le
  have hbody := hafter.hi_le body hmem
  omega

theorem mirrors_exprBefore {mark : Punct}
    (hmark : Omission.Common (.punct mark)) :
    Mirrors c (exprBefore below mark) (Option.map Expr.stripped) fun o => o.toList.map .expr := by
  intro P s s'
  rw [exprBefore]
  refine .get ?_
  refine .of_eq (f := fun b => optionally (!b) (below.expr 0) >>= _) (s'.atMark mark)
    (fun _ hs => hs.atMark hmark) ?_
  refine .bind (mirrors_optionally (hbelow.expr 0)) fun e e' t t' he => ?_
  refine .pass (tracks_expectMark fun h => hmark.1 (h ▸ rfl)) fun _ _ u u' => ?_
  exact .pure (fun _ => he) fun h => h.resolve_left id

omit hbelow in
theorem exprBefore_bind (f : Option Expr → Parser α) :
    exprBefore below .semicolon >>= f =
      (do
        let s ← get
        let e ← optionally (!s.atMark .semicolon) (below.expr 0)
        let _ ← expectMark .semicolon
        f e) := by
  simp only [exprBefore, bind_assoc, pure_bind]

/-- A loop with two semicolons in its head, after the parenthesis that opens it. -/
def headedLoop (below : Level) (start : Span) : Parser Stmt := do
  let init ← forInit below
  let _ ← expectMark .semicolon
  let test ← exprBefore below .semicolon
  let update ← exprBefore below .rparen
  let body ← loopBody below .endforKw
  let span ← spanFrom start
  return .forLoop span init test update body

theorem tracks_forLoop (start' : Span) (hlo : start.lo ≤ s.current.lo)
    (hK : K → s.kind = .punct .semicolon ∧ s.current = c.semi) :
    TracksStmt c s s' P K (headedLoop below start) (headedLoop below start') := by
  have hsound := hbelow.sound
  simp only [headedLoop, exprBefore_bind]
  refine .laying (tracks_forInit hbelow) (reads_forInit hsound s).recall
    fun init init' v v' ⟨hinit, hexec⟩ => ?_
  have hstay (hkind : s.kind = .punct .semicolon) : v = s := by
    rw [exec_forInit_of_semicolon hkind] at hexec
    cases hexec
    rfl
  refine .laying tracks_semicolon (reading_expectMark _) fun tok tok' w w' htook => .get ?_
  refine .laying (tracks_beforeSemicolon hbelow) (reads_optionally (hsound.expr 0) w)
    fun test test' x x' htest => ?_
  refine .laying tracks_semicolon (reading_expectMark _) fun tok₂ tok₂' y y' htook₂ => ?_
  refine .laying (mirrors_exprBefore hbelow (by decide) y y') (reading_exprBefore hsound _)
    fun update update' z z' hupdate => ?_
  refine .laying (mirrors_loopBody hbelow _ z z') (reads_loopBody hsound _ z)
    fun body body' a a' hbody => .spanFrom fun span' => .pure (fun h => ?_) fun h => ?_
  · obtain ⟨⟨⟨⟨⟨⟨-, hinit⟩, -⟩, htest⟩, -⟩, hupdate⟩, hbody⟩ := h
    simp [hinit, htest, hupdate, hbody]
  · -- the semicolon is one of those in the head, or a part of the loop needs it
    have hfirst (heq : tok = c.semi) : c.Needed
        [.stmt (.forLoop (start.through a.lastSpan) init test update body)] := by
      have hafter := ((htest.onto htook₂.onward).append hupdate.1).append hbody
      exact (neededBy_of_passes hinit (heq ▸ htook) hafter hlo rfl
        (by simp [Node.parts, Stmt.parts])).needed
    have hsecond (heq : tok₂ = c.semi) : c.Needed
        [.stmt (.forLoop (start.through a.lastSpan) init test update body)] := by
      have hbefore := (hinit.onto htook.onward).append htest
      exact (neededBy_of_passes hbefore (heq ▸ htook₂) (hupdate.1.append hbody) hlo rfl
        (by simp [Node.parts, Stmt.parts])).needed
    have hparts (h : ((c.Needed (init.toList.map .stmt) ∨ c.Needed (test.toList.map .expr)) ∨
        c.Needed (update.toList.map .expr)) ∨ c.Needed [.stmt body]) : c.Needed
        [.stmt (.forLoop (start.through a.lastSpan) init test update body)] := by
      refine .node ?_
      rw [Node.parts, Stmt.parts, Omission.needed_append, Omission.needed_append,
        Omission.needed_append, ← or_assoc, ← or_assoc]
      exact h
    rcases h with (((((hk | hneeded | heq) | heq) | hneeded | heq) | heq) | hneeded) | hneeded
    · obtain ⟨hkind, heq⟩ := hK hk
      exact hfirst (htook.eq.trans (hstay hkind ▸ heq))
    · exact hparts (.inl (.inl (.inl hneeded)))
    · exact hfirst (htook.eq.trans heq)
    · exact hfirst heq
    · exact hparts (.inl (.inl (.inr hneeded)))
    · exact hsecond (htook₂.eq.trans heq)
    · exact hsecond heq
    · exact hparts (.inl (.inr hneeded))
    · exact hparts (.inr hneeded)

theorem mirrors_forStmt : MirrorsStmt c (forStmt below) := by
  intro P s s'
  rw [forStmt]
  refine .laying (tracks_expectKeyword _) (reading_expectKeyword _)
    fun start start' t t' hstart => ?_
  refine .laying (tracks_expectMark (by simp)) (reading_expectMark _) fun _ _ u u' hopen => ?_
  refine .get (.byGap ?_)
  have hnotIn (hgap : AtGap c u u') :
      u.atForIn (if (declKind? u.kind).isSome then 1 else 0) = false := by
    have hahead : u.ahead 0 = .punct .semicolon := by
      rw [← hgap.kind]
      unfold State.ahead State.kind State.current
      cases u.rest <;> rfl
    simp [hgap.kind, declKind?, State.atForIn, hahead]
  refine .ite (fun h hu => ?_) (fun hin => ?_) fun _ => ?_
  · rw [hu.kind_eq h.2]
    refine hu.atForIn ?_
    cases hdecl : declKind? u.kind with
    | none => exact .inl rfl
    | some kind => exact .inr ⟨rfl, fun hkind => by simp [hkind, declKind?] at hdecl⟩
  · refine .of_eq (f := fun kind => forIn below start'.span kind) (declKind? u'.kind)
      (fun h hu => by rw [hu.kind_eq h.2]) ?_
    refine (tracks_forIn hbelow _ _ _).weaken id fun h => ?_
    rcases h with (h | h) | hgap
    · exact h.elim id id
    · exact h
    · simp [hnotIn hgap] at hin
  · refine tracks_forLoop hbelow _ ?_ fun h => ?_
    · exact hstart.lo_lt.le.trans hopen.onward.lo_le
    · rcases h with (h | h) | hgap
      · exact (h.elim id id).elim
      · exact h.elim
      · exact ⟨hgap.kind, hgap.current⟩

/-! ### Cases -/

/-- The body of a case, after its test. -/
theorem tracks_caseBody (start start' : Span) {test test' : Option Expr}
    (htest : test'.map Expr.stripped = test.map Expr.stripped) :
    Tracks c s s' P (c.Needed (test.toList.map .expr)) (caseBody below start test)
      (caseBody below start' test')
      (fun a a' t t' => a'.stripped = a.stripped ∧ t.rest.length ≤ s.rest.length ∧
        t'.rest.length ≤ s'.rest.length) fun a _ => c.Needed [.case a] := by
  rw [caseBody, caseBody]
  refine .andThen (tracks_expectMark (by simp)) fun _ _ t t' => ?_
  refine .bindConsuming
    (mirrors_stmts hbelow (by decide))
    ⟨reads_statements hbelow.sound.stmt _, reads_statements hbelow.sound'.stmt _⟩
    fun body body' u u' hbody => .spanFrom fun span' => ?_
  refine .pure (fun h => ?_) fun h => .node ?_
  · obtain ⟨⟨-, hpassed⟩, hle, hle'⟩ := h
    have hlength := hpassed.length
    have hlength' := hpassed.length'
    exact ⟨by simp [htest, hbody], by omega, by omega⟩
  · exact Omission.needed_append.2 (h.imp_left fun h => h.resolve_right id)

/-- Cases, of which there are no more than tokens. -/
theorem tracks_casesUpTo (n n' : Nat) (hasDefault : Bool) :
    Tracks c s s' (P ∧ s.rest.length ≤ n ∧ s'.rest.length ≤ n') False
      (casesUpTo below n hasDefault) (casesUpTo below n' hasDefault)
      (fun cs cs' _ _ => cs'.map SwitchCase.stripped = cs.map SwitchCase.stripped)
      fun cs _ => c.Needed (cs.map .case) := by
  induction n generalizing P n' s s' hasDefault with
  | zero =>
    refine ⟨fun hs => .refl hs, fun _ h => h.elim, ?_⟩
    rintro ⟨-, hn, -⟩ hs cs t hexec -
    cases hexec
    have hnil := hs.follow.eq_nil (length_eq_zero_iff.1 (Nat.le_zero.1 hn))
    exact .inr ⟨_, _, exec_casesUpTo_of_nil n' hasDefault hs.fine' hnil, hs, rfl⟩
  | succ n ih =>
    have hrun (hs : s.Fine c.sheet) : Onward c.sheet s
          (s.unexpected [.keyword .caseKw, .keyword .defaultKw, .punct .rbrace]).skip ∧
        (s.unexpected [.keyword .caseKw, .keyword .defaultKw, .punct .rbrace]).skip.errors ≠ [] :=
      have hskip := (hs.unexpected _).fine.skip
      ⟨(hs.unexpected _).trans hskip, mt hskip.clean (hs.unexpected_listed _)⟩
    refine .offGap (fun hs hgap cs t hexec hclean => ?_) ?_
    · -- no case starts with a semicolon, so a fault is listed
      rw [casesUpTo_succ, exec_get, State.atEnd, hgap.kind] at hexec
      exact absurd hclean (not_clean_after_fault hexec (hrun hs.fine)
        (reads_casesUpTo hbelow.sound n hasDefault _))
    cases n' with
    | zero =>
      refine ⟨fun hs => (reads_casesUpTo hbelow.sound _ hasDefault s).onward hs,
        fun _ h => h.elim, ?_⟩
      rintro ⟨⟨-, -, hn'⟩, hgap⟩ hs cs t hexec -
      have hnil := hs.rest_eq_nil hgap (length_eq_zero_iff.1 (Nat.le_zero.1 hn'))
      rw [exec_casesUpTo_of_nil _ hasDefault hs.fine hnil] at hexec
      cases hexec
      exact .inr ⟨_, _, rfl, hs, rfl⟩
    | succ n' =>
      -- what is known of the first case and of the further ones makes up the list
      have hrest (hasDefault : Bool) {first first' : SwitchCase} {u u' : State} :
          Tracks c u u' (first'.stripped = first.stripped ∧ u.rest.length ≤ n ∧ u'.rest.length ≤ n')
            (c.Needed [.case first])
            (casesUpTo below n hasDefault >>= fun rest => return first :: rest)
            (casesUpTo below n' hasDefault >>= fun rest => return first' :: rest)
            (fun cs cs' _ _ => cs'.map SwitchCase.stripped = cs.map SwitchCase.stripped)
            fun cs _ => c.Needed (cs.map .case) := by
        refine .andThen (ih n' hasDefault) fun rest rest' v v' => .pure (fun h => ?_) fun h => ?_
        · rw [map_cons, map_cons, h.1.1, h.2]
        · exact Omission.needed_cons.2 h
      rw [casesUpTo_succ, casesUpTo_succ]
      refine .get (.ite (fun h hs => hs.atEnd h.2 _) (fun _ => ?_) fun _ => ?_)
      · exact .pure (fun _ => rfl) False.elim
      refine .ite (fun h hs => by rw [hs.kind_eq h.2]) (fun _ => ?_) fun _ => ?_
      · refine .andThen (tracks_expectKeyword _) fun start start' t t' => ?_
        refine .bindConsuming (hbelow.expr 0) ⟨hbelow.sound.expr 0, hbelow.sound'.expr 0⟩
          fun test test' u u' htest => ?_
        have hsome : (some test').map Expr.stripped = (some test).map Expr.stripped :=
          congrArg some htest
        refine .onto ((tracks_caseBody hbelow _ _ hsome).weaken id fun h => ?_)
          fun first first' v v' => ?_
        · exact h.resolve_left fun h => h.elim id id
        · refine (hrest hasDefault).weaken (fun h => ?_) id
          obtain ⟨⟨⟨⟨⟨-, hn, hn'⟩, -⟩, hpassed⟩, hle, hle'⟩, hfirst, hlen, hlen'⟩ := h
          have hlength := hpassed.length
          have hlength' := hpassed.length'
          exact ⟨hfirst, by omega, by omega⟩
      refine .ite (fun h hs => by rw [hs.kind_eq h.2]) (fun _ => ?_) fun _ => ?_
      · refine .andThen (tracks_expectKeyword _) fun start start' t t' => ?_
        refine .andThen (tracks_reportWhen (fun _ => rfl) _ _ rfl rfl) fun _ _ u u' => ?_
        refine .onto ((tracks_caseBody hbelow _ _ rfl).weaken id fun h => ?_)
          fun first first' v v' => ?_
        · exact (h.elim (fun h => h.elim id id) id).elim
        · refine (hrest true).weaken (fun h => ?_) id
          obtain ⟨⟨⟨⟨⟨-, hn, hn'⟩, -⟩, hpassed⟩, hrest, hrest'⟩, hfirst, hlen, hlen'⟩ := h
          have hlength := hpassed.length
          have hlength' := hpassed.length'
          rw [hrest] at hlen
          rw [hrest'] at hlen'
          exact ⟨hfirst, by omega, by omega⟩
      · exact tracks_after_fault hrun (reads_casesUpTo hbelow.sound n hasDefault _)

theorem mirrors_switchStmt : MirrorsStmt c (switchStmt below) := by
  intro P s s'
  rw [switchStmt]
  refine .passKeyword fun start start' t t' => ?_
  refine .bind (mirrors_parenExpr hbelow) fun subject subject' u u' hsubject => ?_
  refine .passMark (by simp) fun _ _ v v' => .get ?_
  refine .andThen ((tracks_casesUpTo (P := P) hbelow _ _ _).weaken (fun h => ?_) id)
    fun cs cs' w w' => ?_
  · exact ⟨h, le_rfl, le_rfl⟩
  · refine .passMark (by simp) fun _ _ x x' => .spanFrom fun span' => ?_
    refine .pure (fun h => by simp [hsubject, h.2]) fun h => .node ?_
    exact Omission.needed_cons.2 (h.imp_left fun h => h.resolve_left id)

omit hbelow in
theorem mirrors_catchParam : Mirrors c catchParam id fun _ => [] := by
  intro P s s'
  rw [catchParam]
  refine .same mirrors_ident fun name t t' => ?_
  exact .passMark (by simp) fun _ _ u u' => .pure (fun _ => rfl) False.elim

theorem mirrors_tryStmt : MirrorsStmt c (tryStmt below) := by
  intro P s s'
  rw [tryStmt]
  refine .passKeyword fun start start' t t' => ?_
  refine .bind (mirrors_block hbelow) fun body body' u u' hbody => ?_
  refine .passKeyword fun _ _ v v' => ?_
  refine .taking (tracks_takeMark (by decide)) fun hasParam w w' => ?_
  refine .same (mirrors_optionally_same mirrors_catchParam) fun param x x' => ?_
  refine .bind (mirrors_block hbelow) fun handler handler' y y' hhandler => .spanFrom fun span' => ?_
  refine .pure (fun _ => by simp [hbody, hhandler]) fun h => .node ?_
  rw [Node.parts, Stmt.parts, Omission.needed_append, Omission.needed_append]
  exact h.imp (fun h => h.resolve_left id) .inr

omit hbelow in
/-- A `return` has a value in both readings or in none, as the token behind the semicolon stands on
a new line or closes a list of statements. -/
theorem Parallel.atStatementEnd (h : Parallel c s s') (hlast : s.last.isSome)
    (hlast' : s'.last.isSome) : s'.atStatementEnd = s.atStatementEnd := by
  rw [State.atStatementEnd, State.atStatementEnd, State.newLine, State.newLine, hlast, hlast']
  rcases h.atGap_or with hgap | ⟨hkind, hline, -⟩
  · have hsemi : s.atMark .semicolon = true := beq_iff_eq.2 hgap.kind
    rw [hsemi, hgap.kind']
    cases hcloses : c.next.kind.closesBlock with
    | true => simp
    | false => simp [(hgap.alike hcloses).onNewLine hcloses, (c.starts hcloses).2]
  · rw [State.atMark, State.atMark, hkind]
    cases hcloses : s.kind.closesBlock with
    | true => simp
    | false => rw [hline hcloses]

theorem mirrors_returnStmt : MirrorsStmt c (returnStmt below) := by
  intro P s s'
  rw [returnStmt]
  refine .andThen (tracks_expectKeyword _) fun start start' t t' => .get ?_
  refine .of_eq (f := fun b => optionally (!b) (below.expr 0) >>= _) t'.atStatementEnd
    (fun h ht => ht.atStatementEnd h.2.last h.2.last') ?_
  refine .bind (mirrors_optionally (hbelow.expr 0)) fun value value' u u' hvalue => ?_
  refine tracks_terminated (fun span span' => by simp [hvalue]) fun h span => ?_
  exact h.resolve_left fun h => h.elim id id

/-! ### Imports and exports -/

omit hbelow in
theorem mirrors_aliased {name other : Parser Ident} (hname : Mirrors c name id fun _ => [])
    (hother : Mirrors c other id fun _ => []) : Mirrors c (aliased name other) id fun _ => [] := by
  intro P s s'
  rw [aliased]
  refine .same hname fun first t t' => ?_
  refine .taking (tracks_takeName "as") fun hasOther u u' => ?_
  refine .same (mirrors_optionally_same hother) fun second v v' => ?_
  exact .pure (fun _ => rfl) False.elim

omit hbelow in
theorem mirrors_importSpec : Mirrors c importSpec id fun _ => [] := by
  intro P s s'
  rw [importSpec]
  exact .same (mirrors_aliased mirrors_propertyName mirrors_ident) fun names t t' =>
    .pure (fun _ => rfl) False.elim

omit hbelow in
theorem mirrors_exportSpec : Mirrors c exportSpec id fun _ => [] := by
  intro P s s'
  rw [exportSpec]
  exact .same (mirrors_aliased mirrors_propertyName mirrors_propertyName) fun names t t' =>
    .pure (fun _ => rfl) False.elim

omit hbelow in
theorem exec_aliased_atGap {other : Parser Ident} (hgap : AtGap c s s') :
    (exec (aliased propertyName other) s).1 = none :=
  exec_bind_of_none (exec_propertyName_atGap hgap)

omit hbelow in
theorem mirrors_specs {spec : Parser α} {spelling : α → Spelling} {read : α → List Node}
    (hreads : ReadsBoth c k spec spelling read) (hspec : Mirrors c spec id fun _ => [])
    (hnone : ∀ {u u' : State}, AtGap c u u' → (exec spec u).1 = none) :
    Mirrors c (specs spec) id fun _ => [] := by
  intro P s s'
  rw [specs]
  refine .passMark (by simp) fun _ _ t t' => ?_
  refine .same (mirrors_items_same hreads hnone (by simp) hspec) fun names u u' => ?_
  exact .passMark (by simp) fun _ _ v v' => .pure (fun _ => rfl) False.elim

omit hbelow in
theorem mirrors_importSpecs : Mirrors c importSpecs id fun _ => [] := by
  intro P s s'
  rw [importSpecs]
  refine .taking (tracks_takeMark (by decide)) fun b t t' => ?_
  cases b with
  | true =>
    refine .pass (tracks_expectName "as") fun _ _ u u' => ?_
    exact .same mirrors_ident fun name v v' => .pure (fun _ => rfl) False.elim
  | false =>
    exact mirrors_specs ⟨reads_importSpec 0, reads_importSpec 0⟩ mirrors_importSpec
      (fun hgap => exec_bind_of_none (exec_aliased_atGap hgap)) t t'

omit hbelow in
theorem mirrors_importClause : Mirrors c importClause id fun _ => [] := by
  intro P s s'
  rw [importClause]
  refine .get (.ite (fun _ hs => ?_) (fun _ => ?_) fun _ => mirrors_importSpecs s s')
  · rw [hs.kind_beq (by decide), hs.atName]
  · refine .same mirrors_ident fun name t t' => ?_
    refine .taking (tracks_takeMark (by decide)) fun b u u' => ?_
    cases b with
    | true => exact .same mirrors_importSpecs fun more v v' => .pure (fun _ => rfl) False.elim
    | false => exact .pure (fun _ => rfl) False.elim

omit hbelow in
theorem mirrors_importStmt : MirrorsStmt c importStmt := by
  intro P s s'
  rw [importStmt]
  refine .passKeyword fun start start' t t' => ?_
  refine .same mirrors_importClause fun names u u' => ?_
  refine .pass (tracks_expectName "from") fun _ _ v v' => ?_
  refine .same mirrors_textLit fun lit w w' => ?_
  exact tracks_terminated (fun span span' => by simp) False.elim

/-- An exported declaration, after `export`. -/
theorem tracks_exportedDecl (start start' : Span) (kind : DeclKind) :
    TracksStmt c s s' P False (exportedDecl below start kind) (exportedDecl below start' kind) := by
  rw [exportedDecl, exportedDecl]
  refine .bind (mirrors_declaration hbelow kind tracks_terminate) fun d d' t t' hd => ?_
  refine .spanFrom fun span' => ?_
  exact .pure (fun _ => by simp [hd]) fun h => .node (h.resolve_left id)

omit hbelow in
/-- What is read as a function is made from its parts. -/
theorem exists_of_exec_function {make : Span → Option Ident → List Param → List Stmt → α} {a : α}
    (h : (exec (function below make) s).1 = some a) :
    ∃ span name ps body, a = make span name ps body := by
  have hexec : exec (function below make) s = (some a, (exec (function below make) s).2) :=
    Prod.ext h rfl
  unfold function at hexec
  obtain ⟨start, t, -, hexec⟩ := exec_bind_eq_some hexec
  rw [exec_get] at hexec
  obtain ⟨name, u, -, hexec⟩ := exec_bind_eq_some hexec
  obtain ⟨_, v, -, hexec⟩ := exec_bind_eq_some hexec
  obtain ⟨ps, w, -, hexec⟩ := exec_bind_eq_some hexec
  obtain ⟨_, x, -, hexec⟩ := exec_bind_eq_some hexec
  obtain ⟨body, y, -, hexec⟩ := exec_bind_eq_some hexec
  obtain ⟨span, z, -, hexec⟩ := exec_bind_eq_some hexec
  exact ⟨span, name, ps, body, (Option.some.inj (congrArg Prod.fst hexec)).symm⟩

/-- An exported function, after `export`. Before a token that closes a list, it needs the
semicolon. -/
theorem tracks_exportedFunction (start' : Span)
    (hlo : start.lo ≤ s.current.lo) :
    TracksStmt c s s' P False (exportedFunction below start) (exportedFunction below start') := by
  rw [exportedFunction, exportedFunction]
  have hfunction := mirrors_function hbelow
    (fun span name ps body => (name, Stmt.function span name ps body))
    (fun a => (a.1, a.2.stripped)) (fun a => .stmt a.2)
    (fun span span' name ps body body' hbody => by simp [hbody])
    fun _ _ _ _ => rfl
  have hread := (reads_function hbelow.sound
    (fun span name ps body => (name, Stmt.function span name ps body)) (fun a => .stmt a.2)
    (fun _ _ _ _ => ⟨rfl, rfl, rfl, trivial, by simp, rfl⟩) s).recall
  refine .laying (hfunction s s') hread fun a a' t t' ⟨hinner, hexec⟩ => ?_
  obtain ⟨span, _, ps, body, rfl⟩ := exists_of_exec_function (congrArg Prod.fst hexec)
  obtain ⟨name', inner'⟩ := a'
  refine .laying
    (tracks_reportWhen (fun h => congrArg Option.isNone (Prod.mk.inj h.2).1) _ _ rfl rfl)
    (reads_reportWhen _ _ rfl rfl t) fun _ _ u u' hu => ?_
  refine .laying tracks_attempt_semicolon (reading_expectMark _).attempt
    fun o o' v v' hv => .spanFrom fun span' => .pure (fun h => ?_) fun h => ?_
  · simp [(Prod.mk.inj h.1.1.2).2]
  · rcases h with ((h | h) | h) | ⟨hcloses, rfl⟩
    · exact h.elim
    · exact .node h
    · exact h.elim
    · -- the semicolon is the last token of the export and lies behind the function
      obtain ⟨hencloses, hbetween, -⟩ :=
        between_of_passes (n := .stmt (.exportDecl (start.through v.lastSpan) _))
          (hinner.onto hu.onward) (hv.2 c.semi rfl) (.nil (.refl hv.1.fine)) hlo rfl rfl
      exact Omission.NeededBy.needed ⟨hencloses, hbetween, .inr (.inr ⟨hcloses, _, rfl, rfl⟩)⟩

omit hbelow in
/-- All names of a module, exported again, after `export`. -/
theorem tracks_exportedModule (start start' : Span) :
    TracksStmt c s s' P False (exportedModule start) (exportedModule start') := by
  rw [exportedModule, exportedModule]
  refine .passMark (by simp) fun _ _ t t' => ?_
  refine .taking (tracks_takeName "as") fun hasName u u' => ?_
  refine .same (mirrors_optionally_same mirrors_ident) fun newName v v' => ?_
  refine .pass (tracks_expectName "from") fun _ _ w w' => ?_
  refine .same mirrors_textLit fun lit x x' => ?_
  exact tracks_terminated (fun span span' => by simp) False.elim

omit hbelow in
/-- Exported names in braces, after `export`. -/
theorem tracks_exportedNames (start start' : Span) :
    TracksStmt c s s' P False (exportedNames start) (exportedNames start') := by
  rw [exportedNames, exportedNames]
  refine .same (mirrors_specs ⟨reads_exportSpec 0, reads_exportSpec 0⟩ mirrors_exportSpec fun hgap =>
    exec_bind_of_none (exec_aliased_atGap hgap)) fun names t t' => ?_
  refine .taking (tracks_takeName "from") fun hasSource u u' => ?_
  refine .same (mirrors_optionally_same mirrors_textLit) fun lit v v' => ?_
  exact tracks_terminated (fun span span' => by simp) False.elim

/-- What is exported, after `export`, as the token behind it tells. -/
def exported (below : Level) (start : Span) : TokenKind → Parser Stmt
  | .keyword .letKw => exportedDecl below start .letDecl
  | .keyword .constKw => exportedDecl below start .constDecl
  | .keyword .functionKw => exportedFunction below start
  | .keyword .defaultKw => do
    let _ ← expectKeyword .defaultKw
    let value ← below.expr 0
    terminated start fun span => .exportDefault span value
  | .punct .star => exportedModule start
  | .punct .lbrace => exportedNames start
  | _ =>
    unexpected [.keyword .letKw, .keyword .constKw, .keyword .functionKw, .keyword .defaultKw,
      .punct .lbrace, .punct .star]

omit hbelow in
theorem exportStmt_eq :
    exportStmt below =
      (do
        let start ← expectKeyword .exportKw
        let s ← get
        exported below start.span s.kind) :=
  rfl

theorem tracks_exported (start' : Span)
    (hlo : start.lo ≤ s.current.lo) (kind : TokenKind) :
    TracksStmt c s s' P False (exported below start kind) (exported below start' kind) := by
  unfold exported
  split
  · exact tracks_exportedDecl hbelow _ _ _
  · exact tracks_exportedDecl hbelow _ _ _
  · exact tracks_exportedFunction hbelow _ hlo
  · refine .passKeyword fun _ _ t t' => ?_
    refine .bind (hbelow.expr 0) fun value value' u u' hvalue => ?_
    exact tracks_terminated (fun span span' => by simp [hvalue])
      fun h _ => h.resolve_left id
  · exact tracks_exportedModule _ _
  · exact tracks_exportedNames _ _
  · exact tracks_unexpected _ _

theorem mirrors_exportStmt : MirrorsStmt c (exportStmt below) := by
  intro P s s'
  rw [exportStmt_eq]
  refine .laying (tracks_expectKeyword _) (reading_expectKeyword _)
    fun start start' t t' hstart => .get (.byGap ?_)
  have hlo : start.span.lo ≤ t.current.lo := hstart.lo_lt.le
  refine .of_eq (f := exported below start'.span) t'.kind (fun h ht => ht.kind_eq h.2) ?_
  by_cases hsemi : t.kind = .punct .semicolon
  · rw [hsemi]
    exact tracks_unexpected _ _
  · refine (tracks_exported hbelow _ hlo _).weaken id fun h => ?_
    exact (h.resolve_right fun hgap => hsemi hgap.kind).elim id id

/-! ### All statements -/

theorem mirrors_exprStmt : MirrorsStmt c (exprStmt below) := by
  intro P s s'
  rw [exprStmt]
  refine .get (.bind (hbelow.expr 0) fun e e' t t' he => ?_)
  exact tracks_terminated (fun span span' => by simp [he]) fun h _ => h.resolve_left id

omit hbelow in
theorem mirrors_wordStmt (word : Keyword) {make : Span → Stmt}
    (hmake : ∀ span span', (make span').stripped = (make span).stripped) :
    MirrorsStmt c (wordStmt word make) := by
  intro P s s'
  rw [wordStmt]
  refine .passKeyword fun start start' t t' => ?_
  exact tracks_terminated hmake False.elim

theorem mirrors_blockStmt : MirrorsStmt c (blockStmt below) := by
  intro P s s'
  rw [blockStmt]
  refine .get (.bind (mirrors_block hbelow) fun body body' t t' hbody => .spanFrom fun span' => ?_)
  exact .pure (fun _ => by simp [hbody]) fun h => .node (h.resolve_left id)

omit hbelow in
/-- A semicolon by itself is needed. -/
theorem needed_empty : c.Needed [.stmt (.empty c.semi.span)] :=
  Omission.NeededBy.needed ⟨⟨le_rfl, le_rfl⟩, by simp [Node.parts, Stmt.parts], .inl rfl⟩

omit hbelow in
theorem mirrors_emptyStmt : MirrorsStmt c emptyStmt := by
  intro P s s'
  rw [emptyStmt]
  refine .andThen tracks_semicolon fun tok tok' t t' => .pure (fun _ => ?_) fun h => ?_
  · simp
  · rw [h.resolve_left id]
    exact needed_empty

omit hbelow in
/-- A statement at the place of the semicolon is a semicolon by itself. -/
theorem needed_of_exec_statement (hgap : AtGap c s s') (a : Stmt) (t : State)
    (hexec : exec (statement below) s = (some a, t)) : c.Needed [.stmt a] := by
  have hexec : exec emptyStmt s = (some a, t) := by
    unfold statement at hexec
    rwa [exec_get, hgap.kind] at hexec
  rw [emptyStmt, exec_bind, expectMark, exec_expect_of_eq hgap.kind, hgap.current] at hexec
  cases hexec
  exact needed_empty

theorem mirrors_statement : MirrorsStmt c (statement below) := by
  intro P s s'
  refine .unlessGap id (reads_statement hbelow.sound s)
    (fun hgap a t hexec _ => needed_of_exec_statement hgap a t hexec) fun hs _ hkind => ?_
  · unfold statement
    refine .get ?_
    rw [hkind]
    split
    · exact mirrors_declaration hbelow _ tracks_terminate s s'
    · exact mirrors_declaration hbelow _ tracks_terminate s s'
    · next h =>
      rw [hs.ahead_one (by simp [h]) (k := .label) (by decide)]
      split
      · refine mirrors_function hbelow Stmt.function Stmt.stripped Node.stmt ?_ (fun _ _ _ _ => rfl) s s'
        intro span span' name ps body body' hbody
        simp [hbody]
      · exact mirrors_exprStmt hbelow s s'
    · exact mirrors_ifStmt hbelow s s'
    · exact mirrors_whileStmt hbelow s s'
    · exact mirrors_forStmt hbelow s s'
    · exact mirrors_switchStmt hbelow s s'
    · exact mirrors_tryStmt hbelow s s'
    · exact mirrors_returnStmt hbelow s s'
    · exact mirrors_wordStmt _ (by simp) s s'
    · exact mirrors_wordStmt _ (by simp) s s'
    · exact mirrors_blockStmt hbelow s s'
    · exact mirrors_emptyStmt s s'
    · exact mirrors_importStmt s s'
    · exact mirrors_exportStmt hbelow s s'
    · exact mirrors_exprStmt hbelow s s'

end Parser

end ScriptCheck
