import ScriptCheck.Proofs.ReadProgram

/-!
# Progress of reading

Wherever reading gets to in the tokens of a script or of one of its interpolations, no part goes back
or passes the end (`Reader.onward`), an item that can be read passes a token, and so does every round
of a loop (`Round.passes`). Therefore no loop runs out of the rounds it is given, which are as many as
tokens follow (`statementsUpTo_succ` and its like), and a script is read to its end.
-/

namespace ScriptCheck

open List Text

namespace Parser

variable {α : Type} {c : Sheet} {k : Nat} {L : Level} {s t : State} {p : Parser α}

/-! ### The parts that are read -/

/-- The parts that pass a token if they can be read: statements, expressions, and the items of
lists. -/
inductive Item (L : Level) : {α : Type} → Parser α → Prop
  | stmt : Item L L.stmt
  | expr (power : Nat) : Item L (L.expr power)
  | param : Item L param
  | element : Item L (element L)
  | property : Item L (property L)
  | importSpec : Item L importSpec
  | exportSpec : Item L exportSpec

/-- The parts that can be read in a state. -/
inductive Reader (L : Level) (s : State) : {α : Type} → Parser α → Prop
  | advance (h : s.kind.isError = false) : Reader L s (liftM advance)
  | skip : Reader L s (modify State.skip)
  | take {kind : TokenKind} (hne : kind ≠ .eof) (herr : kind.isError = false) :
    Reader L s (liftM (take kind))
  | takeName (w : String) : Reader L s (liftM (takeName w))
  | expect {kind : TokenKind} (hne : kind ≠ .eof) (herr : kind.isError = false) :
    Reader L s (expect kind)
  | expectEnd : Reader L s (expect .eof)
  | expectName (w : String) : Reader L s (expectName w)
  | unexpected (kinds : List TokenKind) : Reader L s (unexpected kinds : Parser Unit)
  | descend : Reader L s descend
  | terminate : Reader L s (liftM terminate)
  | recover (ends : List TokenKind) (stuck : Bool) : Reader L s (modify (State.recover ends stuck))
  | passComma (close : TokenKind) : Reader L s (modifyGet (State.passComma? close))
  | ident : Reader L s ident
  | propertyName : Reader L s propertyName
  | textLit : Reader L s textLit
  | item {α : Type} {p : Parser α} (h : Item L p) : Reader L s p
  | retrying {α : Type} {p : Parser α} (h : Item L p) (close : TokenKind) (n : Nat) :
    Reader L s (retrying close p n)
  | itemsUpTo {α : Type} {p : Parser α} (h : Item L p) (close : TokenKind) (n : Nat) :
    Reader L s (itemsUpTo close p n)
  | statements (ends : List TokenKind) : Reader L s (liftM (statements L.stmt ends))
  | params : Reader L s params
  | block : Reader L s (block L)
  | function : Reader L s (function L Stmt.function)
  | functionOperand : Reader L s (Parser.function L Expr.function)
  | parenExpr : Reader L s (parenExpr L)
  | arrowBody (start : Span) (ps : List Param) : Reader L s (arrowBody L start ps)
  | operand : Reader L s (operand L)
  | template (h : s.kind = .template) : Reader L s (templateOperand L)
  | checkTarget (e : Expr) : Reader L s (liftM (checkTarget e))
  | applied (op : Infix) (lhs : Expr) : Reader L s (applied L op lhs)
  | wholeExpr (textEnd : Nat) : Reader L s (liftM (wholeExpr L textEnd))
  | declaration (kind : DeclKind) : Reader L s (declaration L kind terminate)
  | loopBody (close : Keyword) : Reader L s (loopBody L close)
  | ifStmt : Reader L s (ifStmt L)
  | whileStmt : Reader L s (whileStmt L)
  | forStmt : Reader L s (forStmt L)
  | casesUpTo (n : Nat) (hasDefault : Bool) : Reader L s (casesUpTo L n hasDefault)
  | switchStmt : Reader L s (switchStmt L)
  | tryStmt : Reader L s (tryStmt L)
  | returnStmt : Reader L s (returnStmt L)
  | importStmt : Reader L s importStmt
  | exportStmt : Reader L s (exportStmt L)
  | statement : Reader L s (statement L)

/-- What is known of an item: it is read over its nodes, of which there is at least one. -/
def ReadsItem (c : Sheet) (k : Nat) (p : Parser α) : Prop :=
  ∃ (spelling : α → Spelling) (nodes : α → List Node), ∀ s,
    Reading c s p (fun a us => spelling a s.rest us)
      fun a t => Passes c k s t (nodes a) ∧ nodes a ≠ []

theorem Reads.item {spelling : α → Spelling} {nodes : α → List Node}
    (h : Reads c k p spelling nodes) (hne : ∀ a, nodes a ≠ []) : ReadsItem c k p :=
  ⟨spelling, nodes, fun s => (h s).mono (fun _ _ h => h) fun a _ h => ⟨h, hne a⟩⟩

theorem Item.reads (hL : L.Sound c k) (h : Item L p) : ReadsItem c k p := by
  cases h with
  | stmt => exact hL.stmt.item (by simp)
  | expr power => exact (hL.expr power).item (by simp)
  | param => exact (reads_param k).item (by simp)
  | element => exact (reads_element hL).item (by simp)
  | property =>
    refine ⟨_, _, fun s => (reads_property hL).mono (fun _ _ h => h) fun a _ h => ⟨h.1, ?_⟩⟩
    cases a <;> simp [Property.parts]
  | importSpec => exact (reads_importSpec k).item fun a => by cases a <;> simp [ImportSpec.names]
  | exportSpec => exact (reads_exportSpec k).item fun a => by simp [ExportSpec.names]

theorem ReadsItem.onward (h : ReadsItem c k p) (hs : s.Fine c) {o : Option α}
    (heq : exec p s = (o, t)) : Onward c s t := by
  obtain ⟨_, _, h⟩ := h
  have hmoves := (h s).onward hs
  rwa [heq] at hmoves

/-- An item that is read passes a token. -/
theorem ReadsItem.passes (h : ReadsItem c k p) (hs : s.Fine c) {a : α}
    (heq : exec p s = (some a, t)) : Onward c s t ∧ t.rest.length < s.rest.length := by
  obtain ⟨_, nodes, h⟩ := h
  have hgot := h s hs
  rw [heq] at hgot
  obtain ⟨hpass, hne⟩ := hgot.value
  obtain ⟨n, ns, hcons⟩ := exists_cons_of_ne_nil hne
  rw [hcons] at hpass
  exact ⟨hgot.onward, hpass.length_lt⟩

theorem ReadsItem.retrying (h : ReadsItem c k p) (close : TokenKind) (n : Nat) :
    ReadsItem c k (retrying close p n) := by
  obtain ⟨spelling, nodes, h⟩ := h
  exact ⟨spelling, nodes, reading_retrying close h n⟩

theorem runs_arrowBody (hL : L.Sound c k) (start : Span) (ps : List Param) :
    Runs c (arrowBody L start ps) := by
  refine .get fun s => ?_
  split
  · exact .bind (.of_reads (reads_block hL)) fun _ => .spanFrom _ fun _ => .pure _
  · exact .bind (.of_reads (hL.expr 0)) fun _ => .spanFrom _ fun _ => .pure _

/-- What follows an operator is read whatever stands before it. -/
theorem runs_applied (hL : L.Sound c k) (op : Infix) (lhs : Expr) : Runs c (applied L op lhs) := by
  have hexpr (power : Nat) : Runs c (L.expr power) := .of_reads (hL.expr power)
  have hcheck : Runs c (liftM (checkTarget lhs)) := .of_reads (reads_checkTarget lhs)
  unfold applied
  cases op with
  | assign => exact .bind hcheck fun _ => .bind (hexpr _) fun _ => .spanFrom _ fun _ => .pure _
  | conditional =>
    refine .bind (hexpr 0) fun _ => .mark fun _ => ?_
    exact .bind (hexpr _) fun _ => .spanFrom _ fun _ => .pure _
  | binary => exact .bind (hexpr _) fun _ => .spanFrom _ fun _ => .pure _
  | update => exact .bind hcheck fun _ => .spanFrom _ fun _ => .pure _
  | member =>
    exact .bind (.of_reads (reads_propertyName k)) fun _ => .spanFrom _ fun _ => .pure _
  | call =>
    refine .bind (.of_reads (reads_items _ (reads_element hL))) fun _ => .mark fun _ => ?_
    exact .spanFrom _ fun _ => .pure _
  | index => exact .bind (hexpr 0) fun _ => .mark fun _ => .spanFrom _ fun _ => .pure _

theorem Reader.onward (hL : L.Sound c k) (hs : s.Fine c) (h : Reader L s p) :
    Onward c s (exec p s).2 := by
  cases h with
  | advance herr => exact hs.advance herr
  | skip => exact hs.skip
  | take hne herr => exact (reading_take hne herr).onward hs
  | takeName w => exact (reading_takeName w).onward hs
  | expect hne herr => exact (reading_expect hne herr).onward hs
  | expectEnd => exact (exec_expect_eof hs).1
  | expectName w => exact (reads_expectName w s).onward hs
  | unexpected kinds => exact hs.unexpected kinds
  | descend => exact (reads_descend s).onward hs
  | terminate => exact hs.terminate
  | recover ends stuck => exact hs.recover ends stuck
  | passComma close => exact hs.passComma? close
  | ident => exact (reads_ident k s).onward hs
  | propertyName => exact (reads_propertyName k s).onward hs
  | textLit => exact reading_textLit.onward hs
  | item h => exact (h.reads hL).onward hs rfl
  | retrying h close n => exact ((h.reads hL).retrying close n).onward hs rfl
  | itemsUpTo h close n =>
    obtain ⟨_, _, h⟩ := h.reads hL
    exact (reading_itemsUpTo close h n s).onward hs
  | statements ends => exact (reads_statements hL.stmt ends s).onward hs
  | params => exact (reads_params k s).onward hs
  | block => exact (reads_block hL s).onward hs
  | function =>
    exact (reads_function hL Stmt.function .stmt
      (fun _ _ _ _ => ⟨rfl, rfl, rfl, trivial, by simp, rfl⟩) s).onward hs
  | functionOperand =>
    exact (reads_function hL Expr.function .expr
      (fun _ _ _ _ => ⟨rfl, rfl, rfl, trivial, by simp, rfl⟩) s).onward hs
  | parenExpr => exact (reads_parenExpr hL s).onward hs
  | arrowBody start ps => exact runs_arrowBody hL start ps s hs
  | operand => exact (reads_operand hL s).onward hs
  | template hkind => exact (reading_templateOperand hL hkind).onward hs
  | checkTarget e => exact (reads_checkTarget e s).onward hs
  | applied op lhs => exact runs_applied hL op lhs s hs
  | wholeExpr textEnd =>
    have hexpr := (hL.expr 0 s).onward hs
    exact hexpr.trans (exec_expect_eof hexpr.fine).1
  | declaration kind => exact (reads_declaration hL kind reads_terminate s).onward hs
  | loopBody close => exact (reads_loopBody hL close s).onward hs
  | ifStmt => exact (reads_ifStmt hL s).onward hs
  | whileStmt => exact (reads_whileStmt hL s).onward hs
  | forStmt => exact (reads_forStmt hL s).onward hs
  | casesUpTo n hasDefault => exact (reads_casesUpTo hL n hasDefault s).onward hs
  | switchStmt => exact (reads_switchStmt hL s).onward hs
  | tryStmt => exact (reads_tryStmt hL s).onward hs
  | returnStmt => exact (reads_returnStmt hL s).onward hs
  | importStmt => exact (reads_importStmt (k := k) s).onward hs
  | exportStmt => exact (reads_exportStmt hL s).onward hs
  | statement => exact (reads_statement hL s).onward hs

/-! ### Rounds of loops -/

/-- One round of a loop: from where a statement, an item, a case or an operator is read to where the
next one is. -/
inductive Round (L : Level) (s : State) : State → Prop
  /-- A statement of a list is read. -/
  | statement {t : State} {a : Stmt} (h : exec L.stmt s = (some a, t)) : Round L s t
  /-- A statement cannot be read, and reading goes on where the next one may start. -/
  | recovery {t : State} {ends : List TokenKind} (hs : s.atEnd ends = false)
    (h : exec L.stmt s = (none, t)) : Round L s (t.recover ends (t.rest.length == s.rest.length))
  /-- A token is skipped on the way to where reading goes on. -/
  | skip (hs : s.kind ≠ .eof) : Round L s s.skip
  /-- An item of a list is read, by some tries, and the comma behind it is passed. -/
  | item {α : Type} {p : Parser α} (hp : Item L p) {close : TokenKind} {n : Nat} {a : α} {t : State}
    (h : exec (retrying close p n) s = (some a, t)) (hcomma : t.atMark .comma) : Round L s t.advance
  /-- An item cannot be read, and the next try is behind the next comma. -/
  | retry {α : Type} {p : Parser α} (hp : Item L p) {close : TokenKind} {t u : State}
    (h : exec p s = (none, t)) (hcomma : t.passComma? close = (true, u)) : Round L s u
  /-- A case of a switch is read. -/
  | case {a : SwitchCase} {t : State}
    (h : exec (do
      let start ← expectKeyword .caseKw
      let test ← L.expr 0
      caseBody L start.span (some test)) s = (some a, t)) : Round L s t
  /-- A case of a switch without a test is read. -/
  | default (hasDefault : Bool) {a : SwitchCase} {t : State}
    (h : exec (do
      let start ← expectKeyword .defaultKw
      reportWhen hasDefault start.span .duplicateDefault
      caseBody L start.span none) s = (some a, t)) : Round L s t
  /-- A token that starts no case is skipped. -/
  | stray (kinds : List TokenKind) (hs : s.kind ≠ .eof) : Round L s (s.unexpected kinds).skip
  /-- An operator is applied to what stands before it. -/
  | operator {op : Infix} {lhs e : Expr} {t : State} (hop : s.operator? = some op)
    (h : exec (do descend; applied L op lhs) s.advance = (some e, t)) : Round L s t

theorem Reading.value {Q : α → List Token → Prop} {W : α → State → Prop} (h : Reading c s p Q W)
    (hs : s.Fine c) {a : α} (heq : exec p s = (some a, t)) : Onward c s t ∧ W a t := by
  have hgot := h hs
  rw [heq] at hgot
  exact ⟨hgot.onward, hgot.value⟩

theorem State.Fine.skip_lt (hs : s.Fine c) (hkind : s.kind ≠ .eof) :
    Onward c s s.skip ∧ s.skip.rest.length < s.rest.length := by
  obtain ⟨rest, hrest⟩ := hs.exists_rest hkind
  refine ⟨hs.skip, ?_⟩
  rw [State.length_skip, hrest]
  exact Nat.lt_succ_self _

theorem State.Fine.passComma?_lt (hs : s.Fine c) {close : TokenKind}
    (h : s.passComma? close = (true, t)) : Onward c s t ∧ t.rest.length < s.rest.length := by
  unfold State.passComma? at h
  have hmoves := hs.skipUntil fun s => s.breaksList close || s.atMark .comma
  generalize s.skipUntil _ = u at h hmoves
  dsimp only at h
  split at h
  · exact absurd (congrArg Prod.fst h) Bool.false_ne_true
  · next hbreak =>
    obtain ⟨-, rfl⟩ := Prod.mk.inj h
    obtain ⟨hskip, hlt⟩ := hmoves.fine.skip_lt fun hkind => hbreak (by
      simp [State.breaksList, State.atEnd, hkind])
    exact ⟨hmoves.trans hskip, hlt.trans_le hmoves.length_le⟩

/-- Every round moves on and passes a token. -/
theorem Round.passes (hL : L.Sound c k) (hs : s.Fine c) (h : Round L s t) :
    Onward c s t ∧ t.rest.length < s.rest.length := by
  cases h with
  | statement h => exact (Item.stmt.reads hL).passes hs h
  | recovery hend h =>
    -- the statement may have passed no token, and then the first one is skipped
    have hmoves := (Item.stmt.reads hL).onward hs h
    refine ⟨hmoves.trans (hmoves.fine.recover _ _), State.length_recover_lt _ hmoves fun hnil => ?_⟩
    exact Bool.false_ne_true (hend.symm.trans (hs.atEnd_of_length _ (by simp [hnil])))
  | skip hkind => exact hs.skip_lt hkind
  | item hp h hcomma =>
    obtain ⟨hmoves, hlt⟩ := ((hp.reads hL).retrying _ _).passes hs h
    have hpass := hmoves.fine.advance_of_atMark hcomma
    exact ⟨hmoves.trans hpass, hpass.length_le.trans_lt hlt⟩
  | retry hp h hcomma =>
    have hmoves := (hp.reads hL).onward hs h
    obtain ⟨hpass, hlt⟩ := hmoves.fine.passComma?_lt hcomma
    exact ⟨hmoves.trans hpass, hlt.trans_le hmoves.length_le⟩
  | case h =>
    refine (Reading.value (Q := fun _ _ => True) (W := fun a t => Passes c k s t [.case a]) ?_ hs
      h).imp_right Passes.length_lt
    refine .keyword fun start t hstart => .bind (hL.expr 0 t) fun test u htest => ?_
    exact (reading_caseBody hL hstart (.inl rfl) htest).mono (fun _ _ _ _ _ => trivial)
      fun _ _ h => h
  | default hasDefault h =>
    refine (Reading.value (Q := fun _ _ => True) (W := fun a t => Passes c k s t [.case a]) ?_ hs
      h).imp_right Passes.length_lt
    refine .keyword fun start t hstart => .bind (reads_reportWhen _ _ rfl rfl t) fun _ u hu => ?_
    exact (reading_caseBody hL hstart (.inr rfl) (.nil hu.onward)).mono
      (fun _ _ _ _ _ => trivial) fun _ _ h => h
  | stray kinds hkind =>
    have hmoves := hs.unexpected kinds
    have hrest : (s.unexpected kinds).rest = s.rest := by
      unfold State.unexpected State.reportCurrent
      split
      · exact s.rest_reportLexical
      · rfl
    refine (hmoves.fine.skip_lt ?_).imp hmoves.trans fun hlt => hrest ▸ hlt
    rwa [State.kind, State.current, hrest, hmoves.eof_eq]
  | @operator op lhs _ _ hop h =>
    obtain ⟨hne, herr⟩ := TokenKind.wellFormed_of_operator? (State.operator?_kind hop)
    have htook := took_advance hs hne herr
    have hmoves := Runs.bind (.of_reads reads_descend) (fun _ => runs_applied hL op lhs) _
      htook.onward.fine
    rw [h] at hmoves
    exact ⟨htook.onward.trans hmoves, hmoves.length_le.trans_lt htook.length_lt⟩

/-! ### Enough rounds -/

/-- What does the same with one round more does the same with any number of them. -/
theorem eq_of_succ {β : Type} {f : Nat → β} {l m : Nat} (h : ∀ n, l ≤ n → f (n + 1) = f n)
    (hm : l ≤ m) : f m = f l :=
  Nat.le_induction rfl (fun n hn ih => (h n hn).trans ih) m hm

theorem exec_bind_congr {β : Type} {f g : α → Parser β}
    (h : ∀ a t, exec p s = (some a, t) → exec (f a) t = exec (g a) t) :
    exec (p >>= f) s = exec (p >>= g) s := by
  rw [exec_bind, exec_bind]
  rcases heq : exec p s with ⟨_ | a, t⟩
  · rfl
  · exact h a t heq

theorem exec_bind_left {β : Type} {q : Parser α} (f : α → Parser β) (h : exec p s = exec q s) :
    exec (p >>= f) s = exec (q >>= f) s := by
  rw [exec_bind, exec_bind, h]

/-- With as many rounds as tokens follow, one round more changes nothing for statements. -/
theorem statementsUpTo_succ (hL : L.Sound c k) (ends : List TokenKind) (n : Nat) (hs : s.Fine c)
    (hn : s.rest.length ≤ n) :
    (statementsUpTo L.stmt ends (n + 1)).run s = (statementsUpTo L.stmt ends n).run s := by
  induction n generalizing s with
  | zero =>
    rw [run_statementsUpTo_succ, if_pos (hs.atEnd_of_length ends (by omega))]
    rfl
  | succ n ih =>
    rw [run_statementsUpTo_succ, run_statementsUpTo_succ _ _ n]
    cases hend : s.atEnd ends with
    | true => rfl
    | false =>
      rcases h : exec L.stmt s with ⟨_ | a, t⟩
      · obtain ⟨hmoves, hlt⟩ := (Round.recovery hend h).passes hL hs
        exact ih hmoves.fine (by omega)
      · obtain ⟨hmoves, hlt⟩ := (Round.statement h).passes hL hs
        dsimp only
        rw [ih hmoves.fine (by omega)]

theorem State.Fine.passComma?_of_nil (hs : s.Fine c) (hnil : s.rest = []) (close : TokenKind) :
    s.passComma? close = (false, s) := by
  have hkind : s.kind = .eof := by simp [State.kind, State.current, hnil, hs.isEof]
  have hskip (stop : State → Bool) : s.skipUntil stop = s := by
    rw [State.skipUntil, hnil]
    rfl
  simp [State.passComma?, hskip, State.breaksList, State.atEnd, hkind]

theorem retrying_succ (hp : ReadsItem c k p) (close : TokenKind) (n : Nat) (hs : s.Fine c)
    (hn : s.rest.length ≤ n) :
    exec (retrying close p (n + 1)) s = exec (retrying close p n) s := by
  induction n generalizing s with
  | zero =>
    rw [exec_retrying_succ, retrying]
    rcases h : exec p s with ⟨_ | a, t⟩
    · -- at the end there is no comma to go on behind
      have hmoves := hp.onward hs h
      have hnil : t.rest = [] := suffix_nil.1 (length_eq_zero_iff.1 (Nat.le_zero.1 hn) ▸ hmoves.suffix)
      simp [hmoves.fine.passComma?_of_nil hnil]
    · rfl
  | succ n ih =>
    rw [exec_retrying_succ, exec_retrying_succ _ n]
    rcases h : exec p s with ⟨_ | a, t⟩
    · dsimp only
      rcases hcomma : t.passComma? close with ⟨_ | _, u⟩
      · rfl
      · have hmoves := hp.onward hs h
        obtain ⟨hpass, hlt⟩ := hmoves.fine.passComma?_lt hcomma
        have hle := hmoves.length_le
        have hn : u.rest.length ≤ n := by omega
        exact ih hpass.fine hn
    · rfl

theorem itemsUpTo_succ (hp : Item L p) (hL : L.Sound c k) (close : TokenKind) (n : Nat)
    (hs : s.Fine c) (hn : s.rest.length ≤ n) :
    exec (itemsUpTo close p (n + 1)) s = exec (itemsUpTo close p n) s := by
  induction n generalizing s with
  | zero =>
    have hend := hs.atEnd_of_length [close] (Nat.le_zero.1 hn)
    rw [exec_itemsUpTo_of_atEnd hend, exec_itemsUpTo_of_atEnd hend]
  | succ n ih =>
    unfold itemsUpTo
    rw [exec_get, exec_get]
    split
    · rfl
    · refine exec_bind_congr fun a t h => ?_
      rw [exec_takeMark, exec_takeMark]
      split
      · next hcomma =>
        obtain ⟨hmoves, hlt⟩ := (Round.item hp h hcomma).passes hL hs
        exact exec_bind_left _ (ih hmoves.fine (by omega))
      · rfl

theorem casesUpTo_more (hL : L.Sound c k) (n : Nat) (hasDefault : Bool) (hs : s.Fine c)
    (hn : s.rest.length ≤ n) :
    exec (casesUpTo L (n + 1) hasDefault) s = exec (casesUpTo L n hasDefault) s := by
  induction n generalizing s hasDefault with
  | zero =>
    have hnil := length_eq_zero_iff.1 (Nat.le_zero.1 hn)
    rw [exec_casesUpTo_of_nil _ _ hs hnil, exec_casesUpTo_of_nil _ _ hs hnil]
  | succ n ih =>
    conv_lhs => rw [casesUpTo_succ, exec_get]
    conv_rhs => rw [casesUpTo_succ, exec_get]
    split
    · rfl
    · next hend =>
      -- what follows the first case has fewer tokens left
      split
      · refine exec_bind_congr fun start t hstart => exec_bind_congr fun test u htest =>
          exec_bind_congr fun first v hfirst => ?_
        have hround : Round L s v := .case (a := first) (by simp [exec_bind, hstart, htest, hfirst])
        obtain ⟨hmoves, hlt⟩ := hround.passes hL hs
        exact exec_bind_left _ (ih _ hmoves.fine (by omega))
      · split
        · refine exec_bind_congr fun start t hstart => exec_bind_congr fun _ u hreport =>
            exec_bind_congr fun first v hfirst => ?_
          have hround : Round L s v :=
            .default hasDefault (a := first) (by simp [exec_bind, hstart, hreport, hfirst])
          obtain ⟨hmoves, hlt⟩ := hround.passes hL hs
          exact exec_bind_left _ (ih _ hmoves.fine (by omega))
        · obtain ⟨hmoves, hlt⟩ := (Round.stray [.keyword .caseKw, .keyword .defaultKw, .punct .rbrace]
            fun hkind => hend (by simp [State.atEnd, hkind])).passes hL hs
          exact ih _ hmoves.fine (Nat.le_of_lt_succ (hlt.trans_le hn))

/-! ### Progress -/

theorem Onward.tokens_suffix (h : Onward c s t) : t.tokens <:+ s.tokens := by
  obtain ⟨front, heq⟩ := h.suffix
  refine ⟨front, ?_⟩
  rw [State.tokens, State.tokens, h.eof_eq, ← append_assoc, heq]

/-- What holds of reading where it stands, with what can be read at some level. -/
structure Progress (c : Sheet) (L : Level) (s : State) : Prop where
  /-- No part goes back or passes the end, and it leads to where reading can stand. -/
  onward {α : Type} {p : Parser α} (h : Reader L s p) :
    Onward c s (exec p s).2 ∧ (exec p s).2.tokens <:+ s.tokens
  item {α : Type} {p : Parser α} (h : Item L p) {a : α} {t : State}
    (heq : exec p s = (some a, t)) : t.rest.length < s.rest.length
  round {t : State} (h : Round L s t) : t.rest.length < s.rest.length
  /-- No loop runs out of its rounds. -/
  statements (ends : List TokenKind) {n : Nat} (hn : s.rest.length ≤ n) :
    (statementsUpTo L.stmt ends n).run s = (statements L.stmt ends).run s
  retrying {α : Type} {p : Parser α} (h : Item L p) (close : TokenKind) {n : Nat}
    (hn : s.rest.length ≤ n) :
    exec (retrying close p n) s = exec (Parser.retrying close p s.rest.length) s
  items {α : Type} {p : Parser α} (h : Item L p) (close : TokenKind) {n : Nat}
    (hn : s.rest.length ≤ n) : exec (itemsUpTo close p n) s = exec (items close p) s
  cases (hasDefault : Bool) {n : Nat} (hn : s.rest.length ≤ n) :
    exec (casesUpTo L n hasDefault) s = exec (casesUpTo L s.rest.length hasDefault) s

theorem State.Fine.progress (hs : s.Fine c) (hL : L.Sound c k) : Progress c L s where
  onward h := ⟨h.onward hL hs, (h.onward hL hs).tokens_suffix⟩
  item h _ _ heq := ((h.reads hL).passes hs heq).2
  round h := (h.passes hL hs).2
  statements ends _ hn :=
    eq_of_succ (f := fun n => (statementsUpTo L.stmt ends n).run s)
      (fun n => statementsUpTo_succ hL ends n hs) hn
  retrying h close _ hn :=
    eq_of_succ (f := fun n => exec (Parser.retrying close _ n) s)
      (fun n => retrying_succ (h.reads hL) close n hs) hn
  items h close _ hn :=
    eq_of_succ (f := fun n => exec (itemsUpTo close _ n) s)
      (fun n => itemsUpTo_succ h hL close n hs) hn
  cases hasDefault _ hn :=
    eq_of_succ (f := fun n => exec (casesUpTo L n hasDefault) s)
      (fun n => casesUpTo_more hL n hasDefault hs) hn

/-- Wherever reading gets to in a script or in one of its interpolations, it stands at a token of the
list or at its end and makes progress. An interpolation is shorter than its template, and reading a
script stops at its end. -/
theorem reading_progress (mode : LexMode) (source : List Char) :
    (∀ m e, ReadAlone mode source m e → ∀ n, e.text.length ≤ n → ∀ s,
      Onward ⟨source, n⟩ (.ofTokens (tokensFrom m .none e.lo e.text)) s →
        s.tokens <:+ tokensFrom m .none e.lo e.text ∧ s.eof.kind = .eof ∧
          ∀ k, Progress ⟨source, n⟩ (Level.withLeft (interpolations (bytes source) n) k) s) ∧
      (∀ m e, ReadAlone mode source m e → ∀ t ∈ tokensFrom m .none e.lo e.text,
        t.kind = .template → t.text.length ≤ e.text.length ∧
          ∀ e' ∈ t.interpolations, e'.text.length < t.text.length) ∧
      parse mode source = ⟨⟨(readScript mode source).1⟩, (readScript mode source).2.errors⟩ ∧
      Onward (wholeSheet source) (.ofTokens (tokenize mode source)) (readScript mode source).2 ∧
      (readScript mode source).2.rest = [] := by
  refine ⟨fun m e he n hn s hs => ⟨?_, hs.fine.isEof, fun k => ?_⟩,
    fun m e he t ht hkind => ⟨?_, fun e' he' => (inside_of_mem_interpolations he').2⟩, rfl,
    (passes_readScript mode source).onward, rest_readScript mode source⟩
  · rw [← tokens_ofTokens m e]
    exact hs.tokens_suffix
  · exact hs.fine.progress (Level.sound_withLeft (sound_sheet source n) k)
  · exact (he.closed.laid_of_mem ht (by simp [hkind])).length_le

end Parser

end ScriptCheck
