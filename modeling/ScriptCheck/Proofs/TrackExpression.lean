import ScriptCheck.Proofs.Tracking

/-!
# Expressions in parallel

Each part of an expression is read in parallel, where the same is known of the level below
(`Level.Mirrors`). A semicolon starts no operand, and no operator, so an expression that is read ends
before the place of the semicolon, or the place is in the body of a function in it.
-/

namespace ScriptCheck

/-- What can be read at a level is read in parallel. At the place of the semicolon, a statement is a
semicolon by itself, and there is no expression. -/
structure Level.Mirrors (c : Parser.Setting) (k : Nat) (L : Level) : Prop where
  sound : L.Sound c.sheet k
  sound' : L.Sound c.sheet' k
  stmt : Parser.MirrorsStmt c L.stmt
  stmt_atGap {s s' : Parser.State} (hgap : Parser.AtGap c s s') (a : Stmt) (t : Parser.State)
    (hexec : Parser.exec L.stmt s = (some a, t)) : c.Needed [.stmt a]
  expr (power : Nat) : Parser.MirrorsExpr c (L.expr power)
  expr_atGap (power : Nat) {s s' : Parser.State} (hgap : Parser.AtGap c s s') :
    (Parser.exec (L.expr power) s).1 = none
  operators (power : Nat) {lhs lhs' : Expr} (hlhs : lhs'.stripped = lhs.stripped) {P : Prop}
    (s s' : Parser.State) :
    Parser.TracksExpr c s s' P (c.Needed [.expr lhs]) (L.operators power lhs)
      (L.operators power lhs')
  template {P : Prop} {s : Parser.State} (s' : Parser.State) (hkind : s.kind = .template) :
    Parser.TracksExpr c s s' P False (Parser.templateOperand L) (Parser.templateOperand L)

namespace Parser

variable {c : Setting} {k : Nat} {below : Level} {s s' : State} {P : Prop}

/-! ### Parts shared with statements -/

variable (hbelow : below.Mirrors c k)

include hbelow

theorem mirrors_stmts {ends : List TokenKind} (hends : .punct .semicolon ∉ ends) :
    Mirrors c (liftM (statements below.stmt ends)) (List.map Stmt.stripped) fun body =>
      body.map .stmt :=
  mirrors_statements hbelow.sound.stmt hbelow.sound'.stmt hbelow.stmt hbelow.stmt_atGap hends

theorem mirrors_block :
    Mirrors c (block below) (List.map Stmt.stripped) fun body => body.map .stmt := by
  intro P s s'
  unfold block
  refine .passMark (by simp) fun _ _ t t' => ?_
  refine .bind (mirrors_stmts hbelow (by decide)) fun body body' u u' hbody => ?_
  refine .passMark (by simp) fun _ _ v v' => ?_
  exact .pure (fun _ => hbody) fun h => h.resolve_left id

omit hbelow in
theorem mirrors_param : Mirrors c param id fun _ => [] := by
  intro P s s'
  unfold param
  refine .taking (tracks_takeMark (by decide)) fun rest t t' => ?_
  exact .same mirrors_ident fun name u u' => .pure (fun _ => rfl) False.elim

omit hbelow in
theorem exec_param_atGap (hgap : AtGap c s s') : (exec param s).1 = none := by
  unfold param
  rw [exec_takeMark_atGap hgap (by simp), exec_bind_of_none (exec_ident_atGap hgap)]

omit hbelow in
theorem tracks_checkRest (ps : List Param) :
    Tracks c s s' P False (liftM (checkRest ps)) (liftM (checkRest ps))
      (fun _ _ t t' => t.rest = s.rest ∧ t'.rest = s'.rest) fun _ _ => False := by
  unfold checkRest
  split
  · exact tracks_report _ _ rfl rfl
  · exact .lift (fun hs => .refl hs) id fun _ hs _ => .inr ⟨hs, rfl, rfl⟩

omit hbelow in
theorem mirrors_params : Mirrors c params id fun _ => [] := by
  intro P s s'
  unfold params
  refine .same (mirrors_items_same ⟨reads_param 0, reads_param 0⟩ exec_param_atGap (by simp)
    mirrors_param) fun ps t t' => ?_
  exact .pass (tracks_checkRest ps) fun _ _ u u' => .pure (fun _ => rfl) False.elim

theorem mirrors_functionBody :
    Mirrors c (functionBody below) (List.map Stmt.stripped) fun body => body.map .stmt := by
  intro P s s'
  unfold functionBody
  refine .taking (tracks_takeMark (by decide)) fun b t t' => ?_
  cases b with
  | true =>
    refine .bind (mirrors_stmts hbelow (by decide)) fun body body' u u' hbody => ?_
    refine .passKeyword fun _ _ v v' => ?_
    exact .pure (fun _ => hbody) fun h => h.resolve_left id
  | false => exact mirrors_block hbelow t t'

/-- A function, from whose parts a node is made. -/
theorem mirrors_function {α β : Type}
    (make : Span → Option Ident → List Param → List Stmt → α) (f : α → β) (node : α → Node)
    (hf : ∀ span span' name ps {body body' : List Stmt},
      body'.map Stmt.stripped = body.map Stmt.stripped →
        f (make span' name ps body') = f (make span name ps body))
    (hnode : ∀ span name ps body,
      (node (make span name ps body)).parts = functionParts name ps body) :
    Mirrors c (function below make) f fun a => [node a] := by
  intro P s s'
  unfold function
  refine .passKeyword fun start start' t t' => .get ?_
  refine .of_eq (f := fun b => optionally b ident >>= _) (t'.kind == .label)
    (fun _ ht => ht.kind_beq (by decide)) ?_
  refine .same (mirrors_optionally_same mirrors_ident) fun name u u' => ?_
  refine .passMark (by simp) fun _ _ v v' => ?_
  refine .same mirrors_params fun ps w w' => ?_
  refine .passMark (by simp) fun _ _ x x' => ?_
  refine .bind (mirrors_functionBody hbelow) fun body body' y y' hbody => ?_
  refine .spanFrom fun span' => .pure (fun _ => hf _ span' name ps hbody) fun h => .node ?_
  rw [hnode, functionParts, Omission.needed_append, Omission.needed_append]
  exact .inr (.inr (h.resolve_left id))

theorem mirrors_parenExpr : MirrorsExpr c (parenExpr below) := by
  intro P s s'
  unfold parenExpr
  refine .passMark (by simp) fun _ _ t t' => ?_
  refine .bind (hbelow.expr 0) fun e e' u u' he => ?_
  refine .passMark (by simp) fun _ _ v v' => ?_
  exact .pure (fun _ => he) fun h => h.resolve_left id

/-! ### Operands -/

theorem mirrors_element : MirrorsExpr c (element below) := by
  intro P s s'
  unfold element
  refine .get <| .taking (tracks_takeMark (by decide)) fun b t t' => ?_
  cases b with
  | true =>
    refine .bind (hbelow.expr 0) fun e e' u u' he => .spanFrom fun span' => ?_
    exact .pure (fun _ => by simp [he]) fun h => .node (h.resolve_left id)
  | false => exact hbelow.expr 0 t t'

theorem exec_element_atGap (hgap : AtGap c s s') :
    (exec (element below) s).1 = none := by
  unfold element
  rw [exec_get, exec_takeMark_atGap hgap (by simp)]
  exact hbelow.expr_atGap 0 hgap

theorem mirrors_elements {close : TokenKind} (hclose : close ≠ .punct .semicolon) :
    Mirrors c (items close (element below)) (List.map Expr.stripped) fun es => es.map .expr :=
  mirrors_items_node ⟨reads_element hbelow.sound, reads_element hbelow.sound'⟩
    (exec_element_atGap hbelow) hclose (mirrors_element hbelow)

theorem mirrors_propertyValue : MirrorsExpr c (propertyValue below) := by
  intro P s s'
  unfold propertyValue
  exact .passMark (by simp) fun _ _ t t' => hbelow.expr 0 t t'

theorem mirrors_wordProperty :
    Mirrors c (wordProperty below) Property.stripped Property.parts := by
  intro P s s'
  unfold wordProperty
  refine .same mirrors_propertyName fun name t t' => ?_
  refine .bind (mirrors_propertyValue hbelow) fun value value' u u' hvalue => ?_
  refine .pure (fun _ => by simp [hvalue]) fun h => ?_
  exact Omission.needed_append.2 (.inr (h.resolve_left id))

/-- A property with a number before its value. -/
theorem tracks_numberProperty {kind : TokenKind} (hkind : s.kind = kind)
    (hnumber : kind = .number ∨ kind = .double) {tok tok' : Token} (halike : tok.Alike tok') :
    Tracks c s s' P False
      (do
        let _ ← advance
        let value ← propertyValue below
        return .named (.number ⟨tok.word, tok.span⟩) value)
      (do
        let _ ← advance
        let value ← propertyValue below
        return .named (.number ⟨tok'.word, tok'.span⟩) value)
      (fun p p' _ _ => p'.stripped = p.stripped) fun p _ => c.Needed (Property.parts p) := by
  refine .advance hkind ?_ ?_ ?_
  iterate 2 rcases hnumber with rfl | rfl <;> simp [TokenKind.isPlain]
  refine .bind (mirrors_propertyValue hbelow) fun value value' t t' hvalue => ?_
  refine .pure (fun _ => by simp [hvalue, halike.word, halike.span]) fun h => ?_
  exact Omission.needed_append.2 (.inr (h.resolve_left id))

omit hbelow in
/-- The name of a property is no property before a semicolon. -/
theorem exec_wordProperty_of_ahead (hkind : s.kind = .label)
    (hahead : s.ahead 1 = .punct .semicolon) : (exec (wordProperty below) s).1 = none := by
  have hname : exec propertyName s = (some s.current.ident, s.advance) := by
    unfold propertyName
    rw [exec_get, hkind]
    exact exec_bind_of_eq (exec_expect_of_eq hkind)
  have hvalue : (exec (propertyValue below) s.advance).1 = none := by
    unfold propertyValue
    refine exec_bind_of_none ?_
    rw [expectMark, exec_expect_of_ne (by simp [s.kind_advance, hahead])]
  unfold wordProperty
  rw [exec_bind_of_eq hname]
  exact exec_bind_of_none hvalue

omit hbelow in
/-- A semicolon starts no property. -/
theorem exec_plainProperty_atGap (hgap : AtGap c s s') :
    (exec (plainProperty below) s).1 = none := by
  have hkind : s.current.kind = .punct .semicolon := hgap.kind
  unfold plainProperty
  rw [exec_get]
  simp only [hkind]
  rfl

theorem mirrors_plainProperty :
    Mirrors c (plainProperty below) Property.stripped Property.parts := by
  intro P s s'
  refine .awayFromGap id (reads_plainProperty hbelow.sound) exec_plainProperty_atGap
    fun hs hgap hkind => ?_
  · have halike := (hs.atGap_or.resolve_left hgap).2.2
    unfold plainProperty
    refine .get ?_
    dsimp only
    rw [show s'.current.kind = s.current.kind from hkind]
    split
    · next h =>
      have hne : s.kind ≠ .punct .semicolon := by simp [State.kind, h]
      -- a name before a semicolon lacks its value, though it may stand alone before a brace
      by_cases hsemi : s.ahead 1 = .punct .semicolon
      · rw [hsemi]
        exact .fails (fun hs => (reads_wordProperty hbelow.sound).onward hs)
          (exec_wordProperty_of_ahead h hsemi)
      · rw [hs.ahead_one_eq hne hsemi]
        split
        · exact .same mirrors_ident fun name t t' => .pure (fun _ => rfl) False.elim
        · exact mirrors_wordProperty hbelow s s'
    · exact mirrors_wordProperty hbelow s s'
    · refine .same mirrors_textLit fun lit t t' => ?_
      refine .bind (mirrors_propertyValue hbelow) fun value value' u u' hvalue => ?_
      refine .pure (fun _ => by simp [hvalue]) fun h => ?_
      exact Omission.needed_append.2 (.inr (h.resolve_left id))
    · next h => exact tracks_numberProperty hbelow h (.inl rfl) (halike (by simp [State.kind, h]))
    · next h => exact tracks_numberProperty hbelow h (.inr rfl) (halike (by simp [State.kind, h]))
    · next h =>
      refine .advance h (by simp) rfl ?_
      refine .bind (hbelow.expr 0) fun key key' t t' hkey => ?_
      refine .passMark (by simp) fun _ _ u u' => ?_
      refine .bind (mirrors_propertyValue hbelow) fun value value' v v' hvalue => ?_
      refine .pure (fun _ => by simp [hkey, hvalue]) fun h => ?_
      simpa [Property.parts] using h
    · exact tracks_unexpected _ _

theorem mirrors_property :
    Mirrors c (property below) Property.stripped Property.parts := by
  intro P s s'
  unfold property
  refine .taking (tracks_takeMark (by decide)) fun b t t' => ?_
  cases b with
  | true =>
    refine .bind (hbelow.expr 0) fun e e' u u' he => ?_
    exact .pure (fun _ => by simp [he]) fun h => h.resolve_left id
  | false => exact mirrors_plainProperty hbelow t t'

omit hbelow in
theorem exec_property_atGap (hgap : AtGap c s s') : (exec (property below) s).1 = none := by
  unfold property
  rw [exec_takeMark_atGap hgap (by simp)]
  exact exec_plainProperty_atGap hgap

/-- An arrow function, after its parameters and the arrow. -/
theorem tracks_arrowBody (start start' : Span) (ps : List Param) :
    TracksExpr c s s' P False (arrowBody below start ps) (arrowBody below start' ps) := by
  unfold arrowBody
  refine .get (.ite (fun _ hs => hs.atMark (by decide)) (fun _ => ?_) fun _ => ?_)
  · refine .bind (mirrors_block hbelow) fun body body' t t' hbody => .spanFrom fun span' => ?_
    refine .pure (fun _ => by simp [hbody]) fun h => .node ?_
    exact Omission.needed_append.2 (.inr (h.resolve_left id))
  · refine .bind (hbelow.expr 0) fun body body' t t' hbody => .spanFrom fun span' => ?_
    refine .pure (fun _ => by simp [hbody]) fun h => .node ?_
    exact Omission.needed_append.2 (.inr (h.resolve_left id))

omit hbelow in
/-- Whether an expression may be assigned to is the same in both readings. -/
theorem tracks_checkTarget {e e' : Expr} (he : e'.stripped = e.stripped) :
    Tracks c s s' P False (liftM (checkTarget e)) (liftM (checkTarget e'))
      (fun _ _ t t' => t.rest = s.rest ∧ t'.rest = s'.rest) fun _ _ => False := by
  refine tracks_reportWhen (fun _ => ?_) _ _ rfl rfl
  rw [← e'.isTarget_stripped, he, e.isTarget_stripped]

omit hbelow in
/-- A token that is an expression by itself. -/
theorem tracks_leaf {make : Token → Expr} {kind : TokenKind} (hkind : s.kind = kind)
    (hsemi : kind ≠ .punct .semicolon) (hplain : kind.isPlain)
    (hmake : ∀ tok tok' : Token, tok'.text = tok.text →
      (make tok').stripped = (make tok).stripped) :
    TracksExpr c s s' P False (leaf make) (leaf make) := by
  unfold leaf
  refine .advance hkind hsemi hplain ?_
  exact .pure (fun h => hmake _ _ h.2.text) False.elim

omit hbelow in
theorem tracks_invalid {e : LexError} (hkind : s.kind = .error e) : TracksExpr c s s' P False (do
        modify State.skip
        return .invalid s.current.span) (do
        modify State.skip
        return .invalid s'.current.span) where
  runs hs := hs.skip
  keeps _ h := h.elim
  follows _ hs a t hexec hclean := by
    cases hexec
    exact absurd hclean (hs.fine.skip_listed (by simp [hkind, TokenKind.isError]))

theorem tracks_nameOperand (hkind : s.kind = .label) :
    TracksExpr c s s' P False (nameOperand below) (nameOperand below) := by
  refine .awayFromGap id (reads_nameOperand hbelow.sound s) (fun hgap => ?_) fun hs _ _ => ?_
  · simp [hgap.kind] at hkind
  · unfold nameOperand
    refine .get ?_
    rw [hs.ahead_one (by simp [hkind]) (k := .punct .arrow) (by decide)]
    refine .same mirrors_ident fun name t t' => ?_
    split
    · exact .passMark (by simp) fun _ _ u u' => tracks_arrowBody hbelow _ _ _
    · exact .pure (fun _ => rfl) False.elim

omit hbelow in
theorem mirrors_numberOperand : MirrorsExpr c numberOperand := by
  intro P s s'
  unfold numberOperand
  refine .expecting (by simp) rfl fun tok tok' t t' halike => ?_
  rw [halike.text]
  split
  · exact .pure (fun _ => by simp) False.elim
  · refine .pass (tracks_report _ _ rfl rfl) fun _ _ u u' => ?_
    exact .pure (fun _ => by simp) False.elim

theorem tracks_parenOperand (hkind : s.kind = .punct .lparen) :
    TracksExpr c s s' P False (parenOperand below) (parenOperand below) := by
  refine .awayFromGap id (reads_parenOperand hbelow.sound s) (fun hgap => ?_) fun hs _ _ => ?_
  · simp [hgap.kind] at hkind
  · unfold parenOperand
    refine .get ?_
    rw [hs.atArrowParams (by simp [hkind])]
    refine .passMark (by simp) fun start start' t t' => ?_
    split
    · refine .same mirrors_params fun ps u u' => ?_
      refine .passMark (by simp) fun _ _ v v' => ?_
      exact .passMark (by simp) fun _ _ w w' => tracks_arrowBody hbelow _ _ _
    · refine .bind (hbelow.expr 0) fun e e' u u' he => ?_
      refine .passMark (by simp) fun _ _ v v' => .spanFrom fun span' => ?_
      exact .pure (fun _ => by simp [he]) fun h => .node (h.resolve_left id)

theorem mirrors_arrayOperand : MirrorsExpr c (arrayOperand below) := by
  intro P s s'
  unfold arrayOperand
  refine .passMark (by simp) fun start start' t t' => ?_
  refine .bind (mirrors_elements hbelow (by simp))
    fun elements elements' u u' helements => ?_
  refine .passMark (by simp) fun _ _ v v' => .spanFrom fun span' => ?_
  exact .pure (fun _ => by simp [helements]) fun h => .node (h.resolve_left id)

theorem mirrors_objectOperand : MirrorsExpr c (objectOperand below) := by
  intro P s s'
  unfold objectOperand
  refine .passMark (by simp) fun start start' t t' => ?_
  have hreads {o : Sheet} (hsound : below.Sound o k) :
      Reads o k (property below) (Property.spelling true) Property.parts :=
    fun _ => (reads_property hsound).mono (fun _ _ h => h) fun _ _ h => h.1
  refine .bind (mirrors_items ⟨hreads hbelow.sound, hreads hbelow.sound'⟩
    exec_property_atGap (by simp) (mirrors_property hbelow))
    fun properties properties' u u' hproperties => ?_
  refine .passMark (by simp) fun _ _ v v' => .spanFrom fun span' => ?_
  exact .pure (fun _ => by simp [hproperties]) fun h => .node (h.resolve_left id)

omit hbelow in
/-- A semicolon starts no expression. -/
theorem exec_prefixOperand_atGap (hgap : AtGap c s s') :
    (exec (prefixOperand below) s).1 = none := by
  unfold prefixOperand
  rw [exec_get, hgap.kind]
  rfl

theorem mirrors_prefixOperand : MirrorsExpr c (prefixOperand below) := by
  intro P s s'
  refine .awayFromGap id (reads_prefixOperand hbelow.sound s) exec_prefixOperand_atGap
    fun hs hgap hkind => ?_
  · unfold prefixOperand
    refine .get ?_
    rw [hkind]
    split
    · next op hop =>
      have hop := TokenKind.eq_token_of_unary? hop
      refine .advance hop ?_ ?_ ?_
      iterate 2 cases op <;> simp [UnaryOp.token, TokenKind.isPlain]
      refine .bind (hbelow.expr _) fun e e' t t' he => .spanFrom fun span' => ?_
      exact .pure (fun _ => by simp [he]) fun h => .node (h.resolve_left id)
    · next op _ hop =>
      have hop := TokenKind.eq_token_of_update? hop
      refine .advance hop ?_ ?_ ?_
      iterate 2 cases op <;> simp [UpdateOp.token, TokenKind.isPlain]
      refine .bind (hbelow.expr _) fun e e' t t' he => ?_
      refine .pass (tracks_checkTarget he) fun _ _ u u' => .spanFrom fun span' => ?_
      exact .pure (fun _ => by simp [he]) fun h => .node (h.resolve_left id)
    · exact .fails (fun hs => hs.reportFound rfl rfl) rfl

omit hbelow in
theorem exec_operand_atGap (hgap : AtGap c s s') : (exec (operand below) s).1 = none := by
  unfold operand
  rw [exec_get, hgap.kind]
  exact exec_prefixOperand_atGap hgap

theorem mirrors_operand : MirrorsExpr c (operand below) := by
  intro P s s'
  refine .awayFromGap id (reads_operand hbelow.sound s) exec_operand_atGap fun hs hgap hkind => ?_
  · unfold operand
    refine .get ?_
    rw [hkind]
    split
    · next h => exact tracks_nameOperand hbelow h
    · exact mirrors_numberOperand s s'
    · next h => exact tracks_leaf h (by simp) rfl (by simp +contextual)
    · next h => exact tracks_leaf h (by simp) rfl (by simp +contextual)
    · next h => exact hbelow.template s' h
    · next h => exact tracks_leaf h (by simp) rfl (by simp +contextual)
    · next h => exact tracks_leaf h (by simp) rfl (by simp)
    · next h => exact tracks_leaf h (by simp) rfl (by simp)
    · next h => exact tracks_leaf h (by simp) rfl (by simp)
    · next h => exact tracks_leaf h (by simp) rfl (by simp)
    · next h => exact tracks_parenOperand hbelow h
    · exact mirrors_arrayOperand hbelow s s'
    · exact mirrors_objectOperand hbelow s s'
    · refine mirrors_function hbelow Expr.function Expr.stripped Node.expr ?_ (fun _ _ _ _ => rfl) s s'
      intro span span' name ps body body' hbody
      simp [hbody]
    · next h => exact tracks_invalid h
    · exact mirrors_prefixOperand hbelow s s'

/-! ### Operators -/

/-- An operator applied to the expression before it. -/
theorem tracks_applied (op : Infix) {lhs lhs' : Expr}
    (hlhs : lhs'.stripped = lhs.stripped) :
    TracksExpr c s s' P (c.Needed [.expr lhs]) (applied below op lhs) (applied below op lhs') := by
  unfold applied
  cases op with
  | assign op' =>
    refine .pass (tracks_checkTarget hlhs) fun _ _ t t' => ?_
    refine .bind (hbelow.expr _) fun value value' u u' hvalue => .spanFrom fun span' => ?_
    refine .pure (fun _ => by simp [hlhs, hvalue]) fun h => .node ?_
    simpa [Node.parts, Expr.parts] using h
  | conditional =>
    refine .bind (hbelow.expr 0) fun yes yes' t t' hyes => ?_
    refine .passMark (by simp) fun _ _ u u' => ?_
    refine .bind (hbelow.expr _) fun no no' v v' hno => .spanFrom fun span' => ?_
    refine .pure (fun _ => by simp [hlhs, hyes, hno]) fun h => .node ?_
    simpa [Node.parts, Expr.parts, or_assoc] using h
  | binary op' =>
    refine .bind (hbelow.expr _) fun rhs rhs' t t' hrhs => .spanFrom fun span' => ?_
    refine .pure (fun _ => by simp [hlhs, hrhs]) fun h => .node ?_
    simpa [Node.parts, Expr.parts] using h
  | update op' =>
    refine .pass (tracks_checkTarget hlhs) fun _ _ t t' => .spanFrom fun span' => ?_
    exact .pure (fun _ => by simp [hlhs]) fun h => .node h
  | member optional =>
    refine .same mirrors_propertyName fun x t t' => .spanFrom fun span' => ?_
    refine .pure (fun _ => by simp [hlhs]) fun h => .node ?_
    exact Omission.needed_cons.2 (.inl h)
  | call optional =>
    refine .bind (mirrors_elements hbelow (by simp)) fun args args' t t' hargs => ?_
    refine .passMark (by simp) fun _ _ u u' => .spanFrom fun span' => ?_
    refine .pure (fun _ => by simp [hlhs, hargs]) fun h => .node ?_
    exact Omission.needed_cons.2 h
  | index optional =>
    refine .bind (hbelow.expr 0) fun index index' t t' hindex => ?_
    refine .passMark (by simp) fun _ _ u u' => .spanFrom fun span' => ?_
    refine .pure (fun _ => by simp [hlhs, hindex]) fun h => .node ?_
    simpa [Node.parts, Expr.parts] using h

omit hbelow in
/-- An operator and what is read after it, or no operator. -/
theorem tracks_withOperator (power : Nat) {lhs lhs' : Expr} (hlhs : lhs'.stripped = lhs.stripped)
    {go go' : Infix → Parser Expr}
    (hgo : ∀ op t t', TracksExpr c t t' True (c.Needed [.expr lhs]) (go op) (go' op)) :
    TracksExpr c s s' P (c.Needed [.expr lhs]) (withOperator power lhs go)
      (withOperator power lhs' go') := by
  unfold withOperator
  refine .get ?_
  generalize hnext : s'.operator? = next
  have hsame : P → Parallel c s s' → next = s.operator? := fun _ hs => hnext.symm.trans hs.operator?
  apply Tracks.of_eq next hsame
  cases hop : s.operator? with
  | none => exact .pure (fun _ => hlhs) id
  | some op =>
    dsimp only
    split
    · exact .pure (fun _ => hlhs) id
    · have hop := State.operator?_kind hop
      refine .advance rfl (fun hkind => ?_) ?_ ?_
      · simp [hkind, TokenKind.operator?, Punct.operator?] at hop
      · cases hkind : s.kind with
        | eof | template | error => simp [hkind, TokenKind.operator?] at hop
        | _ => rfl
      · exact (hgo op _ _).weaken (fun _ => trivial) id

end Parser

end ScriptCheck
