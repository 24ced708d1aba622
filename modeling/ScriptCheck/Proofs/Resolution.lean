import ScriptCheck.Proofs.Recording

/-!
# Names are resolved where they stand

In a tree whose nodes are laid out in a script, visiting a node has its effect in the region of the
node. This goes through all statements and expressions, with the regions of the parts of each in the
order of the script.
-/

namespace ScriptCheck

open List

variable {param : Option Ident} {handler : List Stmt} {body : List Stmt} {span : Span}

namespace Walk

open SymbolTable (Ready Effect)
open Text

variable {α β : Type} {source : List Char} {tree : Node} {ctx : Context} {calm : Bool} {u a b : Nat}
  {ns ms : List Node}

/-! ### The parts of a node -/

/-- The first node of a row is visited, and then the others. -/
theorem Visits.first {n : Node} {p : Walk α} {f : α → Walk β} (ho : Row tree a b (n :: ns))
    (hp : Visits tree calm u n.span.lo n.span.hi [n] p)
    (hf : ∀ x, Visits tree calm u n.span.hi b ms (f x)) :
    Visits tree calm u a b (n :: ms) (p >>= f) :=
  (hp.widen ho.lo_le le_rfl).bind hf ho.le_hi ho.hi_le

/-- The only node of a row is visited. -/
theorem Visits.only {n : Node} {p : Walk α} (ho : Row tree a b [n])
    (hp : Visits tree calm u n.span.lo n.span.hi [n] p) : Visits tree calm u a b [n] p :=
  hp.widen ho.lo_le ho.hi_le

theorem map_span_stmt (ss : List Stmt) : (ss.map Node.stmt).map Node.span = ss.map Stmt.span :=
  map_map

theorem map_span_name (xs : List Ident) : (xs.map Node.name).map Node.span = xs.map Ident.span :=
  map_map

/-- Names have no heads. -/
theorem headIn_names_append (xs : List Ident) (ns : List Node) :
    HeadIn (xs.map .name ++ ns) = HeadIn ns := by
  rw [headIn_append, headIn_names, headIn_nil]
  simp

theorem headIn_paramNodes_append (params : List Param) (ns : List Node) :
    HeadIn (paramNodes params ++ ns) = HeadIn ns := by
  have hnames : paramNodes params = (params.map Param.name).map .name := by
    rw [paramNodes, map_map]
    rfl
  rw [hnames, headIn_names_append]

theorem headIn_append_names (ns : List Node) (xs : List Ident) :
    HeadIn (ns ++ xs.map .name) = HeadIn ns := by
  rw [headIn_append, headIn_names, headIn_nil]
  simp

/-- The expressions of a row all stand in the script. -/
theorem row_unread {es : List Expr} (h : Row tree a b (es.map .expr)) (textEnd : Nat) :
    Row tree a b ((es.filter fun e => !e.isUnread textEnd).map .expr) := by
  have hall : es.filter (fun e => !e.isUnread textEnd) = es := by
    refine filter_eq_self.2 fun e he => ?_
    have hlt := (h.inOrder.mem (mem_map_of_mem (mem_map_of_mem he))).2.1
    unfold Expr.isUnread
    split
    · next span =>
      have hne : span ≠ ⟨textEnd, 0⟩ := by
        rintro rfl
        exact absurd hlt (Nat.lt_irrefl _)
      simpa using hne
    · rfl
  rwa [hall]

/-! ### Handlers -/

/-- The region of a body encloses its statements. -/
theorem bodySpan_bounds (ho : InOrder a b (body.map Stmt.span))
    (h : bodySpan body = some span) :
    a ≤ span.lo ∧ span.lo < span.hi ∧ span.hi ≤ b ∧
      InOrder span.lo span.hi (body.map Stmt.span) := by
  cases body with
  | nil => simp [bodySpan] at h
  | cons first rest =>
    obtain ⟨hlo, hlt, hrest⟩ := ho
    cases hlast : (first :: rest).getLast? with
    | none => simp [bodySpan, hlast] at h
    | some last =>
      have hspan : first.span.through last.span = span := by
        simpa [bodySpan, hlast] using h
      have hordered : InOrder first.span.lo b ((first :: rest).map Stmt.span) :=
        ⟨le_rfl, hlt, hrest⟩
      obtain ⟨init, hinit⟩ := getLast?_eq_some_iff.1 hlast
      rw [hinit, map_append] at hordered
      obtain ⟨hlo', hlt', hhi', hlastOrdered⟩ := hordered.upTo_last
      have hlo'' : span.lo = first.span.lo := by rw [← hspan, Span.lo_through]
      have hhi : span.hi = last.span.hi := by
        rw [← hspan, Span.hi_through]
        omega
      refine ⟨by omega, by omega, by omega, ?_⟩
      rw [hinit, map_append, hhi, hlo'']
      exact hlastOrdered

section

variable (ho : InOrder a b (param.toList.map Ident.span ++ handler.map Stmt.span))
include ho

/-- The region of a handler encloses what it gets and its statements. -/
theorem handlerRegion_bounds (h : handlerRegion param handler = some span) :
    a ≤ span.lo ∧ span.lo < span.hi ∧ span.hi ≤ b ∧
      InOrder span.lo span.hi (param.toList.map Ident.span ++ handler.map Stmt.span) := by
  cases param with
  | none => exact bodySpan_bounds ho h
  | some x =>
    obtain ⟨hlo, hlt, hrest⟩ := ho
    cases hbody : bodySpan handler with
    | none =>
      have hspan : x.span = span := by simpa [handlerRegion, hbody] using h
      have hnil : handler = [] := by
        cases handler with
        | nil => rfl
        | cons first rest => simp [bodySpan, getLast?_cons] at hbody
      subst hnil hspan
      exact ⟨hlo, hlt, hrest, le_rfl, hlt, le_rfl⟩
    | some body =>
      have hspan : x.span.through body = span := by simpa [handlerRegion, hbody] using h
      obtain ⟨hlo', hlt', hhi', hordered⟩ := bodySpan_bounds hrest hbody
      have hhi : span.hi = body.hi := by
        rw [← hspan, Span.hi_through]
        omega
      have hlo'' : span.lo = x.span.lo := by rw [← hspan, Span.lo_through]
      refine ⟨by omega, by omega, by omega, ?_⟩
      rw [hhi, hlo'']
      exact ⟨le_rfl, hlt, hordered.mono_left hlo'⟩

/-- A handler lies between two offsets, and all that lies between them is in its region. -/
theorem exists_handlerRegion :
    ∃ lo hi, a ≤ lo ∧ lo ≤ hi ∧ hi ≤ b ∧
      InOrder lo hi (param.toList.map Ident.span ++ handler.map Stmt.span) ∧
      ∀ s : Span, lo ≤ s.lo → s.lo < s.hi → s.hi ≤ hi →
        ∃ region, handlerRegion param handler = some region ∧ region.Encloses s := by
  cases hregion : handlerRegion param handler with
  | some region =>
    obtain ⟨hlo, hlt, hhi, hordered⟩ := handlerRegion_bounds ho hregion
    exact ⟨region.lo, region.hi, hlo, hlt.le, hhi, hordered,
      fun s hs _ hs' => ⟨region, rfl, hs, hs'⟩⟩
  | none =>
    -- there is nothing in the handler
    obtain ⟨rfl, rfl⟩ : param = none ∧ handler = [] := by
      cases param with
      | some x => cases hbody : bodySpan handler <;> simp [handlerRegion, hbody] at hregion
      | none =>
        cases handler with
        | nil => exact ⟨rfl, rfl⟩
        | cons first rest => simp [handlerRegion, bodySpan, getLast?_cons] at hregion
    exact ⟨a, a, le_rfl, le_rfl, ho, le_rfl, fun s _ _ _ => by omega⟩

omit ho in
/-- The scope of a handler has the region of the handler. -/
theorem handlerRegion_of_handlerSpan (h : handlerSpan param handler = some span) :
    handlerRegion param handler = some span := by
  cases param with
  | none =>
    rw [handlerSpan] at h
    split at h
    · exact h
    · exact absurd h nofun
  | some x =>
    unfold handlerSpan at h
    unfold handlerRegion
    cases hbody : bodySpan handler with
    | none => rwa [hbody] at h
    | some body => rwa [hbody] at h

theorem visits_openHandler {f : Context → Walk α}
    (hf : ∀ (inner : Context) {a b : Nat}, InOrder a b (handler.map Stmt.span) →
      Visits tree false inner.scope a b ns (f inner)) :
    Visits tree false ctx.scope a b ns (openHandler ctx param handler >>= f) := by
  have hblock : Visits tree false ctx.scope a b ns
      (openBlock ctx (handlerSpan param handler) >>= f) := by
    refine visits_openBlock (fun span hspan => ?_) fun _ => ?_
    · obtain ⟨hlo, hlt, hhi, hordered⟩ :=
        handlerRegion_bounds ho (handlerRegion_of_handlerSpan hspan)
      obtain ⟨c, hparam, hhandler⟩ := hordered.split
      exact ⟨hlo, hlt, hhi, fun inner => hf inner (hhandler.mono_left hparam.le)⟩
    · obtain ⟨c, hparam, hhandler⟩ := ho.split
      exact hf ctx (hhandler.mono_left hparam.le)
  exact fun s hs => hblock (s.after (require _)) hs

end

/-! ### Assignments -/

/-- An assignment visits its target unless that is a name, then its value, and then assigns to the
target. -/
theorem visits_assignment (hlaid : tree.All (Node.Laid source)) (span : Span) (op : AssignOp)
    {target : Expr} (hstands : tree.Stands (.expr target)) (hlo : a ≤ target.span.lo)
    (hhi : target.span.hi ≤ b) {value : Walk Ty}
    (htarget : Visits tree true ctx.scope a target.span.hi [.expr target]
      (typeOf (infer ctx .value target)))
    (hvalue : Visits tree true ctx.scope target.span.hi b ns value) :
    Visits tree true ctx.scope a b ([.expr target] ++ ns) (do
      let type ← assigned ctx span op (isIdent target) (typeOf (infer ctx .value target)) value
      assignTarget ctx target type return type) := by
  have hle : a ≤ target.span.hi := hlo.trans hstands.2.le
  rcases assigned_eq_bind ctx span op (isIdent target) hvalue with
    ⟨rfl, hident⟩ | ⟨rest, hrest, heq⟩
  · have hassigned : assigned ctx span .assign (isIdent target)
        (typeOf (infer ctx .value target)) value = value := by
      rw [assigned, hident]
      rfl
    have hheads : HeadIn ([.expr target] ++ ns) = HeadIn ns := by
      obtain ⟨x, rfl⟩ : ∃ x, target = .ident x := by
        unfold isIdent at hident
        split at hident
        · exact ⟨_, rfl⟩
        · exact absurd hident Bool.false_ne_true
      rw [headIn_append, headIn_of_none rfl, ← headIn_append]
      exact headIn_names_append [x] ns
    rw [hassigned]
    refine (visits_assignTarget hlaid hstands.1 hlo hhi id id (hvalue.widen hle le_rfl)
      fun x _ henc s hs r hr hspan => ?_).congr hheads.symm
    -- the uses in the value lie behind the name
    have hregion := ((hvalue s (hs.mono hle le_rfl)).1.recorded r hr).region
    have hhi' := henc.2
    rw [hspan] at hregion
    omega
  · rw [heq]
    refine visits_assignTarget hlaid hstands.1 hlo hhi id id (htarget.bind hrest hle hhi)
      fun x hx henc s hs r hr hspan => ?_
    have hmem := mem_newReferences_bind hs htarget hrest hle hhi hr (by rw [hspan]; exact henc.2)
    exact symbol_of_mem_target target hx ctx s r hmem

/-! ### Functions -/

/-- The statements of a function are a row. -/
theorem row_body {name : Option Ident} {params : List Param}
    (ho : Row tree a b (functionParts name params body)) : Row tree a b (body.map .stmt) := by
  obtain ⟨c, hname, hrest⟩ := ho.split
  obtain ⟨d, hparams, hbody⟩ := hrest.split
  exact hbody.mono_left (hname.le.trans hparams.le)

theorem headIn_functionParts (name : Option Ident) (params : List Param) (body : List Stmt) :
    HeadIn (functionParts name params body) = HeadIn (body.map .stmt) := by
  rw [functionParts, headIn_names_append, headIn_paramNodes_append]

theorem visits_functionParts (ctx : Context) {name : Option Ident}
    {params : List Param}
    (ho : RowIn tree span (functionParts name params body)) (hlt : span.lo < span.hi)
    (hbody : ∀ (inner : Context) (flow : Flow), RowIn tree span (body.map .stmt) →
      Visits tree false inner.scope span.lo span.hi (body.map .stmt) (stmts inner body flow)) :
    Visits tree true ctx.scope span.lo span.hi (functionParts name params body)
      (function ctx span params fun inner =>
        resultOf (sequence inner body (stmts inner body))) := by
  have hparams : ∀ p ∈ params, tree.Holds (.name p.name) := fun p hp =>
    ho.holds _ (mem_append_right _ (mem_append_left _ (mem_map_of_mem hp)))
  have hstmts := row_body ho
  refine (visits_function ctx hlt hparams fun inner => ?_).congr (headIn_functionParts ..).symm
  refine (visits_sequence hstmts.of_mem span.lo_le_hi fun flow =>
    hbody inner flow hstmts).thenStill fun diverges => ?_
  exact .get fun _ => still_pure _

/-! ### Names -/

theorem mem_declared {specs : List ImportSpec} {spec : ImportSpec} (h : spec ∈ specs) :
    .name spec.declared ∈ (specs.flatMap ImportSpec.names).map Node.name := by
  refine mem_map_of_mem (mem_flatMap.2 ⟨spec, h, ?_⟩)
  cases spec with
  | named imported newName => cases newName <;> simp [ImportSpec.declared, ImportSpec.names]
  | default name => exact mem_cons_self
  | namespaceOf name => exact mem_cons_self

theorem eq_of_blockSpan {span block : Span} (h : block ∈ blockSpan span body) : block = span := by
  rw [blockSpan, Option.mem_def] at h
  split at h
  · exact (Option.some.inj h).symm
  · exact absurd h nofun

theorem blockSpan_cases (span : Span) (body : List Stmt) :
    blockSpan span body = some span ∨ blockSpan span body = none := by
  rw [blockSpan]
  split
  · exact .inl rfl
  · exact .inr rfl

theorem eq_of_switchSpan {span block : Span} {cs : List SwitchCase}
    (h : switchSpan span cs = some block) : block = span := by
  rw [switchSpan] at h
  split at h
  · exact (Option.some.inj h).symm
  · exact absurd h nofun

theorem visits_readExported {specs : List ExportSpec}
    (ho : Row tree a b ((specs.flatMap ExportSpec.names).map .name)) :
    Visits tree true ctx.scope a b [] (readExported ctx specs) := by
  induction specs generalizing a with
  | nil => exact .of_still (still_pure _)
  | cons spec rest ih =>
    rw [flatMap_cons, map_append] at ho
    obtain ⟨c, hspec, hrest⟩ := ho.split
    have hread : Visits tree true ctx.scope a spec.name.span.hi [] (read ctx spec.name) :=
      visits_read hspec.head.1 hspec.lo_le hspec.head.2 le_rfl
    exact hread.bind (fun _ => ih (hrest.mono_left hspec.hi_le)) hspec.le_hi
      (hspec.hi_le.trans hrest.le)

/-! ### Loops over values -/

/-- A loop that declares its names opens a scope for them after its values. -/
theorem stmt_forIn_declaring (span : Span) (kind : DeclKind) (key : Option Ident) (value : Ident)
    (iterable : Expr) (body : Stmt) :
    stmt ctx (.forIn span (some kind) key value iterable body) = do
      let type ← typeOf (infer ctx .value iterable) let inner ← openBlock ctx (some span)
      bindForIn inner (some kind.symbolKind) key (type.forIn key.isSome).1
      bindForIn inner (some kind.symbolKind) (some value) (type.forIn key.isSome).2
      loop (stmt inner.inLoop body) (pure ()) return false :=
  rfl

/-- A loop that assigns to its names does so after its values. -/
theorem stmt_forIn_assigning (span : Span) (key : Option Ident) (value : Ident) (iterable : Expr)
    (body : Stmt) :
    stmt ctx (.forIn span none key value iterable body) = do
      (do let type ← typeOf (infer ctx .value iterable)
          bindForIn ctx none key (type.forIn key.isSome).1
          bindForIn ctx none (some value) (type.forIn key.isSome).2)
      loop (stmt ctx.inLoop body) (pure ()) return false :=
  rfl

/-! ### Statements and expressions -/

variable (hlaid : tree.All (Node.Laid source))

include hlaid

set_option linter.unusedSectionVars false in
mutual

theorem visits_stmt (ctx : Context) : (s : Stmt) →
    tree.Stands (.stmt s) → Visits tree false ctx.scope s.span.lo s.span.hi [.stmt s] (stmt ctx s)
  | .expr span value, hs => by
    have ho := Row.parts hlaid hs.1 rfl
    have hvalue := visits_infer ctx .value value ho.head
    exact ((Visits.only ho hvalue.loosen).thenStill fun _ => (tame_exits ctx value).still _).node rfl
  | .decl span kind ds, hs =>
    ((visits_declarators ctx kind.symbolKind ds (.parts hlaid hs.1 rfl)).thenPure _).node rfl
  | .function span name params body, hs => by
    have ho := Row.parts hlaid hs.1 rfl
    refine ((visits_functionDecl (fun x hx => ?_) params ?_ span.lo_le_hi).thenPure _).node rfl
    · cases hx
      exact ho.head.1
    · exact (visits_functionParts ctx ho hs.2 fun inner flow => visits_stmts inner body flow).loosen
  | .ifElse span test yes no, hs => by
    have ho := Row.parts hlaid hs.1 rfl
    refine (Visits.first ho (visits_infer ctx .value test ho.head).loosen fun _ =>
      .afterStill still_env fun before => ?_).node rfl
    refine .first ho.tail (visits_stmt ctx yes ho.tail.head) fun yesDiverges => ?_
    refine .afterStill still_env fun after => .afterStill (still_setEnv before) fun _ => ?_
    exact (visits_stmtOption ctx no ho.tail.tail).thenStill fun _ =>
      (still_mergeBranches after _ _).thenPure _
  | .whileLoop span test body, hs => by
    have ho := Row.parts hlaid hs.1 rfl
    have hbody := Visits.only ho.tail (visits_stmt ctx.inLoop body ho.tail.head)
    exact (Visits.first ho (visits_infer ctx .value test ho.head).loosen fun _ =>
      (visits_loop_still hbody (still_pure ())).thenPure _).node rfl
  | .forLoop span init test update body, hs => by
    have ho := Row.parts hlaid hs.1 rfl
    obtain ⟨c, hinit, ho⟩ := ho.split
    obtain ⟨d, htest, ho⟩ := ho.split
    have hloop (inner : Context) : Visits tree false inner.scope d span.hi
        (update.toList.map .expr ++ [.stmt body])
        (loop (stmt inner.inLoop body) (inferOption inner update)) := by
      cases update with
      | none =>
        have hbody := Visits.only ho (visits_stmt inner.inLoop body ho.head)
        exact visits_loop_still hbody (still_pure _)
      | some e =>
        have hupdate := visits_typeOf (visits_infer inner .value e ho.head)
        exact visits_loop (visits_stmt inner.inLoop body ho.tail.head) hupdate.loosen
          ((hlaid _ hs.1).head e rfl) ho.lo_le ho.head.2.le
          ho.tail.head.2.le ho.tail.hi_le
    have hvisit (inner : Context) := (visits_stmtOption inner init hinit).bind
      (fun _ => (visits_inferOption inner test htest).loosen.bind
        (fun _ => (hloop inner).thenPure fun _ => false) htest.le ho.le)
      hinit.le (htest.le.trans ho.le)
    refine (visits_openBlock (fun block hblock => ?_) fun _ => hvisit ctx).node rfl
    obtain rfl : block = span := by
      split at hblock
      · exact (Option.some.inj hblock).symm
      · exact absurd hblock nofun
    exact ⟨le_rfl, hs.2, le_rfl, hvisit⟩
  | .forIn span kind key value iterable body, hs => by
    have ho : RowIn tree span (key.toList.map .name ++ ([value].map .name ++
      [.expr iterable, .stmt body])) := .parts hlaid hs.1 rfl
    obtain ⟨c, hkey, ho⟩ := ho.split
    obtain ⟨d, hvalue, ho⟩ := ho.split
    have hiterable := visits_typeOf (visits_infer ctx .value iterable ho.head)
    have hloop (inner : Context) := (visits_loop_still (Visits.only ho.tail
      (visits_stmt inner.inLoop body ho.tail.head)) (still_pure ())).thenPure fun _ => false
    have hvalue : Row tree c d ((some value).toList.map .name) := hvalue
    have hparts : HeadIn (key.toList.map .name ++ [.name value, .expr iterable, .stmt body]) =
        HeadIn ([.expr iterable] ++ [.stmt body]) := by
      rw [headIn_names_append]
      exact headIn_names_append [value] _
    cases kind with
    | some kind =>
      rw [stmt_forIn_declaring]
      refine visits_headed hs.1 rfl rfl hparts hiterable.loosen (fun type inner => ?_)
        (hlaid _ hs.1).head ho.hi_le
      exact .plainThen (visits_bindForIn hkey.of_mem_option _ _) (fun _ => .plainThen
        (visits_bindForIn hvalue.of_mem_option _ _) (fun _ => hloop inner) ho.hi_le) ho.hi_le
    | none =>
      have hlead : span.lo ≤ iterable.span.lo :=
        hkey.le.trans (hvalue.le.trans ho.lo_le)
      rw [stmt_forIn_assigning]
      refine Visits.node (Visits.congr ?_ hparts.symm) rfl
      refine Visits.bind ?_ (fun _ => hloop ctx) (hlead.trans ho.head.2.le)
        ho.hi_le
      refine hiterable.loosen.bindBefore (fun type => ?_) (fun type => ?_) hlead ho.head.2.le
      · exact (visits_bindForIn_assign hkey _).loosen.bind (fun _ =>
          (visits_bindForIn_assign hvalue _).loosen.widen le_rfl ho.lo_le) hkey.le
          (hvalue.le.trans ho.lo_le)
      · exact Flat.bind ((tame_bindForIn ctx none key _).flat _) fun _ =>
          (tame_bindForIn ctx none (some value) _).flat _
  | .switch span subject cs, hs => by
    have ho := Row.parts hlaid hs.1 rfl
    have hsubject := visits_infer ctx .value subject ho.head
    have hcases (inner : Context) (hasDefault : Bool) : Visits tree false inner.scope
        subject.span.hi span.hi (cs.map .case)
        (switchCases hasDefault (cases inner.inSwitch false cs)) :=
      visits_switchCases hasDefault (visits_cases inner.inSwitch false cs ho.tail)
    cases hspan : switchSpan span cs with
    | none =>
      refine Visits.node ?_ (by simp [Node.head?, hspan])
      rw [stmt, hspan]
      exact .first ho hsubject.loosen fun _ => hcases ctx _
    | some block =>
      obtain rfl := eq_of_switchSpan hspan
      rw [stmt, hspan]
      exact visits_headed hs.1 rfl (by simp [Node.head?, hspan]) rfl hsubject.loosen
        (fun _ inner => hcases inner _) (hlaid _ hs.1).head ho.hi_le
  | .tryCatch span body param handler, hs => by
    have ho := Row.parts hlaid hs.1 rfl
    obtain ⟨c, hbody, ho⟩ := ho.split
    obtain ⟨d, hparam, hhandler⟩ := ho.split
    have hordered := ho.inOrder
    rw [map_append, map_span_name, map_span_stmt] at hordered
    obtain ⟨lo, hi, hmid, hle, hhi, hordered, hregion⟩ := exists_handlerRegion hordered
    refine (Visits.afterStill still_env fun before => ?_).node rfl
    refine visits_openBlockThen (blockSpan_cases span body) (fun inner => ?_)
      (fun bodyDiverges => ?_) hs.2 hbody.le hmid hle hhi fun hblock s hlo hlt hhi => ?_
    · exact visits_sequence hbody.of_mem hbody.le fun flow => visits_stmts inner body flow hbody
    · refine .afterStill still_env fun after => .afterStill (still_setEnv _) fun _ => ?_
      refine (visits_openHandler hordered fun inner a b ho => ?_).congr
        (headIn_names_append _ _).symm
      refine .plainThen (visits_declareCaught hparam.of_mem_option) (fun _ => ?_) ho.le
      refine (visits_sequence hhandler.of_mem ho.le fun flow => ?_).thenStill fun _ =>
        (still_mergeBranches after _ _).thenPure _
      rw [← map_span_stmt] at ho
      exact visits_stmts inner handler flow ⟨hhandler.holds, ho⟩
    · obtain ⟨region, hregion, henc⟩ := hregion s hlo hlt hhi
      exact ⟨_, region, hs.1, rfl, by simp [Node.exposed?, hblock, hregion], henc⟩
  | .returns span value, hs =>
    ((visits_inferOption ctx value (.parts hlaid hs.1 rfl)).loosen.thenStill
      fun _ _ => rfl).node rfl
  | .breaks span, _ =>
    (Visits.of_still ((still_reportWhen _ _ _).bind fun _ _ => rfl)).node rfl
  | .continues span, _ => (Visits.of_still ((still_reportWhen _ _ _).thenPure _)).node rfl
  | .block span body, hs => by
    have ho := Row.parts hlaid hs.1 rfl
    have hvisit (inner : Context) : Visits tree false inner.scope span.lo span.hi (body.map .stmt)
        (sequence inner body (stmts inner body)) :=
      visits_sequence ho.of_mem span.lo_le_hi fun flow => visits_stmts inner body flow ho
    refine (visits_openBlock (fun block hblock => ?_) fun _ => hvisit ctx).node rfl
    obtain rfl := eq_of_blockSpan hblock
    exact ⟨le_rfl, hs.2, le_rfl, hvisit⟩
  | .imports span specs path, hs => by
    have ho := Row.parts hlaid hs.1 rfl
    refine (((visits_importNames (fun spec hmem => ho.holds _ (mem_declared hmem))
      span.lo_le_hi).thenPure _).congr ?_).node rfl
    exact (headIn_names _).symm
  | .exportDecl span declaration, hs => by
    have ho := Row.parts hlaid hs.1 rfl
    have hdeclaration := visits_stmt ctx declaration ho.head
    exact ((Visits.only ho hdeclaration).thenPlain
      (fun _ => (visits_countExported _ le_rfl).thenPure _) span.lo_le_hi).node rfl
  | .exportDefault span value, hs => by
    have ho := Row.parts hlaid hs.1 rfl
    have hvalue := visits_infer ctx .value value ho.head
    exact ((Visits.only ho hvalue.loosen).thenPure _).node rfl
  | .exportNames span specs path, hs => by
    refine ((Visits.thenPure ?_ _).congr (headIn_names _).symm).node rfl
    cases path with
    | some path => exact .of_still (still_reportWhen _ _ _)
    | none => exact (visits_readExported (.parts hlaid hs.1 rfl)).loosen
  | .exportAll span newName path, hs => by
    refine ((Visits.of_still ((still_reportWhen _ _ _).thenPure _)).congr ?_).node rfl
    exact (headIn_names newName.toList).symm
  | .empty span, _ => (Visits.of_still (still_pure _)).node rfl

theorem visits_stmtOption (ctx : Context) :
    (s : Option Stmt) → ∀ {a b : Nat}, Row tree a b (s.toList.map .stmt) →
    Visits tree false ctx.scope a b (s.toList.map .stmt) (stmtOption ctx s)
  | some s, _, _, ho => .only ho (visits_stmt ctx s ho.head)
  | none, _, _, _ => .of_still (still_pure _)

theorem visits_stmts (ctx : Context) : (ss : List Stmt) →
    (flow : Flow) → ∀ {a b : Nat}, Row tree a b (ss.map .stmt) →
    Visits tree false ctx.scope a b (ss.map .stmt) (stmts ctx ss flow)
  | [], _, _, _, _ => .of_still (still_pure _)
  | s :: rest, flow, _, _, ho =>
    .first ho (visits_step s flow (visits_stmt ctx s ho.head)) fun flow =>
      visits_stmts ctx rest flow ho.tail

theorem visits_declarators (ctx : Context)
    (kind : SymbolKind) : (ds : List Declarator) →
    ∀ {a b : Nat}, Row tree a b (ds.flatMap Declarator.parts) →
    Visits tree false ctx.scope a b (ds.flatMap Declarator.parts) (declarators ctx kind ds)
  | [], _, _, _ => .of_still (still_pure _)
  | .mk name init :: rest, a, b, ho => by
    rw [flatMap_cons] at ho ⊢
    obtain ⟨c, hfirst, hrest⟩ := ho.split
    have hvalue := visits_inferOption ctx init hfirst.tail
    have hdeclare (type : Ty) : Visits tree false ctx.scope c b (rest.flatMap Declarator.parts)
        (declare ctx name kind type >>= fun _ => declarators ctx kind rest) :=
      .plainThen (visits_declare hfirst.head.1 kind type)
        (fun _ => visits_declarators ctx kind rest hrest) hrest.le
    refine Visits.bind ?_ hdeclare hfirst.le hrest.le
    exact (hvalue.loosen.widen hfirst.le_hi le_rfl).congr
      (headIn_names_append [name] _).symm

theorem visits_cases (ctx : Context)
    (lastDiverges : Bool) : (cs : List SwitchCase) → ∀ {a b : Nat}, Row tree a b (cs.map .case) →
    Visits tree false ctx.scope a b (cs.map .case) (cases ctx lastDiverges cs)
  | [], _, _, _ => .of_still (still_pure _)
  | .mk span test body :: rest, a, b, ho => by
    have hparts : RowIn tree span (test.toList.map .expr ++ body.map .stmt) :=
      .parts hlaid ho.head.1 rfl
    obtain ⟨d, htest, hbody⟩ := hparts.split
    have hvisit := visits_inferOption ctx test htest
    have hsequence := visits_sequence hbody.of_mem hbody.le fun flow =>
      visits_stmts ctx body flow hbody
    have hcase := (hvisit.loosen.bind (fun _ => hsequence) htest.le hbody.le).node
      (n := .case (.mk span test body)) rfl
    have hrest (diverges : Bool) := visits_cases ctx diverges rest ho.tail
    exact Visits.bind (hcase.widen ho.lo_le le_rfl) hrest ho.le_hi ho.hi_le

theorem visits_infer (ctx : Context) (use : Use) :
    (e : Expr) → tree.Stands (.expr e) →
    Visits tree true ctx.scope e.span.lo e.span.hi [.expr e] (infer ctx use e)
  | .ident x, he => by
    have ho := Row.parts hlaid he.1 rfl
    have hread (inner : Context) : Visits tree true inner.scope x.span.lo x.span.hi [.name x]
        (read inner x) :=
      (visits_read ho.head.1 le_rfl he.2 le_rfl).congr (headIn_names [x]).symm
    cases use with
    | callee =>
      refine ((hread ctx).thenStill fun _ => ?_).node rfl
      exact ((tame_nameSignature ctx x).still _).thenPure _
    | value => exact (visits_nested (hread ctx.deeper)).node rfl
  | .int _ _, _ | .double _ _, _ | .string _ _, _ | .regexp _ _ _, _ | .bool _ _, _ | .null _, _
  | .this _, _ | .invalid _, _ => (visits_nested (.of_still (still_pure _))).node rfl
  | .template span parts, he =>
    (visits_nested ((visits_inferAll ctx.deeper parts (.standing hlaid he.1)).thenPure _)).node
      rfl
  | .array span elements, he => by
    have ho := row_unread (.parts hlaid he.1 rfl) (bytes source)
    exact (visits_nested ((visits_inferAll ctx.deeper elements ho).thenPure _)).node rfl
  | .object span ps, he =>
    (visits_nested ((visits_properties ctx.deeper ps (.parts hlaid he.1 rfl)).thenPure _)).node
      rfl
  | .spread span value, he => by
    have ho := Row.parts hlaid he.1 rfl
    have hvalue := visits_infer ctx.deeper .value value ho.head
    exact (visits_nested (visits_typeOf (.only ho hvalue))).node rfl
  | .unary span op operand, he => by
    have ho := Row.parts hlaid he.1 rfl
    have hoperand := visits_infer ctx.deeper .value operand ho.head
    exact (visits_nested ((visits_typeOf (.only ho hoperand)).thenPure _)).node rfl
  | .update span op isPrefix target, he => by
    have ho := Row.parts hlaid he.1 rfl
    have htarget := visits_infer ctx.deeper .value target ho.head
    refine (visits_nested (visits_assignTarget hlaid ho.head.1 ho.lo_le ho.hi_le Ty.numeric
      Ty.numeric (visits_typeOf (.only ho htarget)) fun x hx _ s _ r hr _ => ?_)).node rfl
    exact symbol_of_mem_target target hx ctx.deeper s r hr
  | .binary span op lhs rhs, he => by
    have ho := Row.parts hlaid he.1 rfl
    have hlhs := visits_infer ctx.deeper .value lhs ho.head
    have hrhs := visits_infer ctx.deeper .value rhs ho.tail.head
    exact (visits_nested (visits_binary span op
      (visits_typeOf (hlhs.widen ho.lo_le le_rfl))
      (visits_typeOf (.only ho.tail hrhs)) ho.le_hi ho.hi_le)).node rfl
  | .assign span op target value, he => by
    have ho := Row.parts hlaid he.1 rfl
    have htarget := visits_infer ctx.deeper .value target ho.head
    have hvalue := visits_infer ctx.deeper .value value ho.tail.head
    exact (visits_nested (visits_assignment hlaid span op ho.head ho.lo_le ho.hi_le
      (visits_typeOf (htarget.widen ho.lo_le le_rfl))
      (visits_typeOf (.only ho.tail hvalue)))).node rfl
  | .conditional span test yes no, he => by
    have ho := Row.parts hlaid he.1 rfl
    have htest := visits_infer ctx.deeper .value test ho.head
    have hyes := visits_infer ctx.deeper .value yes ho.tail.head
    have hno := visits_infer ctx.deeper .value no ho.tail.tail.head
    exact (visits_nested (.first ho htest fun _ => visits_either
      (visits_typeOf (hyes.widen ho.tail.lo_le le_rfl))
      (visits_typeOf (.only ho.tail.tail hno)) ho.tail.le_hi ho.tail.hi_le)).node rfl
  | .call span callee args isOptional, he => by
    have ho := Row.parts hlaid he.1 rfl
    have hcallee := visits_infer ctx.deeper .callee callee ho.head
    have hargs := visits_inferAll ctx.deeper args (row_unread ho.tail (bytes source))
    exact (visits_nested (.first ho hcallee fun f => hargs.thenStill fun _ =>
      (tame_finishCall ctx.deeper span callee _ _ args).still _)).node rfl
  | .member span base property isOptional, he => by
    have ho := Row.parts hlaid he.1 rfl
    have hbase (inner : Context) : Visits tree true inner.scope span.lo span.hi
        [.expr base, .name property] (typeOf (infer inner .value base)) :=
      (visits_typeOf ((visits_infer inner .value base ho.head).widen ho.lo_le
        ho.hi_le)).congr (headIn_append_names _ [property]).symm
    cases use with
    | callee =>
      refine ((hbase ctx).thenStill fun type => ?_).node rfl
      exact ((tame_member ctx type property).still _).thenPure _
    | value =>
      exact (visits_nested ((hbase ctx.deeper).thenStill fun type =>
        (tame_member ctx.deeper type property).still _)).node rfl
  | .index span base key isOptional, he => by
    have ho := Row.parts hlaid he.1 rfl
    have hbase := visits_infer ctx.deeper .value base ho.head
    have hkey := visits_infer ctx.deeper .value key ho.tail.head
    exact (visits_nested (.first ho (visits_typeOf hbase)
      fun _ => (Visits.only ho.tail hkey).thenPure _)).node rfl
  | .function span name params body, he =>
    (visits_nested (visits_functionParts ctx.deeper (.parts hlaid he.1 rfl) he.2
      fun inner flow => visits_stmts inner body flow)).node rfl
  | .arrowBlock span params body, he => by
    have ho : RowIn tree span (functionParts none params body) := .parts hlaid he.1 rfl
    exact (visits_nested (visits_functionParts ctx.deeper ho he.2 fun inner flow =>
      visits_stmts inner body flow)).node rfl
  | .arrowExpr span params body, he => by
    have ho := Row.parts hlaid he.1 rfl
    obtain ⟨c, hparams, ho⟩ := ho.split
    refine (visits_nested ((visits_function ctx.deeper he.2 hparams.of_mem fun inner => ?_).congr
      (headIn_paramNodes_append params _).symm)).node rfl
    exact visits_typeOf ((visits_infer inner .value body ho.head).loosen.widen
      (hparams.le.trans ho.lo_le) ho.hi_le)
  | .paren span inner, he => by
    have ho := Row.parts hlaid he.1 rfl
    cases use with
    | callee => exact (Visits.only ho (visits_infer ctx .callee inner ho.head)).node rfl
    | value =>
      have hinner := visits_infer ctx.deeper .value inner ho.head
      exact (visits_nested (visits_typeOf (.only ho hinner))).node rfl

theorem visits_inferOption (ctx : Context) :
    (e : Option Expr) → ∀ {a b : Nat}, Row tree a b (e.toList.map .expr) →
    Visits tree true ctx.scope a b (e.toList.map .expr) (inferOption ctx e)
  | some e, _, _, ho => visits_typeOf (.only ho (visits_infer ctx .value e ho.head))
  | none, _, _, _ => .of_still (still_pure _)

theorem visits_inferAll (ctx : Context) :
    (es : List Expr) → ∀ {a b : Nat},
    Row tree a b ((es.filter fun e => !e.isUnread (bytes source)).map .expr) →
    Visits tree true ctx.scope a b (es.map .expr) (inferAll ctx es)
  | [], _, _, _ => .of_still (still_pure _)
  | e :: rest, a, b, ho => by
    cases hunread : e.isUnread (bytes source) with
    | true =>
      -- what could not be read is not visited
      rw [filter_cons_of_neg (by simp [hunread])] at ho
      have hinvalid : Visits tree true ctx.scope a a [.expr e] (typeOf (infer ctx .value e)) := by
        rw [Expr.eq_invalid_of_isUnread hunread]
        exact visits_typeOf ((visits_nested (.of_still (still_pure _))).node rfl)
      exact hinvalid.bind (fun _ => (visits_inferAll ctx rest ho).thenPure _)
        le_rfl ho.le
    | false =>
      rw [filter_cons_of_pos (by simp [hunread]), map_cons] at ho
      exact .first ho (visits_typeOf (visits_infer ctx .value e ho.head)) fun _ =>
        (visits_inferAll ctx rest ho.tail).thenPure _

theorem visits_properties (ctx : Context) :
    (ps : List Property) → ∀ {a b : Nat}, Row tree a b (ps.flatMap Property.parts) →
    Visits tree true ctx.scope a b (ps.flatMap Property.parts) (properties ctx ps)
  | [], _, _, _ => .of_still (still_pure _)
  | .named key value :: rest, a, b, ho => by
    rw [flatMap_cons] at ho ⊢
    rw [Property.parts, append_assoc] at ho
    obtain ⟨c, hkey, ho⟩ := ho.split
    have hvalue := (visits_infer ctx .value value ho.head).widen
      (hkey.le.trans ho.lo_le) le_rfl
    exact .bind (hvalue.congr (headIn_names_append _ _).symm)
      (fun _ => visits_properties ctx rest ho.tail) (hkey.le.trans ho.le_hi) ho.hi_le
  | .computed key value :: rest, a, b, ho => by
    rw [flatMap_cons] at ho ⊢
    exact .first ho (visits_infer ctx .value key ho.head) fun _ =>
      .first ho.tail (visits_infer ctx .value value ho.tail.head) fun _ =>
        visits_properties ctx rest ho.tail.tail
  | .shorthand name :: rest, a, b, ho => by
    rw [flatMap_cons] at ho ⊢
    have hread : Visits tree true ctx.scope name.span.lo name.span.hi [] (read ctx name) :=
      visits_read ho.head.1 le_rfl ho.head.2 le_rfl
    exact .first ho (hread.congr (headIn_names [name]).symm) fun _ =>
      visits_properties ctx rest ho.tail
  | .spread value :: rest, a, b, ho => by
    rw [flatMap_cons] at ho ⊢
    exact .first ho (visits_infer ctx .value value ho.head) fun _ =>
      visits_properties ctx rest ho.tail

end

end Walk

end ScriptCheck
