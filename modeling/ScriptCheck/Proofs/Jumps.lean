import ScriptCheck.Proofs.Gating
import ScriptCheck.Proofs.ReadPositions

/-!
# Jumps that lead nowhere

A `break` leaves a loop or a switch and a `continue` goes on with a loop, within the innermost
function around it. The jumps of a program can be listed without an analysis, each with the
functions, loops and switches around it (`Program.jumps`). One that has nothing to leave or to go on
with is *stray*. An analysis finds exactly the stray jumps, each once and in the order of the visit
(`Analysis.strays_ofProgram`), in every program whose levels of expressions are within the limit.

A visit is told by its context whether a jump may stand at a place, and what it notes of jumps is
added up along the steps of the visit (`Notes`). In an expression the context does not matter: there
a jump stands in a function only, which no jump leaves.
-/

namespace ScriptCheck

open List

/-! ### Jumps and what is around them -/

/-- Something that a jump can stand in. -/
inductive Enclosing where
  | function
  | loop
  | switch
  deriving DecidableEq, Repr

inductive JumpKind where
  | breaks
  | continues
  deriving DecidableEq, Repr

/-- A `break` or a `continue`, with the functions, loops and switches around it, the innermost
first. -/
structure Jump where
  kind : JumpKind
  span : Span
  around : List Enclosing
  deriving DecidableEq, Repr

/-- What is around a place within its innermost function. -/
def withinFunction (around : List Enclosing) : List Enclosing := around.takeWhile (· ≠ .function)

/-- Whether a jump has nothing that it could leave or go on with. -/
def Jump.isStray (j : Jump) : Bool :=
  match j.kind with
  | .breaks => !(withinFunction j.around).any fun e => e = .loop || e = .switch
  | .continues => !(withinFunction j.around).any fun e => e = .loop

/-- The finding that a jump has no place where it stands. -/
def Jump.finding (j : Jump) : Located Finding :=
  match j.kind with
  | .breaks => ⟨j.span, .breakOutsideLoop⟩
  | .continues => ⟨j.span, .continueOutsideLoop⟩

mutual

/-- The jumps of a statement, in the order of a visit. What a loop starts with is not in it. -/
def Stmt.jumps (around : List Enclosing) : Stmt → List Jump
  | .expr _ value | .exportDefault _ value => value.jumps around
  | .decl _ _ ds => declaratorsJumps around ds
  | .function _ _ _ body => stmtsJumps (.function :: around) body
  | .ifElse _ test yes no =>
    test.jumps around ++ (yes.jumps around ++ stmtOptionJumps around no)
  | .whileLoop _ test body => test.jumps (.loop :: around) ++ body.jumps (.loop :: around)
  | .forLoop _ init test update body =>
    stmtOptionJumps around init ++ (exprOptionJumps (.loop :: around) test ++
      (body.jumps (.loop :: around) ++ exprOptionJumps (.loop :: around) update))
  | .forIn _ _ _ _ iterable body =>
    iterable.jumps (.loop :: around) ++ body.jumps (.loop :: around)
  | .switch _ subject cases =>
    subject.jumps (.switch :: around) ++ casesJumps (.switch :: around) cases
  | .tryCatch _ body _ handler => stmtsJumps around body ++ stmtsJumps around handler
  | .returns _ value => exprOptionJumps around value
  | .breaks span => [⟨.breaks, span, around⟩]
  | .continues span => [⟨.continues, span, around⟩]
  | .block _ body => stmtsJumps around body
  | .exportDecl _ declaration => declaration.jumps around
  | .imports _ _ _ | .exportNames _ _ _ | .exportAll _ _ _ | .empty _ => []

def stmtOptionJumps (around : List Enclosing) : Option Stmt → List Jump
  | some s => s.jumps around
  | none => []

def stmtsJumps (around : List Enclosing) : List Stmt → List Jump
  | [] => []
  | s :: rest => s.jumps around ++ stmtsJumps around rest

def declaratorsJumps (around : List Enclosing) : List Declarator → List Jump
  | [] => []
  | .mk _ init :: rest => exprOptionJumps around init ++ declaratorsJumps around rest

def casesJumps (around : List Enclosing) : List SwitchCase → List Jump
  | [] => []
  | .mk _ test body :: rest =>
    exprOptionJumps around test ++ (stmtsJumps around body ++ casesJumps around rest)

/-- The jumps in the functions of an expression, in the order of a visit. -/
def Expr.jumps (around : List Enclosing) : Expr → List Jump
  | .template _ es | .array _ es => exprsJumps around es
  | .object _ ps => propertiesJumps around ps
  | .spread _ e | .unary _ _ e | .update _ _ _ e | .member _ e _ _ | .paren _ e => e.jumps around
  | .binary _ _ a b | .index _ a b _ | .assign _ _ a b => a.jumps around ++ b.jumps around
  | .conditional _ test yes no => test.jumps around ++ (yes.jumps around ++ no.jumps around)
  | .call _ callee args _ => callee.jumps around ++ exprsJumps around args
  | .function _ _ _ body | .arrowBlock _ _ body => stmtsJumps (.function :: around) body
  | .arrowExpr _ _ body => body.jumps (.function :: around)
  | .ident _ | .int _ _ | .double _ _ | .string _ _ | .regexp _ _ _ | .bool _ _ | .null _ | .this _
  | .invalid _ => []

def exprOptionJumps (around : List Enclosing) : Option Expr → List Jump
  | some e => e.jumps around
  | none => []

def exprsJumps (around : List Enclosing) : List Expr → List Jump
  | [] => []
  | e :: rest => e.jumps around ++ exprsJumps around rest

def propertiesJumps (around : List Enclosing) : List Property → List Jump
  | [] => []
  | .named _ value :: rest | .spread value :: rest =>
    value.jumps around ++ propertiesJumps around rest
  | .computed key value :: rest =>
    key.jumps around ++ (value.jumps around ++ propertiesJumps around rest)
  | .shorthand _ :: rest => propertiesJumps around rest

end

/-- The jumps of a program, in the order of a visit. -/
def Program.jumps (p : Program) : List Jump := stmtsJumps [] p.body

/-- The findings of the stray ones among some jumps. -/
def strayFindings (js : List Jump) : List (Located Finding) :=
  (js.filter Jump.isStray).map Jump.finding

@[simp] theorem strayFindings_append (js ks : List Jump) :
    strayFindings (js ++ ks) = strayFindings js ++ strayFindings ks := by
  rw [strayFindings, filter_append, map_append]
  rfl

theorem Finding.pass_of_isOfJump (f : Finding) (h : f.isOfJump) : f.pass = .controlFlow := by
  unfold isOfJump at h
  split at h
  · rfl
  · rfl
  · cases h

namespace Walk

/-! ### What is noted of jumps -/

variable {α β : Type} {p : Walk α} {f : α → Walk β} {js ks : List Jump} {ctx : Context}
  {d l m : Nat}

/-- A step notes nothing about jumps. -/
def Silent (p : Walk α) : Prop := ∀ s : State, (s.after p).strays = s.strays

/-- A step notes the stray ones among some jumps, in every state, if there is room for its levels at
some depth. -/
def Notes (depth levels : Nat) (p : Walk α) (js : List Jump) : Prop :=
  depth + levels ≤ maxNesting → ∀ s : State, (s.after p).strays = s.strays ++ strayFindings js

theorem silent_pure (a : α) : Silent (pure a : Walk α) := fun _ => rfl

theorem silent_modify {g : State → State} (h : ∀ s, (g s).findings = s.findings) :
    Silent (modify g : Walk PUnit) := by
  intro s
  change (g s).strays = _
  rw [State.strays, h]
  rfl

namespace Silent

theorem notes (h : Silent p) : Notes d l p [] := fun _ s => (h s).trans (append_nil _).symm

theorem bind (hp : Silent p) (hf : ∀ a, Silent (f a)) : Silent (p >>= f) :=
  fun s => (hf _ _).trans (hp s)

theorem thenPure (hp : Silent p) (g : α → β) : Silent (p >>= fun a => pure (g a)) :=
  hp.bind fun a => silent_pure (g a)

end Silent

namespace Notes

theorem bind (hp : Notes d l p js) (hf : ∀ a, Notes d m (f a) ks) :
    Notes d (max l m) (p >>= f) (js ++ ks) := by
  intro h s
  change ((s.after p).after (f (s.answer p))).strays = _
  rw [hf _ (by omega), hp (by omega), strayFindings_append, append_assoc]

/-- What comes first notes nothing. -/
theorem after (hf : ∀ a, Notes d l (f a) ks) (hp : Silent p) : Notes d l (p >>= f) ks :=
  fun h s => (hf _ h _).trans (congrArg (· ++ _) (hp s))

/-- What comes last notes nothing. -/
theorem andThen (hp : Notes d l p js) (hf : ∀ a, Silent (f a)) : Notes d l (p >>= f) js :=
  fun h s => (hf _ _).trans (hp h s)

theorem thenPure (hp : Notes d l p js) (g : α → β) : Notes d l (p >>= fun a => pure (g a)) js :=
  hp.andThen fun a => silent_pure (g a)

theorem get {f : State → Walk β} (h : ∀ s, Notes d l (f s) ks) :
    Notes d l (MonadState.get >>= f) ks :=
  fun hl s => h s hl s

end Notes

/-- What changes no findings about jumps notes none. -/
theorem Tame.silent {P : PassSet → Walk α} (h : Tame 2 P) (c : PassSet) : Silent (P c) :=
  fun s => (h.changes c s).silent (Nat.le_refl 2)

/-- A finding about a jump is noted where its pass reports. -/
theorem notes_reportWhen {passes : PassSet} (hflow : passes.enabled .controlFlow) (ctx : Context)
    (j : Jump) : Notes d l
      (reportWhen (ctx.reporting passes) j.isStray j.finding.span j.finding.value) [j] := by
  intro _ s
  have hpass : passes.enabled j.finding.value.pass = true := by
    rw [← hflow]
    unfold Jump.finding
    cases j.kind <;> rfl
  have hsort : j.finding.value.isOfJump = true := by
    unfold Jump.finding
    cases j.kind <;> rfl
  cases hstray : j.isStray with
  | false =>
    rw [strayFindings, filter_cons_of_neg (Bool.not_eq_true _ ▸ hstray)]
    exact (append_nil _).symm
  | true =>
    rw [strayFindings, filter_cons_of_pos hstray]
    change State.strays (if passes.enabled j.finding.value.pass then _ else _) = _
    rw [if_pos hpass]
    simp [State.strays, hsort]

/-! ### Putting steps together -/

theorem Notes.typeOf {visit : Walk Typed} (h : Notes d l visit js) : Notes d l (typeOf visit) js :=
  h.thenPure Typed.type

/-- A block is visited at the same place, but for its scope. -/
theorem notes_openBlock {f : Context → Walk β} (span : Option Span)
    (h : ∀ scope, Notes d l (f (ctx.inScope scope)) js) :
    Notes d l (openBlock ctx span >>= f) js := by
  cases span with
  | some span => exact fun hl s => Notes.after h ((tame_openScope ctx .block span).silent _) hl s
  | none => exact h ctx.scope

theorem notes_openHandler {f : Context → Walk β} (param : Option Ident) (handler : List Stmt)
    (h : ∀ scope, Notes d l (f (ctx.inScope scope)) js) :
    Notes d l (openHandler ctx param handler >>= f) js :=
  fun hl s => notes_openBlock (handlerSpan param handler) h hl (s.after (require _))

theorem notes_nested {passes : PassSet} {visit : Context → Walk Ty}
    (h : Notes ctx.deeper.depth l (visit (ctx.deeper.reporting passes)) js) :
    Notes ctx.depth (l + 1) (nested (ctx.reporting passes) visit) js := by
  intro hl
  have hroom : ¬ maxNesting ≤ ctx.depth := by omega
  unfold nested
  rw [if_neg (show ¬ maxNesting ≤ (ctx.reporting passes).depth from hroom)]
  exact h.thenPure _ (by rwa [Context.deeper, Nat.add_assoc, Nat.add_comm 1])

theorem notes_sequence (body : List Stmt) {visit : Flow → Walk Flow}
    (h : ∀ flow, Notes d l (visit flow) js) : Notes d l (sequence ctx body visit) js :=
  .after (fun _ => (h .reachable).thenPure _) ((tame_hoist ctx body).silent _)

theorem Notes.resultOf {body : Walk Bool} (h : Notes d l body js) : Notes d l (resultOf body) js :=
  h.andThen fun _ _ => rfl

theorem notes_function (span : Span) (params : List Param) {body : Context → Walk Ty}
    (h : ∀ scope, Notes d l (body (ctx.inFunction scope)) js) :
    Notes d l (function ctx span params body) js := by
  refine .after (fun scope => .get fun outer => ?_) ((tame_openScope ctx .function span).silent _)
  refine .after (fun _ => ?_) (silent_modify fun _ => rfl)
  refine .after (fun _ => ?_) ((tame_declareParams (ctx.inFunction scope) params).silent _)
  exact (h scope).andThen fun result _ => rfl

theorem notes_functionDecl (name : Option Ident) (params : List Param) {visit : Walk Ty}
    (h : Notes d l visit js) : Notes d l (functionDecl ctx name params visit) js := by
  cases name with
  | some name =>
    have hrest : Notes d l (visit >>= recordFunction ctx name) js :=
      h.andThen fun type => (tame_recordFunction ctx name type).silent _
    refine .after (fun found => ?_) ((tame_lookup ctx name).silent _)
    split
    · exact .after (fun _ => hrest) ((tame_hoistFunction ctx _ params).silent _)
    · exact hrest
  | none => exact h.thenPure _

theorem notes_binary (span : Span) (op : BinaryOp) {lhs rhs : Walk Ty} (hlhs : Notes d l lhs js)
    (hrhs : Notes d m rhs ks) : Notes d (max l m) (binary ctx span op lhs rhs) (js ++ ks) := by
  refine hlhs.bind fun left => ?_
  split
  · refine .after (fun before => hrhs.andThen fun right => ?_) (tame_env.silent .all)
    exact ((tame_mergeBranches before false false).silent .all).thenPure _
  · refine hrhs.andThen fun right => ?_
    split
    · exact silent_pure _
    · exact silent_pure _
    · split
      · exact ((tame_report ctx _ fun _ => rfl).silent _).thenPure _
      · exact silent_pure _
    · exact ((tame_require false).silent .all).thenPure _

/-- A target that is not visited has no jumps. -/
theorem notes_assigned (span : Span) (op : AssignOp) (target : Expr) (around : List Enclosing)
    {visit value : Walk Ty} (htarget : Notes d l visit (target.jumps around))
    (hvalue : Notes d m value ks) : Notes d (max (if target.isOverwritten op then 0 else l) m)
      (assigned ctx span op (isIdent target) visit value) (target.jumps around ++ ks) := by
  cases op with
  | assign =>
    cases hname : isIdent target with
    | true =>
      have hnone : target.jumps around = [] := by
        unfold isIdent at hname
        split at hname
        · rfl
        · cases hname
      rw [hnone]
      exact fun hl => hvalue (by omega)
    | false =>
      rw [Expr.isOverwritten, hname]
      exact htarget.bind fun _ => hvalue
  | compound op => exact notes_binary span op htarget hvalue

theorem notes_either {yes no : Walk Ty} (hyes : Notes d l yes js) (hno : Notes d m no ks) :
    Notes d (max l m) (either yes no) (js ++ ks) := by
  refine .after (fun before => hyes.bind fun first => ?_) (tame_env.silent .all)
  refine .after (fun after => ?_) (tame_env.silent .all)
  refine .after (fun _ => hno.andThen fun second => ?_) ((tame_setEnv before).silent .all)
  exact ((tame_mergeBranches after false false).silent .all).thenPure _

theorem notes_step (s : Stmt) (flow : Flow) {visit : Walk Bool} (h : Notes d l visit js) :
    Notes d l (step ctx s flow visit) js := by
  refine .after (fun flow => .get fun before => h.andThen fun diverges => ?_)
    ((tame_enter ctx s flow).silent _)
  split
  · exact fun _ => rfl
  · exact silent_pure _

theorem notes_loop {body : Walk Bool} {update : Walk α} (hbody : Notes d l body js)
    (hupdate : Notes d m update ks) : Notes d (max l m) (loop body update) (js ++ ks) := by
  refine .get fun before => hbody.bind fun _ => ?_
  refine .after (fun _ => hupdate.andThen fun _ => ?_) (silent_modify fun _ => rfl)
  exact (tame_mergeBranches before.env false false).silent .all

/-- Nothing is done after a round. -/
theorem notes_rounds {body : Walk Bool} (h : Notes d l body js) :
    Notes d l (loop body (pure ())) js := by
  have hloop := notes_loop (m := 0) h (silent_pure ()).notes
  rwa [append_nil, Nat.max_zero] at hloop

theorem notes_switchCases (hasDefault : Bool) {cases : Walk Bool} (h : Notes d l cases js) :
    Notes d l (switchCases hasDefault cases) js := by
  refine .get fun before => .after (fun _ => ?_) (silent_modify fun _ => rfl)
  exact h.andThen fun lastDiverges _ => rfl

/-! ### Statements and expressions -/

/-- A context knows which jumps may stand at a place. -/
structure Knows (ctx : Context) (around : List Enclosing) : Prop where
  mayBreak : ctx.mayBreak = (withinFunction around).any fun e => e = .loop || e = .switch
  mayContinue : ctx.mayContinue = (withinFunction around).any fun e => e = .loop

namespace Knows

variable {around : List Enclosing}

theorem inScope (h : Knows ctx around) (scope : Nat) : Knows (ctx.inScope scope) around :=
  ⟨h.mayBreak, h.mayContinue⟩

theorem inLoop (ctx : Context) (around : List Enclosing) : Knows ctx.inLoop (.loop :: around) :=
  ⟨rfl, rfl⟩

theorem inSwitch (h : Knows ctx around) : Knows ctx.inSwitch (.switch :: around) :=
  ⟨rfl, h.mayContinue⟩

/-- No jump leaves a function. -/
theorem inFunction (ctx : Context) (scope : Nat) (around : List Enclosing) :
    Knows (ctx.inFunction scope) (.function :: around) :=
  ⟨rfl, rfl⟩

end Knows

variable {passes : PassSet} (hflow : passes.enabled .controlFlow)

include hflow

set_option linter.unusedSectionVars false in
mutual

theorem notes_stmt (ctx : Context) (around : List Enclosing) (hknows : Knows ctx around) :
    (s : Stmt) → Notes ctx.depth s.levels (stmt (ctx.reporting passes) s) (s.jumps around)
  | .expr _ value =>
    (notes_infer ctx around .value value).andThen fun _ => (tame_exits ctx value).silent _
  | .decl _ kind ds => (notes_declarators ctx around kind.symbolKind ds).thenPure _
  | .function span name params body =>
    Notes.thenPure (notes_functionDecl name params <| notes_function span params fun scope =>
      .resultOf (notes_sequence body
        (notes_stmts (ctx.inFunction scope) _ (.inFunction ctx scope around) body))) _
  | .ifElse _ test yes no => by
    refine (notes_infer ctx around .value test).bind fun _ => ?_
    refine .after (fun before => ?_) (tame_env.silent .all)
    refine (notes_stmt ctx around hknows yes).bind fun yesDiverges => ?_
    refine .after (fun after => .after (fun _ => ?_) ((tame_setEnv before).silent .all))
      (tame_env.silent .all)
    exact (notes_stmtOption ctx around hknows no).andThen fun _ =>
      ((tame_mergeBranches after _ _).silent .all).thenPure _
  | .whileLoop _ test body =>
    (notes_infer ctx _ .value test).bind fun _ =>
      (notes_rounds (notes_stmt ctx.inLoop _ (.inLoop ctx around) body)).thenPure _
  | .forLoop span init test update body => by
    refine notes_openBlock _ fun scope => ?_
    refine (notes_stmtOption (ctx.inScope scope) _ (hknows.inScope scope) init).bind fun _ => ?_
    refine (notes_inferOption (ctx.inScope scope) _ test).bind fun _ => ?_
    exact (notes_loop (notes_stmt (ctx.inScope scope).inLoop _ (.inLoop _ around) body)
      (notes_inferOption (ctx.inScope scope) _ update)).thenPure _
  | .forIn span kind key value iterable body => by
    refine (notes_infer ctx _ .value iterable).typeOf.bind fun type => ?_
    refine notes_openBlock _ fun scope => ?_
    refine .after (fun _ => ?_) ((tame_bindForIn (ctx.inScope scope) _ key _).silent _)
    refine .after (fun _ => ?_) ((tame_bindForIn (ctx.inScope scope) _ (some value) _).silent _)
    exact (notes_rounds
      (notes_stmt (ctx.inScope scope).inLoop _ (.inLoop _ around) body)).thenPure _
  | .switch span subject cs =>
    (notes_infer ctx _ .value subject).bind fun _ => notes_openBlock _ fun scope =>
      notes_switchCases _
        (notes_cases (ctx.inScope scope).inSwitch _ (hknows.inScope scope).inSwitch false cs)
  | .tryCatch span body param handler => by
    refine .after (fun before => notes_openBlock _ fun scope => ?_) (tame_env.silent .all)
    refine Notes.bind (notes_sequence body
      (notes_stmts (ctx.inScope scope) _ (hknows.inScope scope) body)) fun _ => ?_
    refine .after (fun after => .after (fun _ => ?_) ((tame_setEnv _).silent .all))
      (tame_env.silent .all)
    refine notes_openHandler param handler fun scope => ?_
    refine .after (fun _ => ?_) ((tame_declareCaught (ctx.inScope scope) param).silent _)
    refine Notes.andThen (notes_sequence handler
      (notes_stmts (ctx.inScope scope) _ (hknows.inScope scope) handler)) fun _ => ?_
    exact ((tame_mergeBranches after _ _).silent .all).thenPure _
  | .returns _ value => (notes_inferOption ctx around value).andThen fun _ _ => rfl
  | .breaks span => by
    have hstray : (!ctx.mayBreak) = Jump.isStray ⟨.breaks, span, around⟩ := by
      rw [hknows.mayBreak]
      rfl
    have hnoted : Notes ctx.depth 0 _ _ := notes_reportWhen hflow ctx ⟨.breaks, span, around⟩
    rw [← hstray] at hnoted
    exact hnoted.andThen fun _ _ => rfl
  | .continues span => by
    have hstray : (!ctx.mayContinue) = Jump.isStray ⟨.continues, span, around⟩ := by
      rw [hknows.mayContinue]
      rfl
    have hnoted : Notes ctx.depth 0 _ _ := notes_reportWhen hflow ctx ⟨.continues, span, around⟩
    rw [← hstray] at hnoted
    exact hnoted.thenPure _
  | .block span body =>
    notes_openBlock _ fun scope => notes_sequence body
      (notes_stmts (ctx.inScope scope) _ (hknows.inScope scope) body)
  | .imports _ specs source => (((tame_importNames ctx specs source).silent _).thenPure _).notes
  | .exportDecl _ declaration =>
    (notes_stmt ctx around hknows declaration).andThen fun _ =>
      ((tame_countExported ctx _).silent _).thenPure _
  | .exportDefault _ value => (notes_infer ctx around .value value).thenPure _
  | .exportNames _ specs source => (((tame_exportNames ctx specs source).silent _).thenPure _).notes
  | .exportAll _ _ source => (((tame_checkSource ctx source).silent _).thenPure _).notes
  | .empty _ => (silent_pure _).notes

theorem notes_stmtOption (ctx : Context) (around : List Enclosing) (hknows : Knows ctx around) :
    (s : Option Stmt) → Notes ctx.depth (stmtOptionLevels s) (stmtOption (ctx.reporting passes) s)
      (stmtOptionJumps around s)
  | some s => notes_stmt ctx around hknows s
  | none => (silent_pure _).notes

theorem notes_stmts (ctx : Context) (around : List Enclosing) (hknows : Knows ctx around) :
    (ss : List Stmt) → (flow : Flow) →
    Notes ctx.depth (stmtsLevels ss) (stmts (ctx.reporting passes) ss flow) (stmtsJumps around ss)
  | [], _ => (silent_pure _).notes
  | s :: rest, flow =>
    (notes_step s flow (notes_stmt ctx around hknows s)).bind fun flow =>
      notes_stmts ctx around hknows rest flow

theorem notes_declarators (ctx : Context) (around : List Enclosing) (kind : SymbolKind) :
    (ds : List Declarator) → Notes ctx.depth (declaratorsLevels ds)
      (declarators (ctx.reporting passes) kind ds) (declaratorsJumps around ds)
  | [] => (silent_pure _).notes
  | .mk name init :: rest =>
    (notes_inferOption ctx around init).bind fun type =>
      .after (fun _ => notes_declarators ctx around kind rest)
        ((tame_declare ctx name kind type).silent _)

theorem notes_cases (ctx : Context) (around : List Enclosing) (hknows : Knows ctx around)
    (lastDiverges : Bool) : (cs : List SwitchCase) → Notes ctx.depth (casesLevels cs)
      (cases (ctx.reporting passes) lastDiverges cs) (casesJumps around cs)
  | [] => (silent_pure _).notes
  | .mk _ test body :: rest =>
    (notes_inferOption ctx around test).bind fun _ =>
      .bind (notes_sequence body (notes_stmts ctx around hknows body)) fun diverges =>
        notes_cases ctx around hknows diverges rest

theorem notes_infer (ctx : Context) (around : List Enclosing) (use : Use) : (e : Expr) →
    Notes ctx.depth (e.levels use) (infer (ctx.reporting passes) use e) (e.jumps around)
  | .ident name => by
    cases use with
    | callee =>
      exact (((tame_read ctx name).silent _).bind fun _ =>
        ((tame_nameSignature ctx name).silent _).thenPure _).notes
    | value => exact notes_nested ((tame_read ctx.deeper name).silent _).notes
  | .int _ _ | .double _ _ | .string _ _ | .regexp _ _ _ | .bool _ _ | .null _ | .this _
  | .invalid _ => notes_nested (silent_pure _).notes
  | .template _ es | .array _ es => notes_nested ((notes_inferAll ctx.deeper around es).thenPure _)
  | .object _ ps => notes_nested ((notes_properties ctx.deeper around ps).thenPure _)
  | .spread _ value => notes_nested (notes_infer ctx.deeper around .value value).typeOf
  | .unary _ _ operand =>
    notes_nested ((notes_infer ctx.deeper around .value operand).typeOf.thenPure _)
  | .update _ _ _ target =>
    notes_nested <| (notes_infer ctx.deeper around .value target).typeOf.andThen fun _ =>
      ((tame_assignTarget ctx.deeper target _).silent _).thenPure _
  | .binary span op lhs rhs =>
    notes_nested <| notes_binary span op (notes_infer ctx.deeper around .value lhs).typeOf
      (notes_infer ctx.deeper around .value rhs).typeOf
  | .assign span op target value =>
    notes_nested <| Notes.andThen (notes_assigned span op target around
      (notes_infer ctx.deeper around .value target).typeOf
      (notes_infer ctx.deeper around .value value).typeOf) fun _ =>
        ((tame_assignTarget ctx.deeper target _).silent _).thenPure _
  | .conditional _ test yes no =>
    notes_nested <| (notes_infer ctx.deeper around .value test).bind fun _ =>
      notes_either (notes_infer ctx.deeper around .value yes).typeOf
        (notes_infer ctx.deeper around .value no).typeOf
  | .call span callee args _ =>
    notes_nested <| (notes_infer ctx.deeper around .callee callee).bind fun f =>
      (notes_inferAll ctx.deeper around args).andThen fun _ =>
        (tame_finishCall ctx.deeper span callee f.type f.signature args).silent _
  | .member _ object property _ => by
    cases use with
    | callee =>
      exact (notes_infer ctx around .value object).typeOf.andThen fun type =>
        ((tame_member ctx type property).silent _).thenPure _
    | value =>
      exact notes_nested <| (notes_infer ctx.deeper around .value object).typeOf.andThen
        fun type => (tame_member ctx.deeper type property).silent _
  | .index _ object index _ =>
    notes_nested <| (notes_infer ctx.deeper around .value object).typeOf.bind fun _ =>
      (notes_infer ctx.deeper around .value index).thenPure _
  | .function span _ params body | .arrowBlock span params body =>
    notes_nested <| notes_function span params fun scope =>
      .resultOf (notes_sequence body
        (notes_stmts (ctx.deeper.inFunction scope) _ (.inFunction _ scope around) body))
  | .arrowExpr span params body =>
    notes_nested <| notes_function span params fun scope =>
      (notes_infer (ctx.deeper.inFunction scope) _ .value body).typeOf
  | .paren _ inner => by
    cases use with
    | callee => exact notes_infer ctx around .callee inner
    | value => exact notes_nested (notes_infer ctx.deeper around .value inner).typeOf

theorem notes_inferOption (ctx : Context) (around : List Enclosing) : (e : Option Expr) →
    Notes ctx.depth (exprOptionLevels e) (inferOption (ctx.reporting passes) e)
      (exprOptionJumps around e)
  | some e => (notes_infer ctx around .value e).typeOf
  | none => (silent_pure _).notes

theorem notes_inferAll (ctx : Context) (around : List Enclosing) : (es : List Expr) →
    Notes ctx.depth (exprsLevels es) (inferAll (ctx.reporting passes) es) (exprsJumps around es)
  | [] => (silent_pure _).notes
  | e :: rest =>
    (notes_infer ctx around .value e).typeOf.bind fun _ =>
      (notes_inferAll ctx around rest).thenPure _

theorem notes_properties (ctx : Context) (around : List Enclosing) : (ps : List Property) →
    Notes ctx.depth (propertiesLevels ps) (properties (ctx.reporting passes) ps)
      (propertiesJumps around ps)
  | [] => (silent_pure _).notes
  | .named _ value :: rest | .spread value :: rest =>
    (notes_infer ctx around .value value).bind fun _ => notes_properties ctx around rest
  | .computed key value :: rest =>
    (notes_infer ctx around .value key).bind fun _ =>
      (notes_infer ctx around .value value).bind fun _ => notes_properties ctx around rest
  | .shorthand name :: rest =>
    .after (fun _ => notes_properties ctx around rest) ((tame_read ctx name).silent _)

end

end Walk

/-! ### Programs -/

namespace Analysis

/-- An analysis finds exactly the stray jumps of a program, each once and where it stands. -/
theorem strays_ofProgram (passes : PassSet) (fileExists : String → Bool) (program : Program)
    (hflow : passes.enabled .controlFlow) (hlevels : program.levels ≤ maxNesting) :
    (ofProgram passes fileExists program).findings.filter (·.value.isOfJump) =
      strayFindings program.jumps := by
  have hvisit : (ofProgram passes fileExists program).findings.filter (·.value.isOfJump) =
      (visited passes fileExists program).strays := by
    refine filter_findings_of_visit passes fileExists program fun f hf => ?_
    rw [f.pass_of_isOfJump hf]
    exact ⟨nofun, nofun⟩
  let ctx := outermost passes fileExists
  have hdepth : ctx.depth + stmtsLevels program.body ≤ maxNesting := by
    rw [show ctx.depth = 0 from rfl, Nat.zero_add]
    exact hlevels
  have hnotes : Walk.Notes ctx.depth (stmtsLevels program.body)
      (Walk.sequence ctx program.body (Walk.stmts ctx program.body)) program.jumps :=
    Walk.notes_sequence program.body (Walk.notes_stmts hflow ctx [] ⟨rfl, rfl⟩ program.body)
  rw [hvisit]
  exact hnotes hdepth (.initial (region program))

/-- A `break` in a function that is called after each round of a loop, a `continue` in a switch and
a `break` at the end are stray; the others are not. -/
theorem strays_nested :
    let source := ("for (;; (() => \x7b break; \x7d)()) \x7b continue; \x7d " ++
      "switch (1) \x7b case 1: continue; default: break; \x7d break;").toList
    PassSet.all.enabled .controlFlow ∧ (parse .normal source).program.levels ≤ maxNesting ∧
      (ofProgram .all (fun _ => false) (parse .normal source).program).findings.filter
          (·.value.isOfJump) =
        [⟨⟨17, 6⟩, .breakOutsideLoop⟩, ⟨⟨65, 9⟩, .continueOutsideLoop⟩,
          ⟨⟨93, 6⟩, .breakOutsideLoop⟩] :=
  ⟨by decide +kernel, by decide +kernel,
    (strays_ofProgram .all (fun _ => false) _ (by decide +kernel) (by decide +kernel)).trans
      (by decide +kernel)⟩

end Analysis

end ScriptCheck
