import Mathlib.Data.List.Infix
import ScriptCheck.Proofs.Moves

/-!
# What cannot be reached

An execution of a statement is followed in a simplified form, its *course*: each test, each
selection of a case and each round of a loop may go either way, and any expression may throw. A
visit says of some statements that their end cannot be reached. We show that it is right: no
execution of such a statement completes (`Accounts.stops`). So a statement that is reported as
unreachable is not reached, and what a function may return is among the types from which its result
is inferred.

Two facts must be carried along for this. A `break` of an execution is one that the visit has found
(`Accounts.breaks`), which decides whether the end of a switch is reached, and a type that an
execution returns is one that the visit has noted (`Accounts.returned`).
-/

namespace ScriptCheck

open List

/-! ### Executions -/

/-- How the execution of a statement ends. -/
inductive Ending where
  | completes
  | throws
  | breaks
  | continues
  /-- A value is returned. Only the type that the analysis gives it is kept. -/
  | returns (type : Ty)

/-- What is left of a statement when only the ways to go through it count. -/
inductive Course where
  /-- Expressions and declarations. -/
  | plain
  /-- A call that ends the script. -/
  | exit
  | returns (type : Ty)
  | breaks
  | continues
  | branch (yes no : Course)
  | loop (body : Course)
  | switch (hasDefault : Bool) (cases : List Course)
  | tryCatch (body handler : List Course)
  | block (body : List Course)

/-- How an execution that leaves the cases of a switch goes on. -/
def Ending.afterSwitch : Ending → Ending
  | .breaks => .completes
  | o => o

/-- The ways to run one part of a script and then another one. -/
def Ending.Then (first rest : Ending → Prop) (o : Ending) : Prop :=
  (first o ∧ o ≠ .completes) ∨ (first .completes ∧ rest o)

/-- The ways to run a loop, given those to run its body once. -/
inductive Iterates (body : Ending → Prop) : Ending → Prop
  | ends : Iterates body .completes
  | throws : Iterates body .throws
  | again {o o' : Ending} (hbody : body o) (hnext : o = .completes ∨ o = .continues)
    (hrest : Iterates body o') : Iterates body o'
  | breaks (hbody : body .breaks) : Iterates body .completes
  | returns {type : Ty} (hbody : body (.returns type)) : Iterates body (.returns type)

mutual

/-- Some execution of a statement ends in a given way. -/
def Course.Runs : Course → Ending → Prop
  | .plain, o => o = .completes ∨ o = .throws
  | .exit, o => o = .throws
  | .returns type, o => o = .returns type ∨ o = .throws
  | .breaks, o => o = .breaks
  | .continues, o => o = .continues
  | .branch yes no, o => o = .throws ∨ yes.Runs o ∨ no.Runs o
  | .loop body, o => Iterates body.Runs o
  | .switch hasDefault cases, o =>
    o = .throws ∨ (hasDefault = false ∧ o = .completes) ∨
      ∃ o', Course.Selects cases o' ∧ o = o'.afterSwitch
  | .tryCatch body handler, o =>
    (Course.RunsAll body o ∧ o ≠ .throws) ∨ (Course.RunsAll body .throws ∧ Course.RunsAll handler o)
  | .block body, o => Course.RunsAll body o

/-- Some execution of statements that follow each other ends in a given way. -/
def Course.RunsAll : List Course → Ending → Prop
  | [], o => o = .completes
  | c :: rest, o => Ending.Then c.Runs (Course.RunsAll rest) o

/-- Some execution starts in one of the cases, falls through the ones after it, and ends in a given
way. -/
def Course.Selects : List Course → Ending → Prop
  | [], _ => False
  | c :: rest, o => Ending.Then c.Runs (Course.RunsAll rest) o ∨ Course.Selects rest o

end

/-- A loop is left for good only by a return in its body. -/
theorem Iterates.ending {body : Ending → Prop} {o : Ending} (h : Iterates body o) :
    o = .completes ∨ o = .throws ∨ ∃ type, o = .returns type ∧ body o := by
  induction h with
  | ends | breaks => exact .inl rfl
  | throws => exact .inr (.inl rfl)
  | again _ _ _ ih => exact ih
  | returns hbody => exact .inr (.inr ⟨_, rfl, hbody⟩)

-- Nothing keeps a loop from running no round at all, and a case without a default may be left out.
example : (Course.loop .exit).Runs .completes := Iterates.ends

example : (Course.switch false [.exit]).Runs .completes := .inr (.inl ⟨rfl, rfl⟩)

namespace Walk

open Course (RunsAll Selects)

/-! ### Courses of statements -/

mutual

/-- The course of a statement that is visited from a state of the analysis. The state tells which
calls end the script, and the types of what is returned. -/
def course (ctx : Context) (s : Stmt) (σ : State) : Course :=
  match s with
  | .expr _ value =>
    if (σ.after (infer ctx .value value)).answer (exits ctx value) then .exit else .plain
  | .ifElse _ test yes no =>
    let before := σ.after (infer ctx .value test)
    .branch (course ctx yes before)
      (courseOption ctx no ((before.after (stmt ctx yes)).after (setEnv before.env)))
  | .whileLoop _ test body => .loop (course ctx.inLoop body (σ.after (infer ctx .value test)))
  | .forLoop span init test _ body =>
    let opened := openBlock ctx (if init.any declares then some span else none)
    let inner := σ.answer opened
    let started := (σ.after opened).after (stmtOption inner init)
    .block [courseOption inner init (σ.after opened),
      .loop (course inner.inLoop body (started.after (inferOption inner test)))]
  | .forIn span kind key value iterable body =>
    let visited := typeOf (infer ctx .value iterable)
    let types := (σ.answer visited).forIn key.isSome
    let opened := openBlock ctx (if kind.isSome then some span else none)
    let inner := (σ.after visited).answer opened
    let bound := ((σ.after visited).after opened).after
      (bindForIn inner (kind.map DeclKind.symbolKind) key types.1)
    .loop (course inner.inLoop body
      (bound.after (bindForIn inner (kind.map DeclKind.symbolKind) (some value) types.2)))
  | .switch span subject cs =>
    let opened := openBlock ctx (switchSpan span cs)
    let before := σ.after (infer ctx .value subject)
    .switch (cs.any fun | .mk _ test _ => test.isNone)
      (caseCourses (before.answer opened).inSwitch cs { before.after opened with broke := false })
  | .tryCatch span body param handler =>
    let opened := openBlock ctx (blockSpan span body)
    let inner := σ.answer opened
    let after := (σ.after opened).after (sequence inner body (stmts inner body))
    let caught := after.after (setEnv (σ.env.join after.env))
    let openedHandler := openHandler ctx param handler
    let innerHandler := caught.answer openedHandler
    let handling := (caught.after openedHandler).after (declareCaught innerHandler param)
    .tryCatch (courses inner body .reachable ((σ.after opened).after (hoist inner body)))
      (courses innerHandler handler .reachable (handling.after (hoist innerHandler handler)))
  | .returns _ value => .returns (σ.answer (inferOption ctx value))
  | .breaks _ => .breaks
  | .continues _ => .continues
  | .block span body =>
    let opened := openBlock ctx (blockSpan span body)
    let inner := σ.answer opened
    .block (courses inner body .reachable ((σ.after opened).after (hoist inner body)))
  | .exportDecl _ declaration => course ctx declaration σ
  | .decl _ _ _ | .function _ _ _ _ | .imports _ _ _ | .exportDefault _ _ | .exportNames _ _ _
  | .exportAll _ _ _ | .empty _ => .plain

/-- The course of a statement that may be missing. -/
def courseOption (ctx : Context) (s : Option Stmt) (σ : State) : Course :=
  match s with
  | some s => course ctx s σ
  | none => .plain

/-- The courses of the statements of a list, of which the functions are declared. -/
def courses (ctx : Context) (ss : List Stmt) (flow : Flow) (σ : State) : List Course :=
  match ss with
  | [] => []
  | s :: rest =>
    let visited := step ctx s flow (stmt ctx s)
    course ctx s (σ.after (flow.enter ctx s)) ::
      courses ctx rest (σ.answer visited) (σ.after visited)

/-- The courses of the cases of a switch. -/
def caseCourses (ctx : Context) (cs : List SwitchCase) (σ : State) : List Course :=
  match cs with
  | [] => []
  | .mk _ test body :: rest =>
    let before := σ.after (inferOption ctx test)
    .block (courses ctx body .reachable (before.after (hoist ctx body))) ::
      caseCourses ctx rest (before.after (sequence ctx body (stmts ctx body)))

end

/-- The courses of a list of statements. -/
def bodyCourses (ctx : Context) (body : List Stmt) (σ : State) : List Course :=
  courses ctx body .reachable (σ.after (hoist ctx body))

/-! ### What a visit knows of executions -/

/-- A visit that ends in a state, with an answer, accounts for some executions. -/
structure Accounts (diverges : Bool) (t : State) (runs : Ending → Prop) : Prop where
  stops : diverges = true → ¬ runs .completes
  breaks : runs .breaks → t.broke = true
  returned : ∀ type, runs (.returns type) → type ∈ t.returns

section

variable {diverges diverges' : Bool} {t u : State} {runs runs' : Ending → Prop}

/-- What a visit found is still there later. -/
theorem Accounts.later (h : Accounts diverges t runs) (ht : t.Changes 4 u)
    (hd : diverges' = true → diverges = true) : Accounts diverges' u runs :=
  ⟨fun hdiv => h.stops (hd hdiv), fun hruns => ht.broke (h.breaks hruns),
    fun type hruns => ht.returns.subset (h.returned type hruns)⟩

/-- Executions that neither break nor return need only the right answer. -/
theorem Accounts.of_stays (hstays : ∀ o, runs o → o = .completes ∨ o = .throws ∨ o = .continues)
    (hstops : diverges = true → ¬ runs .completes) : Accounts diverges t runs := by
  refine ⟨hstops, fun hruns => ?_, fun type hruns => ?_⟩
  · obtain h | h | h := hstays _ hruns <;> cases h
  · obtain h | h | h := hstays _ hruns <;> cases h

theorem accounts_plain (t : State) : Accounts false t Course.plain.Runs := by
  refine .of_stays (fun o hruns => ?_) nofun
  obtain h | h := hruns
  · exact .inl h
  · exact .inr (.inl h)

/-- Executions that go one way or the other, or throw before. -/
theorem Accounts.either {either : Ending → Prop} (h : Accounts diverges t runs)
    (h' : Accounts diverges' t runs') (hruns : ∀ o, either o → o = .throws ∨ runs o ∨ runs' o) :
    Accounts (diverges && diverges') t either := by
  refine ⟨fun hdiv hend => ?_, fun hend => ?_, fun type hend => ?_⟩
  · rw [Bool.and_eq_true] at hdiv
    obtain ho | ho | ho := hruns _ hend
    · cases ho
    · exact h.stops hdiv.1 ho
    · exact h'.stops hdiv.2 ho
  · obtain ho | ho | ho := hruns _ hend
    · cases ho
    · exact h.breaks ho
    · exact h'.breaks ho
  · obtain ho | ho | ho := hruns _ hend
    · cases ho
    · exact h.returned type ho
    · exact h'.returned type ho

/-- The executions of a branch are those of its sides, apart from what the test throws. -/
theorem Accounts.branch {yes no : Course} (hyes : Accounts diverges t yes.Runs)
    (hno : Accounts diverges' t no.Runs) :
    Accounts (diverges && diverges') t (Course.branch yes no).Runs :=
  hyes.either hno fun _ h => h

/-- A `break` or a return is all that leaves a loop, and the loop keeps the `break` to itself. -/
theorem Accounts.loop {c : Course} (hbody : Accounts diverges t c.Runs)
    (hreturns : t.returns <+: u.returns) : Accounts false u (Course.loop c).Runs := by
  refine ⟨nofun, fun hruns => ?_, fun type hruns => ?_⟩
  · obtain h | h | ⟨_, h, _⟩ := hruns.ending <;> cases h
  · obtain h | h | ⟨_, _, h⟩ := hruns.ending
    · cases h
    · cases h
    · exact hreturns.subset (hbody.returned type h)

/-- After the end of a statement that cannot be reached, it does not matter what follows. -/
theorem Accounts.cons {c : Course} {rest : List Course} (hc : Accounts diverges t c.Runs)
    (ht : t.Changes 4 u) (hrest : diverges = false → Accounts diverges' u (RunsAll rest)) :
    Accounts diverges' u (RunsAll (c :: rest)) := by
  have hc' : Accounts diverges u c.Runs := hc.later ht id
  -- if the first statement completes, the visit goes on as if nothing was before it
  have hrest (h : c.Runs .completes) : Accounts diverges' u (RunsAll rest) :=
    hrest (Bool.eq_false_iff.mpr fun hdiv => hc.stops hdiv h)
  refine ⟨fun hdiv hruns => ?_, fun hruns => ?_, fun type hruns => ?_⟩
  · obtain ⟨_, h⟩ | ⟨hfirst, h⟩ := hruns
    · exact h rfl
    · exact (hrest hfirst).stops hdiv h
  · obtain ⟨h, _⟩ | ⟨hfirst, h⟩ := hruns
    · exact hc'.breaks h
    · exact (hrest hfirst).breaks h
  · obtain ⟨h, _⟩ | ⟨hfirst, h⟩ := hruns
    · exact hc'.returned type h
    · exact (hrest hfirst).returned type h

theorem accounts_nil (t : State) : Accounts false t (RunsAll []) :=
  .of_stays (fun _ h => .inl h) nofun

/-- The end of a switch is reached from the end of its last case, by a `break`, or past all cases if
there is no default. -/
theorem Accounts.switch {hasDefault : Bool} {cases : List Course}
    (h : Accounts diverges t (Selects cases)) (hreturns : t.returns <+: u.returns) :
    Accounts (hasDefault && diverges && !t.broke) u (Course.switch hasDefault cases).Runs := by
  refine ⟨fun hdiv hruns => ?_, fun hruns => ?_, fun type hruns => ?_⟩
  · simp only [Bool.and_eq_true, Bool.not_eq_true'] at hdiv
    obtain ⟨⟨hdefault, hlast⟩, hbroke⟩ := hdiv
    obtain ho | ⟨hnone, _⟩ | ⟨o, hruns, ho⟩ := hruns
    · cases ho
    · rw [hdefault] at hnone
      cases hnone
    · cases o with
      | completes => exact h.stops hlast hruns
      | breaks => rw [h.breaks hruns] at hbroke; cases hbroke
      | throws | continues | returns => cases ho
  · obtain ho | ⟨_, ho⟩ | ⟨o, _, ho⟩ := hruns
    · cases ho
    · cases ho
    · cases o <;> cases ho
  · obtain ho | ⟨_, ho⟩ | ⟨o, hruns, ho⟩ := hruns
    · cases ho
    · cases ho
    · cases o <;> cases ho
      exact hreturns.subset (h.returned type hruns)

/-- A `try` completes at the end of its block or of its handler. -/
theorem Accounts.tryCatch {body handler : List Course} (hbody : Accounts diverges t (RunsAll body))
    (hhandler : Accounts diverges' t (RunsAll handler)) :
    Accounts (diverges && diverges') t (Course.tryCatch body handler).Runs :=
  hbody.either hhandler fun _ h => .inr (h.imp And.left And.right)

end

/-! ### Loops and lists -/

/-- A loop is visited from the state in which its body is. -/
theorem Accounts.visitLoop {α : Type} {body : Walk Bool} {update : Walk α} {c : Course} {σ : State}
    (hbody : Accounts (σ.answer body) (σ.after body) c.Runs)
    (hupdate : ∀ s : State, s.Changes 4 (s.after update)) :
    Accounts false (σ.after (Walk.loop body update)) (Course.loop c).Runs := by
  refine hbody.loop ?_
  have hrest := (hupdate { σ.after body with broke := σ.broke }).trans
    ((tame_mergeBranches σ.env false false).changes .all _)
  exact hrest.returns

/-! ### Every visit accounts for the executions -/

mutual

theorem accounts_stmt (ctx : Context) : (s : Stmt) → (σ : State) →
    Accounts (σ.answer (stmt ctx s)) (σ.after (stmt ctx s)) (course ctx s σ).Runs
  | .expr _ value, σ => by
    rw [course]
    split
    · exact .of_stays (fun _ h => .inr (.inl h)) nofun
    · next hexits => exact (accounts_plain _).later (.refl _) fun h => absurd h hexits
  | .ifElse _ test yes no, σ => by
    let before := σ.after (infer ctx .value test)
    let other := (before.after (stmt ctx yes)).after (setEnv before.env)
    have hmerge := (tame_mergeBranches (k := 4) (before.after (stmt ctx yes)).env
      (before.answer (stmt ctx yes)) (other.answer (stmtOption ctx no))).changes .all
      (other.after (stmtOption ctx no))
    have hother : other.Changes 4 (other.after (stmtOption ctx no)) :=
      (tame_stmtOption ctx no).changes _ other
    have hyes := (accounts_stmt ctx yes before).later ((tame_setEnv before.env).changes .all _) id
    have hno := accounts_stmtOption ctx no other
    exact (hyes.later hother id).branch hno |>.later hmerge id
  | .whileLoop _ test body, σ => (accounts_stmt _ body _).visitLoop ((Tame.pure ()).changes .all)
  | .forLoop span init test update body, σ => by
    let opened := openBlock ctx (if init.any declares then some span else none)
    let inner := σ.answer opened
    let started := (σ.after opened).after (stmtOption inner init)
    let tested := started.after (inferOption inner test)
    have hinit := accounts_stmtOption inner init (σ.after opened)
    have hupdate := (tame_inferOption (k := 1) inner update).changes inner.passes
    have hloop := (accounts_stmt inner.inLoop body tested).visitLoop hupdate
    have hmoves := ((tame_inferOption (k := 1) inner test).changes inner.passes started).trans
      ((tame_loop (tame_stmt inner.inLoop body) (tame_inferOption inner update)).changes
        inner.passes tested)
    exact hinit.cons hmoves fun _ => hloop.cons (.refl _) fun _ => accounts_nil _
  | .forIn span kind key value iterable body, σ =>
    (accounts_stmt _ body _).visitLoop ((Tame.pure ()).changes .all)
  | .switch span subject cs, σ => (accounts_cases _ cs false _).1.switch prefix_rfl
  | .tryCatch span body param handler, σ => by
    let opened := openBlock ctx (blockSpan span body)
    let inner := σ.answer opened
    let visit := sequence inner body (stmts inner body)
    let after := (σ.after opened).after visit
    let caught := after.after (setEnv (σ.env.join after.env))
    let openedHandler := openHandler ctx param handler
    let innerHandler := caught.answer openedHandler
    let handling := (caught.after openedHandler).after (declareCaught innerHandler param)
    let visitHandler := sequence innerHandler handler (stmts innerHandler handler)
    have hmerge := (tame_mergeBranches (k := 4) after.env ((σ.after opened).answer visit)
      (handling.answer visitHandler)).changes .all (handling.after visitHandler)
    have hopened : Tame 4 fun c =>
        openHandler (ctx.reporting c) param handler >>= (declareCaught · param) :=
      tame_openHandler ctx param handler fun inner => tame_declareCaught inner param
    have hcaught : after.Changes 4 handling :=
      .trans ((tame_setEnv (σ.env.join after.env)).changes .all after)
        (hopened.changes ctx.passes caught)
    have hhandling : handling.Changes 4 (handling.after visitHandler) :=
      (tame_sequence innerHandler handler (tame_stmts innerHandler handler)).changes
        innerHandler.passes handling
    have hbody := accounts_stmts inner body _ ((σ.after opened).after (hoist inner body)) rfl
    have hhandler := accounts_stmts innerHandler handler _
      (handling.after (hoist innerHandler handler)) rfl
    exact ((hbody.later (hcaught.trans hhandling) id).tryCatch hhandler).later hmerge id
  | .returns _ value, σ => by
    refine ⟨fun _ h => ?_, fun h => ?_, fun type h => ?_⟩
    · obtain h | h := h <;> cases h
    · obtain h | h := h <;> cases h
    · obtain h | h := h
      · cases h
        exact mem_append_right _ (mem_singleton.mpr rfl)
      · cases h
  | .breaks _, σ => ⟨nofun, fun _ => rfl, nofun⟩
  | .continues _, σ => .of_stays (fun _ h => .inr (.inr h)) nofun
  | .block span body, σ => accounts_stmts _ body _ _ rfl
  | .exportDecl _ declaration, σ =>
    (accounts_stmt ctx declaration σ).later ((tame_countExported ctx _).changes _ _) nofun
  | .decl _ _ _, _ | .function _ _ _ _, _ | .imports _ _ _, _ | .exportDefault _ _, _
  | .exportNames _ _ _, _ | .exportAll _ _ _, _ | .empty _, _ => accounts_plain _

theorem accounts_stmtOption (ctx : Context) : (s : Option Stmt) → (σ : State) →
    Accounts (σ.answer (stmtOption ctx s)) (σ.after (stmtOption ctx s)) (courseOption ctx s σ).Runs
  | some s, σ => accounts_stmt ctx s σ
  | none, σ => accounts_plain σ

theorem accounts_stmts (ctx : Context) : (ss : List Stmt) → (flow : Flow) → (σ : State) →
    flow = .reachable → Accounts (σ.answer (stmts ctx ss flow) ≠ .reachable)
      (σ.after (stmts ctx ss flow)) (RunsAll (courses ctx ss flow σ))
  | [], _, σ, rfl => accounts_nil σ
  | s :: rest, _, σ, rfl => by
    refine (accounts_stmt ctx s σ).cons ((tame_stmts ctx rest _).changes _ _) fun hcompletes => ?_
    -- the list goes on as one whose end may be reached
    refine accounts_stmts ctx rest _ _ ?_
    change Flow.reachable.after (σ.answer (stmt ctx s)) = .reachable
    rw [hcompletes]
    rfl

theorem accounts_cases (ctx : Context) : (cs : List SwitchCase) → (last : Bool) → (σ : State) →
    Accounts (σ.answer (cases ctx last cs)) (σ.after (cases ctx last cs))
        (Selects (caseCourses ctx cs σ)) ∧
      (last = false → Accounts (σ.answer (cases ctx last cs)) (σ.after (cases ctx last cs))
        (RunsAll (caseCourses ctx cs σ)))
  | [], _, σ =>
    ⟨⟨fun _ => False.elim, False.elim, fun _ => False.elim⟩, fun hlast => hlast ▸ accounts_nil σ⟩
  | .mk _ test body :: rest, _, σ => by
    let before := σ.after (inferOption ctx test)
    let visit := sequence ctx body (stmts ctx body)
    have hbody := accounts_stmts ctx body _ (before.after (hoist ctx body)) rfl
    obtain ⟨hselects, hruns⟩ := accounts_cases ctx rest (before.answer visit) (before.after visit)
    have hall := Accounts.cons (c := .block _) hbody
      ((tame_cases ctx (before.answer visit) rest).changes _ (before.after visit)) hruns
    have hany := hall.either hselects fun _ => .inr
    rw [Bool.and_self] at hany
    exact ⟨hany, fun _ => hall⟩

end

/-! ### Lists and functions -/

/-- A list is visited after its functions are declared. -/
theorem accounts_sequence (ctx : Context) (body : List Stmt) (σ : State) :
    Accounts (σ.answer (sequence ctx body (stmts ctx body)))
      (σ.after (sequence ctx body (stmts ctx body))) (RunsAll (bodyCourses ctx body σ)) :=
  accounts_stmts ctx body _ (σ.after (hoist ctx body)) rfl

/-- A statement is reported only after one whose end cannot be reached. -/
theorem eq_ended_of_reports {ctx : Context} {s : Stmt} {flow : Flow} {τ : State}
    (h : (τ.after (flow.enter ctx s)).findings ≠ τ.findings) : flow = .ended := by
  by_contra hflow
  have henter : flow.enter ctx s = pure flow := if_neg fun hended => hflow hended.1
  rw [henter] at h
  exact h rfl

/-- The courses of the statements in the body of a function. -/
def functionCourses (ctx : Context) (span : Span) (params : List Param) (body : List Stmt)
    (σ : State) : List Course :=
  let inner := ctx.inFunction (σ.answer (openScope ctx .function span))
  let entered := { σ.after (openScope ctx .function span) with returns := [], broke := false }
  bodyCourses inner body (entered.after (declareParams inner params))

/-- The result of a body is the union of types among which are all that its executions return, and
null if one completes. -/
theorem Accounts.result {visit : Walk Bool} {runs : Ending → Prop} {σ : State}
    (h : Accounts (σ.answer visit) (σ.after visit) runs) :
    ∃ types, σ.answer (resultOf visit) = .unionOf types ∧
      (∀ type, runs (.returns type) → type ∈ types) ∧ (runs .completes → .null ∈ types) := by
  let noted := (σ.after visit).returns
  refine ⟨if σ.answer visit then noted else noted ++ [.null], rfl, fun type hruns => ?_,
    fun hruns => ?_⟩
  · have hnoted := h.returned type hruns
    split
    · exact hnoted
    · exact mem_append_left _ hnoted
  · rw [if_neg fun hdiverges => h.stops hdiverges hruns]
    exact mem_append_right _ (mem_singleton.mpr rfl)

/-- A union of types of which one is null is unknown or has null among its alternatives. -/
theorem null_mem_unionOf {types : List Ty} (h : .null ∈ types) :
    Ty.unionOf types = .unknown ∨ .null ∈ (Ty.unionOf types).alternatives := by
  unfold Ty.unionOf
  split
  · exact .inl rfl
  · have hnull : Ty.null ∈ (types.flatMap Ty.alternatives).eraseDups :=
      mem_eraseDups.mpr (mem_flatMap.mpr ⟨.null, h, mem_singleton.mpr rfl⟩)
    refine .inr ?_
    unfold Ty.ofAlternatives
    split
    · next hnone => rw [hnone] at hnull; cases hnull
    · next type hone =>
      rw [hone, mem_singleton] at hnull
      rw [← hnull]
      exact mem_singleton.mpr rfl
    · exact hnull

/-- What is out of reach for a visit is out of reach for every execution: a statement or a list
whose end it says cannot be reached does not complete, and a statement that it reports does not
start. The result of a function takes in all types that an execution of its body returns, and null
if one completes. -/
theorem divergence_sound (ctx : Context) (σ : State) :
    (∀ s, σ.answer (stmt ctx s) = true → ¬ (course ctx s σ).Runs .completes) ∧
    (∀ body, σ.answer (sequence ctx body (stmts ctx body)) = true →
      ¬ RunsAll (bodyCourses ctx body σ) .completes) ∧
    (∀ earlier s later,
      let declared := σ.after (hoist ctx (earlier ++ s :: later))
      let flow := declared.answer (stmts ctx earlier .reachable)
      let before := declared.after (stmts ctx earlier .reachable)
      (before.after (flow.enter ctx s)).findings ≠ before.findings →
        ¬ RunsAll (courses ctx earlier .reachable declared) .completes) ∧
    (∀ span params body,
      let runs := RunsAll (functionCourses ctx span params body σ)
      ∃ types, σ.answer (function ctx span params fun inner =>
          resultOf (sequence inner body (stmts inner body))) =
            .function (params.map Param.display) (.unionOf types) ∧
        (∀ type, runs (.returns type) → type ∈ types) ∧
        (runs .completes →
          Ty.unionOf types = .unknown ∨ .null ∈ (Ty.unionOf types).alternatives)) := by
  refine ⟨fun s => (accounts_stmt ctx s σ).stops, fun body => (accounts_sequence ctx body σ).stops,
    fun earlier s later hreports => ?_, fun span params body => ?_⟩
  · have hended := eq_ended_of_reports hreports
    refine (accounts_stmts ctx earlier _ (σ.after (hoist ctx (earlier ++ s :: later))) rfl).stops ?_
    rw [hended]
    rfl
  · obtain ⟨types, htypes, hreturned, hnull⟩ := (accounts_sequence _ body _).result
    exact ⟨types, congrArg (Ty.function _) htypes, hreturned, fun h => null_mem_unionOf (hnull h)⟩

end Walk

end ScriptCheck
