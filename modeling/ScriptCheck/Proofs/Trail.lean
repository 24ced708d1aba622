import ScriptCheck.Proofs.Moves

/-!
# The trail of a visit

What a visit does to names is a number of *deeds*: it reads, assigns and declares names, records the
types of functions, counts exports and opens scopes. The *trail* of a visit has its deeds in order,
together with the ways in which its parts follow each other when the program runs: one after the
other, one of two, perhaps not at all, later. It is built along the visit, so each deed knows the
state it starts from and the type it gives.

An expression that is nested too deep to be visited leaves a `Trail.cut`.
-/

namespace ScriptCheck

namespace Walk

/-! ### Deeds -/

/-- A step that is about one name, or that opens a scope. -/
inductive Act where
  | read (name : Ident)
  | assign (name : Ident) (type : Ty)
  | declare (name : Ident) (kind : SymbolKind) (type : Ty)
  | declareImport (source : String) (name : Ident) (specifier : Option String) (type : Ty)
  | recordFunction (name : Ident) (type : Ty)
  | countExported (name : Ident)
  | openScope (kind : ScopeKind) (span : Span)

/-- The step at a place. -/
def Act.step (ctx : Context) : Act → Walk Unit
  | .read name => do
    let _ ← Walk.read ctx name
  | .assign name type => Walk.assign ctx name type
  | .declare name kind type => do
    let _ ← Walk.declare ctx name kind type
  | .declareImport source name specifier type => Walk.declareImport ctx source name specifier type
  | .recordFunction name type => Walk.recordFunction ctx name type
  | .countExported name => Walk.countExported ctx [name]
  | .openScope kind span => do
    let _ ← Walk.openScope ctx kind span

/-- A step that is made at a place, from a state. -/
structure Deed where
  place : Context
  act : Act
  before : State

/-- The state in which a deed ends. -/
def Deed.after (d : Deed) : State := d.before.after (d.act.step d.place)

/-! ### Trails -/

/-- The deeds of a visit, and how they follow each other. -/
inductive Trail where
  | done
  | deed (d : Deed)
  /-- An expression is not visited, as it is nested too deep. -/
  | cut
  /-- The end of an expression, where its value may turn out to be an error. -/
  | mayThrow
  | andThen (first rest : Trail)
  /-- One of two parts runs. It is known which of them do not reach their end. -/
  | either (yes no : Trail) (yesDiverges noDiverges : Bool)
  /-- A part that may not run. -/
  | maybe (part : Trail)
  /-- What comes before each round, and after a round that is completed. -/
  | loop (start body update : Trail)
  /-- The cases are a chain of `Trail.case`. -/
  | switch (cases : Trail)
  | case (isDefault : Bool) (test body rest : Trail)
  | tryCatch (body handler : Trail) (bodyDiverges handlerDiverges : Bool)
  /-- A function with the number of its scope. It runs when it is called. -/
  | function (scope : Nat) (body : Trail)
  /-- A call that ends the script. -/
  | exit
  | returns (type : Ty)
  | breaks
  | continues

/-- All deeds of a trail, in the order of the visit. -/
def Trail.deeds : Trail → List Deed
  | .deed d => [d]
  | .andThen first rest => first.deeds ++ rest.deeds
  | .either yes no _ _ => yes.deeds ++ no.deeds
  | .maybe part => part.deeds
  | .loop start body update => start.deeds ++ (body.deeds ++ update.deeds)
  | .switch cases => cases.deeds
  | .case _ test body rest => test.deeds ++ (body.deeds ++ rest.deeds)
  | .tryCatch body handler _ _ => body.deeds ++ handler.deeds
  | .function _ body => body.deeds
  | .done | .cut | .mayThrow | .exit | .returns _ | .breaks | .continues => []

/-- Nothing on a trail is nested too deep. -/
def Trail.Whole : Trail → Prop
  | .cut => False
  | .andThen first rest => first.Whole ∧ rest.Whole
  | .either yes no _ _ => yes.Whole ∧ no.Whole
  | .maybe part => part.Whole
  | .loop start body update => start.Whole ∧ body.Whole ∧ update.Whole
  | .switch cases => cases.Whole
  | .case _ test body rest => test.Whole ∧ body.Whole ∧ rest.Whole
  | .tryCatch body handler _ _ => body.Whole ∧ handler.Whole
  | .function _ body => body.Whole
  | .done | .deed _ | .mayThrow | .exit | .returns _ | .breaks | .continues => True

attribute [simp] Trail.deeds Trail.Whole

/-! ### Trails of steps -/

/-- An expression that is visited one level further inside. -/
def nestedTrail (ctx : Context) (visit : Context → State → Trail) (σ : State) : Trail :=
  if maxNesting ≤ ctx.depth then .cut else .andThen (visit ctx.deeper σ) .mayThrow

/-- A step, and then what follows from the state in which it ends. -/
def stepTrail (ctx : Context) (act : Act) (rest : State → Trail) (σ : State) : Trail :=
  .andThen (.deed ⟨ctx, act, σ⟩) (rest (Deed.after ⟨ctx, act, σ⟩))

def openBlockTrail (ctx : Context) (span : Option Span) (σ : State) : Trail :=
  match span with
  | some span => .deed ⟨ctx, .openScope .block span, σ⟩
  | none => .done

def openHandlerTrail (ctx : Context) (param : Option Ident) (handler : List Stmt) (σ : State) :
    Trail :=
  openBlockTrail ctx (handlerSpan param handler) <| σ.after <|
    require ((bodySpan handler).all (·.Fits) && (handlerSpan param handler).all (·.Fits))

def assignTargetTrail (ctx : Context) (target : Expr) (type : Ty) (σ : State) : Trail :=
  match target? target with
  | some name => .deed ⟨ctx, .assign name type, σ⟩
  | none => .done

def hoistFunctionTrail (ctx : Context) (name : Option Ident) (params : List Param) (σ : State) :
    Trail :=
  match name with
  | some name =>
    .deed ⟨ctx, .declare name .function (.function (params.map Param.display) .unknown), σ⟩
  | none => .done

def hoistTrail (ctx : Context) : List Stmt → State → Trail
  | [], _ => .done
  | .function _ name params _ :: rest, σ =>
    .andThen (hoistFunctionTrail ctx name params σ)
      (hoistTrail ctx rest (σ.after (hoistFunction ctx name params)))
  | .exportDecl _ (.function _ name params _) :: rest, σ =>
    .andThen (hoistFunctionTrail ctx name params σ)
      (hoistTrail ctx rest (σ.after (hoistFunction ctx name params)))
  | _ :: rest, σ => hoistTrail ctx rest σ

/-- What is true of doing nothing, and of declaring a function before steps of which it is true, is
true of declaring the functions of a list, and of the trail of that. -/
theorem hoistTrail_rule {ctx : Context} {P : Walk Unit → State → Trail → Prop}
    (hnone : ∀ σ, P (pure ()) σ .done)
    (hfunction : ∀ name params rest (σ : State) t,
      P rest (σ.after (hoistFunction ctx name params)) t →
      P (hoistFunction ctx name params >>= fun _ => rest) σ
        (.andThen (hoistFunctionTrail ctx name params σ) t))
    (body : List Stmt) (σ : State) : P (hoist ctx body) σ (hoistTrail ctx body σ) := by
  fun_induction hoistTrail ctx body σ with
  | case1 σ => exact hnone σ
  | case2 _ _ _ _ _ _ ih | case3 _ _ _ _ _ _ _ ih => exact hfunction _ _ _ _ _ ih
  | case4 first rest _ hfunction hexport ih =>
    rw [hoist.eq_4 ctx first rest hfunction hexport]
    exact ih

def paramsTrail (ctx : Context) : List Param → State → Trail
  | [], _ => .done
  | param :: rest, σ =>
    stepTrail ctx
      (.declare param.name .parameter (if param.rest then .array .unknown else .unknown))
      (paramsTrail ctx rest) σ

/-- The trail of a function, of which the body is visited in a scope of its own. -/
def functionTrail (ctx : Context) (span : Span) (params : List Param)
    (body : Context → State → Trail) (σ : State) : Trail :=
  let scope := σ.answer (openScope ctx .function span)
  let inner := ctx.inFunction scope
  let entered := { σ.after (openScope ctx .function span) with returns := [], broke := false }
  .andThen (.deed ⟨ctx, .openScope .function span, σ⟩) <| .function scope <|
    .andThen (paramsTrail inner params entered)
      (body inner (entered.after (declareParams inner params)))

/-- The trail of a declared function, given that of the function. -/
def functionDeclTrail (ctx : Context) (name : Option Ident) (params : List Param) (visit : Walk Ty)
    (visited : State → Trail) (σ : State) : Trail :=
  match name with
  | some name =>
    let looked := σ.after (lookup ctx name)
    let recorded (τ : State) : Trail :=
      .andThen (visited τ) (.deed ⟨ctx, .recordFunction name (τ.answer visit), τ.after visit⟩)
    if !(σ.answer (lookup ctx name)).any (·.scope == ctx.scope) then
      .andThen (hoistFunctionTrail ctx (some name) params looked)
        (recorded (looked.after (hoistFunction ctx (some name) params)))
    else
      recorded looked
  | none => visited σ

def importsTrail (ctx : Context) (source : String) (typeOf : ImportSpec → Walk Ty) :
    List ImportSpec → State → Trail
  | [], _ => .done
  | spec :: rest, σ =>
    stepTrail ctx
      (.declareImport source spec.declared (specifierOf spec) (σ.answer (typeOf spec)))
      (importsTrail ctx source typeOf rest) (σ.after (typeOf spec))

def importNamesTrail (ctx : Context) (specs : List ImportSpec) (source : TextLit) (σ : State) :
    Trail :=
  if isMissing ctx source.value then
    .done
  else if (Builtin.scriptPath? source.value).isSome then
    importsTrail ctx source.value (fun _ => pure .unknown) specs σ
  else
    importsTrail ctx source.value (importedType ctx (Builtin.module? source.value)) specs σ

def countExportedTrail (ctx : Context) : List Ident → State → Trail
  | [], _ => .done
  | name :: rest, σ => stepTrail ctx (.countExported name) (countExportedTrail ctx rest) σ

def readExportedTrail (ctx : Context) : List ExportSpec → State → Trail
  | [], _ => .done
  | spec :: rest, σ => stepTrail ctx (.read spec.name) (readExportedTrail ctx rest) σ

def exportNamesTrail (ctx : Context) (specs : List ExportSpec) (source : Option TextLit)
    (σ : State) : Trail :=
  match source with
  | some _ => .done
  | none => readExportedTrail ctx specs σ

def bindForInTrail (ctx : Context) (kind : Option SymbolKind) (name : Option Ident) (type : Ty)
    (σ : State) : Trail :=
  match name, kind with
  | some name, some kind => .deed ⟨ctx, .declare name kind type, σ⟩
  | some name, none => .deed ⟨ctx, .assign name type, σ⟩
  | none, _ => .done

def declareCaughtTrail (ctx : Context) (param : Option Ident) (σ : State) : Trail :=
  match param with
  | some param => .deed ⟨ctx, .declare param .letVar .object, σ⟩
  | none => .done

/-- The trail of both operands of an operator. -/
def binaryTrail (op : BinaryOp) (lhs : Walk Ty) (left right : State → Trail) (σ : State) : Trail :=
  if op.isShortCircuit then
    .andThen (left σ) (.maybe (right (σ.after lhs)))
  else
    .andThen (left σ) (right (σ.after lhs))

/-- The trail of an assignment, up to the point where the value is known. -/
def assignedTrail (op : AssignOp) (isName : Bool) (visit : Walk Ty) (target value : State → Trail)
    (σ : State) : Trail :=
  match op with
  | .assign => if isName then value σ else .andThen (target σ) (value (σ.after visit))
  | .compound op => binaryTrail op visit target value σ

/-- The trail of a choice between two operands. -/
def eitherTrail (first : Walk Ty) (yes no : State → Trail) (σ : State) : Trail :=
  .either (yes σ) (no ((σ.after first).after (setEnv σ.env))) false false

/-- The trail of a list of statements, of which the functions are declared first. -/
def sequenceTrail (ctx : Context) (body : List Stmt) (visit : Flow → State → Trail) (σ : State) :
    Trail :=
  .andThen (hoistTrail ctx body σ) (visit .reachable (σ.after (hoist ctx body)))

/-! ### Trails of statements and expressions -/

mutual

/-- The trail of a statement that is visited from a state. -/
def stmtTrail (ctx : Context) (s : Stmt) (σ : State) : Trail :=
  match s with
  | .expr _ value =>
    .andThen (inferTrail ctx .value value σ)
      (if (σ.after (infer ctx .value value)).answer (exits ctx value) then .exit else .done)
  | .decl _ kind ds => declaratorsTrail ctx kind.symbolKind ds σ
  | .function span name params body =>
    functionDeclTrail ctx name params
      (function ctx span params fun inner => resultOf (sequence inner body (stmts inner body)))
      (functionTrail ctx span params fun inner =>
        sequenceTrail inner body fun flow τ => stmtsTrail inner body flow τ) σ
  | .ifElse _ test yes no =>
    let before := σ.after (infer ctx .value test)
    let other := (before.after (stmt ctx yes)).after (setEnv before.env)
    .andThen (inferTrail ctx .value test σ) <|
      .either (stmtTrail ctx yes before) (stmtOptionTrail ctx no other)
        (before.answer (stmt ctx yes)) (other.answer (stmtOption ctx no))
  | .whileLoop _ test body =>
    .loop (inferTrail ctx .value test σ)
      (stmtTrail ctx.inLoop body (σ.after (infer ctx .value test))) .done
  | .forLoop span init test update body =>
    let opened := openBlock ctx (if init.any declares then some span else none)
    let inner := σ.answer opened
    let started := (σ.after opened).after (stmtOption inner init)
    let tested := started.after (inferOption inner test)
    let ended := { tested.after (stmt inner.inLoop body) with broke := tested.broke }
    .andThen (openBlockTrail ctx (if init.any declares then some span else none) σ) <|
      .andThen (stmtOptionTrail inner init (σ.after opened)) <|
        .loop (inferOptionTrail inner test started) (stmtTrail inner.inLoop body tested)
          (inferOptionTrail inner update ended)
  | .forIn span kind key value iterable body =>
    let visited := typeOf (infer ctx .value iterable)
    let types := (σ.answer visited).forIn key.isSome
    let opened := openBlock ctx (if kind.isSome then some span else none)
    let inner := (σ.after visited).answer opened
    let entered := (σ.after visited).after opened
    let kind' := kind.map DeclKind.symbolKind
    let bound := entered.after (bindForIn inner kind' key types.1)
    .andThen (inferTrail ctx .value iterable σ) <|
      .andThen (openBlockTrail ctx (if kind.isSome then some span else none) (σ.after visited)) <|
        .loop (.andThen (bindForInTrail inner kind' key types.1 entered)
            (bindForInTrail inner kind' (some value) types.2 bound))
          (stmtTrail inner.inLoop body (bound.after (bindForIn inner kind' (some value) types.2)))
          .done
  | .switch span subject cs =>
    let before := σ.after (infer ctx .value subject)
    let opened := openBlock ctx (switchSpan span cs)
    .andThen (inferTrail ctx .value subject σ) <|
      .andThen (openBlockTrail ctx (switchSpan span cs) before) <|
        .switch (casesTrail (before.answer opened).inSwitch cs
          { before.after opened with broke := false })
  | .tryCatch span body param handler =>
    let opened := openBlock ctx (blockSpan span body)
    let inner := σ.answer opened
    let visit := sequence inner body (stmts inner body)
    let after := (σ.after opened).after visit
    let caught := after.after (setEnv (σ.env.join after.env))
    let openedHandler := openHandler ctx param handler
    let innerHandler := caught.answer openedHandler
    let handling := (caught.after openedHandler).after (declareCaught innerHandler param)
    let visitHandler := sequence innerHandler handler (stmts innerHandler handler)
    .tryCatch
      (.andThen (openBlockTrail ctx (blockSpan span body) σ)
        (sequenceTrail inner body (fun flow τ => stmtsTrail inner body flow τ) (σ.after opened)))
      (.andThen (openHandlerTrail ctx param handler caught) <|
        .andThen (declareCaughtTrail innerHandler param (caught.after openedHandler))
          (sequenceTrail innerHandler handler
            (fun flow τ => stmtsTrail innerHandler handler flow τ) handling))
      ((σ.after opened).answer visit) (handling.answer visitHandler)
  | .returns _ value =>
    .andThen (inferOptionTrail ctx value σ) (.returns (σ.answer (inferOption ctx value)))
  | .breaks _ => .breaks
  | .continues _ => .continues
  | .block span body =>
    let opened := openBlock ctx (blockSpan span body)
    let inner := σ.answer opened
    .andThen (openBlockTrail ctx (blockSpan span body) σ)
      (sequenceTrail inner body (fun flow τ => stmtsTrail inner body flow τ) (σ.after opened))
  | .imports _ specs source => importNamesTrail ctx specs source σ
  | .exportDecl _ declaration =>
    .andThen (stmtTrail ctx declaration σ)
      (countExportedTrail ctx (exportedNames declaration) (σ.after (stmt ctx declaration)))
  | .exportDefault _ value => inferTrail ctx .value value σ
  | .exportNames _ specs source => exportNamesTrail ctx specs source σ
  | .exportAll _ _ _ => .done
  | .empty _ => .done

def stmtOptionTrail (ctx : Context) (s : Option Stmt) (σ : State) : Trail :=
  match s with
  | some s => stmtTrail ctx s σ
  | none => .done

def stmtsTrail (ctx : Context) (ss : List Stmt) (flow : Flow) (σ : State) : Trail :=
  match ss with
  | [] => .done
  | s :: rest =>
    let visited := step ctx s flow (stmt ctx s)
    .andThen (stmtTrail ctx s (σ.after (flow.enter ctx s)))
      (stmtsTrail ctx rest (σ.answer visited) (σ.after visited))

def declaratorsTrail (ctx : Context) (kind : SymbolKind) (ds : List Declarator) (σ : State) :
    Trail :=
  match ds with
  | [] => .done
  | .mk name init :: rest =>
    let type := σ.answer (inferOption ctx init)
    .andThen (inferOptionTrail ctx init σ) <|
      stepTrail ctx (.declare name kind type) (fun τ => declaratorsTrail ctx kind rest τ)
        (σ.after (inferOption ctx init))

def casesTrail (ctx : Context) (cs : List SwitchCase) (σ : State) : Trail :=
  match cs with
  | [] => .done
  | .mk _ test body :: rest =>
    let before := σ.after (inferOption ctx test)
    .case test.isNone (inferOptionTrail ctx test σ)
      (sequenceTrail ctx body (fun flow τ => stmtsTrail ctx body flow τ) before)
      (casesTrail ctx rest (before.after (sequence ctx body (stmts ctx body))))

/-- The trail of an expression that is visited from a state. -/
def inferTrail (ctx : Context) (use : Use) (e : Expr) (σ : State) : Trail :=
  match e with
  | .ident name =>
    match use with
    | .callee => .deed ⟨ctx, .read name, σ⟩
    | .value => nestedTrail ctx (fun ctx σ => .deed ⟨ctx, .read name, σ⟩) σ
  | .int _ _ | .double _ _ | .string _ _ | .regexp _ _ _ | .bool _ _ | .null _ | .this _
  | .invalid _ => nestedTrail ctx (fun _ _ => .done) σ
  | .template _ parts => nestedTrail ctx (fun ctx σ => inferAllTrail ctx parts σ) σ
  | .array _ elements => nestedTrail ctx (fun ctx σ => inferAllTrail ctx elements σ) σ
  | .object _ ps => nestedTrail ctx (fun ctx σ => propertiesTrail ctx ps σ) σ
  | .spread _ value => nestedTrail ctx (fun ctx σ => inferTrail ctx .value value σ) σ
  | .unary _ _ operand => nestedTrail ctx (fun ctx σ => inferTrail ctx .value operand σ) σ
  | .update _ _ _ target => nestedTrail ctx (fun ctx σ =>
      let visit := typeOf (infer ctx .value target)
      .andThen (inferTrail ctx .value target σ)
        (assignTargetTrail ctx target (σ.answer visit).numeric (σ.after visit))) σ
  | .binary _ op lhs rhs => nestedTrail ctx (fun ctx σ =>
      binaryTrail op (typeOf (infer ctx .value lhs)) (fun σ => inferTrail ctx .value lhs σ)
        (fun σ => inferTrail ctx .value rhs σ) σ) σ
  | .assign span op target value => nestedTrail ctx (fun ctx σ =>
      let visit := assigned ctx span op (isIdent target) (typeOf (infer ctx .value target))
        (typeOf (infer ctx .value value))
      .andThen
        (assignedTrail op (isIdent target) (typeOf (infer ctx .value target))
          (fun σ => inferTrail ctx .value target σ) (fun σ => inferTrail ctx .value value σ) σ)
        (assignTargetTrail ctx target (σ.answer visit) (σ.after visit))) σ
  | .conditional _ test yes no => nestedTrail ctx (fun ctx σ =>
      .andThen (inferTrail ctx .value test σ)
        (eitherTrail (typeOf (infer ctx .value yes)) (fun σ => inferTrail ctx .value yes σ)
          (fun σ => inferTrail ctx .value no σ) (σ.after (infer ctx .value test)))) σ
  | .call _ callee args _ => nestedTrail ctx (fun ctx σ =>
      .andThen (inferTrail ctx .callee callee σ)
        (inferAllTrail ctx args (σ.after (infer ctx .callee callee)))) σ
  | .member _ object _ _ =>
    match use with
    | .callee => inferTrail ctx .value object σ
    | .value => nestedTrail ctx (fun ctx σ => inferTrail ctx .value object σ) σ
  | .index _ object index _ => nestedTrail ctx (fun ctx σ =>
      .andThen (inferTrail ctx .value object σ)
        (inferTrail ctx .value index (σ.after (typeOf (infer ctx .value object))))) σ
  | .function span _ params body => nestedTrail ctx (fun ctx σ =>
      functionTrail ctx span params (fun inner =>
        sequenceTrail inner body fun flow τ => stmtsTrail inner body flow τ) σ) σ
  | .arrowBlock span params body => nestedTrail ctx (fun ctx σ =>
      functionTrail ctx span params (fun inner =>
        sequenceTrail inner body fun flow τ => stmtsTrail inner body flow τ) σ) σ
  | .arrowExpr span params body => nestedTrail ctx (fun ctx σ =>
      functionTrail ctx span params (fun inner τ => inferTrail inner .value body τ) σ) σ
  | .paren _ inner =>
    match use with
    | .callee => inferTrail ctx .callee inner σ
    | .value => nestedTrail ctx (fun ctx σ => inferTrail ctx .value inner σ) σ

def inferOptionTrail (ctx : Context) (e : Option Expr) (σ : State) : Trail :=
  match e with
  | some e => inferTrail ctx .value e σ
  | none => .done

def inferAllTrail (ctx : Context) (es : List Expr) (σ : State) : Trail :=
  match es with
  | [] => .done
  | e :: rest =>
    .andThen (inferTrail ctx .value e σ)
      (inferAllTrail ctx rest (σ.after (typeOf (infer ctx .value e))))

def propertiesTrail (ctx : Context) (ps : List Property) (σ : State) : Trail :=
  match ps with
  | [] => .done
  | .named _ value :: rest =>
    .andThen (inferTrail ctx .value value σ)
      (propertiesTrail ctx rest (σ.after (infer ctx .value value)))
  | .computed key value :: rest =>
    let before := σ.after (infer ctx .value key)
    .andThen (inferTrail ctx .value key σ) <|
      .andThen (inferTrail ctx .value value before)
        (propertiesTrail ctx rest (before.after (infer ctx .value value)))
  | .shorthand name :: rest =>
    stepTrail ctx (.read name) (fun τ => propertiesTrail ctx rest τ) σ
  | .spread value :: rest =>
    .andThen (inferTrail ctx .value value σ)
      (propertiesTrail ctx rest (σ.after (infer ctx .value value)))

end

end Walk

/-- The trail of an analysis. -/
def Analysis.trail (passes : PassSet) (fileExists : String → Bool) (program : Program) :
    Walk.Trail :=
  let ctx := outermost passes fileExists
  Walk.sequenceTrail ctx program.body (Walk.stmtsTrail ctx program.body)
    (.initial (region program))

end ScriptCheck
