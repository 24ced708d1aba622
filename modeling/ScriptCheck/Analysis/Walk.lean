import ScriptCheck.Analysis.Env
import ScriptCheck.Analysis.Finding
import ScriptCheck.Builtin.Globals
import ScriptCheck.Builtin.Modules
import ScriptCheck.Builtin.Source
import ScriptCheck.Tree.Basic
import ScriptCheck.Typing.Operation

/-!
# Steps of an analysis

An analysis visits a program in the order in which it runs. What holds at the place visited is the
`Context`, which is passed inwards; what changes on the way is the `Walk.State`. The steps here
read, declare and assign names and note findings.

A step asks for scopes and symbols by their numbers, and for regions whose length has 32 bits. That
there are such is noted each time (`Walk.require`).
-/

namespace ScriptCheck

/-- The place that is visited. -/
structure Context where
  passes : PassSet
  /-- Whether there is a script at a path. -/
  fileExists : String → Bool
  scope : Nat
  /-- How many expressions are around the place. -/
  depth : Nat
  /-- Whether a `break` has something to leave. -/
  mayBreak : Bool
  /-- Whether a `continue` has a loop to go on with. -/
  mayContinue : Bool

namespace Context

/-- One expression further inside. -/
def deeper (ctx : Context) : Context := { ctx with depth := ctx.depth + 1 }

/-- In the body of a loop. -/
def inLoop (ctx : Context) : Context := { ctx with mayBreak := true, mayContinue := true }

/-- In the cases of a switch. -/
def inSwitch (ctx : Context) : Context := { ctx with mayBreak := true }

/-- In a scope. -/
def inScope (ctx : Context) (scope : Nat) : Context := { ctx with scope }

/-- In the body of a function, which no `break` or `continue` leaves. -/
def inFunction (ctx : Context) (scope : Nat) : Context :=
  { ctx with scope, mayBreak := false, mayContinue := false }

end Context

/-- What is known so far. -/
structure Walk.State where
  table : SymbolTable
  env : Env
  findings : List (Located Finding)
  /-- The types returned so far by the innermost function. -/
  returns : List Ty
  /-- Whether a `break` leaves the innermost switch. -/
  broke : Bool
  /-- Whether all that was required so far held. -/
  sound : Bool

/-- A step of an analysis. -/
abbrev Walk := StateM Walk.State

namespace Walk

/-- Nothing is visited yet. -/
def State.initial (span : Span) : State := ⟨.empty span, .empty, [], [], false, span.Fits⟩

/-- Notes whether something holds that has to. -/
def require (holds : Bool) : Walk Unit := modify fun s => { s with sound := s.sound && holds }

/-- Notes a finding, if its pass reports. -/
def report (ctx : Context) (span : Span) (finding : Finding) : Walk Unit :=
  modify fun s =>
    if ctx.passes.enabled finding.pass then
      { s with findings := s.findings ++ [⟨span, finding⟩] }
    else
      s

/-- Notes a finding where some condition holds. -/
def reportWhen (ctx : Context) (found : Bool) (span : Span) (finding : Finding) : Walk Unit :=
  if found then report ctx span finding else pure ()

/-! ### Current types -/

/-- The current types. -/
def env : Walk Env := do
  let s ← get
  return s.env

/-- Goes on with other current types. -/
def setEnv (env : Env) : Walk Unit := modify fun s => { s with env }

/-- Goes on after two branches: one with its types at its end, the other with the current ones. A
branch that is left before its end does not count, unless both are. -/
def mergeBranches (first : Env) (firstDiverges secondDiverges : Bool) : Walk Unit :=
  modify fun s =>
    match firstDiverges, secondDiverges with
    | false, true => { s with env := first }
    | false, false => { s with env := first.join s.env }
    | true, _ => s

/-- Goes on after a part that may not have run, before which there were other types. -/
def joinBefore (before : Env) : Walk Unit := mergeBranches before false false

/-! ### Scopes -/

/-- Opens a scope and goes inside. -/
def openScope (ctx : Context) (kind : ScopeKind) (span : Span) : Walk Nat := do
  let s ← get
  require (s.table.hasScope ctx.scope)
  modify fun s => { s with table := s.table.push kind ctx.scope span }
  return s.table.scopes.length

/-- Goes inside a block, in a scope of its own if it has a region for one. -/
def openBlock (ctx : Context) (span : Option Span) : Walk Context := do
  match span with
  | some span => return ctx.inScope (← openScope ctx .block span)
  | none => return ctx

/-! ### Symbols -/

/-- The symbol that a name stands for at a place. -/
def lookup (ctx : Context) (name : Ident) : Walk (Option SymbolId) := do
  let s ← get
  require (s.table.isRooted ctx.scope)
  return s.table.lookup name.name ctx.scope

/-- The symbol with some number. -/
def symbol (id : SymbolId) : Walk (Option Symbol) := do
  let s ← get
  require (s.table.hasSymbol id)
  return s.table.symbol? id

/-- Changes the symbol with some number. -/
def updateSymbol (id : SymbolId) (f : Symbol → Symbol) : Walk Unit := do
  let s ← get
  require (s.table.hasSymbol id)
  modify fun s => { s with table := s.table.modifySymbol id f }

/-- Declares a symbol in a scope, unless its name is declared there already. Answers the symbol that
now has the name, and whether it is the new one. -/
def declareIn (scope : Nat) (symbol : Symbol) : Walk (SymbolId × Bool) := do
  let s ← get
  require (s.table.hasScope scope)
  let (id, isNew, table) := s.table.declare scope symbol
  modify fun s => { s with table }
  return (id, isNew)

/-- Notes a use of a symbol. -/
def refer (name : Ident) (id : SymbolId) : Walk Unit :=
  modify fun s => { s with table := s.table.addReference name.span id }

/-- Gives a variable a type from here on. -/
def setType (id : SymbolId) (type : Ty) : Walk Unit :=
  modify fun s => { s with env := s.env.set id type }

/-! ### Names -/

/-- Declares a name in the current scope. A name that is declared there already is a finding, and
keeps its first declaration. -/
def declare (ctx : Context) (name : Ident) (kind : SymbolKind) (type : Ty) :
    Walk (Option SymbolId) := do
  let (id, isNew) ← declareIn ctx.scope (.declared name.name kind type name.span)
  if isNew then
    setType id type
    return some id
  else
    report ctx name.span (.redeclaration name.name)
    return none

/-- The type of a name that no scope declares. -/
def globalType (ctx : Context) (name : Ident) : Walk Ty := do
  match Builtin.global? name.name, Builtin.globalConstant? name.name with
  | some function, _ => return function.ty
  | none, some constant => return constant.ty
  | none, none =>
    report ctx name.span (.undefinedVariable name.name)
    return .unknown

/-- Reads a name. -/
def read (ctx : Context) (name : Ident) : Walk Ty := do
  match ← lookup ctx name with
  | some id =>
    refer name id
    updateSymbol id fun symbol => { symbol with reads := symbol.reads + 1 }
    let recorded ← symbol id
    let current ← env
    return (current.get? id <|> recorded.map Symbol.type).getD .unknown
  | none => globalType ctx name

/-- Assigns to a name that is declared. A constant keeps its type. -/
def assignSymbol (ctx : Context) (name : Ident) (type : Ty) (id : SymbolId) : Walk Unit := do
  refer name id
  let declared ← symbol id
  if declared.any (·.kind == .constVar) then
    report ctx name.span (.assignToConstant name.name)
  else
    updateSymbol id fun symbol => { symbol with type := symbol.type.join type }
    setType id type

/-- Assigns to a name. One that no scope declares is declared in the innermost function. -/
def assign (ctx : Context) (name : Ident) (type : Ty) : Walk Unit := do
  match ← lookup ctx name with
  | some id => assignSymbol ctx name type id
  | none =>
    let s ← get
    let symbol := { Symbol.declared name.name .letVar type name.span with implicit := true }
    let (id, _) ← declareIn (s.table.functionScope ctx.scope) symbol
    setType id type

/-- The name that an expression assigns to, if it is the target of an assignment. Members and
elements are not tracked. -/
def target? : Expr → Option Ident
  | .ident name => some name
  | .paren _ inner => target? inner
  | _ => none

/-- Assigns to an expression. -/
def assignTarget (ctx : Context) (target : Expr) (type : Ty) : Walk Unit := do
  match target? target with
  | some name => assign ctx name type
  | none => return

/-! ### Functions -/

/-- Declares a function that has a name, before its result is known. -/
def hoistFunction (ctx : Context) (name : Option Ident) (params : List Param) : Walk Unit := do
  match name with
  | some name =>
    let _ ← declare ctx name .function (.function (params.map Param.display) .unknown)
  | none => return

/-- Declares the functions of a list of statements, which are known in all of it. -/
def hoist (ctx : Context) : List Stmt → Walk Unit
  | [] => return
  | .function _ name params _ :: rest => do
    hoistFunction ctx name params
    hoist ctx rest
  | .exportDecl _ (.function _ name params _) :: rest => do
    hoistFunction ctx name params
    hoist ctx rest
  | _ :: rest => hoist ctx rest

/-- Declares the parameters of a function. -/
def declareParams (ctx : Context) : List Param → Walk Unit
  | [] => return
  | param :: rest => do
    let _ ← declare ctx param.name .parameter (if param.rest then .array .unknown else .unknown)
    declareParams ctx rest

/-- Visits a function, whose body is visited in a scope of its own and answers the type of the
result. -/
def function (ctx : Context) (span : Span) (params : List Param) (body : Context → Walk Ty) :
    Walk Ty := do
  let scope ← openScope ctx .function span
  let outer ← get
  modify fun s => { s with returns := [], broke := false }
  declareParams (ctx.inFunction scope) params
  let result ← body (ctx.inFunction scope)
  let s ← get
  require ((outer.env.changed s.env scope).all s.table.hasSymbol)
  modify fun s => { s with
    env := outer.env.afterFunction s.env s.table scope
    returns := outer.returns
    broke := outer.broke }
  return .function (params.map Param.display) result

/-- The result of a body of statements: what it returns, or null if its end can be reached. -/
def resultOf (body : Walk Bool) : Walk Ty := do
  let diverges ← body
  let s ← get
  return .unionOf (if diverges then s.returns else s.returns ++ [.null])

/-- Records the type of a function under its name. -/
def recordFunction (ctx : Context) (name : Ident) (type : Ty) : Walk Unit := do
  match ← lookup ctx name with
  | some id =>
    let declared ← symbol id
    if declared.any (·.kind == .function) then
      updateSymbol id fun symbol => { symbol with type }
    setType id type
  | none => return

/-- Visits the declaration of a function. One that stands alone in the body of a branch or a loop is
not yet declared. -/
def functionDecl (ctx : Context) (name : Option Ident) (params : List Param) (visit : Walk Ty) :
    Walk Unit := do
  match name with
  | some name =>
    let found ← lookup ctx name
    if !found.any (·.scope == ctx.scope) then
      hoistFunction ctx (some name) params
    let type ← visit
    recordFunction ctx name type
  | none =>
    let _ ← visit

/-! ### Imports and exports -/

/-- Declares an imported name. -/
def declareImport (ctx : Context) (source : String) (name : Ident) (specifier : Option String)
    (type : Ty) : Walk Unit := do
  match ← declare ctx name .imported type with
  | some id => updateSymbol id fun symbol => { symbol with specifier, source := some source }
  | none => return

/-- The name under which an import is exported. -/
def specifierOf : ImportSpec → Option String
  | .named imported _ => some imported.name
  | .default _ => some "default"
  | .namespaceOf _ => none

/-- The type of an imported name. A name that a known module does not export is a finding. -/
def importedType (ctx : Context) (module_ : Option Builtin.Module) : ImportSpec → Walk Ty
  | .named imported _ => do
    match module_ with
    | none => return .unknown
    | some m =>
      match m.member? imported.name with
      | some type => return type
      | none =>
        report ctx imported.span (.notExported imported.name m.name)
        return .unknown
  | .default _ | .namespaceOf _ => return (module_.map (.namespaceOf ·.name)).getD .unknown

/-- Declares the names of an import. -/
def declareImports (ctx : Context) (source : String) (typeOf : ImportSpec → Walk Ty) :
    List ImportSpec → Walk Unit
  | [] => return
  | spec :: rest => do
    let type ← typeOf spec
    declareImport ctx source spec.declared (specifierOf spec) type
    declareImports ctx source typeOf rest

/-- Whether the script that a source names is missing. A module is never missing. -/
def isMissing (ctx : Context) (source : String) : Bool :=
  (Builtin.scriptPath? source).any fun path => !ctx.fileExists path

/-- Visits an import. Nothing is declared if its script is missing. -/
def importNames (ctx : Context) (specs : List ImportSpec) (source : TextLit) : Walk Unit := do
  if isMissing ctx source.value then
    report ctx source.span (.moduleNotFound source.value)
  else if (Builtin.scriptPath? source.value).isSome then
    declareImports ctx source.value (fun _ => pure .unknown) specs
  else
    declareImports ctx source.value (importedType ctx (Builtin.module? source.value)) specs

/-- Checks the source of names that are exported again. -/
def checkSource (ctx : Context) (source : TextLit) : Walk Unit :=
  reportWhen ctx (isMissing ctx source.value) source.span (.moduleNotFound source.value)

/-- Counts exported names as read. -/
def countExported (ctx : Context) : List Ident → Walk Unit
  | [] => return
  | name :: rest => do
    match ← lookup ctx name with
    | some id => updateSymbol id fun symbol => { symbol with reads := symbol.reads + 1 }
    | none => pure ()
    countExported ctx rest

/-- Reads exported names. -/
def readExported (ctx : Context) : List ExportSpec → Walk Unit
  | [] => return
  | spec :: rest => do
    let _ ← read ctx spec.name
    readExported ctx rest

/-- Visits exported names: those of another script, or of this one. -/
def exportNames (ctx : Context) (specs : List ExportSpec) (source : Option TextLit) : Walk Unit :=
  match source with
  | some source => checkSource ctx source
  | none => readExported ctx specs

/-- The names that a statement declares for its export. -/
def exportedNames : Stmt → List Ident
  | .decl _ _ declarators => declarators.map fun | .mk name _ => name
  | .function _ name _ _ => name.toList
  | _ => []

/-! ### Members and calls -/

/-- The type of a member of a module. -/
def moduleMember (ctx : Context) (m : Builtin.Module) (property : Ident) : Walk Ty := do
  match m.member? property.name, m.withMethod? property.name with
  | some type, _ => return type
  | none, some object =>
    report ctx property.span (.instanceMethod property.name object.tag m.name)
    return .unknown
  | none, none =>
    report ctx property.span (.unknownMember property.name m.name)
    return .unknown

/-- The type of a member of a value that may have methods. -/
def resourceMember (ctx : Context) (owner : Ty) (property : Ident) : Walk Ty := do
  match owner.resources, owner.resources.filterMap (Builtin.method? · property.name) with
  | [], _ => return .unknown
  | first :: _, [] =>
    reportWhen ctx (!owner.alternatives.contains .object) property.span
      (.unknownMethod first property.name)
    return .unknown
  | _, methods => return .unionOf (methods.map Builtin.Signature.ty)

/-- The type of a member. -/
def member (ctx : Context) (owner : Ty) (property : Ident) : Walk Ty := do
  match owner with
  | .namespaceOf name =>
    match Builtin.module? name with
    | some m => moduleMember ctx m property
    | none => return .unknown
  | _ => resourceMember ctx owner property

/-- The signature of a member that is a built-in function. -/
def memberSignature? (owner : Ty) (property : Ident) : Option Builtin.Signature :=
  match owner with
  | .namespaceOf name => (Builtin.module? name).bind (·.function? property.name)
  | _ => owner.resources.findSome? (Builtin.method? · property.name)

/-- The signature of a symbol that is imported from a built-in module. -/
def importedSignature? (symbol : Symbol) : Option Builtin.Signature := do
  let source ← symbol.source
  let specifier ← symbol.specifier
  let m ← Builtin.module? source
  m.function? specifier

/-- The signature of a name that is a built-in function, known everywhere or imported. -/
def nameSignature (ctx : Context) (name : Ident) : Walk (Option Builtin.Signature) := do
  match ← lookup ctx name with
  | none => return Builtin.global? name.name
  | some id =>
    let declared ← symbol id
    return declared.bind importedSignature?

/-- The type of the result of a call. The number of arguments of a built-in function is checked. -/
def callResult (ctx : Context) (span : Span) (type : Ty) (signature : Option Builtin.Signature)
    (args : List Expr) : Walk Ty := do
  match signature with
  | some f =>
    reportWhen ctx (!args.any Expr.isSpread && args.length < f.required) span
      (.tooFewArguments f.name f.required args.length)
    return Builtin.tyOf f.returns
  | none => return type.result?.getD .unknown

/-- Checks a call and answers the type of its result. -/
def finishCall (ctx : Context) (span : Span) (callee : Expr) (type : Ty)
    (signature : Option Builtin.Signature) (args : List Expr) : Walk Ty := do
  reportWhen ctx (!type.isCallable) callee.span (.notCallable type)
  callResult ctx span type signature args

/-- Whether a statement calls a function that never returns. -/
def exits (ctx : Context) (e : Expr) : Walk Bool := do
  match e with
  | .call _ (.ident name) _ _ =>
    if name.name == "die" || name.name == "exit" then
      let found ← lookup ctx name
      return found.isNone
    else
      return false
  | _ => return false

/-! ### Operators -/

/-- Visits both operands of an operator and answers the type of its result. -/
def binary (ctx : Context) (span : Span) (op : BinaryOp) (lhs rhs : Walk Ty) : Walk Ty := do
  let left ← lhs
  if op.isShortCircuit then
    let before ← env
    let right ← rhs
    joinBefore before
    return .shortCircuit op left right
  else
    let right ← rhs
    match op.family with
    | .comparison => return .boolean
    | .bitwise => return .integer
    | .arithmetic =>
      match [left, right].find? Ty.isCompound with
      | some compound => report ctx span (.arithmeticOnCompound compound)
      | none => pure ()
      return .arithmetic op left right
    | .shortCircuit =>
      -- both operands of such an operator are visited above
      require false
      return .unknown

/-- Visits an assignment and answers the type assigned. A name that is only assigned to is not
read. -/
def assigned (ctx : Context) (span : Span) (op : AssignOp) (isName : Bool)
    (target value : Walk Ty) : Walk Ty := do
  match op with
  | .assign =>
    if !isName then
      let _ ← target
    value
  | .compound op => binary ctx span op target value

/-- Visits one of two operands, and answers the union of their types. -/
def either (yes no : Walk Ty) : Walk Ty := do
  let before ← env
  let first ← yes
  let after ← env
  setEnv before
  let second ← no
  mergeBranches after false false
  return first.join second

/-! ### Statements -/

/-- Whether a statement declares a name in the list of statements it stands in. -/
def declares : Stmt → Bool
  | .decl _ _ _ | .function _ _ _ _ | .imports _ _ _ | .exportDecl _ _ => true
  | _ => false

/-- The region of the scope that statements in braces need. -/
def blockSpan (span : Span) (body : List Stmt) : Option Span :=
  if body.any declares then some span else none

/-- The region of the scope that a switch needs. -/
def switchSpan (span : Span) (cases : List SwitchCase) : Option Span :=
  if cases.any fun | .mk _ _ body => body.any declares then some span else none

/-- The region from the first to the last of some statements. -/
def bodySpan (body : List Stmt) : Option Span :=
  match body.head?, body.getLast? with
  | some first, some last => some (first.span.through last.span)
  | _, _ => none

/-- The region of the scope that the handler of a `try` needs. -/
def handlerSpan (param : Option Ident) (handler : List Stmt) : Option Span :=
  match param, bodySpan handler with
  | some param, some body => some (param.span.through body)
  | some param, none => some param.span
  | none, body => if handler.any declares then body else none

/-- Goes inside the handler of a `try`. -/
def openHandler (ctx : Context) (param : Option Ident) (handler : List Stmt) : Walk Context := do
  require ((bodySpan handler).all (·.Fits) && (handlerSpan param handler).all (·.Fits))
  openBlock ctx (handlerSpan param handler)

/-- Whether the statements of a list can still be reached. -/
inductive Flow where
  | reachable
  /-- The end of a statement cannot be reached. -/
  | ended
  /-- A statement that cannot be reached was found. -/
  | reported
  deriving DecidableEq, Repr

/-- Whether a statement does nothing where it stands. -/
def isInert : Stmt → Bool
  | .function _ _ _ _ | .empty _ => true
  | _ => false

/-- Notes the first statement of a list that cannot be reached. -/
def Flow.enter (ctx : Context) (s : Stmt) (flow : Flow) : Walk Flow := do
  if flow = .ended ∧ !isInert s then
    report ctx s.span .unreachable
    return .reported
  else
    return flow

/-- What can be reached after a statement. -/
def Flow.after (flow : Flow) (diverges : Bool) : Flow :=
  if flow = .reachable ∧ diverges then .ended else flow

/-- Visits a statement. What is returned after the end of its list was passed does not count. -/
def step (ctx : Context) (s : Stmt) (flow : Flow) (visit : Walk Bool) : Walk Flow := do
  let flow ← flow.enter ctx s
  let before ← get
  let diverges ← visit
  if flow = .reported then
    modify fun s => { s with returns := before.returns }
  return flow.after diverges

/-- Visits the body of a loop and what follows it, which may not run. -/
def loop {α : Type} (body : Walk Bool) (update : Walk α) : Walk Unit := do
  let before ← get
  let _ ← body
  modify fun s => { s with broke := before.broke }
  let _ ← update
  joinBefore before.env

/-- Visits the cases of a switch. Its end is out of reach if there is a default, the last case does
not reach its end, and no `break` leaves it. -/
def switchCases (hasDefault : Bool) (cases : Walk Bool) : Walk Bool := do
  let before ← get
  modify fun s => { s with broke := false }
  let lastDiverges ← cases
  let after ← get
  modify fun s => { s with broke := before.broke }
  joinBefore before.env
  return hasDefault && lastDiverges && !after.broke

/-- Declares a name of a loop over values, or assigns to it. -/
def bindForIn (ctx : Context) (kind : Option SymbolKind) (name : Option Ident) (type : Ty) :
    Walk Unit := do
  match name, kind with
  | some name, some kind =>
    let _ ← declare ctx name kind type
  | some name, none => assign ctx name type
  | none, _ => return

/-- Declares what the handler of a `try` gets. -/
def declareCaught (ctx : Context) (param : Option Ident) : Walk Unit := do
  match param with
  | some param =>
    let _ ← declare ctx param .letVar .object
  | none => return

end Walk

/-- The kind of the names that a declaration declares. -/
def DeclKind.symbolKind : DeclKind → SymbolKind
  | .letDecl => .letVar
  | .constDecl => .constVar

end ScriptCheck
