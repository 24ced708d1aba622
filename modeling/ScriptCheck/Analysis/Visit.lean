import ScriptCheck.Analysis.Walk
import ScriptCheck.Grammar.Program

/-!
# Visiting a program

Each statement answers whether its end cannot be reached, each expression the type of its value.
Expressions that are nested deeper than a script may nest them are not visited; they arise because
interpolations are read on their own.
-/

namespace ScriptCheck

namespace Walk

/-- What an expression is visited for. -/
inductive Use where
  | value
  /-- The function of a call, of which the signature is wanted too. -/
  | callee
  deriving DecidableEq, Repr

/-- The type of an expression and, for a built-in function, its signature. -/
structure Typed where
  type : Ty
  signature : Option Builtin.Signature

/-- An expression of which only the type is known. -/
def Typed.plain (type : Ty) : Typed := ⟨type, none⟩

/-- The type of a visited expression. -/
def typeOf (visit : Walk Typed) : Walk Ty := Typed.type <$> visit

/-- Visits an expression one level further inside, unless it is nested too deep. -/
def nested (ctx : Context) (visit : Context → Walk Ty) : Walk Typed := do
  if maxNesting ≤ ctx.depth then
    return .plain .unknown
  else
    let type ← visit ctx.deeper
    return .plain type

/-- Whether an expression is a name. -/
def isIdent : Expr → Bool
  | .ident _ => true
  | _ => false

/-- Visits a list of statements, after declaring its functions. -/
def sequence (ctx : Context) (body : List Stmt) (visit : Flow → Walk Flow) : Walk Bool := do
  hoist ctx body
  let flow ← visit .reachable
  return flow ≠ .reachable

mutual

/-- Visits a statement, and answers whether its end cannot be reached. -/
def stmt (ctx : Context) (s : Stmt) : Walk Bool :=
  match s with
  | .expr _ value => do
    let _ ← infer ctx .value value
    exits ctx value
  | .decl _ kind ds => do
    declarators ctx kind.symbolKind ds
    return false
  | .function span name params body => do
    functionDecl ctx name params <| function ctx span params fun inner =>
      resultOf (sequence inner body (stmts inner body))
    return false
  | .ifElse _ test yes no => do
    let _ ← infer ctx .value test
    let before ← env
    let yesDiverges ← stmt ctx yes
    let after ← env
    setEnv before
    let noDiverges ← stmtOption ctx no
    mergeBranches after yesDiverges noDiverges
    return yesDiverges && noDiverges
  | .whileLoop _ test body => do
    let _ ← infer ctx .value test
    loop (stmt ctx.inLoop body) (pure ())
    return false
  | .forLoop span init test update body => do
    let inner ← openBlock ctx (if init.any declares then some span else none)
    let _ ← stmtOption inner init
    let _ ← inferOption inner test
    loop (stmt inner.inLoop body) (inferOption inner update)
    return false
  | .forIn span kind key value iterable body => do
    let type ← typeOf (infer ctx .value iterable)
    let (keyType, valueType) := type.forIn key.isSome
    let inner ← openBlock ctx (if kind.isSome then some span else none)
    bindForIn inner (kind.map DeclKind.symbolKind) key keyType
    bindForIn inner (kind.map DeclKind.symbolKind) (some value) valueType
    loop (stmt inner.inLoop body) (pure ())
    return false
  | .switch span subject cs => do
    let _ ← infer ctx .value subject
    let inner ← openBlock ctx (switchSpan span cs)
    switchCases (cs.any fun | .mk _ test _ => test.isNone) (cases inner.inSwitch false cs)
  | .tryCatch span body param handler => do
    let before ← env
    let inner ← openBlock ctx (blockSpan span body)
    let bodyDiverges ← sequence inner body (stmts inner body)
    let after ← env
    setEnv (before.join after)
    let inner ← openHandler ctx param handler
    declareCaught inner param
    let handlerDiverges ← sequence inner handler (stmts inner handler)
    mergeBranches after bodyDiverges handlerDiverges
    return bodyDiverges && handlerDiverges
  | .returns _ value => do
    let type ← inferOption ctx value
    modify fun s => { s with returns := s.returns ++ [type] }
    return true
  | .breaks span => do
    reportWhen ctx (!ctx.mayBreak) span .breakOutsideLoop
    modify fun s => { s with broke := true }
    return true
  | .continues span => do
    reportWhen ctx (!ctx.mayContinue) span .continueOutsideLoop
    return true
  | .block span body => do
    let inner ← openBlock ctx (blockSpan span body)
    sequence inner body (stmts inner body)
  | .imports _ specs source => do
    importNames ctx specs source
    return false
  | .exportDecl _ declaration => do
    let _ ← stmt ctx declaration
    countExported ctx (exportedNames declaration)
    return false
  | .exportDefault _ value => do
    let _ ← infer ctx .value value
    return false
  | .exportNames _ specs source => do
    exportNames ctx specs source
    return false
  | .exportAll _ _ source => do
    checkSource ctx source
    return false
  | .empty _ => return false

/-- Visits a statement that may be missing. -/
def stmtOption (ctx : Context) (s : Option Stmt) : Walk Bool :=
  match s with
  | some s => stmt ctx s
  | none => return false

/-- Visits the statements of a list, one after the other. -/
def stmts (ctx : Context) (ss : List Stmt) (flow : Flow) : Walk Flow :=
  match ss with
  | [] => return flow
  | s :: rest => do
    let flow ← step ctx s flow (stmt ctx s)
    stmts ctx rest flow

/-- Visits the initial values of declared names, each before the name is declared. -/
def declarators (ctx : Context) (kind : SymbolKind) (ds : List Declarator) : Walk Unit :=
  match ds with
  | [] => return
  | .mk name init :: rest => do
    let type ← inferOption ctx init
    let _ ← declare ctx name kind type
    declarators ctx kind rest

/-- Visits the cases of a switch, and answers whether the end of the last one cannot be reached. -/
def cases (ctx : Context) (lastDiverges : Bool) (cs : List SwitchCase) : Walk Bool :=
  match cs with
  | [] => return lastDiverges
  | .mk _ test body :: rest => do
    let _ ← inferOption ctx test
    let diverges ← sequence ctx body (stmts ctx body)
    cases ctx diverges rest

/-- Visits an expression, and answers its type. -/
def infer (ctx : Context) (use : Use) (e : Expr) : Walk Typed :=
  match e with
  | .ident name =>
    match use with
    | .callee => do
      let type ← read ctx name
      let signature ← nameSignature ctx name
      return ⟨type, signature⟩
    | .value => nested ctx fun ctx => read ctx name
  | .int _ _ => nested ctx fun _ => return .integer
  | .double _ _ => nested ctx fun _ => return .double
  | .string _ _ => nested ctx fun _ => return .string
  | .template _ parts => nested ctx fun ctx => do
    let _ ← inferAll ctx parts
    return .string
  | .regexp _ _ _ => nested ctx fun _ => return .regexp
  | .bool _ _ => nested ctx fun _ => return .boolean
  | .null _ => nested ctx fun _ => return .null
  | .this _ => nested ctx fun _ => return .object
  | .array _ elements => nested ctx fun ctx => do
    let types ← inferAll ctx elements
    return .array (.unionOf types)
  | .object _ ps => nested ctx fun ctx => do
    properties ctx ps
    return .object
  | .spread _ value => nested ctx fun ctx => typeOf (infer ctx .value value)
  | .unary _ op operand => nested ctx fun ctx => do
    let type ← typeOf (infer ctx .value operand)
    return type.unary op
  | .update _ _ _ target => nested ctx fun ctx => do
    let type ← typeOf (infer ctx .value target)
    assignTarget ctx target type.numeric
    return type.numeric
  | .binary span op lhs rhs => nested ctx fun ctx =>
    binary ctx span op (typeOf (infer ctx .value lhs)) (typeOf (infer ctx .value rhs))
  | .assign span op target value => nested ctx fun ctx => do
    let type ← assigned ctx span op (isIdent target) (typeOf (infer ctx .value target))
      (typeOf (infer ctx .value value))
    assignTarget ctx target type
    return type
  | .conditional _ test yes no => nested ctx fun ctx => do
    let _ ← infer ctx .value test
    either (typeOf (infer ctx .value yes)) (typeOf (infer ctx .value no))
  | .call span callee args _ => nested ctx fun ctx => do
    let f ← infer ctx .callee callee
    let _ ← inferAll ctx args
    finishCall ctx span callee f.type f.signature args
  | .member _ object property _ =>
    match use with
    | .callee => do
      let objectType ← typeOf (infer ctx .value object)
      let type ← member ctx objectType property
      return ⟨type, memberSignature? objectType property⟩
    | .value => nested ctx fun ctx => do
      let type ← typeOf (infer ctx .value object)
      member ctx type property
  | .index _ object index _ => nested ctx fun ctx => do
    let type ← typeOf (infer ctx .value object)
    let _ ← infer ctx .value index
    return type.indexed
  | .function span _ params body => nested ctx fun ctx =>
    function ctx span params fun inner => resultOf (sequence inner body (stmts inner body))
  | .arrowBlock span params body => nested ctx fun ctx =>
    function ctx span params fun inner => resultOf (sequence inner body (stmts inner body))
  | .arrowExpr span params body => nested ctx fun ctx =>
    function ctx span params fun inner => typeOf (infer inner .value body)
  | .paren _ inner =>
    match use with
    | .callee => infer ctx .callee inner
    | .value => nested ctx fun ctx => typeOf (infer ctx .value inner)
  | .invalid _ => nested ctx fun _ => return .unknown

/-- Visits an expression that may be missing, in place of which there is null. -/
def inferOption (ctx : Context) (e : Option Expr) : Walk Ty :=
  match e with
  | some e => typeOf (infer ctx .value e)
  | none => return .null

/-- Visits a list of expressions, and answers the types of the elements they make. -/
def inferAll (ctx : Context) (es : List Expr) : Walk (List Ty) :=
  match es with
  | [] => return []
  | e :: rest => do
    let type ← typeOf (infer ctx .value e)
    let types ← inferAll ctx rest
    return (if e.isSpread then type.spreadElement else type) :: types

/-- Visits the properties of an object. -/
def properties (ctx : Context) (ps : List Property) : Walk Unit :=
  match ps with
  | [] => return
  | .named _ value :: rest => do
    let _ ← infer ctx .value value
    properties ctx rest
  | .computed key value :: rest => do
    let _ ← infer ctx .value key
    let _ ← infer ctx .value value
    properties ctx rest
  | .shorthand name :: rest => do
    let _ ← read ctx name
    properties ctx rest
  | .spread value :: rest => do
    let _ ← infer ctx .value value
    properties ctx rest

end

end Walk

end ScriptCheck
