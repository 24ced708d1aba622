import ScriptCheck.Grammar.Precedence
import ScriptCheck.Grammar.Recovery
import ScriptCheck.Token.Value

/-!
# Reading expressions

Statements and expressions hold each other, and how deep they may nest is limited. A `Level` offers
what can be read at one depth; the functions here read one more layer around it. An operator that is
applied to an expression adds a layer too, so the nesting of a tree is limited in every direction.
-/

namespace ScriptCheck

/-- What can be read at some depth. -/
structure Level where
  /-- A statement. -/
  stmt : Parser Stmt
  /-- An expression whose operators have at least some left power. -/
  expr : Nat → Parser Expr
  /-- The operators of at least some left power that follow an expression. -/
  operators : Nat → Expr → Parser Expr
  /-- The interpolations of a template. -/
  template : Token → StateM Parser.State (List Expr)

namespace Parser

/-! ### Parts shared with statements -/

/-- The text of a string literal. -/
def textLit : Parser TextLit := do
  let t ← expect .string
  return ⟨String.ofList (stringValue t.text), t.span⟩

/-- Statements in braces. -/
def block (below : Level) : Parser (List Stmt) := do
  let _ ← expectMark .lbrace
  let body ← statements below.stmt [.punct .rbrace]
  let _ ← expectMark .rbrace
  return body

/-- A parameter. -/
def param : Parser Param := do
  let rest ← takeMark .ellipsis
  let name ← ident
  return ⟨name, rest⟩

/-- Lists the first rest parameter that others follow. -/
def checkRest (ps : List Param) : StateM State Unit :=
  match ps.dropLast.find? Param.rest with
  | some misplaced => report misplaced.name.span .restNotLast
  | none => pure ()

/-- Parameters up to a closing parenthesis. -/
def params : Parser (List Param) := do
  let ps ← items (.punct .rparen) param
  checkRest ps
  return ps

/-- The body of a function, in braces or between a colon and `endfunction`. -/
def functionBody (below : Level) : Parser (List Stmt) := do
  if ← takeMark .colon then
    let body ← statements below.stmt [.keyword .endfunctionKw]
    let _ ← expectKeyword .endfunctionKw
    return body
  else
    block below

/-- A function, which may have a name. -/
def function {α : Type} (below : Level)
    (make : Span → Option Ident → List Param → List Stmt → α) : Parser α := do
  let start ← expectKeyword .functionKw
  let s ← get
  let name ← optionally (s.kind == .label) ident
  let _ ← expectMark .lparen
  let ps ← params
  let _ ← expectMark .rparen
  let body ← functionBody below
  let span ← spanFrom start.span
  return make span name ps body

/-- An expression in parentheses. -/
def parenExpr (below : Level) : Parser Expr := do
  let _ ← expectMark .lparen
  let e ← below.expr 0
  let _ ← expectMark .rparen
  return e

/-! ### Operands -/

/-- An element of an array or an argument of a call, which may be spread. -/
def element (below : Level) : Parser Expr := do
  let s ← get
  if ← takeMark .ellipsis then
    let e ← below.expr 0
    let span ← spanFrom s.current.span
    return .spread span e
  else
    below.expr 0

/-- The value of a property, after its key. -/
def propertyValue (below : Level) : Parser Expr := do
  let _ ← expectMark .colon
  below.expr 0

/-- A property with a word before its value. -/
def wordProperty (below : Level) : Parser Property := do
  let name ← propertyName
  let value ← propertyValue below
  return .named (.word name) value

/-- A property that is not spread. -/
def plainProperty (below : Level) : Parser Property := do
  let s ← get
  let t := s.current
  match t.kind with
  | .label =>
    if s.ahead 1 == .punct .comma || s.ahead 1 == .punct .rbrace then
      let name ← ident
      return .shorthand name
    else
      wordProperty below
  | .keyword _ => wordProperty below
  | .string =>
    let lit ← textLit
    let value ← propertyValue below
    return .named (.text lit) value
  | .number | .double =>
    let _ ← advance
    let value ← propertyValue below
    return .named (.number ⟨t.word, t.span⟩) value
  | .punct .lbrack =>
    let _ ← advance
    let key ← below.expr 0
    let _ ← expectMark .rbrack
    let value ← propertyValue below
    return .computed key value
  | _ => unexpected [.label, .string, .number, .punct .lbrack]

/-- A property of an object. -/
def property (below : Level) : Parser Property := do
  if ← takeMark .ellipsis then
    let value ← below.expr 0
    return .spread value
  else
    plainProperty below

/-- An arrow function, after its parameters and the arrow. -/
def arrowBody (below : Level) (start : Span) (ps : List Param) : Parser Expr := do
  let s ← get
  if s.atMark .lbrace then
    let body ← block below
    let span ← spanFrom start
    return .arrowBlock span ps body
  else
    let body ← below.expr 0
    let span ← spanFrom start
    return .arrowExpr span ps body

/-- Whether the current parenthesis opens the parameters of an arrow function: up to the one that
closes it there are only names, commas and dots, and an arrow follows. -/
def State.atArrowParams (s : State) : Bool :=
  match (s.rest.drop 1).dropWhile fun t =>
    t.kind == .label || t.kind == .punct .comma || t.kind == .punct .ellipsis with
  | t :: u :: _ => t.kind == .punct .rparen && u.kind == .punct .arrow
  | _ => false

/-- Whether an expression may be assigned to. What could not be read passes too. -/
def isTarget : Expr → Bool
  | .ident _ | .member _ _ _ _ | .index _ _ _ _ | .invalid _ => true
  | _ => false

/-- Lists an expression that may not be assigned to. -/
def checkTarget (e : Expr) : StateM State Unit := reportWhen (!isTarget e) e.span .invalidTarget

/-- Passes a token that is an expression by itself. -/
def leaf (make : Token → Expr) : Parser Expr := do
  let t ← advance
  return make t

/-- A name, or an arrow function whose only parameter has no parentheses. -/
def nameOperand (below : Level) : Parser Expr := do
  let s ← get
  let name ← ident
  if s.ahead 1 == .punct .arrow then
    let _ ← expectMark .arrow
    arrowBody below name.span [⟨name, false⟩]
  else
    return .ident name

/-- An integer. -/
def numberOperand : Parser Expr := do
  let t ← expect .number
  match integerValue? t.text with
  | some n => return .int t.span n
  | none =>
    report t.span .integerOutOfRange
    return .invalid t.span

/-- A template with its interpolations. -/
def templateOperand (below : Level) : Parser Expr := do
  let t ← advance
  let parts ← below.template t
  return .template t.span parts

/-- An arrow function with parentheses around its parameters, or an expression in parentheses. -/
def parenOperand (below : Level) : Parser Expr := do
  let s ← get
  let start ← expectMark .lparen
  if s.atArrowParams then
    let ps ← params
    let _ ← expectMark .rparen
    let _ ← expectMark .arrow
    arrowBody below start.span ps
  else
    let inner ← below.expr 0
    let _ ← expectMark .rparen
    let span ← spanFrom start.span
    return .paren span inner

/-- An array. -/
def arrayOperand (below : Level) : Parser Expr := do
  let start ← expectMark .lbrack
  let elements ← items (.punct .rbrack) (element below)
  let _ ← expectMark .rbrack
  let span ← spanFrom start.span
  return .array span elements

/-- An object. -/
def objectOperand (below : Level) : Parser Expr := do
  let start ← expectMark .lbrace
  let properties ← items (.punct .rbrace) (property below)
  let _ ← expectMark .rbrace
  let span ← spanFrom start.span
  return .object span properties

/-- An operator before its operand. Any other token is listed, as it starts no expression. -/
def prefixOperand (below : Level) : Parser Expr := do
  let s ← get
  match s.kind.unary?, s.kind.update? with
  | some op, _ =>
    let start ← advance
    let e ← below.expr prefixPower
    let span ← spanFrom start.span
    return .unary span op e
  | none, some op =>
    let start ← advance
    let target ← below.expr prefixPower
    checkTarget target
    let span ← spanFrom start.span
    return .update span op true target
  | none, none =>
    report s.current.span (.expectedExpression s.kind)
    failure

/-- An expression that does not start with another one. -/
def operand (below : Level) : Parser Expr := do
  let s ← get
  match s.kind with
  | .label => nameOperand below
  | .number => numberOperand
  | .double => leaf fun t => .double t.span (doubleValue t.text)
  | .string => leaf fun t => .string t.span (String.ofList (stringValue t.text))
  | .template => templateOperand below
  | .regexp =>
    leaf fun t =>
      .regexp t.span (String.ofList (regexpValue t.text).1) (String.ofList (regexpValue t.text).2)
  | .keyword .trueKw => leaf fun t => .bool t.span true
  | .keyword .falseKw => leaf fun t => .bool t.span false
  | .keyword .nullKw => leaf fun t => .null t.span
  | .keyword .thisKw => leaf fun t => .this t.span
  | .punct .lparen => parenOperand below
  | .punct .lbrack => arrayOperand below
  | .punct .lbrace => objectOperand below
  | .keyword .functionKw => function below .function
  | .error _ =>
    modify State.skip
    return .invalid s.current.span
  | _ => prefixOperand below

/-! ### Operators -/

/-- The operator at the current token. An update stands on the line of its operand. -/
def State.operator? (s : State) : Option Infix :=
  match s.kind.operator? with
  | some (.update op) => if s.newLine then none else some (.update op)
  | other => other

/-- An operator applied to the expression before it, after its token. -/
def applied (below : Level) (op : Infix) (lhs : Expr) : Parser Expr := do
  match op with
  | .assign op' =>
    checkTarget lhs
    let value ← below.expr op.right
    let span ← spanFrom lhs.span
    return .assign span op' lhs value
  | .conditional =>
    let yes ← below.expr 0
    let _ ← expectMark .colon
    let no ← below.expr op.right
    let span ← spanFrom lhs.span
    return .conditional span lhs yes no
  | .binary op' =>
    let rhs ← below.expr op.right
    let span ← spanFrom lhs.span
    return .binary span op' lhs rhs
  | .update op' =>
    checkTarget lhs
    let span ← spanFrom lhs.span
    return .update span op' false lhs
  | .member optional =>
    let property ← propertyName
    let span ← spanFrom lhs.span
    return .member span lhs property optional
  | .call optional =>
    let args ← items (.punct .rparen) (element below)
    let _ ← expectMark .rparen
    let span ← spanFrom lhs.span
    return .call span lhs args optional
  | .index optional =>
    let index ← below.expr 0
    let _ ← expectMark .rbrack
    let span ← spanFrom lhs.span
    return .index span lhs index optional

/-- Passes an operator of at least some left power and goes on with it; without one, the expression
before it stands as it is. -/
def withOperator (power : Nat) (lhs : Expr) (go : Infix → Parser Expr) : Parser Expr := do
  let s ← get
  match s.operator? with
  | none => return lhs
  | some op =>
    if op.left < power then
      return lhs
    else
      let _ ← advance
      go op

end Parser

end ScriptCheck
