import ScriptCheck.Grammar.Expression

/-!
# Trees without their regions

A stripped tree has the same empty region everywhere, so that two programs are the same up to their
regions exactly if they are equal once they are stripped.
-/

namespace ScriptCheck

/-- The region of everything in a stripped tree. -/
def Span.nowhere : Span := ⟨0, 0⟩

/-! ### Parts without statements and expressions -/

/-- A name without its region. -/
def Ident.stripped (x : Ident) : Ident := { x with span := .nowhere }

/-- A text without its region. -/
def TextLit.stripped (lit : TextLit) : TextLit := { lit with span := .nowhere }

/-- A parameter without its region. -/
def Param.stripped (p : Param) : Param := { p with name := p.name.stripped }

/-- An item of an import without its regions. -/
def ImportSpec.stripped : ImportSpec → ImportSpec
  | .named imported newName => .named imported.stripped (newName.map Ident.stripped)
  | .default name => .default name.stripped
  | .namespaceOf name => .namespaceOf name.stripped

/-- An item of an export without its regions. -/
def ExportSpec.stripped (spec : ExportSpec) : ExportSpec :=
  ⟨spec.name.stripped, spec.exported.map Ident.stripped⟩

/-- A key of an object without its region. -/
def PropertyName.stripped : PropertyName → PropertyName
  | .word name => .word name.stripped
  | .text lit => .text lit.stripped
  | .number lit => .number lit.stripped

/-! ### Statements and expressions -/

mutual

/-- A statement without its regions. -/
def Stmt.stripped : Stmt → Stmt
  | .expr _ value => .expr .nowhere value.stripped
  | .decl _ kind declarators => .decl .nowhere kind (strippedDeclarators declarators)
  | .function _ name ps body =>
    .function .nowhere (name.map Ident.stripped) (ps.map Param.stripped) (strippedStmts body)
  | .ifElse _ test yes no =>
    .ifElse .nowhere test.stripped yes.stripped (strippedStmtOption no)
  | .whileLoop _ test body => .whileLoop .nowhere test.stripped body.stripped
  | .forLoop _ init test update body =>
    .forLoop .nowhere (strippedStmtOption init) (strippedOption test) (strippedOption update)
      body.stripped
  | .forIn _ kind key value iterable body =>
    .forIn .nowhere kind (key.map Ident.stripped) value.stripped iterable.stripped body.stripped
  | .switch _ subject cases => .switch .nowhere subject.stripped (strippedCases cases)
  | .tryCatch _ block param handler =>
    .tryCatch .nowhere (strippedStmts block) (param.map Ident.stripped) (strippedStmts handler)
  | .returns _ value => .returns .nowhere (strippedOption value)
  | .breaks _ => .breaks .nowhere
  | .continues _ => .continues .nowhere
  | .block _ body => .block .nowhere (strippedStmts body)
  | .imports _ specs source =>
    .imports .nowhere (specs.map ImportSpec.stripped) source.stripped
  | .exportDecl _ declaration => .exportDecl .nowhere declaration.stripped
  | .exportDefault _ value => .exportDefault .nowhere value.stripped
  | .exportNames _ specs source =>
    .exportNames .nowhere (specs.map ExportSpec.stripped) (source.map TextLit.stripped)
  | .exportAll _ newName source =>
    .exportAll .nowhere (newName.map Ident.stripped) source.stripped
  | .empty _ => .empty .nowhere

/-- A statement that may be missing, without its regions. -/
def strippedStmtOption : Option Stmt → Option Stmt
  | none => none
  | some s => some s.stripped

/-- Statements without their regions. -/
def strippedStmts : List Stmt → List Stmt
  | [] => []
  | s :: rest => s.stripped :: strippedStmts rest

/-- A declared name and its initial value without their regions. -/
def Declarator.stripped : Declarator → Declarator
  | .mk name init => .mk name.stripped (strippedOption init)

/-- Declared names and their initial values without their regions. -/
def strippedDeclarators : List Declarator → List Declarator
  | [] => []
  | d :: rest => d.stripped :: strippedDeclarators rest

/-- A case without its regions. -/
def SwitchCase.stripped : SwitchCase → SwitchCase
  | .mk _ test body => .mk .nowhere (strippedOption test) (strippedStmts body)

/-- Cases without their regions. -/
def strippedCases : List SwitchCase → List SwitchCase
  | [] => []
  | c :: rest => c.stripped :: strippedCases rest

/-- An expression without its regions. -/
def Expr.stripped : Expr → Expr
  | .ident name => .ident name.stripped
  | .int _ value => .int .nowhere value
  | .double _ value => .double .nowhere value
  | .string _ value => .string .nowhere value
  | .template _ parts => .template .nowhere (strippedExprs parts)
  | .regexp _ pattern flags => .regexp .nowhere pattern flags
  | .bool _ value => .bool .nowhere value
  | .null _ => .null .nowhere
  | .this _ => .this .nowhere
  | .array _ elements => .array .nowhere (strippedExprs elements)
  | .object _ properties => .object .nowhere (strippedProperties properties)
  | .spread _ value => .spread .nowhere value.stripped
  | .unary _ op operand => .unary .nowhere op operand.stripped
  | .update _ op before target => .update .nowhere op before target.stripped
  | .binary _ op lhs rhs => .binary .nowhere op lhs.stripped rhs.stripped
  | .assign _ op target value => .assign .nowhere op target.stripped value.stripped
  | .conditional _ test yes no =>
    .conditional .nowhere test.stripped yes.stripped no.stripped
  | .call _ callee args optional =>
    .call .nowhere callee.stripped (strippedExprs args) optional
  | .member _ object property optional =>
    .member .nowhere object.stripped property.stripped optional
  | .index _ object index optional =>
    .index .nowhere object.stripped index.stripped optional
  | .function _ name ps body =>
    .function .nowhere (name.map Ident.stripped) (ps.map Param.stripped) (strippedStmts body)
  | .arrowExpr _ ps body => .arrowExpr .nowhere (ps.map Param.stripped) body.stripped
  | .arrowBlock _ ps body => .arrowBlock .nowhere (ps.map Param.stripped) (strippedStmts body)
  | .paren _ inner => .paren .nowhere inner.stripped
  | .invalid _ => .invalid .nowhere

/-- An expression that may be missing, without its regions. -/
def strippedOption : Option Expr → Option Expr
  | none => none
  | some e => some e.stripped

/-- Expressions without their regions. -/
def strippedExprs : List Expr → List Expr
  | [] => []
  | e :: rest => e.stripped :: strippedExprs rest

/-- A property without its regions. -/
def Property.stripped : Property → Property
  | .named key value => .named key.stripped value.stripped
  | .computed key value => .computed key.stripped value.stripped
  | .shorthand name => .shorthand name.stripped
  | .spread value => .spread value.stripped

/-- Properties without their regions. -/
def strippedProperties : List Property → List Property
  | [] => []
  | p :: rest => p.stripped :: strippedProperties rest

end

attribute [simp] Stmt.stripped Declarator.stripped SwitchCase.stripped Expr.stripped
  Property.stripped

/-- A program without its regions. -/
def Program.stripped (p : Program) : Program := ⟨strippedStmts p.body⟩

/-! ### Lists and what may be missing -/

@[simp]
theorem strippedStmtOption_eq (o : Option Stmt) : strippedStmtOption o = o.map Stmt.stripped := by
  cases o <;> rfl

@[simp]
theorem strippedOption_eq (o : Option Expr) : strippedOption o = o.map Expr.stripped := by
  cases o <;> rfl

@[simp]
theorem strippedStmts_eq (body : List Stmt) : strippedStmts body = body.map Stmt.stripped := by
  induction body with
  | nil => rfl
  | cons s rest ih => rw [strippedStmts, ih, List.map_cons]

@[simp]
theorem strippedDeclarators_eq (ds : List Declarator) :
    strippedDeclarators ds = ds.map Declarator.stripped := by
  induction ds with
  | nil => rfl
  | cons d rest ih => rw [strippedDeclarators, ih, List.map_cons]

@[simp]
theorem strippedCases_eq (cases : List SwitchCase) :
    strippedCases cases = cases.map SwitchCase.stripped := by
  induction cases with
  | nil => rfl
  | cons c rest ih => rw [strippedCases, ih, List.map_cons]

@[simp]
theorem strippedExprs_eq (es : List Expr) : strippedExprs es = es.map Expr.stripped := by
  induction es with
  | nil => rfl
  | cons e rest ih => rw [strippedExprs, ih, List.map_cons]

@[simp]
theorem strippedProperties_eq (ps : List Property) :
    strippedProperties ps = ps.map Property.stripped := by
  induction ps with
  | nil => rfl
  | cons p rest ih => rw [strippedProperties, ih, List.map_cons]

/-- Whether an expression may be assigned to does not depend on its regions. -/
theorem Expr.isTarget_stripped (e : Expr) : Parser.isTarget e.stripped = Parser.isTarget e := by
  cases e <;> simp only [stripped] <;> rfl

end ScriptCheck
