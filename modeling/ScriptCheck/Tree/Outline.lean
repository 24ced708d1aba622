import ScriptCheck.Decimal.Shortest
import ScriptCheck.Text.Quoted
import ScriptCheck.Tree.Basic

/-!
# The outline of a program

A tree is shown with one line for each node, indented by its depth, the region of the node in
parentheses. Strings are quoted.
-/

namespace ScriptCheck

open Text (quoteString)

namespace Outline

/-- One line at a depth; each level indents by two blanks. -/
def line (depth : Nat) (parts : List String) : String :=
  String.ofList (List.replicate (2 * depth) ' ') ++ String.join parts ++ "\n"

/-- A region as it follows a node. -/
def region (span : Span) : String := " (" ++ span.display ++ ")"

/-- The word of a declaration. -/
def declWord : DeclKind → String
  | .letDecl => "let"
  | .constDecl => "const"

/-- The parameters of a function. -/
def params (ps : List Param) : String :=
  "(" ++ String.intercalate ", " (ps.map Param.display) ++ ")"

/-- The mark of optional access. -/
def optionalMark (optional : Bool) : String := if optional then " optional" else ""

/-- A function up to its body. -/
def functionHead (label : String) (name : Option Ident) (ps : List Param) (span : Span) : String :=
  label ++ (name.map (" " ++ ·.name)).getD "" ++ params ps ++ region span

/-- A name, and the name that takes its place. -/
def renamed (name : Ident) (newName : Option Ident) : String :=
  "named " ++ name.name ++ (newName.map (" as " ++ ·.name)).getD ""

/-- The name bound by an import. -/
def importSpec : ImportSpec → String
  | .named imported newName => renamed imported newName
  | .default name => "default " ++ name.name
  | .namespaceOf name => "namespace " ++ name.name

/-- The key of a property. -/
def propertyName : PropertyName → String
  | .word name => name.name
  | .text lit => quoteString lit.value
  | .number lit => lit.value

mutual

/-- The lines of a statement. -/
def stmt (d : Nat) (s : Stmt) : String :=
  match s with
  | .expr span value => line d ["expr", region span] ++ expr (d + 1) value
  | .decl span kind declarators =>
    line d [declWord kind, region span] ++ declarators' (d + 1) declarators
  | .function span name ps body =>
    line d [functionHead "function" name ps span] ++ stmts (d + 1) body
  | .ifElse span test yes no =>
    line d ["if", region span] ++ expr (d + 1) test ++ stmt (d + 1) yes ++
      (match no with
      | some no => line (d + 1) ["else"] ++ stmt (d + 2) no
      | none => "")
  | .whileLoop span test body =>
    line d ["while", region span] ++ expr (d + 1) test ++ stmt (d + 1) body
  | .forLoop span init test update body =>
    line d ["for", region span] ++
      (match init with
      | some init => stmt (d + 1) init
      | none => "") ++
      (match test with
      | some test => expr (d + 1) test
      | none => "") ++
      (match update with
      | some update => expr (d + 1) update
      | none => "") ++
      stmt (d + 1) body
  | .forIn span kind key value iterable body =>
    line d ["for-in ", (kind.map (declWord · ++ " ")).getD "", (key.map (·.name ++ ", ")).getD "",
      value.name, region span] ++ expr (d + 1) iterable ++ stmt (d + 1) body
  | .switch span subject cases =>
    line d ["switch", region span] ++ expr (d + 1) subject ++ switchCases (d + 1) cases
  | .tryCatch span block param handler =>
    line d ["try", region span] ++ line (d + 1) ["block"] ++ stmts (d + 2) block ++
      line (d + 1) ["catch", (param.map (" " ++ ·.name)).getD ""] ++ stmts (d + 2) handler
  | .returns span value =>
    line d ["return", region span] ++
      (match value with
      | some value => expr (d + 1) value
      | none => "")
  | .breaks span => line d ["break", region span]
  | .continues span => line d ["continue", region span]
  | .block span body => line d ["block", region span] ++ stmts (d + 1) body
  | .imports span specs source =>
    line d ["import from ", quoteString source.value, region span] ++
      String.join (specs.map fun spec => line (d + 1) [importSpec spec])
  | .exportDecl span declaration => line d ["export", region span] ++ stmt (d + 1) declaration
  | .exportDefault span value =>
    line d ["export", region span] ++ line (d + 1) ["default"] ++ expr (d + 2) value
  | .exportNames span specs source =>
    line d ["export", region span] ++
      String.join (specs.map fun spec => line (d + 1) [renamed spec.name spec.exported]) ++
      (match source with
      | some source => line (d + 1) ["from ", quoteString source.value]
      | none => "")
  | .exportAll span newName source =>
    line d ["export", region span] ++
      line (d + 1) ["all ", (newName.map ("as " ++ ·.name ++ " ")).getD "", "from ",
        quoteString source.value]
  | .empty span => line d ["empty", region span]

/-- The lines of a list of statements. -/
def stmts (d : Nat) (ss : List Stmt) : String :=
  match ss with
  | [] => ""
  | s :: rest => stmt d s ++ stmts d rest

/-- The lines of declared names with their initial values. -/
def declarators' (d : Nat) (ds : List Declarator) : String :=
  match ds with
  | [] => ""
  | .mk name init :: rest =>
    line d ["binding ", name.name] ++
      (match init with
      | some init => expr (d + 1) init
      | none => "") ++
      declarators' d rest

/-- The lines of the cases of a switch. -/
def switchCases (d : Nat) (cs : List SwitchCase) : String :=
  match cs with
  | [] => ""
  | .mk span test body :: rest =>
    (match test with
    | some test => line d ["case", region span] ++ expr (d + 1) test
    | none => line d ["default", region span]) ++
      stmts (d + 1) body ++ switchCases d rest

/-- The lines of an expression. -/
def expr (d : Nat) (e : Expr) : String :=
  match e with
  | .ident name => line d ["ident ", name.name, region name.span]
  | .int span value => line d ["int ", toString value, region span]
  | .double span value => line d ["double ", value.display, region span]
  | .string span value => line d ["string ", quoteString value, region span]
  | .template span parts => line d ["template", region span] ++ exprs (d + 1) parts
  | .regexp span pattern flags => line d ["regexp /", pattern, "/", flags, region span]
  | .bool span value => line d ["bool ", if value then "true" else "false", region span]
  | .null span => line d ["null", region span]
  | .this span => line d ["this", region span]
  | .array span elements => line d ["array", region span] ++ exprs (d + 1) elements
  | .object span ps => line d ["object", region span] ++ properties (d + 1) ps
  | .spread span value => line d ["spread", region span] ++ expr (d + 1) value
  | .unary span op operand =>
    line d ["unary ", op.display, region span] ++ expr (d + 1) operand
  | .update span op before target =>
    line d ["update ", op.display, if before then " prefix" else " postfix", region span] ++
      expr (d + 1) target
  | .binary span op lhs rhs =>
    line d ["binary ", op.display, region span] ++ expr (d + 1) lhs ++ expr (d + 1) rhs
  | .assign span op target value =>
    line d ["assignment ", op.display, region span] ++ expr (d + 1) target ++
      expr (d + 1) value
  | .conditional span test yes no =>
    line d ["conditional", region span] ++ expr (d + 1) test ++ expr (d + 1) yes ++
      expr (d + 1) no
  | .call span callee args optional =>
    line d ["call", optionalMark optional, region span] ++ expr (d + 1) callee ++
      exprs (d + 1) args
  | .member span object property optional =>
    line d ["member", optionalMark optional, " ", property.name, region span] ++
      expr (d + 1) object
  | .index span object index optional =>
    line d ["index", optionalMark optional, region span] ++ expr (d + 1) object ++
      expr (d + 1) index
  | .function span name ps body =>
    line d [functionHead "function-expr" name ps span] ++ stmts (d + 1) body
  | .arrowExpr span ps body => line d ["arrow ", params ps, region span] ++ expr (d + 1) body
  | .arrowBlock span ps body => line d ["arrow ", params ps, region span] ++ stmts (d + 1) body
  | .paren span inner => line d ["paren", region span] ++ expr (d + 1) inner
  | .invalid span => line d ["invalid", region span]

/-- The lines of a list of expressions. -/
def exprs (d : Nat) (es : List Expr) : String :=
  match es with
  | [] => ""
  | e :: rest => expr d e ++ exprs d rest

/-- The lines of the properties of an object. -/
def properties (d : Nat) (ps : List Property) : String :=
  match ps with
  | [] => ""
  | .named key value :: rest =>
    line d ["property ", propertyName key] ++ expr (d + 1) value ++ properties d rest
  | .computed key value :: rest =>
    line d ["property [computed]"] ++ expr (d + 1) key ++ expr (d + 1) value ++
      properties d rest
  | .shorthand name :: rest => line d ["shorthand ", name.name] ++ properties d rest
  | .spread value :: rest => line d ["spread"] ++ expr (d + 1) value ++ properties d rest

end

end Outline

/-- The outline of a whole program. -/
def Program.outline (p : Program) : String := Outline.stmts 0 p.body

/-- The outline of an expression. -/
def Expr.outline (e : Expr) : String := Outline.expr 0 e

end ScriptCheck
