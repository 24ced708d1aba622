import ScriptCheck.Decimal.Binary64
import ScriptCheck.Span
import ScriptCheck.Tree.Operator

/-!
# The tree of a program

Statements and expressions, each with the region of the script it was read from. A part of the
script that could not be read as an expression is kept as `Expr.invalid`, so that a tree exists for
every script.
-/

namespace ScriptCheck

/-- A name and where it stands. -/
structure Ident where
  name : String
  span : Span
  deriving DecidableEq, Repr

/-- The value of a string and where it stands. -/
structure TextLit where
  value : String
  span : Span
  deriving DecidableEq, Repr

/-- The two kinds of declarations. -/
inductive DeclKind where
  | letDecl
  | constDecl
  deriving DecidableEq, Repr

/-- A parameter of a function; a rest parameter takes all remaining arguments. -/
structure Param where
  name : Ident
  rest : Bool
  deriving DecidableEq, Repr

/-- A parameter as it is written. -/
def Param.display (p : Param) : String := if p.rest then "..." ++ p.name.name else p.name.name

/-- One name bound by an import, in any of the forms `imported [as local]`, `local` alone, which
takes the default export, and `* as local`. -/
inductive ImportSpec where
  | named (imported : Ident) (newName : Option Ident)
  | default (name : Ident)
  | namespaceOf (name : Ident)
  deriving DecidableEq, Repr

/-- The name that an import declares. -/
def ImportSpec.declared : ImportSpec → Ident
  | named imported newName => newName.getD imported
  | default name => name
  | namespaceOf name => name

/-- An exported name, and the name it is exported under if that differs. -/
structure ExportSpec where
  name : Ident
  exported : Option Ident
  deriving DecidableEq, Repr

/-- A key of an object that needs no evaluation. -/
inductive PropertyName where
  | word (name : Ident)
  | text (lit : TextLit)
  | number (lit : TextLit)
  deriving DecidableEq, Repr

mutual

/-- Statements. -/
inductive Stmt where
  | expr (span : Span) (value : Expr)
  | decl (span : Span) (kind : DeclKind) (declarators : List Declarator)
  | function (span : Span) (name : Option Ident) (params : List Param) (body : List Stmt)
  | ifElse (span : Span) (test : Expr) (yes : Stmt) (no : Option Stmt)
  | whileLoop (span : Span) (test : Expr) (body : Stmt)
  | forLoop (span : Span) (init : Option Stmt) (test update : Option Expr) (body : Stmt)
  /-- A loop over the values of an array or the keys of an object, with one name or with a key and a
  value. The names are declared, or assigned if no kind is given. -/
  | forIn (span : Span) (kind : Option DeclKind) (key : Option Ident) (value : Ident)
      (iterable : Expr) (body : Stmt)
  | switch (span : Span) (subject : Expr) (cases : List SwitchCase)
  | tryCatch (span : Span) (block : List Stmt) (param : Option Ident) (handler : List Stmt)
  | returns (span : Span) (value : Option Expr)
  | breaks (span : Span)
  | continues (span : Span)
  | block (span : Span) (body : List Stmt)
  | imports (span : Span) (specs : List ImportSpec) (source : TextLit)
  | exportDecl (span : Span) (declaration : Stmt)
  | exportDefault (span : Span) (value : Expr)
  | exportNames (span : Span) (specs : List ExportSpec) (source : Option TextLit)
  | exportAll (span : Span) (newName : Option Ident) (source : TextLit)
  | empty (span : Span)

/-- A declared name and its initial value. -/
inductive Declarator where
  | mk (name : Ident) (init : Option Expr)

/-- A case of a switch, or its default if there is no test. -/
inductive SwitchCase where
  | mk (span : Span) (test : Option Expr) (body : List Stmt)

/-- Expressions. -/
inductive Expr where
  | ident (name : Ident)
  | int (span : Span) (value : Nat)
  | double (span : Span) (value : Binary64)
  | string (span : Span) (value : String)
  | template (span : Span) (parts : List Expr)
  | regexp (span : Span) (pattern flags : String)
  | bool (span : Span) (value : Bool)
  | null (span : Span)
  | this (span : Span)
  | array (span : Span) (elements : List Expr)
  | object (span : Span) (properties : List Property)
  | spread (span : Span) (value : Expr)
  | unary (span : Span) (op : UnaryOp) (operand : Expr)
  | update (span : Span) (op : UpdateOp) (before : Bool) (target : Expr)
  | binary (span : Span) (op : BinaryOp) (lhs rhs : Expr)
  | assign (span : Span) (op : AssignOp) (target value : Expr)
  | conditional (span : Span) (test yes no : Expr)
  | call (span : Span) (callee : Expr) (args : List Expr) (optional : Bool)
  | member (span : Span) (object : Expr) (property : Ident) (optional : Bool)
  | index (span : Span) (object index : Expr) (optional : Bool)
  | function (span : Span) (name : Option Ident) (params : List Param) (body : List Stmt)
  | arrowExpr (span : Span) (params : List Param) (body : Expr)
  | arrowBlock (span : Span) (params : List Param) (body : List Stmt)
  | paren (span : Span) (inner : Expr)
  | invalid (span : Span)

/-- Properties of an object. -/
inductive Property where
  | named (key : PropertyName) (value : Expr)
  | computed (key value : Expr)
  | shorthand (name : Ident)
  | spread (value : Expr)

end

/-- A whole script. -/
structure Program where
  body : List Stmt

/-- The region of a statement. -/
def Stmt.span : Stmt → Span
  | .expr span _ | .decl span _ _ | .function span _ _ _ | .ifElse span _ _ _
  | .whileLoop span _ _ | .forLoop span _ _ _ _ | .forIn span _ _ _ _ _ | .switch span _ _
  | .tryCatch span _ _ _ | .returns span _ | .breaks span | .continues span | .block span _
  | .imports span _ _ | .exportDecl span _ | .exportDefault span _ | .exportNames span _ _
  | .exportAll span _ _ | .empty span => span

/-- The region of an expression. -/
def Expr.span : Expr → Span
  | .ident name => name.span
  | .int span _ | .double span _ | .string span _ | .template span _ | .regexp span _ _
  | .bool span _ | .null span | .this span | .array span _ | .object span _ | .spread span _
  | .unary span _ _ | .update span _ _ _ | .binary span _ _ _ | .assign span _ _ _
  | .conditional span _ _ _ | .call span _ _ _ | .member span _ _ _ | .index span _ _ _
  | .function span _ _ _ | .arrowExpr span _ _ | .arrowBlock span _ _ | .paren span _
  | .invalid span => span

/-- Whether an expression is spread into the list it stands in. -/
def Expr.isSpread : Expr → Bool
  | .spread _ _ => true
  | _ => false

end ScriptCheck
