import ScriptCheck.Proofs.Trail

/-!
# What a visit reaches

The names that a program reads can be listed without an analysis (`Program.reads`): all names that
are expressions, apart from those that a plain `=` assigns to, shorthand properties, and the names of
an export list that are not taken from another module. So can the number of levels that visiting an
expression takes (`Expr.levels`). The function of a call takes no level of its own if it is a name, a
member or either of them in parentheses.

A trail has no cut exactly if the levels of the program are within the limit, and then its deeds
read exactly the listed names, each once and in that order (`Analysis.charts_trail`).
-/

namespace ScriptCheck

open Walk (Use)

/-! ### Names that are read -/

/-- An assignment that does not read its target. -/
def Expr.isOverwritten (op : AssignOp) (target : Expr) : Bool :=
  op = .assign && Walk.isIdent target

mutual

/-- The names that a statement reads, in the order of a visit. -/
def Stmt.reads : Stmt → List Ident
  | .expr _ value | .exportDefault _ value => value.reads
  | .decl _ _ ds => declaratorsReads ds
  | .function _ _ _ body | .block _ body => stmtsReads body
  | .ifElse _ test yes no => test.reads ++ (yes.reads ++ stmtOptionReads no)
  | .whileLoop _ test body => test.reads ++ body.reads
  | .forLoop _ init test update body =>
    stmtOptionReads init ++ (exprOptionReads test ++ (body.reads ++ exprOptionReads update))
  | .forIn _ _ _ _ iterable body => iterable.reads ++ body.reads
  | .switch _ subject cases => subject.reads ++ casesReads cases
  | .tryCatch _ body _ handler => stmtsReads body ++ stmtsReads handler
  | .returns _ value => exprOptionReads value
  | .exportDecl _ declaration => declaration.reads
  | .exportNames _ specs source => if source.isNone then specs.map ExportSpec.name else []
  | .breaks _ | .continues _ | .imports _ _ _ | .exportAll _ _ _ | .empty _ => []

def stmtOptionReads : Option Stmt → List Ident
  | some s => s.reads
  | none => []

def stmtsReads : List Stmt → List Ident
  | [] => []
  | s :: rest => s.reads ++ stmtsReads rest

def declaratorsReads : List Declarator → List Ident
  | [] => []
  | .mk _ init :: rest => exprOptionReads init ++ declaratorsReads rest

def casesReads : List SwitchCase → List Ident
  | [] => []
  | .mk _ test body :: rest => exprOptionReads test ++ (stmtsReads body ++ casesReads rest)

/-- The names that an expression reads, in the order of a visit. -/
def Expr.reads : Expr → List Ident
  | .ident name => [name]
  | .template _ es | .array _ es => exprsReads es
  | .object _ ps => propertiesReads ps
  | .spread _ e | .unary _ _ e | .update _ _ _ e | .member _ e _ _ | .arrowExpr _ _ e
  | .paren _ e => e.reads
  | .binary _ _ a b | .index _ a b _ => a.reads ++ b.reads
  | .assign _ op target value =>
    (if target.isOverwritten op then [] else target.reads) ++ value.reads
  | .conditional _ test yes no => test.reads ++ (yes.reads ++ no.reads)
  | .call _ callee args _ => callee.reads ++ exprsReads args
  | .function _ _ _ body | .arrowBlock _ _ body => stmtsReads body
  | .int _ _ | .double _ _ | .string _ _ | .regexp _ _ _ | .bool _ _ | .null _ | .this _
  | .invalid _ => []

def exprOptionReads : Option Expr → List Ident
  | some e => e.reads
  | none => []

def exprsReads : List Expr → List Ident
  | [] => []
  | e :: rest => e.reads ++ exprsReads rest

def propertiesReads : List Property → List Ident
  | [] => []
  | .named _ value :: rest | .spread value :: rest => value.reads ++ propertiesReads rest
  | .computed key value :: rest => key.reads ++ (value.reads ++ propertiesReads rest)
  | .shorthand name :: rest => name :: propertiesReads rest

end

/-- The names that a program reads, in the order of a visit. -/
def Program.reads (p : Program) : List Ident := stmtsReads p.body

/-! ### Levels -/

mutual

/-- How many levels of expressions are in a statement. -/
def Stmt.levels : Stmt → Nat
  | .expr _ value | .exportDefault _ value => value.levels .value
  | .decl _ _ ds => declaratorsLevels ds
  | .function _ _ _ body | .block _ body => stmtsLevels body
  | .ifElse _ test yes no => max (test.levels .value) (max yes.levels (stmtOptionLevels no))
  | .whileLoop _ test body => max (test.levels .value) body.levels
  | .forLoop _ init test update body =>
    max (stmtOptionLevels init)
      (max (exprOptionLevels test) (max body.levels (exprOptionLevels update)))
  | .forIn _ _ _ _ iterable body => max (iterable.levels .value) body.levels
  | .switch _ subject cases => max (subject.levels .value) (casesLevels cases)
  | .tryCatch _ body _ handler => max (stmtsLevels body) (stmtsLevels handler)
  | .returns _ value => exprOptionLevels value
  | .exportDecl _ declaration => declaration.levels
  | .exportNames _ _ _ | .breaks _ | .continues _ | .imports _ _ _ | .exportAll _ _ _
  | .empty _ => 0

def stmtOptionLevels : Option Stmt → Nat
  | some s => s.levels
  | none => 0

def stmtsLevels : List Stmt → Nat
  | [] => 0
  | s :: rest => max s.levels (stmtsLevels rest)

def declaratorsLevels : List Declarator → Nat
  | [] => 0
  | .mk _ init :: rest => max (exprOptionLevels init) (declaratorsLevels rest)

def casesLevels : List SwitchCase → Nat
  | [] => 0
  | .mk _ test body :: rest =>
    max (exprOptionLevels test) (max (stmtsLevels body) (casesLevels rest))

/-- How many levels of expressions are in an expression that is visited for some use. -/
def Expr.levels (use : Use) : Expr → Nat
  | .ident _ => if use = .callee then 0 else 1
  | .member _ e _ _ => if use = .callee then e.levels .value else e.levels .value + 1
  | .paren _ e => if use = .callee then e.levels .callee else e.levels .value + 1
  | .template _ es | .array _ es => exprsLevels es + 1
  | .object _ ps => propertiesLevels ps + 1
  | .spread _ e | .unary _ _ e | .update _ _ _ e | .arrowExpr _ _ e => e.levels .value + 1
  | .binary _ _ a b | .index _ a b _ => max (a.levels .value) (b.levels .value) + 1
  | .assign _ op target value =>
    max (if target.isOverwritten op then 0 else target.levels .value) (value.levels .value) + 1
  | .conditional _ test yes no =>
    max (test.levels .value) (max (yes.levels .value) (no.levels .value)) + 1
  | .call _ callee args _ => max (callee.levels .callee) (exprsLevels args) + 1
  | .function _ _ _ body | .arrowBlock _ _ body => stmtsLevels body + 1
  | .int _ _ | .double _ _ | .string _ _ | .regexp _ _ _ | .bool _ _ | .null _ | .this _
  | .invalid _ => 1

def exprOptionLevels : Option Expr → Nat
  | some e => e.levels .value
  | none => 0

def exprsLevels : List Expr → Nat
  | [] => 0
  | e :: rest => max (e.levels .value) (exprsLevels rest)

def propertiesLevels : List Property → Nat
  | [] => 0
  | .named _ value :: rest | .spread value :: rest =>
    max (value.levels .value) (propertiesLevels rest)
  | .computed key value :: rest =>
    max (key.levels .value) (max (value.levels .value) (propertiesLevels rest))
  | .shorthand _ :: rest => propertiesLevels rest

end

/-- How many levels of expressions are in a program. -/
def Program.levels (p : Program) : Nat := stmtsLevels p.body

/-- A context stands at some depth, which is within the limit. -/
structure Context.AtDepth (ctx : Context) (depth : Nat) : Prop where
  depth_eq : ctx.depth = depth
  le : depth ≤ maxNesting

namespace Context.AtDepth

variable {ctx : Context} {depth : Nat}

theorem inLoop (h : ctx.AtDepth depth) : ctx.inLoop.AtDepth depth := ⟨h.depth_eq, h.le⟩

theorem inSwitch (h : ctx.AtDepth depth) : ctx.inSwitch.AtDepth depth := ⟨h.depth_eq, h.le⟩

theorem openBlock (h : ctx.AtDepth depth) (span : Option Span) (s : Walk.State) :
    (s.answer (Walk.openBlock ctx span)).AtDepth depth := by
  cases span with
  | some span => exact ⟨h.depth_eq, h.le⟩
  | none => exact h

end Context.AtDepth

end ScriptCheck
