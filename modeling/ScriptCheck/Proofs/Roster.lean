import ScriptCheck.Analysis.Program

/-!
# Scopes and declarations of a program

The scopes of a program and the names that are declared in them can be listed without an analysis.
The *roster* of a part of a program has both in the order of a visit. Scopes have numbers in this
order, so a roster depends on how many scopes there are before the part.

The functions of a list of statements are declared first, also those that are exported. A function
that stands alone, as the body of a branch or of a loop, is declared where it stands. An import
declares nothing if its script is missing.
-/

namespace ScriptCheck

/-- A scope, apart from its symbols. -/
structure Frame where
  kind : ScopeKind
  parent : Option Nat
  span : Span
  deriving DecidableEq

def Scope.frame (s : Scope) : Frame := ⟨s.kind, s.parent, s.span⟩

/-- A name that is declared in the scope with some number. -/
structure Declaration where
  scope : Nat
  name : Ident
  /-- Whether it is that of a function that stands alone. -/
  alone : Bool
  deriving DecidableEq

/-- A scope that is opened, or a name that is declared. -/
inductive RosterItem where
  | scope (frame : Frame)
  | name (declaration : Declaration)

namespace RosterItem

def isScope : RosterItem → Bool
  | scope _ => true
  | name _ => false

def frame? : RosterItem → Option Frame
  | scope frame => some frame
  | name _ => none

def declaration? : RosterItem → Option Declaration
  | scope _ => none
  | name declaration => some declaration

end RosterItem

/-- The scopes and declared names of a part of a program, given the number of scopes before it. -/
def Roster : Type := Nat → List RosterItem

namespace Roster

def nothing : Roster := fun _ => []

/-- Names that are declared in a scope. -/
def names (scope : Nat) (xs : List Ident) : Roster :=
  fun _ => xs.map fun x => .name ⟨scope, x, false⟩

/-- The name of a function that stands alone. -/
def alone (scope : Nat) (name : Option Ident) : Roster :=
  fun _ => name.toList.map fun x => .name ⟨scope, x, true⟩

def andThen (r r' : Roster) : Roster :=
  fun n => r n ++ r' (n + (r n).countP RosterItem.isScope)

/-- A part with a scope of its own, which is passed the number of the scope. -/
def inScope (kind : ScopeKind) (outer : Nat) (span : Span) (part : Nat → Roster) : Roster :=
  fun n => .scope ⟨kind, some outer, span⟩ :: part n (n + 1)

/-- A part that has a scope of its own if there is a region for one. -/
def inBlock (outer : Nat) (span : Option Span) (part : Nat → Roster) : Roster :=
  match span with
  | some span => inScope .block outer span part
  | none => part outer

/-- A function, whose parameters are declared in its scope. -/
def function (outer : Nat) (span : Span) (params : List Param) (body : Nat → Roster) : Roster :=
  inScope .function outer span fun inner =>
    (names inner (params.map Param.name)).andThen (body inner)

theorem andThen_nothing (r : Roster) : r.andThen nothing = r := by
  funext n
  exact List.append_nil _

theorem names_append (scope : Nat) (xs ys : List Ident) :
    names scope (xs ++ ys) = (names scope xs).andThen (names scope ys) := by
  funext n
  exact List.map_append

end Roster

/-- The name that a statement declares at the start of its list. -/
def Stmt.hoisted? : Stmt → Option Ident
  | .function _ name _ _ | .exportDecl _ (.function _ name _ _) => name
  | _ => none

theorem Stmt.hoisted?_of_ne {s : Stmt}
    (hfunction : ∀ span name params body, s = .function span name params body → False)
    (hexport : ∀ outer span name params body,
      s = .exportDecl outer (.function span name params body) → False) : s.hoisted? = none := by
  unfold Stmt.hoisted?
  split
  · exact absurd rfl (hfunction _ _ _ _)
  · exact absurd rfl (hexport _ _ _ _ _)
  · rfl

theorem Stmt.filterMap_hoisted? (s : Stmt) (rest : List Stmt) :
    (s :: rest).filterMap Stmt.hoisted? = s.hoisted?.toList ++ rest.filterMap Stmt.hoisted? := by
  rw [List.filterMap_cons]
  cases s.hoisted? <;> rfl

def Stmt.isFunction : Stmt → Bool
  | .function _ _ _ _ => true
  | _ => false

/-- A list of statements, of which the functions are declared first. -/
def Roster.sequence (scope : Nat) (body : List Stmt) (rest : Roster) : Roster :=
  (names scope (body.filterMap Stmt.hoisted?)).andThen rest

open Walk (declares blockSpan switchSpan handlerSpan)

variable (fileExists : String → Bool)

mutual

/-- The scopes and declarations of a statement in a scope. It may be one of a list, or stand
alone. -/
def Stmt.roster (listed : Bool) (scope : Nat) : Stmt → Roster
  | .expr _ value | .exportDefault _ value => value.roster scope
  | .decl _ _ ds => declaratorsRoster scope ds
  | .function span name params body =>
    (if listed then Roster.nothing else Roster.alone scope name).andThen <|
      .function scope span params fun inner => .sequence inner body (stmtsRoster inner body)
  | .ifElse _ test yes no =>
    (test.roster scope).andThen ((yes.roster false scope).andThen (stmtOptionRoster scope no))
  | .whileLoop _ test body => (test.roster scope).andThen (body.roster false scope)
  | .forLoop span init test update body =>
    .inBlock scope (if init.any declares then some span else none) fun inner =>
      (stmtOptionRoster inner init).andThen <| (exprOptionRoster inner test).andThen <|
        (body.roster false inner).andThen (exprOptionRoster inner update)
  | .forIn span kind key value iterable body =>
    (iterable.roster scope).andThen <|
      .inBlock scope (if kind.isSome then some span else none) fun inner =>
        (if kind.isSome then Roster.names inner (key.toList ++ [value]) else .nothing).andThen
          (body.roster false inner)
  | .switch span subject cs =>
    (subject.roster scope).andThen <|
      .inBlock scope (switchSpan span cs) fun inner => casesRoster inner cs
  | .tryCatch span body param handler =>
    (Roster.inBlock scope (blockSpan span body) fun inner =>
      .sequence inner body (stmtsRoster inner body)).andThen <|
        .inBlock scope (handlerSpan param handler) fun inner =>
          (Roster.names inner param.toList).andThen
            (.sequence inner handler (stmtsRoster inner handler))
  | .returns _ value => exprOptionRoster scope value
  | .block span body =>
    .inBlock scope (blockSpan span body) fun inner => .sequence inner body (stmtsRoster inner body)
  | .imports _ specs source =>
    if (Builtin.scriptPath? source.value).any fun path => !fileExists path then .nothing
    else .names scope (specs.map ImportSpec.declared)
  | .exportDecl _ declaration => declaration.roster (listed && declaration.isFunction) scope
  | .breaks _ | .continues _ | .exportNames _ _ _ | .exportAll _ _ _ | .empty _ => .nothing

def stmtOptionRoster (scope : Nat) : Option Stmt → Roster
  | some s => s.roster false scope
  | none => .nothing

def stmtsRoster (scope : Nat) : List Stmt → Roster
  | [] => .nothing
  | s :: rest => (s.roster true scope).andThen (stmtsRoster scope rest)

def declaratorsRoster (scope : Nat) : List Declarator → Roster
  | [] => .nothing
  | .mk name init :: rest =>
    (exprOptionRoster scope init).andThen <|
      (Roster.names scope [name]).andThen (declaratorsRoster scope rest)

def casesRoster (scope : Nat) : List SwitchCase → Roster
  | [] => .nothing
  | .mk _ test body :: rest =>
    (exprOptionRoster scope test).andThen <|
      (Roster.sequence scope body (stmtsRoster scope body)).andThen (casesRoster scope rest)

/-- The scopes and declarations of an expression, which are those of the functions in it. -/
def Expr.roster (scope : Nat) : Expr → Roster
  | .template _ es | .array _ es => exprsRoster scope es
  | .object _ ps => propertiesRoster scope ps
  | .spread _ e | .unary _ _ e | .update _ _ _ e | .member _ e _ _ | .paren _ e => e.roster scope
  | .binary _ _ a b | .index _ a b _ | .assign _ _ a b => (a.roster scope).andThen (b.roster scope)
  | .conditional _ test yes no =>
    (test.roster scope).andThen ((yes.roster scope).andThen (no.roster scope))
  | .call _ callee args _ => (callee.roster scope).andThen (exprsRoster scope args)
  | .function span _ params body | .arrowBlock span params body =>
    .function scope span params fun inner => .sequence inner body (stmtsRoster inner body)
  | .arrowExpr span params body => .function scope span params fun inner => body.roster inner
  | .ident _ | .int _ _ | .double _ _ | .string _ _ | .regexp _ _ _ | .bool _ _ | .null _ | .this _
  | .invalid _ => .nothing

def exprOptionRoster (scope : Nat) : Option Expr → Roster
  | some e => e.roster scope
  | none => .nothing

def exprsRoster (scope : Nat) : List Expr → Roster
  | [] => .nothing
  | e :: rest => (e.roster scope).andThen (exprsRoster scope rest)

def propertiesRoster (scope : Nat) : List Property → Roster
  | [] => .nothing
  | .named _ value :: rest | .spread value :: rest =>
    (value.roster scope).andThen (propertiesRoster scope rest)
  | .computed key value :: rest =>
    (key.roster scope).andThen ((value.roster scope).andThen (propertiesRoster scope rest))
  | .shorthand _ :: rest => propertiesRoster scope rest

end

/-- The scopes of a program inside of the global one, and its declarations. -/
def Program.roster (p : Program) : List RosterItem :=
  Roster.sequence SymbolTable.root p.body (stmtsRoster fileExists SymbolTable.root p.body) 1

/-- The names that a program declares, in the order of a visit. -/
def Program.declarations (p : Program) : List Declaration :=
  (p.roster fileExists).filterMap RosterItem.declaration?

/-- The scopes of a program, by their numbers. -/
def Program.frames (p : Program) : List Frame :=
  ⟨.global, none, Analysis.region p⟩ :: (p.roster fileExists).filterMap RosterItem.frame?

end ScriptCheck
