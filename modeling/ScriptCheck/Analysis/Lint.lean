import ScriptCheck.Analysis.Finding
import ScriptCheck.Scope.Table

/-!
# Checks of declarations

What can be found in the table of symbols alone, once it is complete.
-/

namespace ScriptCheck

namespace Symbol

/-- Whether a symbol is declared for a value that is never read. Names that start with an underscore
are meant not to be. -/
def isUnused (s : Symbol) : Bool :=
  (s.kind == .letVar || s.kind == .constVar) && !s.implicit && s.reads == 0 &&
    s.name.toList.head? != some '_'

/-- Whether a symbol may hide others. An import and a name that is only assigned to do not count. -/
def mayShadow (s : Symbol) : Bool := s.kind != .imported && !s.implicit

end Symbol

namespace SymbolTable

/-- The declared names whose values are never read. -/
def unused (t : SymbolTable) : List (Located Finding) :=
  (t.symbols.filter Symbol.isUnused).map fun s => ⟨s.span, .unused s.name⟩

/-- The declared names that hide one of an outer scope. -/
def shadowing (t : SymbolTable) : List (Located Finding) :=
  t.scopes.flatMap fun scope =>
    match scope.parent with
    | none => []
    | some parent =>
      (scope.symbols.filter fun s => s.mayShadow && (t.lookup s.name parent).isSome).map fun s =>
        ⟨s.span, .shadowing s.name⟩

end SymbolTable

end ScriptCheck
