import ScriptCheck.Scope.Table
import Std.Data.TreeMap

/-!
# Current types

The types that variables have at one point of a program. Where two paths meet, a variable has the
union of its types on both; one that only one path knows keeps its type.
-/

namespace ScriptCheck

/-- Symbols in the order of their scopes, then of their places. -/
def SymbolId.compare (a b : SymbolId) : Ordering :=
  (Ord.compare a.scope b.scope).then (Ord.compare a.index b.index)

/-- The types of variables at one point of a program. -/
structure Env where
  types : Std.TreeMap SymbolId Ty SymbolId.compare

namespace Env

/-- No variable is known. -/
def empty : Env := ⟨∅⟩

/-- The type of a variable. -/
def get? (env : Env) (id : SymbolId) : Option Ty := env.types.get? id

/-- Gives a variable a type. -/
def set (env : Env) (id : SymbolId) (type : Ty) : Env := ⟨env.types.insert id type⟩

/-- All variables with their types. -/
def toList (env : Env) : List (SymbolId × Ty) := env.types.toList

/-- Gives each of some variables a type. -/
def setAll (env : Env) (entries : List (SymbolId × Ty)) : Env := ⟨env.types.insertMany entries⟩

/-- The types of variables where two paths meet. -/
def join (a b : Env) : Env :=
  a.setAll (b.toList.map fun (id, type) => (id, ((a.get? id).map (·.join type)).getD type))

/-- The variables of outer scopes that have another type after the body of a function. -/
def changed (outer inner : Env) (scope : Nat) : List SymbolId :=
  inner.toList.filterMap fun (id, type) =>
    if id.scope < scope ∧ outer.get? id ≠ some type then some id else none

/-- The types of variables around a function, after its body was visited. A variable of an outer
scope that has another type in the body may be assigned there at any time, so it has any of the
types recorded for it. -/
def afterFunction (outer inner : Env) (table : SymbolTable) (scope : Nat) : Env :=
  outer.setAll <| (outer.changed inner scope).filterMap fun id =>
    (table.symbol? id).map fun symbol => (id, symbol.type)

end Env

end ScriptCheck
