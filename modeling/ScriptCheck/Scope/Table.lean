import ScriptCheck.Span
import ScriptCheck.Typing.Basic

/-!
# Scopes and symbols

The scopes of a program form a tree, kept in a list in which a scope stands after its parent. A
symbol is found by its scope and its place among the symbols of that scope. A name is declared at
most once in a scope, and found from a scope by going outwards.
-/

namespace ScriptCheck

/-- A symbol, by its scope and its place in it. -/
structure SymbolId where
  scope : Nat
  index : Nat
  deriving DecidableEq, Repr

/-- The kinds of symbols. -/
inductive SymbolKind where
  | letVar | constVar | function | parameter | imported
  deriving DecidableEq, Repr

/-- A declared name. -/
structure Symbol where
  name : String
  kind : SymbolKind
  /-- The union of all types assigned to it. -/
  type : Ty
  /-- Where the name is declared. -/
  span : Span
  /-- The name under which an import is exported. -/
  specifier : Option String
  /-- Where an import comes from. -/
  source : Option String
  /-- Whether the name is declared only by an assignment. -/
  implicit : Bool
  /-- How often its value is read. -/
  reads : Nat
  deriving DecidableEq

/-- A name that is declared and not used yet. -/
def Symbol.declared (name : String) (kind : SymbolKind) (type : Ty) (span : Span) : Symbol where
  name := name
  kind := kind
  type := type
  span := span
  specifier := none
  source := none
  implicit := false
  reads := 0

/-- The kinds of scopes. -/
inductive ScopeKind where
  | global | function | block
  deriving DecidableEq, Repr

/-- A region in which names are declared. Only the global scope has no parent. -/
structure Scope where
  kind : ScopeKind
  parent : Option Nat
  span : Span
  symbols : List Symbol
  deriving DecidableEq

/-- The symbol of a scope with a name. -/
def Scope.find? (s : Scope) (name : String) : Option Symbol := s.symbols.find? (·.name == name)

/-- The place of the symbol of a scope with a name. -/
def Scope.indexOf? (s : Scope) (name : String) : Option Nat :=
  s.symbols.findIdx? (·.name == name)

/-- A use of a symbol. -/
structure Reference where
  span : Span
  symbol : SymbolId
  deriving DecidableEq, Repr

/-- All scopes of a program, and the uses of their symbols. -/
structure SymbolTable where
  scopes : List Scope
  references : List Reference
  deriving DecidableEq

namespace SymbolTable

/-- The global scope. -/
def root : Nat := 0

/-- A table with a global scope only. -/
def empty (span : Span) : SymbolTable := ⟨[⟨.global, none, span, []⟩], []⟩

/-! ### Access -/

/-- Whether a scope is in the table. -/
def hasScope (t : SymbolTable) (id : Nat) : Bool := id < t.scopes.length

/-- The symbol at a place. -/
def symbol? (t : SymbolTable) (id : SymbolId) : Option Symbol :=
  t.scopes[id.scope]?.bind (·.symbols[id.index]?)

/-- Whether a symbol is in the table. -/
def hasSymbol (t : SymbolTable) (id : SymbolId) : Bool := (t.symbol? id).isSome

/-- The symbol declared in a scope under a name. -/
def find? (t : SymbolTable) (scope : Nat) (name : String) : Option SymbolId :=
  (t.scopes[scope]?.bind (·.indexOf? name)).map (⟨scope, ·⟩)

/-- All symbols, scope by scope. -/
def symbols (t : SymbolTable) : List Symbol := t.scopes.flatMap Scope.symbols

/-! ### Changes -/

/-- Adds a scope. Its number is that of the scopes before. -/
def push (t : SymbolTable) (kind : ScopeKind) (parent : Nat) (span : Span) : SymbolTable :=
  { t with scopes := t.scopes ++ [⟨kind, some parent, span, []⟩] }

/-- Adds a symbol behind the others of a scope. -/
def add (t : SymbolTable) (scope : Nat) (symbol : Symbol) : SymbolTable :=
  { t with scopes := t.scopes.modify scope fun s => { s with symbols := s.symbols ++ [symbol] } }

/-- Declares a symbol, unless its name is declared in the scope already. Answers the symbol that now
has the name, and whether it is the new one. -/
def declare (t : SymbolTable) (scope : Nat) (symbol : Symbol) : SymbolId × Bool × SymbolTable :=
  match t.find? scope symbol.name with
  | some id => (id, false, t)
  | none =>
    let index := (t.scopes[scope]?.map (·.symbols.length)).getD 0
    (⟨scope, index⟩, true, t.add scope symbol)

/-- Changes the symbol at a place. -/
def modifySymbol (t : SymbolTable) (id : SymbolId) (f : Symbol → Symbol) : SymbolTable :=
  { t with scopes := t.scopes.modify id.scope fun s =>
      { s with symbols := s.symbols.modify id.index f } }

/-- Notes a use of a symbol. -/
def addReference (t : SymbolTable) (span : Span) (id : SymbolId) : SymbolTable :=
  { t with references := t.references ++ [⟨span, id⟩] }

/-! ### Going outwards -/

/-- A scope and at most `n` of those around it. -/
def ancestorsUpTo (t : SymbolTable) : Nat → Nat → List Nat
  | 0, id => [id]
  | n + 1, id =>
    match t.scopes[id]?.bind Scope.parent with
    | some parent => id :: ancestorsUpTo t n parent
    | none => [id]

/-- A scope and those around it, from the inside out. Parents have smaller numbers, so there are no
more than the number of the scope. -/
def ancestors (t : SymbolTable) (id : Nat) : List Nat := t.ancestorsUpTo id id

/-- Whether the way outwards from a scope stays in the table and ends at the global scope. -/
def isRooted (t : SymbolTable) (id : Nat) : Bool :=
  (t.ancestors id).all t.hasScope && (t.ancestors id).getLast? == some root

/-- The symbol that a name stands for in a scope. -/
def lookup (t : SymbolTable) (name : String) (scope : Nat) : Option SymbolId :=
  (t.ancestors scope).findSome? (t.find? · name)

/-- Whether a scope is one of statements within a function. -/
def isBlock (t : SymbolTable) (id : Nat) : Bool := t.scopes[id]?.any (·.kind == .block)

/-- The innermost function around a scope, or the global scope. -/
def functionScope (t : SymbolTable) (scope : Nat) : Nat :=
  ((t.ancestors scope).find? fun id => !t.isBlock id).getD root

/-- The innermost scope at an offset: the last one whose region touches it. -/
def scopeAt (t : SymbolTable) (offset : Nat) : Nat :=
  ((List.range t.scopes.length).reverse.find? fun id =>
    t.scopes[id]?.any (·.span.touches offset)).getD root

/-- The first use of a symbol at an offset. -/
def referenceAt (t : SymbolTable) (offset : Nat) : Option Reference :=
  t.references.find? (·.span.touches offset)

/-- The symbol used or else declared at an offset. -/
def definitionAt (t : SymbolTable) (offset : Nat) : Option Symbol :=
  match t.referenceAt offset with
  | some reference => t.symbol? reference.symbol
  | none => t.symbols.find? (·.span.touches offset)

end SymbolTable

end ScriptCheck
