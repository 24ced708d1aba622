import Mathlib.Data.List.Basic
import ScriptCheck.Scope.Table

/-!
# Tables of scopes

A table of scopes only grows: a scope stays what it is and keeps its symbols, in their places and
under their names (`SymbolTable.Extends`). In a well-formed table the way outwards from every scope
ends at the global one, and what is looked up is in the table.
-/

namespace ScriptCheck

open List

/-- A scope is a later state of another one. Symbols may have been added to it. -/
structure Scope.GrewFrom (s' s : Scope) : Prop where
  kind_eq : s'.kind = s.kind
  parent_eq : s'.parent = s.parent
  span_eq : s'.span = s.span
  names : s.symbols.map Symbol.name <+: s'.symbols.map Symbol.name

namespace SymbolTable

/-- A table has all scopes of another one, perhaps with more symbols. -/
def Extends (t' t : SymbolTable) : Prop :=
  ∀ (id : Nat) (s : Scope), t.scopes[id]? = some s → ∃ s', t'.scopes[id]? = some s' ∧ s'.GrewFrom s

/-- The global scope is there, and every other scope stands after its parent. -/
structure WellFormed (t : SymbolTable) : Prop where
  hasRoot : t.hasScope root
  outward : ∀ (id : Nat) (s : Scope), t.scopes[id]? = some s → s.parent.elim (id = root) (· < id)

variable {t t' t'' : SymbolTable} {id : Nat} {x : SymbolId}

/-! ### Growth -/

theorem Extends.refl (t : SymbolTable) : t.Extends t :=
  fun _ s h => ⟨s, h, rfl, rfl, rfl, prefix_rfl⟩

theorem Extends.trans (h' : t''.Extends t') (h : t'.Extends t) : t''.Extends t := by
  intro id s hs
  obtain ⟨s', hs', hgrew⟩ := h id s hs
  obtain ⟨s'', hs'', hgrew'⟩ := h' id s' hs'
  exact ⟨s'', hs'', hgrew'.kind_eq.trans hgrew.kind_eq, hgrew'.parent_eq.trans hgrew.parent_eq,
    hgrew'.span_eq.trans hgrew.span_eq, hgrew.names.trans hgrew'.names⟩

theorem hasScope_iff : t.hasScope id ↔ ∃ s, t.scopes[id]? = some s := by
  simp [hasScope, ← Option.isSome_iff_exists]

theorem hasSymbol_iff :
    t.hasSymbol x ↔ ∃ s, t.scopes[x.scope]? = some s ∧ x.index < s.symbols.length := by
  simp [hasSymbol, symbol?, Option.isSome_iff_exists, Option.bind_eq_some_iff,
    List.getElem?_eq_some_iff]

theorem Extends.hasScope (h : t'.Extends t) (hid : t.hasScope id) : t'.hasScope id := by
  obtain ⟨s, hs⟩ := hasScope_iff.1 hid
  obtain ⟨s', hs', -⟩ := h id s hs
  exact hasScope_iff.2 ⟨s', hs'⟩

theorem Extends.hasSymbol (h : t'.Extends t) (hx : t.hasSymbol x) : t'.hasSymbol x := by
  obtain ⟨s, hs, hlt⟩ := hasSymbol_iff.1 hx
  obtain ⟨s', hs', hgrew⟩ := h x.scope s hs
  have hle := hgrew.names.length_le
  simp only [length_map] at hle
  exact hasSymbol_iff.2 ⟨s', hs', by omega⟩

theorem Extends.length_le (h : t'.Extends t) : t.scopes.length ≤ t'.scopes.length := by
  by_contra hlt
  have hid : t.hasScope t'.scopes.length := by simpa [SymbolTable.hasScope] using hlt
  simpa [SymbolTable.hasScope] using h.hasScope hid

/-- Adding a scope leaves the others alone. -/
theorem extends_push {kind : ScopeKind} {parent : Nat} {span : Span} :
    (t.push kind parent span).Extends t := by
  intro id s hs
  obtain ⟨hlt, -⟩ := List.getElem?_eq_some_iff.1 hs
  refine ⟨s, ?_, rfl, rfl, rfl, prefix_rfl⟩
  rw [push, getElem?_append_left hlt, hs]

/-- Changing one scope so that it grows leaves the others alone. -/
theorem extends_modify {f : Scope → Scope} (hf : ∀ s, (f s).GrewFrom s) (n : Nat) :
    SymbolTable.Extends { t with scopes := t.scopes.modify n f } t := by
  intro id s hs
  refine ⟨if n = id then f s else s, by simp [getElem?_modify, hs], ?_⟩
  split
  · exact hf s
  · exact ⟨rfl, rfl, rfl, prefix_rfl⟩

theorem extends_add {n : Nat} {symbol : Symbol} : (t.add n symbol).Extends t := by
  apply extends_modify
  exact fun s => ⟨rfl, rfl, rfl, by simp⟩

/-- A change of a symbol other than to its name. -/
theorem extends_modifySymbol {f : Symbol → Symbol} (hf : ∀ symbol, (f symbol).name = symbol.name) :
    (t.modifySymbol x f).Extends t := by
  apply extends_modify
  refine fun s => ⟨rfl, rfl, rfl, ?_⟩
  have hnames : (s.symbols.modify x.index f).map Symbol.name = s.symbols.map Symbol.name := by
    refine ext_getElem? fun i => ?_
    simp only [getElem?_map, getElem?_modify]
    cases s.symbols[i]? with
    | none => rfl
    | some symbol => by_cases h : x.index = i <;> simp [h, hf]
  exact ⟨[], by rw [append_nil, hnames]⟩

theorem extends_addReference {span : Span} : (t.addReference span x).Extends t := Extends.refl t

/-! ### Well-formed tables -/

theorem wellFormed_empty (span : Span) : (empty span).WellFormed := by
  refine ⟨rfl, fun id s hs => ?_⟩
  obtain ⟨hlt, rfl⟩ := List.getElem?_eq_some_iff.1 hs
  obtain rfl : id = 0 := by simpa [empty] using hlt
  rfl

namespace WellFormed

variable (h : t.WellFormed)
include h

/-- A table with the same number of scopes, each a later state, is well formed too. -/
theorem of_extends (hext : t'.Extends t)
    (hlength : t'.scopes.length = t.scopes.length) : t'.WellFormed := by
  refine ⟨hext.hasScope h.hasRoot, fun id s' hs' => ?_⟩
  obtain ⟨hlt, -⟩ := List.getElem?_eq_some_iff.1 hs'
  have hid : t.hasScope id := by simpa [hasScope, ← hlength] using hlt
  obtain ⟨s, hs⟩ := hasScope_iff.1 hid
  obtain ⟨s'', hs'', hgrew⟩ := hext id s hs
  obtain rfl : s' = s'' := Option.some.inj (hs'.symm.trans hs'')
  rw [hgrew.parent_eq]
  exact h.outward id s hs

theorem push {parent : Nat} (hparent : t.hasScope parent)
    (kind : ScopeKind) (span : Span) : (t.push kind parent span).WellFormed := by
  refine ⟨extends_push.hasScope h.hasRoot, fun id s hs => ?_⟩
  rw [SymbolTable.push, getElem?_append] at hs
  split at hs
  · exact h.outward id s hs
  · next hge =>
    -- the new scope is the last one, and its parent was there before
    obtain ⟨hlt, rfl⟩ := List.getElem?_eq_some_iff.1 hs
    simp only [hasScope, decide_eq_true_eq] at hparent
    simp only [getElem_singleton, Option.elim_some]
    omega

/-- The scopes around a scope are in the table, and the global one is the last of them. -/
theorem ancestorsUpTo {n : Nat} (hid : t.hasScope id) (hle : id ≤ n) :
    (∀ a ∈ t.ancestorsUpTo n id, t.hasScope a) ∧ (t.ancestorsUpTo n id).getLast? = some root := by
  -- parents have smaller numbers, so a limit of `id` steps is never reached
  induction n generalizing id with
  | zero =>
    obtain rfl := Nat.le_zero.1 hle
    simpa [SymbolTable.ancestorsUpTo, root] using hid
  | succ n ih =>
    obtain ⟨s, hs⟩ := hasScope_iff.1 hid
    have hout := h.outward id s hs
    rw [SymbolTable.ancestorsUpTo, hs, Option.bind_some]
    cases hparent : s.parent with
    | none =>
      rw [hparent] at hout
      obtain rfl : id = root := hout
      simpa using hid
    | some p =>
      rw [hparent] at hout
      have hlt : p < id := hout
      have hp : t.hasScope p := by
        simp only [hasScope, decide_eq_true_eq] at hid ⊢
        omega
      obtain ⟨hall, hlast⟩ := ih hp (by omega)
      refine ⟨by simpa using ⟨hid, hall⟩, ?_⟩
      rw [getLast?_cons, hlast]
      rfl

theorem isRooted (hid : t.hasScope id) : t.isRooted id := by
  obtain ⟨hall, hlast⟩ := h.ancestorsUpTo hid (Nat.le_refl id)
  simpa [SymbolTable.isRooted, ancestors, hlast] using hall

theorem functionScope_mem (hid : t.hasScope id) : t.functionScope id ∈ t.ancestors id := by
  unfold SymbolTable.functionScope
  cases hfind : (t.ancestors id).find? fun a => !t.isBlock a with
  | none => exact mem_of_getLast? (h.ancestorsUpTo hid (Nat.le_refl id)).2
  | some a => exact mem_of_find?_eq_some hfind

theorem functionScope (hid : t.hasScope id) : t.hasScope (t.functionScope id) :=
  (h.ancestorsUpTo hid (Nat.le_refl id)).1 _ (h.functionScope_mem hid)

end WellFormed

/-! ### What is looked up -/

theorem hasSymbol_of_find? {name : String} (h : t.find? id name = some x) : t.hasSymbol x := by
  obtain ⟨i, hi, rfl⟩ := Option.map_eq_some_iff.1 h
  obtain ⟨s, hs, hfind⟩ := Option.bind_eq_some_iff.1 hi
  obtain ⟨hlt, -⟩ := findIdx?_eq_some_iff_getElem.1 hfind
  exact hasSymbol_iff.2 ⟨s, hs, hlt⟩

theorem hasSymbol_of_lookup {name : String} (h : t.lookup name id = some x) : t.hasSymbol x := by
  obtain ⟨_, -, hfind⟩ := exists_of_findSome?_eq_some h
  exact hasSymbol_of_find? hfind

/-- Adding a symbol puts it behind the others of its scope. -/
theorem hasSymbol_add (symbol : Symbol) {s : Scope} (hs : t.scopes[id]? = some s) :
    (t.add id symbol).hasSymbol ⟨id, s.symbols.length⟩ :=
  hasSymbol_iff.2 ⟨{ s with symbols := s.symbols ++ [symbol] },
    by simp [add, hs], by simp⟩

/-- Declaring a symbol answers one of the table, to which at most a symbol was added. -/
theorem declare_spec (symbol : Symbol) (hid : t.hasScope id) :
    (t.declare id symbol).2.2.hasSymbol (t.declare id symbol).1 ∧
      (t.declare id symbol).2.2.Extends t ∧
      (t.declare id symbol).2.2.scopes.length = t.scopes.length := by
  unfold declare
  split
  · next x hfind => exact ⟨hasSymbol_of_find? hfind, .refl t, rfl⟩
  · obtain ⟨s, hs⟩ := hasScope_iff.1 hid
    refine ⟨?_, extends_add, length_modify ..⟩
    simpa [hs] using hasSymbol_add symbol hs

end SymbolTable

end ScriptCheck
