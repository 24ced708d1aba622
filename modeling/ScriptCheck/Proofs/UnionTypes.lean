import ScriptCheck.Proofs.Following
import ScriptCheck.Proofs.Gating

/-!
# Unions in the types of an analysis

All types in the state of a visit are canonical, and so are all types that stand in them, however
deep. So each union in an answer of an analysis, in the type of a symbol or in one that a finding
shows, has at least two alternatives, all different, none of which is unknown or a union
(`Analysis.unions_types`).
-/

namespace ScriptCheck

open List

namespace Ty

/-- A type stands in another one: it is that one, or stands in the elements of an array, the result
of a function or an alternative of a union. -/
inductive StandsIn (t : Ty) : Ty → Prop
  | self : StandsIn t t
  | element {e : Ty} : StandsIn t e → StandsIn t (array e)
  | result {params : List String} {r : Ty} : StandsIn t r → StandsIn t (function params r)
  | alternative {a : Ty} {ts : List Ty} : a ∈ ts → StandsIn t a → StandsIn t (union ts)

/-- What stands in a canonical type is canonical. -/
theorem StandsIn.canonical {t u : Ty} (h : t.StandsIn u) (hu : u.Canonical) : t.Canonical := by
  induction h with
  | self => exact hu
  | element _ ih => exact ih hu
  | result _ ih => exact ih hu
  | alternative ha _ ih => exact ih (canonicalAll_iff.mp hu.2.2 _ ha).2

/-- The alternatives of a union: at least two, all different, none of them unknown or a union. -/
structure FormUnion (ts : List Ty) : Prop where
  two_le : 2 ≤ ts.length
  nodup : ts.Nodup
  ne_unknown : unknown ∉ ts
  ne_union : ∀ us, union us ∉ ts

theorem Canonical.formUnion {ts : List Ty} (h : (union ts).Canonical) : FormUnion ts := by
  have hall := canonicalAll_iff.mp h.2.2
  exact ⟨h.1, h.2.1, fun hmem => (hall _ hmem).1, fun us hmem => (hall _ hmem).1⟩

end Ty

/-- The types that a finding shows. -/
def Finding.types : Finding → List Ty
  | notCallable type | arithmeticOnCompound type => [type]
  | _ => []

theorem Finding.Canonical.types {f : Finding} (h : f.Canonical) : ∀ t ∈ f.types, t.Canonical := by
  cases f with
  | notCallable type => exact forall_mem_singleton.mpr h
  | arithmeticOnCompound type => exact forall_mem_singleton.mpr h
  | _ => exact forall_mem_nil _

namespace SymbolTable

variable {t : SymbolTable}

theorem exists_symbol?_of_mem {symbol : Symbol} (h : symbol ∈ t.symbols) :
    ∃ id, t.symbol? id = some symbol := by
  obtain ⟨scope, hscope, hsymbol⟩ := mem_flatMap.mp h
  obtain ⟨i, hi⟩ := mem_iff_getElem?.mp hscope
  obtain ⟨j, hj⟩ := mem_iff_getElem?.mp hsymbol
  exact ⟨⟨i, j⟩, by rw [symbol?, hi, Option.bind_some, hj]⟩

theorem types_unused : ∀ f ∈ t.unused, f.value.types = [] := by
  intro f hf
  obtain ⟨symbol, -, rfl⟩ := mem_map.mp hf
  rfl

theorem types_shadowing : ∀ f ∈ t.shadowing, f.value.types = [] := by
  intro f hf
  obtain ⟨scope, -, hf⟩ := mem_flatMap.mp hf
  split at hf
  · cases hf
  · obtain ⟨symbol, -, rfl⟩ := mem_map.mp hf
    rfl

end SymbolTable

namespace Analysis

/-- The types of an analysis: those of its symbols, and those that its findings show. -/
def types (result : Analysis) : List Ty :=
  result.table.symbols.map Symbol.type ++ result.findings.flatMap (·.value.types)

variable (passes : PassSet) (fileExists : String → Bool) (program : Program)

/-- A finding that shows a type was made by the visit. -/
theorem mem_visited_of_types {f : Located Finding}
    (hf : f ∈ (ofProgram passes fileExists program).findings) (htypes : f.value.types ≠ []) :
    f ∈ (visited passes fileExists program).findings := by
  rcases mem_append.mp hf with hf | hf
  · rcases mem_append.mp hf with hf | hf
    · exact hf
    · exact absurd (SymbolTable.types_unused f (mem_whenEnabled hf)) htypes
  · exact absurd (SymbolTable.types_shadowing f (mem_whenEnabled hf)) htypes

theorem canonical_types :
    ∀ type ∈ (ofProgram passes fileExists program).types, type.Canonical := by
  have hcanonical : (visited passes fileExists program).Canonical :=
    (follows_trail passes fileExists program).canonical
  intro type htype
  rcases mem_append.mp htype with hdeclared | hfinding
  · obtain ⟨symbol, hsymbol, rfl⟩ := mem_map.mp hdeclared
    obtain ⟨id, hid⟩ := SymbolTable.exists_symbol?_of_mem hsymbol
    exact hcanonical.table id symbol hid
  · obtain ⟨f, hf, htype⟩ := mem_flatMap.mp hfinding
    have hvisited := mem_visited_of_types passes fileExists program hf (ne_nil_of_mem htype)
    exact (hcanonical.findings f hvisited).types type htype

/-- Each union that stands in a type of an analysis, however deep, has at least two alternatives, all
different, none of which is unknown or a union. -/
theorem unions_types : ∀ type ∈ (ofProgram passes fileExists program).types,
    ∀ ts : List Ty, (Ty.union ts).StandsIn type → Ty.FormUnion ts :=
  fun type htype _ hts =>
    (hts.canonical (canonical_types passes fileExists program type htype)).formUnion

/-- A function whose result is an array of numbers and texts. -/
theorem unions_types_function :
    Ty.function [] (.array (.union [.integer, .string])) ∈ (ofProgram .all (fun _ => false)
        (parse .normal "function f() \x7b return [1, 'a']; \x7d".toList).program).types ∧
      (Ty.union [.integer, .string]).StandsIn (.function [] (.array (.union [.integer, .string]))) ∧
      Ty.FormUnion [.integer, .string] :=
  ⟨by decide +kernel, .result (.element .self),
    unions_types .all (fun _ => false)
      (parse .normal "function f() \x7b return [1, 'a']; \x7d".toList).program
      (.function [] (.array (.union [.integer, .string]))) (by decide +kernel)
      [.integer, .string] (.result (.element .self))⟩

end Analysis

end ScriptCheck
