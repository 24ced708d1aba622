import Mathlib.Data.List.Nodup
import ScriptCheck.Builtin.Globals
import ScriptCheck.Builtin.Modules
import ScriptCheck.Typing.Operation

/-!
# Canonical types

A union in a *canonical* type has at least two alternatives, all different, none of which is unknown
or itself a union; and so has every union inside it, in the elements of an array and the result of a
function. The operations on types keep to canonical types.

On these, a union has exactly the alternatives of its parts (`alternatives_unionOf`), so it covers
each of them: it is unknown, or none of their alternatives is lost (`Covers`).
-/

namespace ScriptCheck

open List

/-- No element stays twice. -/
theorem nodup_eraseDups {α : Type} [BEq α] [LawfulBEq α] : (l : List α) → l.eraseDups.Nodup
  | [] => by simp
  | a :: l => by
    rw [eraseDups_cons, nodup_cons]
    exact ⟨by simp [mem_eraseDups], nodup_eraseDups _⟩
termination_by l => l.length
decreasing_by
  have := length_filter_le (fun b => !b == a) l
  simp
  omega

theorem eraseDups_of_nodup {α : Type} [BEq α] [LawfulBEq α] {l : List α} (h : l.Nodup) :
    l.eraseDups = l := by
  induction l with
  | nil => simp
  | cons a l ih =>
    rw [nodup_cons] at h
    have hfilter : l.filter (fun b => !b == a) = l := by
      refine filter_eq_self.mpr fun b hb => ?_
      simpa using fun heq : b = a => h.1 (heq ▸ hb)
    rw [eraseDups_cons, hfilter, ih h.2]

namespace Ty

/-! ### Canonical types -/

/-- A type that may be an alternative of a union. -/
def IsAlternative : Ty → Prop
  | unknown | union _ => False
  | _ => True

mutual

/-- Every union in a type is as `unionOf` makes it. -/
def Canonical : Ty → Prop
  | array element => Canonical element
  | function _ result => Canonical result
  | union ts => 2 ≤ ts.length ∧ ts.Nodup ∧ CanonicalAll ts
  | _ => True

/-- Some types are canonical and may be alternatives of a union. -/
def CanonicalAll : List Ty → Prop
  | [] => True
  | t :: ts => (t.IsAlternative ∧ Canonical t) ∧ CanonicalAll ts

end

attribute [simp] Canonical CanonicalAll

theorem canonicalAll_iff {ts : List Ty} :
    CanonicalAll ts ↔ ∀ t ∈ ts, t.IsAlternative ∧ t.Canonical := by
  induction ts with
  | nil => simp
  | cons t ts ih => simp [ih]

theorem IsAlternative.alternatives {t : Ty} (h : t.IsAlternative) : t.alternatives = [t] := by
  cases t with
  | union ts => exact h.elim
  | _ => rfl

theorem isAlternative_of_ne {t : Ty} (hunknown : t ≠ unknown) (hunion : ∀ ts, t ≠ union ts) :
    t.IsAlternative := by
  cases t with
  | unknown => exact hunknown rfl
  | union ts => exact hunion ts rfl
  | _ => trivial

section

variable {t : Ty} (h : t.Canonical)
include h

/-- What is known of the alternatives of a canonical type. -/
theorem Canonical.alternatives (hknown : t ≠ unknown) :
    ∀ a ∈ t.alternatives, a.IsAlternative ∧ a.Canonical := by
  by_cases hunion : ∃ ts, t = union ts
  · obtain ⟨ts, rfl⟩ := hunion
    exact canonicalAll_iff.mp h.2.2
  · have ht : t.IsAlternative := isAlternative_of_ne hknown fun ts hts => hunion ⟨ts, hts⟩
    rw [ht.alternatives]
    simpa using ⟨ht, h⟩

theorem Canonical.nodup_alternatives : t.alternatives.Nodup := by
  cases t with
  | union ts => exact h.2.1
  | _ => exact nodup_singleton _

/-- A canonical type with unknown among its alternatives is unknown. -/
theorem Canonical.eq_unknown (hmem : unknown ∈ t.alternatives) : t = unknown := by
  by_contra hknown
  exact (h.alternatives hknown unknown hmem).1

theorem ne_nil_alternatives : t.alternatives ≠ [] := by
  cases t with
  | union ts =>
    rintro rfl
    exact absurd h.1 (by decide)
  | _ => exact cons_ne_nil _ _

/-! ### Unions -/

/-- A type is made of its alternatives. -/
theorem ofAlternatives_alternatives : ofAlternatives t.alternatives = t := by
  cases t with
  | union ts =>
    match ts, h.1 with
    | _ :: _ :: _, _ => rfl
  | _ => rfl

end

section OfAlternatives

variable {ts : List Ty}

theorem alternatives_ofAlternatives (h : ∀ t ∈ ts, t.IsAlternative) (hne : ts ≠ []) :
    (ofAlternatives ts).alternatives = ts := by
  match ts, hne with
  | [t], _ => exact (h t (mem_singleton_self t)).alternatives
  | _ :: _ :: _, _ => rfl

theorem canonical_ofAlternatives (h : ∀ t ∈ ts, t.IsAlternative ∧ t.Canonical)
    (hnodup : ts.Nodup) : (ofAlternatives ts).Canonical := by
  match ts with
  | [] => trivial
  | [t] => exact (h t (mem_singleton_self t)).2
  | s :: t :: ts => exact ⟨by simp, hnodup, canonicalAll_iff.mpr h⟩

end OfAlternatives

section UnionOf

variable {ts : List Ty} (h : ∀ t ∈ ts, t.Canonical)

include h

/-- All that is among the alternatives of known types may be an alternative. -/
theorem canonical_flatMap (hknown : unknown ∉ ts) :
    ∀ a ∈ (ts.flatMap alternatives).eraseDups, a.IsAlternative ∧ a.Canonical := by
  intro a ha
  rw [mem_eraseDups, mem_flatMap] at ha
  obtain ⟨t, ht, hat⟩ := ha
  exact (h t ht).alternatives (fun heq => hknown (heq ▸ ht)) a hat

theorem canonical_unionOf : (unionOf ts).Canonical := by
  unfold unionOf
  split
  · trivial
  · next hknown =>
    exact canonical_ofAlternatives (canonical_flatMap h (by simpa using hknown)) (nodup_eraseDups _)

/-- The alternatives of a union of known types are those of its parts. -/
theorem alternatives_unionOf (hknown : unknown ∉ ts) (hne : ts ≠ []) :
    (unionOf ts).alternatives = (ts.flatMap alternatives).eraseDups := by
  rw [unionOf, if_neg (by simpa using hknown)]
  refine alternatives_ofAlternatives (fun t ht => (canonical_flatMap h hknown t ht).1) fun hnil => ?_
  obtain ⟨t, ts, rfl⟩ := exists_cons_of_ne_nil hne
  obtain ⟨a, as, ha⟩ := exists_cons_of_ne_nil (ne_nil_alternatives (h t (by simp)))
  have hmem : a ∈ ((t :: ts).flatMap alternatives).eraseDups := by simp [mem_eraseDups, ha]
  rw [hnil] at hmem
  cases hmem

end UnionOf

theorem canonical_join {s t : Ty} (hs : s.Canonical) (ht : t.Canonical) : (s.join t).Canonical :=
  canonical_unionOf (by simp [hs, ht])

/-- Nothing is added to a type by itself. -/
theorem join_self {t : Ty} (h : t.Canonical) : t.join t = t := by
  by_cases hknown : t = unknown
  · rw [hknown]
    rfl
  · have hboth : (t.alternatives ++ t.alternatives).eraseDups = t.alternatives := by
      rw [eraseDups_append, eraseDups_of_nodup h.nodup_alternatives]
      have hnone : t.alternatives.removeAll t.alternatives = [] :=
        filter_eq_nil_iff.mpr (by simp)
      rw [hnone, eraseDups_nil, append_nil]
    rw [join, unionOf, if_neg (by simpa using Ne.symm hknown)]
    simpa [hboth] using ofAlternatives_alternatives h

/-! ### What a type covers -/

/-- A type is unknown, or has all alternatives of another one. -/
def Covers (s t : Ty) : Prop := s = unknown ∨ ∀ a ∈ t.alternatives, a ∈ s.alternatives

instance (s t : Ty) : Decidable (s.Covers t) := inferInstanceAs (Decidable (_ ∨ _))

theorem Covers.refl (t : Ty) : t.Covers t := .inr fun _ => id

theorem Covers.trans {s t u : Ty} (hs : s.Canonical) (h : s.Covers t) (h' : t.Covers u) :
    s.Covers u := by
  rcases h with rfl | h
  · exact .inl rfl
  · rcases h' with rfl | h'
    · exact .inl (hs.eq_unknown (h unknown (mem_singleton_self _)))
    · exact .inr fun a ha => h a (h' a ha)

/-- A union covers its parts. -/
theorem unionOf_covers {ts : List Ty} {t : Ty} (h : ∀ t ∈ ts, t.Canonical) (ht : t ∈ ts) :
    (unionOf ts).Covers t := by
  by_cases hknown : unknown ∈ ts
  · rw [unionOf, if_pos (by simpa using hknown)]
    exact .inl rfl
  · refine .inr fun a ha => ?_
    rw [alternatives_unionOf h hknown (ne_nil_of_mem ht), mem_eraseDups]
    exact mem_flatMap.mpr ⟨t, ht, ha⟩

section Join

variable {s t : Ty} (hs : s.Canonical) (ht : t.Canonical)

include hs ht

theorem join_covers_left : (s.join t).Covers s := unionOf_covers (by simp [hs, ht]) (by simp)

theorem join_covers_right : (s.join t).Covers t := unionOf_covers (by simp [hs, ht]) (by simp)

end Join

/-! ### Operations -/

theorem canonical_number : number.Canonical := canonical_unionOf (by simp)

theorem canonical_arithmetic (op : BinaryOp) (s t : Ty) : (arithmetic op s t).Canonical := by
  unfold arithmetic
  split
  · trivial
  · unfold arithmeticNumbers
    split
    iterate 4 trivial
    exact canonical_number

section

variable {t : Ty} (h : t.Canonical)
include h

theorem canonical_withoutNull : t.withoutNull.Canonical := by
  refine canonical_unionOf fun a ha => ?_
  by_cases hknown : t = unknown
  · subst hknown
    rw [mem_singleton.mp (mem_of_mem_filter ha)]
    trivial
  · exact (h.alternatives hknown a (mem_of_mem_filter ha)).2

theorem canonical_numeric : t.numeric.Canonical := by
  unfold numeric
  split
  · exact h
  · exact canonical_number

theorem canonical_unary (op : UnaryOp) : (t.unary op).Canonical := by
  cases op with
  | neg | plus => exact canonical_numeric h
  | not | delete | bitNot => trivial

theorem canonical_indexed : t.indexed.Canonical := by
  unfold indexed
  split
  · exact h
  · trivial
  · trivial

theorem canonical_spreadElement : t.spreadElement.Canonical := by
  unfold spreadElement
  split
  · exact h
  · trivial

theorem canonical_forIn (pair : Bool) :
    (t.forIn pair).1.Canonical ∧ (t.forIn pair).2.Canonical := by
  unfold forIn
  split
  · exact ⟨trivial, h⟩
  · exact ⟨trivial, h⟩
  iterate 3 exact ⟨trivial, trivial⟩

theorem canonical_result {r : Ty} (hr : t.result? = some r) : r.Canonical := by
  cases t with
  | function params result =>
    cases hr
    exact h
  | _ => cases hr

end

theorem canonical_shortCircuit {s t : Ty} (hs : s.Canonical) (ht : t.Canonical) (op : BinaryOp) :
    (shortCircuit op s t).Canonical := by
  unfold shortCircuit
  split
  · split
    · exact ht
    · exact canonical_join (canonical_withoutNull hs) ht
  · exact canonical_join hs ht

end Ty

/-! ### Built-in names -/

namespace Builtin

theorem canonical_shape (shape : Shape) : shape.ty.Canonical := by
  cases shape with
  | number => exact Ty.canonical_number
  | _ => trivial

theorem canonical_tyOf (shapes : List Shape) : (tyOf shapes).Canonical := by
  refine Ty.canonical_unionOf fun t ht => ?_
  obtain ⟨shape, _, rfl⟩ := mem_map.mp ht
  exact canonical_shape shape

theorem canonical_signature (f : Signature) : f.ty.Canonical := canonical_tyOf f.returns

theorem canonical_constant (c : Constant) : c.ty.Canonical := canonical_tyOf [c.shape]

theorem canonical_member {m : Module} {name : String} {t : Ty} (h : m.member? name = some t) :
    t.Canonical := by
  unfold Module.member? at h
  cases hf : m.function? name with
  | some f =>
    rw [hf] at h
    cases h
    exact canonical_signature f
  | none =>
    rw [hf] at h
    obtain ⟨c, _, rfl⟩ := Option.map_eq_some_iff.mp h
    exact canonical_constant c

end Builtin

end ScriptCheck
