import ScriptCheck.Proofs.Canonical

/-!
# The algebra of unions

A canonical type is made of its alternatives, so two of them are equal if they list the same
alternatives (`Ty.eq_of_alternatives_eq`). Unions drop what they have seen before, and this may be
done to any parts of a list first (`eraseDups_eraseDups_append`): hence a union may be taken in
groups (`Ty.unionOf_append`), from which it follows that joining types is associative.
-/

namespace ScriptCheck

open List

section EraseDups

variable {α : Type} [BEq α] [LawfulBEq α]

theorem eraseDups_filter (p : α → Bool) (l : List α) :
    (l.filter p).eraseDups = l.eraseDups.filter p := by
  induction hn : l.length using Nat.strongRecOn generalizing l with
  | _ n ih =>
    subst hn
    cases l with
    | nil => rfl
    | cons a l =>
      have hlength : (l.filter fun b => !b == a).length < (a :: l).length :=
        Nat.lt_succ_of_le (length_filter_le _ _)
      have hrest := ih _ hlength _ rfl
      rw [filter_filter] at hrest
      rw [eraseDups_cons, filter_cons, filter_cons, ← hrest]
      split
      · simp only [eraseDups_cons, filter_filter, Bool.and_comm]
      · next ha =>
        -- what fails the test is left out of the list anyway
        congr 1
        refine filter_congr fun b _ => ?_
        by_cases hb : b = a
        · subst hb
          simp [ha]
        · simp [hb]

/-- What is new in the second of two lists comes behind the first one. -/
theorem eraseDups_append_of_nodup {l m : List α} (hl : l.Nodup) (hm : m.Nodup) :
    (l ++ m).eraseDups = l ++ m.filter fun b => !l.contains b := by
  rw [eraseDups_append, eraseDups_of_nodup hl]
  exact congrArg (l ++ ·) (eraseDups_of_nodup (hm.filter _))

theorem eraseDups_eraseDups_append (l m : List α) :
    (l.eraseDups ++ m.eraseDups).eraseDups = (l ++ m).eraseDups := by
  have hcontains (b : α) : l.eraseDups.contains b = l.contains b := by
    rw [Bool.eq_iff_iff, contains_iff_mem, contains_iff_mem, mem_eraseDups]
  rw [eraseDups_append_of_nodup (nodup_eraseDups l) (nodup_eraseDups m), eraseDups_append,
    List.removeAll, eraseDups_filter]
  simp only [hcontains]

end EraseDups

namespace Ty

variable {s t u : Ty} {ts us : List Ty}

/-- A canonical type is given by the list of its alternatives. -/
theorem eq_of_alternatives_eq (hs : s.Canonical) (ht : t.Canonical)
    (h : s.alternatives = t.alternatives) : s = t := by
  rw [← ofAlternatives_alternatives hs, h, ofAlternatives_alternatives ht]

theorem unionOf_of_mem (h : unknown ∈ ts) : unionOf ts = unknown := by
  rw [unionOf, if_pos (by simpa using h)]

theorem unknown_join (t : Ty) : unknown.join t = unknown := unionOf_of_mem (by simp)

theorem join_unknown (t : Ty) : t.join unknown = unknown := unionOf_of_mem (by simp)

theorem unionOf_singleton (h : t.Canonical) : unionOf [t] = t := by
  by_cases hknown : t = unknown
  · rw [hknown]
    rfl
  · refine eq_of_alternatives_eq (canonical_unionOf (by simpa using h)) h ?_
    rw [alternatives_unionOf (by simpa using h) (by simpa using Ne.symm hknown) (by simp)]
    simpa using eraseDups_of_nodup h.nodup_alternatives

/-- A union of known types is known. -/
theorem unionOf_ne_unknown (h : ∀ t ∈ ts, t.Canonical) (hknown : unknown ∉ ts) (hne : ts ≠ []) :
    unionOf ts ≠ unknown := by
  intro hunion
  have hlisted := alternatives_unionOf h hknown hne
  rw [hunion] at hlisted
  have hmem : unknown ∈ (ts.flatMap alternatives).eraseDups :=
    hlisted ▸ mem_singleton_self unknown
  exact (canonical_flatMap h hknown unknown hmem).1

/-- A union may be taken in two groups. -/
theorem unionOf_append (hts : ∀ t ∈ ts, t.Canonical) (hus : ∀ t ∈ us, t.Canonical) (hne : ts ≠ [])
    (hne' : us ≠ []) : unionOf (ts ++ us) = (unionOf ts).join (unionOf us) := by
  by_cases hleft : unknown ∈ ts
  · rw [unionOf_of_mem hleft, unknown_join, unionOf_of_mem (by simp [hleft])]
  by_cases hright : unknown ∈ us
  · rw [unionOf_of_mem hright, join_unknown, unionOf_of_mem (by simp [hright])]
  have hall : ∀ t ∈ ts ++ us, t.Canonical := forall_mem_append.mpr ⟨hts, hus⟩
  have hboth : ∀ t ∈ [unionOf ts, unionOf us], t.Canonical := by
    simpa using ⟨canonical_unionOf hts, canonical_unionOf hus⟩
  have hknown : unknown ∉ [unionOf ts, unionOf us] := by
    simpa using ⟨(unionOf_ne_unknown hts hleft hne).symm, (unionOf_ne_unknown hus hright hne').symm⟩
  refine eq_of_alternatives_eq (canonical_unionOf hall) (canonical_unionOf hboth) ?_
  rw [join, alternatives_unionOf hall (by simp [hleft, hright]) (by simp [hne]),
    alternatives_unionOf hboth hknown (by simp), flatMap_append, ← eraseDups_eraseDups_append,
    ← alternatives_unionOf hts hleft hne, ← alternatives_unionOf hus hright hne']
  simp

section

variable (hs : s.Canonical) (ht : t.Canonical)
include hs ht

theorem join_assoc (hu : u.Canonical) : (s.join t).join u = s.join (t.join u) :=
  calc (s.join t).join u
      = (unionOf [s, t]).join (unionOf [u]) := by rw [unionOf_singleton hu, ← join]
    _ = unionOf ([s] ++ [t, u]) :=
        (unionOf_append (by simp [hs, ht]) (by simp [hu]) (by simp) (by simp)).symm
    _ = (unionOf [s]).join (unionOf [t, u]) :=
        unionOf_append (by simp [hs]) (by simp [ht, hu]) (by simp) (by simp)
    _ = s.join (t.join u) := by rw [unionOf_singleton hs, ← join]

/-- The alternatives of a join: those of the first type, then the new ones of the second. -/
theorem alternatives_join (hknown : s ≠ unknown) (hknown' : t ≠ unknown) :
    (s.join t).alternatives =
      s.alternatives ++ t.alternatives.filter fun a => !s.alternatives.contains a := by
  rw [join, alternatives_unionOf (by simp [hs, ht]) (by simp [hknown.symm, hknown'.symm]) (by simp)]
  simpa using eraseDups_append_of_nodup hs.nodup_alternatives ht.nodup_alternatives

theorem mem_alternatives_join (hknown : s ≠ unknown) (hknown' : t ≠ unknown) (a : Ty) :
    a ∈ (s.join t).alternatives ↔ a ∈ s.alternatives ∨ a ∈ t.alternatives := by
  rw [alternatives_join hs ht hknown hknown']
  by_cases ha : a ∈ s.alternatives <;> simp [ha]

/-- The order of two types does not matter for the alternatives of their join. -/
theorem mem_alternatives_join_comm (a : Ty) :
    a ∈ (s.join t).alternatives ↔ a ∈ (t.join s).alternatives := by
  by_cases hknown : s = unknown
  · rw [hknown, unknown_join, join_unknown]
  by_cases hknown' : t = unknown
  · rw [hknown', unknown_join, join_unknown]
  rw [mem_alternatives_join hs ht hknown hknown', mem_alternatives_join ht hs hknown' hknown, or_comm]

end

/-- Without null, a type keeps its other alternatives in order. -/
theorem alternatives_withoutNull (h : t.Canonical) (hne : t.alternatives.filter (· ≠ null) ≠ []) :
    t.withoutNull.alternatives = t.alternatives.filter (· ≠ null) := by
  by_cases hknown : t = unknown
  · rw [hknown]
    rfl
  · have hall (a : Ty) (ha : a ∈ t.alternatives.filter (· ≠ null)) : a.IsAlternative ∧ a.Canonical :=
      h.alternatives hknown a (mem_of_mem_filter ha)
    have hflat : (t.alternatives.filter (· ≠ null)).flatMap alternatives =
        t.alternatives.filter (· ≠ null) :=
      (flatMap_congr fun a ha => (hall a ha).1.alternatives).trans (flatMap_singleton' _)
    rw [withoutNull, alternatives_unionOf (fun a ha => (hall a ha).2) (fun hmem => (hall _ hmem).1)
      hne, hflat, eraseDups_of_nodup (h.nodup_alternatives.filter _)]

/-- The laws of unions, for some types and two lists of types. -/
structure UnionLaws (s t u : Ty) (ts us : List Ty) : Prop where
  canonical : (unionOf ts).Canonical
  append : ts ≠ [] → us ≠ [] → unionOf (ts ++ us) = (unionOf ts).join (unionOf us)
  assoc : (s.join t).join u = s.join (t.join u)
  idem : t.join t = t
  absorbs : unknown.join t = unknown ∧ t.join unknown = unknown
  comm : ∀ a, a ∈ (s.join t).alternatives ↔ a ∈ (t.join s).alternatives
  mem : s ≠ unknown → t ≠ unknown →
    ∀ a, a ∈ (s.join t).alternatives ↔ a ∈ s.alternatives ∨ a ∈ t.alternatives
  /-- The alternatives of the first type come before those that only the second one has. -/
  order : s ≠ unknown → t ≠ unknown → (s.join t).alternatives =
    s.alternatives ++ t.alternatives.filter fun a => !s.alternatives.contains a
  others : t.alternatives.filter (· ≠ null) ≠ [] →
    t.withoutNull.alternatives = t.alternatives.filter (· ≠ null)
  noOthers : t.alternatives.filter (· ≠ null) = [] → t.withoutNull = unknown

/-- Canonical types obey the laws of unions. -/
theorem unionLaws_of_canonical (hs : s.Canonical) (ht : t.Canonical) (hu : u.Canonical)
    (hts : ∀ t ∈ ts, t.Canonical) (hus : ∀ t ∈ us, t.Canonical) : UnionLaws s t u ts us where
  canonical := canonical_unionOf hts
  append := unionOf_append hts hus
  assoc := join_assoc hs ht hu
  idem := join_self ht
  absorbs := ⟨unknown_join t, join_unknown t⟩
  comm := mem_alternatives_join_comm hs ht
  mem := mem_alternatives_join hs ht
  order := alternatives_join hs ht
  others := alternatives_withoutNull ht
  noOthers hnone := by rw [withoutNull, hnone]; rfl

/-- A function, an array of numbers and texts, and a type that may be null. -/
theorem unionLaws_of_canonical_nested :
    UnionLaws (function ["x"] (union [integer, null])) (union [array (union [integer, string]), null])
      (union [null, function ["x"] (union [integer, null])]) [null, number] [string, integer] := by
  refine unionLaws_of_canonical ?_ ?_ ?_ ?_ ?_
  · simp [IsAlternative]
  · simp [IsAlternative]
  · simp [IsAlternative]
  · simp [canonical_number]
  · simp

end Ty

end ScriptCheck
