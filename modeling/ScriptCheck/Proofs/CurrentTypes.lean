import ScriptCheck.Proofs.Canonical
import ScriptCheck.Proofs.Walking

/-!
# Current types, variable by variable

What the operations on current types do to the type of one variable. Where two paths meet, the type
is the union of the types on both (`Env.get?_join`). After the body of a function, it is one of the
types recorded for the variable, or what it was (`Env.get?_afterFunction`).
-/

namespace ScriptCheck

namespace Env

variable {env outer inner : Env} {id : SymbolId}

@[simp] theorem get?_empty (id : SymbolId) : empty.get? id = none := by
  simp [empty, get?, Std.TreeMap.get?_eq_getElem?]

theorem get?_set (env : Env) (id id' : SymbolId) (type : Ty) :
    (env.set id type).get? id' = if id = id' then some type else env.get? id' := by
  simp [get?, set, Std.TreeMap.get?_eq_getElem?, Std.TreeMap.getElem?_insert]

theorem mem_toList {entry : SymbolId × Ty} :
    entry ∈ env.toList ↔ env.get? entry.1 = some entry.2 := by
  rw [get?, Std.TreeMap.get?_eq_getElem?]
  exact Std.TreeMap.mem_toList_iff_getElem?_eq_some

/-- Every variable is in the list of all variables once. -/
theorem nodup_toList (env : Env) :
    env.toList.Pairwise fun a b => ¬ SymbolId.compare a.1 b.1 = .eq :=
  Std.TreeMap.distinct_keys_toList

theorem get?_setAll_of_mem {entries : List (SymbolId × Ty)} {type : Ty}
    (hnodup : entries.Pairwise fun a b => ¬ SymbolId.compare a.1 b.1 = .eq)
    (hmem : (id, type) ∈ entries) : (env.setAll entries).get? id = some type := by
  rw [get?, setAll, Std.TreeMap.get?_eq_getElem?]
  exact Std.TreeMap.getElem?_insertMany_list_of_mem Std.ReflCmp.compare_self hnodup hmem

theorem get?_setAll_of_not_mem {entries : List (SymbolId × Ty)}
    (hmem : id ∉ entries.map Prod.fst) : (env.setAll entries).get? id = env.get? id := by
  rw [get?, setAll, Std.TreeMap.get?_eq_getElem?, get?, Std.TreeMap.get?_eq_getElem?]
  exact Std.TreeMap.getElem?_insertMany_list_of_contains_eq_false (by simpa using hmem)

/-- Where two paths meet, a variable has the union of its types on both, or the only one. -/
theorem get?_join (a b : Env) (id : SymbolId) :
    (a.join b).get? id = match a.get? id, b.get? id with
      | some s, some t => some (s.join t)
      | some s, none => some s
      | none, t => t := by
  let joined (entry : SymbolId × Ty) : SymbolId × Ty :=
    (entry.1, ((a.get? entry.1).map (·.join entry.2)).getD entry.2)
  have hnodup : (b.toList.map joined).Pairwise fun a b => ¬ SymbolId.compare a.1 b.1 = .eq :=
    List.pairwise_map.mpr b.nodup_toList
  cases hb : b.get? id with
  | some t =>
    have hmem : joined (id, t) ∈ b.toList.map joined := List.mem_map_of_mem (mem_toList.mpr hb)
    have hget : (a.join b).get? id = some (((a.get? id).map (·.join t)).getD t) :=
      get?_setAll_of_mem hnodup hmem
    cases ha : a.get? id with
    | some s => simpa [ha] using hget
    | none => simpa [ha] using hget
  | none =>
    have hmem : id ∉ (b.toList.map joined).map Prod.fst := by
      intro hid
      simp only [List.map_map, List.mem_map] at hid
      obtain ⟨entry, hentry, rfl⟩ := hid
      exact absurd hb (by simp [joined, mem_toList.mp hentry])
    have hget : (a.join b).get? id = a.get? id := get?_setAll_of_not_mem hmem
    cases ha : a.get? id with
    | some s => simpa [ha] using hget
    | none => simpa [ha] using hget

/-- After the body of a function a variable has what was recorded for it, or what it had before. -/
theorem get?_afterFunction (outer inner : Env) (table : SymbolTable) (scope : Nat)
    (id : SymbolId) :
    (outer.afterFunction inner table scope).get? id = outer.get? id ∨
      inner.get? id ≠ outer.get? id ∧ ∃ symbol, table.symbol? id = some symbol ∧
        (outer.afterFunction inner table scope).get? id = some symbol.type := by
  let entry (id : SymbolId) : Option (SymbolId × Ty) :=
    (table.symbol? id).map fun symbol => (id, symbol.type)
  have hentry {id : SymbolId} {e : SymbolId × Ty} (h : entry id = some e) : e.1 = id := by
    obtain ⟨_, _, rfl⟩ := Option.map_eq_some_iff.mp h
    rfl
  have hchanged : (outer.changed inner scope).Pairwise fun a b => ¬ SymbolId.compare a b = .eq := by
    refine List.Pairwise.filterMap _ ?_ inner.nodup_toList
    intro a b hab c hc d hd
    obtain ⟨_, hc⟩ := Option.ite_none_right_eq_some.mp hc
    obtain ⟨_, hd⟩ := Option.ite_none_right_eq_some.mp hd
    cases hc
    cases hd
    exact hab
  have hnodup : ((outer.changed inner scope).filterMap entry).Pairwise
      fun a b => ¬ SymbolId.compare a.1 b.1 = .eq := by
    refine List.Pairwise.filterMap _ ?_ hchanged
    intro a b hab c hc d hd
    rwa [hentry hc, hentry hd]
  by_cases hmem : id ∈ ((outer.changed inner scope).filterMap entry).map Prod.fst
  · obtain ⟨e, he, rfl⟩ := List.mem_map.mp hmem
    obtain ⟨id', hid', hsome⟩ := List.mem_filterMap.mp he
    obtain ⟨symbol, hsymbol, rfl⟩ := Option.map_eq_some_iff.mp hsome
    obtain ⟨⟨i, t⟩, ht, hother⟩ := List.mem_filterMap.mp hid'
    obtain ⟨⟨_, hne⟩, heq⟩ := Option.ite_none_right_eq_some.mp hother
    cases heq
    refine .inr ⟨?_, symbol, hsymbol, get?_setAll_of_mem hnodup he⟩
    rw [mem_toList.mp ht]
    exact hne.symm
  · exact .inl (get?_setAll_of_not_mem hmem)

/-! ### Canonical types -/

/-- All current types are canonical. -/
def Canonical (env : Env) : Prop := ∀ id type, env.get? id = some type → type.Canonical

theorem canonical_empty : empty.Canonical := by simp [Canonical]

theorem Canonical.set (h : env.Canonical) {type : Ty} (htype : type.Canonical) (id : SymbolId) :
    (env.set id type).Canonical := by
  intro id' t ht
  rw [get?_set] at ht
  split at ht
  · cases ht
    exact htype
  · exact h id' t ht

theorem Canonical.join {a b : Env} (ha : a.Canonical) (hb : b.Canonical) :
    (a.join b).Canonical := by
  intro id t ht
  rw [get?_join] at ht
  split at ht
  · next hs ht' =>
    cases ht
    exact Ty.canonical_join (ha id _ hs) (hb id _ ht')
  · next hs _ =>
    cases ht
    exact ha id _ hs
  · exact hb id t ht

theorem Canonical.afterFunction (h : outer.Canonical) {table : SymbolTable}
    (htable : ∀ id symbol, table.symbol? id = some symbol → symbol.type.Canonical) (scope : Nat) :
    (outer.afterFunction inner table scope).Canonical := by
  intro id t ht
  obtain hsame | ⟨_, symbol, hsymbol, hget⟩ := get?_afterFunction outer inner table scope id
  · exact h id t (hsame ▸ ht)
  · rw [hget] at ht
    cases ht
    exact htable id symbol hsymbol

end Env

end ScriptCheck
