import ScriptCheck.Proofs.Ledger
import ScriptCheck.Proofs.Paths

/-!
# Current types on paths

Where a path reads a variable, the current type of the variable should have all alternatives of the
type that the path gave it last, or not be known (`Covered`). Where two branches meet this is so, as
their types are joined and a branch is left out only if its end is not reached. It is also so for
operands that may be skipped, and after an error is caught.

It is not so for all that is given in the cases of a switch, since each case is visited as if all
cases before it had run, nor for all that is given before an error is thrown. What we show is about
*steady* variables (`Trail.isSteady`): those that such types do not reach. A variable that is given no
type in cases, in blocks with a handler and in loops is steady, and so is one that occurs in a single
case or block only.
-/

namespace ScriptCheck

open List

/-- The end is reached. -/
def Ending.isEnd : Ending → Bool
  | .completes => true
  | _ => false

theorem Ending.isEnd_iff {o : Ending} : o.isEnd = true ↔ o = .completes := by
  cases o <;> simp [isEnd]

/-! ### Current and last types -/

namespace Env

/-- The current type of a variable covers the one that it was given last. -/
def Knows (env : Env) (id : SymbolId) (last : Option Ty) : Prop :=
  ∀ type ∈ last, ∃ current ∈ env.get? id, current.Covers type

variable {a b : Env} {id : SymbolId} {last : Option Ty}

theorem Knows.congr (h : a.Knows id last) (hget : b.get? id = a.get? id) : b.Knows id last := by
  unfold Knows
  rw [hget]
  exact h

/-- Where two paths meet, the current type covers what it covers on one of them. -/
theorem Knows.join (ha : a.Canonical) (hb : b.Canonical) (h : a.Knows id last ∨ b.Knows id last) :
    (a.join b).Knows id last := by
  intro type htype
  have hknown := h.imp (· type htype) (· type htype)
  rw [get?_join]
  cases hx : a.get? id with
  | none => simpa [hx] using hknown
  | some x =>
    cases hy : b.get? id with
    | none => simpa [hx, hy] using hknown
    | some y =>
      have hcovers : x.Covers type ∨ y.Covers type := by simpa [hx, hy] using hknown
      have hx := ha id x hx
      have hy := hb id y hy
      refine ⟨x.join y, rfl, hcovers.elim (fun h => ?_) fun h => ?_⟩
      · exact .trans (Ty.canonical_join hx hy) (Ty.join_covers_left hx hy) h
      · exact .trans (Ty.canonical_join hx hy) (Ty.join_covers_right hx hy) h

/-- Where a variable has the same type on two paths, it keeps it. -/
theorem get?_join_of_eq (ha : a.Canonical) (h : b.get? id = a.get? id) :
    (a.join b).get? id = a.get? id := by
  rw [get?_join, h]
  cases hget : a.get? id with
  | none => rfl
  | some type => exact congrArg some (Ty.join_self (ha id type hget))

end Env

namespace Walk

/-! ### Types that are given on a path -/

/-- The type that a deed gives a variable. -/
def Deed.gives (d : Deed) (id : SymbolId) : Option Ty :=
  (d.act.gives d.place.scope d.before.table).bind fun g => if g.1 = id then some g.2 else none

/-- Whether a deed reads a variable. -/
def Deed.reads (d : Deed) (id : SymbolId) : Bool := d.reading?.any (·.2 == .symbol id)

/-- The type that a variable was given last, after some deeds. -/
def lastGiven (id : SymbolId) : Option Ty → List Deed → Option Ty
  | last, [] => last
  | last, d :: ds => lastGiven id ((d.gives id).or last) ds

/-- Where the deeds of a path read a variable, its current type covers the one that it was given
last. -/
def Covered (id : SymbolId) : Option Ty → List Deed → Prop
  | _, [] => True
  | last, d :: ds =>
    (d.reads id = true → d.before.env.Knows id last) ∧ Covered id ((d.gives id).or last) ds

namespace Trail

variable (id : SymbolId)

/-- A variable is given no type on a trail. -/
def spares (t : Trail) : Bool := t.deeds.all fun d => (d.gives id).isNone

/-- A variable is not read on a trail. -/
def ignores (t : Trail) : Bool := t.deeds.all fun d => !d.reads id

/-- A variable does not occur on a trail. -/
def avoids (t : Trail) : Bool := t.spares id && t.ignores id

/-- Whether the current types of a variable keep up with all paths. Types that it is given in a block
with a handler must not matter in the handler and after it, those that it is given in a case must not
matter in other cases and after the switch, and those that it is given in a function must not matter
after that. In loops it is given none. It is known if the variable matters after the trail. -/
def isSteady : Bool → Trail → Bool
  | later, .andThen first rest =>
    first.isSteady (later || !rest.ignores id) && rest.isSteady later
  | later, .either yes no _ _ => yes.isSteady later && no.isSteady later
  | later, .maybe part => part.isSteady later
  | later, .tryCatch body handler _ noEnd => body.spares id && handler.isSteady later ||
    body.isSteady later && handler.ignores id && (noEnd || !later)
  | _, .loop start body update => start.spares id && body.spares id && update.spares id
  | later, .switch cases => cases.spares id || !later && cases.isSteady false
  | _, .case _ test body rest => test.avoids id &&
    (body.isSteady false && rest.avoids id || body.avoids id && rest.isSteady false)
  | later, .function _ body => body.spares id || !later
  | _, .done | _, .deed _ | _, .cut | _, .mayThrow | _, .exit | _, .returns _ | _, .breaks
  | _, .continues => true

end Trail

section Lists

variable {id : SymbolId} {last : Option Ty} {ds ds' : List Deed}

theorem lastGiven_append :
    lastGiven id last (ds ++ ds') = lastGiven id (lastGiven id last ds) ds' := by
  induction ds generalizing last with
  | nil => rfl
  | cons d ds ih => exact ih

theorem covered_append : Covered id last (ds ++ ds') ↔
    Covered id last ds ∧ Covered id (lastGiven id last ds) ds' := by
  induction ds generalizing last with
  | nil => simp [Covered, lastGiven]
  | cons d ds ih => simp [Covered, lastGiven, ih, and_assoc]

/-- Deeds that do not give a variable a type. -/
theorem lastGiven_of_spares (h : ∀ d ∈ ds, d.gives id = none) : lastGiven id last ds = last := by
  induction ds generalizing last with
  | nil => rfl
  | cons d ds ih =>
    obtain ⟨hd, hds⟩ := forall_mem_cons.mp h
    rw [lastGiven, hd, Option.none_or, ih hds]

theorem covered_of_spares (h : ∀ d ∈ ds, d.gives id = none)
    (hknows : ∀ d ∈ ds, d.before.env.Knows id last) : Covered id last ds := by
  induction ds with
  | nil => trivial
  | cons d ds ih =>
    obtain ⟨hd, hds⟩ := forall_mem_cons.mp h
    obtain ⟨hknown, hrest⟩ := forall_mem_cons.mp hknows
    refine ⟨fun _ => hknown, ?_⟩
    rw [hd, Option.none_or]
    exact ih hds hrest

/-- Deeds that do not read a variable. -/
theorem covered_of_ignores (h : ∀ d ∈ ds, d.reads id = false) : Covered id last ds := by
  induction ds generalizing last with
  | nil => trivial
  | cons d ds ih =>
    obtain ⟨hd, hds⟩ := forall_mem_cons.mp h
    refine ⟨fun hreads => ?_, ih hds⟩
    rw [hd] at hreads
    contradiction

end Lists

/-! ### Deeds on paths -/

namespace Trail

variable {t : Trail}

theorem deeds_bodies : t.bodies.deeds ⊆ t.deeds := by
  induction t with
  | case isDefault test body rest _ _ ih =>
    refine append_subset.mpr ⟨?_, ?_⟩
    · exact subset_append_of_subset_right _ (subset_append_left ..)
    · exact subset_append_of_subset_right _ (subset_append_of_subset_right _ ih)
  | _ => exact nil_subset _

theorem deeds_tests : t.tests.deeds ⊆ t.deeds := by
  induction t with
  | case isDefault test body rest _ _ ih =>
    refine append_subset.mpr ⟨subset_append_left .., ?_⟩
    exact subset_append_of_subset_right _ (subset_append_of_subset_right _ ih)
  | _ => exact nil_subset _

theorem deeds_unselected : t.unselected.deeds ⊆ t.deeds := by
  induction t with
  | case isDefault test body rest _ _ ih =>
    cases isDefault with
    | true => exact deeds_bodies (t := .case true test body rest)
    | false =>
      exact subset_append_of_subset_right _ (subset_append_of_subset_right _ ih)
  | _ => exact nil_subset _

theorem deeds_selected : ∀ way ∈ t.selected, way.deeds ⊆ t.deeds := by
  induction t with
  | case isDefault test body rest _ _ ih =>
    have hlater : ∀ way ∈ rest.selected.map (Trail.andThen test),
        way.deeds ⊆ (Trail.case isDefault test body rest).deeds := by
      intro way hway
      obtain ⟨w, hw, rfl⟩ := mem_map.mp hway
      refine append_subset.mpr ⟨subset_append_left .., ?_⟩
      exact subset_append_of_subset_right _ (subset_append_of_subset_right _ (ih w hw))
    cases isDefault with
    | true => exact hlater
    | false =>
      refine forall_mem_cons.mpr ⟨?_, hlater⟩
      refine append_subset.mpr ⟨subset_append_left .., ?_⟩
      exact deeds_bodies (t := .case false test body rest)
  | _ => exact nofun

/-- What runs of some cases, the tests before which no other holds aside. -/
def entries (cases : Trail) : List Trail := cases.bodies :: cases.unselected :: cases.selected

theorem deeds_entries : ∀ way ∈ t.entries, way.deeds ⊆ t.deeds := by
  refine forall_mem_cons.mpr ⟨deeds_bodies, ?_⟩
  exact forall_mem_cons.mpr ⟨deeds_unselected, deeds_selected⟩

/-- All ways through a switch are made of its cases. -/
theorem deeds_ways : ∀ way ∈ t.ways, way.deeds ⊆ t.deeds :=
  forall_mem_cons.mpr ⟨append_subset.mpr ⟨deeds_tests, deeds_unselected⟩, deeds_selected⟩

/-- The deeds that a path comes by are on the trail. -/
theorem Path.subset_deeds {ds : List Deed} {o : Ending} (h : t.Path ds o) : ds ⊆ t.deeds := by
  have hloop {start body update : Trail} :
      body.deeds ⊆ (Trail.loop start body update).deeds ∧
        update.deeds ⊆ (Trail.loop start body update).deeds :=
    append_subset.mp (subset_append_right ..)
  induction h with
  | deed d => exact List.Subset.refl _
  | leaves _ _ ih | yes _ ih | starts _ ih | tries _ _ ih =>
    exact subset_append_of_subset_left _ ih
  | no _ ih => exact subset_append_of_subset_right _ ih
  | takes _ ih => exact ih
  | goesOn _ _ ihfirst ihrest | catches _ _ ihfirst ihrest =>
    exact append_subset.mpr ⟨subset_append_of_subset_left _ ihfirst,
      subset_append_of_subset_right _ ihrest⟩
  | again _ _ _ _ _ ihstart ihbody ihupdate ihrest =>
    refine append_subset.mpr ⟨subset_append_of_subset_left _ ihstart, ?_⟩
    refine append_subset.mpr ⟨List.Subset.trans ihbody hloop.1, ?_⟩
    exact append_subset.mpr ⟨List.Subset.trans ihupdate hloop.2, ihrest⟩
  | updates _ _ _ _ ihstart ihbody ihupdate =>
    refine append_subset.mpr ⟨subset_append_of_subset_left _ ihstart, ?_⟩
    exact append_subset.mpr
      ⟨List.Subset.trans ihbody hloop.1, List.Subset.trans ihupdate hloop.2⟩
  | breaksLoop _ _ ihstart ihbody | leavesLoop _ _ _ ihstart ihbody =>
    exact append_subset.mpr
      ⟨subset_append_of_subset_left _ ihstart, List.Subset.trans ihbody hloop.1⟩
  | switch hway _ ih =>
    have hsubset := deeds_ways _ hway
    exact List.Subset.trans ih hsubset
  | done | cut | mayThrow | skips | ends | function | exit | returns | breaks | continues =>
    exact nil_subset _

end Trail

/-! ### Along a trail -/

/-- The current type of a variable after a deed. -/
theorem Deed.get?_after (d : Deed) (id : SymbolId) :
    d.after.env.get? id = (d.gives id).or (d.before.env.get? id) := by
  rw [d.did.env, Deed.gives]
  cases d.act.gives d.place.scope d.before.table with
  | none => rfl
  | some g => by_cases hid : g.1 = id <;> simp [Env.get?_set, hid]

section Merge

variable {s : State} {first : Env} {id : SymbolId} {last : Option Ty} (hfirst : first.Canonical)
  (hs : s.env.Canonical)

include hfirst hs

/-- After two branches, the type at the end of the first is covered if that is reached. -/
theorem knows_mergeBranches_first (h : first.Knows id last) (b : Bool) :
    (s.after (mergeBranches first false b)).env.Knows id last := by
  cases b with
  | true => exact h
  | false => exact .join hfirst hs (.inl h)

/-- After two branches, the type at the end of the second is covered if that is reached. -/
theorem knows_mergeBranches_second (h : s.env.Knows id last) (a : Bool) :
    (s.after (mergeBranches first a false)).env.Knows id last := by
  cases a with
  | true => exact h
  | false => exact .join hfirst hs (.inr h)

omit hs in
/-- A variable that has the same type after both branches keeps it. -/
theorem get?_mergeBranches (h : s.env.get? id = first.get? id) (a b : Bool) :
    (s.after (mergeBranches first a b)).env.get? id = first.get? id := by
  cases a with
  | true => exact h
  | false =>
    cases b with
    | true => rfl
    | false => exact Env.get?_join_of_eq hfirst h

end Merge

/-- The recorded and the current types are canonical. -/
structure State.Typed (s : State) : Prop where
  table : s.table.Canonical
  env : s.env.Canonical

namespace State.Typed

variable {s s' : State} (h : s.Typed)

include h

theorem aside (hs : s.Aside s') : s'.Typed :=
  ⟨hs.table.symm ▸ h.table, hs.env.symm ▸ h.env⟩

theorem setEnv {e : Env} (he : e.Canonical) : (s.after (setEnv e)).Typed := ⟨h.table, he⟩

theorem mergeBranches {first : Env} (hfirst : first.Canonical) (a b : Bool) :
    (s.after (mergeBranches first a b)).Typed := by
  cases a with
  | true => exact h
  | false =>
    cases b with
    | true => exact ⟨h.table, hfirst⟩
    | false => exact ⟨h.table, hfirst.join h.env⟩

end State.Typed

namespace Trail.Leads

variable {passes : PassSet} {t : Trail} {s s' : State}

/-- Along a trail the types stay canonical. -/
theorem typed (h : t.Leads passes s s') (hs : s.Typed) : s'.Typed := by
  induction t generalizing s s' with
  | deed d =>
    obtain ⟨hfits, -, hafter⟩ := h
    have hcanonical : d.after.Canonical := d.canonical_after hfits.act hfits.before
    exact State.Typed.aside ⟨hcanonical.table, hcanonical.env⟩ hafter
  | andThen first rest ihfirst ihrest =>
    obtain ⟨u, hfirst, hrest⟩ := h
    exact ihrest hrest (ihfirst hfirst hs)
  | either yes no a b ihyes ihno =>
    obtain ⟨u, v, hyes, hno, hmerge⟩ := h
    have hu := ihyes hyes hs
    exact ((ihno hno (hu.setEnv hs.env)).mergeBranches hu.env a b).aside hmerge
  | «maybe» part ih | switch part ih =>
    obtain ⟨u, hpart, hjoin⟩ := h
    exact ((ih hpart hs).mergeBranches hs.env false false).aside hjoin
  | loop start body update ihstart ihbody ihupdate =>
    obtain ⟨u, v, w, hstart, hbody, hupdate, hjoin⟩ := h
    have hu := ihstart hstart hs
    have hw := ihupdate hupdate (ihbody hbody hu)
    exact (hw.mergeBranches hu.env false false).aside hjoin
  | case _ test body rest ihtest ihbody ihrest =>
    obtain ⟨u, v, htest, hbody, hrest⟩ := h
    exact ihrest hrest (ihbody hbody (ihtest htest hs))
  | tryCatch body handler a b ihbody ihhandler =>
    obtain ⟨u, v, hbody, hhandler, hmerge⟩ := h
    have hu := ihbody hbody hs
    have hv := ihhandler hhandler (hu.setEnv (hs.env.join hu.env))
    exact (hv.mergeBranches hu.env a b).aside hmerge
  | function scope body ih =>
    obtain ⟨u, hbody, hend⟩ := h
    have hu := ih hbody hs
    exact (hu.setEnv (hs.env.afterFunction hu.table scope)).aside hend
  | done | cut | mayThrow | exit | returns | breaks | continues => exact hs.aside h

end Trail.Leads

/-- A variable that is given no type on a trail keeps the one that it has. -/
def Trail.Keeps (passes : PassSet) (id : SymbolId) (t : Trail) : Prop :=
  ∀ s s', t.Leads passes s s' → s.Typed → (∀ d ∈ t.deeds, d.gives id = none) →
    s'.env.get? id = s.env.get? id ∧ ∀ d ∈ t.deeds, d.before.env.get? id = s.env.get? id

namespace Trail.Keeps

variable {passes : PassSet} {first rest : Trail} {id : SymbolId}

theorem andThen (hfirst : first.Keeps passes id) (hrest : rest.Keeps passes id) :
    (Trail.andThen first rest).Keeps passes id := by
  rintro s s' ⟨u, hleads, hleads'⟩ hs hspares
  obtain ⟨hspares, hspares'⟩ := forall_mem_append.mp hspares
  obtain ⟨hu, hdeeds⟩ := hfirst s u hleads hs hspares
  obtain ⟨ht, hdeeds'⟩ := hrest u s' hleads' (hleads.typed hs) hspares'
  exact ⟨ht.trans hu, forall_mem_append.mpr ⟨hdeeds, hu ▸ hdeeds'⟩⟩

/-- Two branches, of which the second one starts from other types. -/
theorem merge (hfirst : first.Keeps passes id) (hrest : rest.Keeps passes id) {s u v : State}
    {e : Env} (hleads : first.Leads passes s u) (hleads' : rest.Leads passes (u.after (setEnv e)) v)
    (hs : s.Typed) (he : e.Canonical)
    (hget : u.env.get? id = s.env.get? id → e.get? id = s.env.get? id)
    (hspares : ∀ d ∈ first.deeds ++ rest.deeds, d.gives id = none) (a b : Bool) :
    (v.after (mergeBranches u.env a b)).env.get? id = s.env.get? id ∧
      ∀ d ∈ first.deeds ++ rest.deeds, d.before.env.get? id = s.env.get? id := by
  obtain ⟨hspares, hspares'⟩ := forall_mem_append.mp hspares
  have hu := hleads.typed hs
  obtain ⟨hkept, hdeeds⟩ := hfirst s u hleads hs hspares
  obtain ⟨hkept', hdeeds'⟩ := hrest _ v hleads' (hu.setEnv he) hspares'
  have hstart : (u.after (setEnv e)).env.get? id = s.env.get? id := hget hkept
  rw [hstart] at hkept' hdeeds'
  refine ⟨?_, forall_mem_append.mpr ⟨hdeeds, hdeeds'⟩⟩
  rw [get?_mergeBranches hu.env (hkept'.trans hkept.symm), hkept]

end Trail.Keeps

theorem Trail.keeps {passes : PassSet} {id : SymbolId} (t : Trail) : t.Keeps passes id := by
  induction t with
  | deed d =>
    rintro s s' ⟨-, hbefore, hafter⟩ _ hspares
    have hgives := hspares d (mem_singleton_self d)
    refine ⟨?_, forall_mem_singleton.mpr (congrArg (Env.get? · id) hbefore.env)⟩
    rw [hafter.env, d.get?_after, hgives, Option.none_or, hbefore.env]
  | andThen first rest ihfirst ihrest => exact ihfirst.andThen ihrest
  | either yes no a b ihyes ihno =>
    rintro s s' ⟨u, v, hyes, hno, hmerge⟩ hs hspares
    rw [hmerge.env]
    exact ihyes.merge ihno hyes hno hs hs.env (fun _ => rfl) hspares a b
  | «maybe» part ih | switch part ih =>
    rintro s s' ⟨u, hpart, hjoin⟩ hs hspares
    obtain ⟨hu, hdeeds⟩ := ih s u hpart hs hspares
    exact ⟨hjoin.env ▸ get?_mergeBranches hs.env hu false false, hdeeds⟩
  | loop start body update ihstart ihbody ihupdate =>
    rintro s s' ⟨u, v, w, hstart, hbody, hupdate, hjoin⟩ hs hspares
    obtain ⟨hspares, hspares'⟩ := forall_mem_append.mp hspares
    obtain ⟨hu, hdeeds⟩ := ihstart s u hstart hs hspares
    have htyped := hstart.typed hs
    obtain ⟨hw, hdeeds'⟩ := ihbody.andThen ihupdate u w ⟨v, hbody, hupdate⟩ htyped hspares'
    refine ⟨?_, forall_mem_append.mpr ⟨hdeeds, hu ▸ hdeeds'⟩⟩
    rw [hjoin.env, joinBefore, get?_mergeBranches htyped.env hw, hu]
  | case _ test body rest ihtest ihbody ihrest =>
    rintro s s' ⟨u, v, htest, hbody, hrest⟩
    exact ihtest.andThen (ihbody.andThen ihrest) s s' ⟨u, htest, v, hbody, hrest⟩
  | tryCatch body handler a b ihbody ihhandler =>
    rintro s s' ⟨u, v, hbody, hhandler, hmerge⟩ hs hspares
    rw [hmerge.env]
    exact ihbody.merge ihhandler hbody hhandler hs (hs.env.join (hbody.typed hs).env)
      (Env.get?_join_of_eq hs.env) hspares a b
  | function scope body ih =>
    rintro s s' ⟨u, hbody, hend⟩ hs hspares
    obtain ⟨hu, hdeeds⟩ := ih s u hbody hs hspares
    refine ⟨?_, hdeeds⟩
    rw [hend.env]
    obtain hsame | ⟨hne, -⟩ := Env.get?_afterFunction s.env u.env u.table scope id
    · exact hsame
    · exact absurd hu hne
  | done | cut | mayThrow | exit | returns | breaks | continues =>
    exact fun s s' h _ _ => ⟨congrArg (Env.get? · id) h.env, forall_mem_nil _⟩

/-! ### Along a path -/

section Path

variable {passes : PassSet} {t u : Trail} {s s' : State} {id : SymbolId} {last : Option Ty}
  {ds ds' : List Deed} {o : Ending}

theorem Trail.spares_iff : t.spares id = true ↔ ∀ d ∈ t.deeds, d.gives id = none := by
  simp [spares]

theorem Trail.ignores_iff : t.ignores id = true ↔ ∀ d ∈ t.deeds, d.reads id = false := by
  simp [ignores]

theorem Trail.avoids_iff : t.avoids id = true ↔ t.spares id = true ∧ t.ignores id = true := by
  simp [avoids]

/-- Some deeds of a trail that does not give a variable a type. -/
theorem Trail.lastGiven_of_subset (h : t.spares id = true) (hds : ds ⊆ t.deeds) :
    lastGiven id last ds = last :=
  lastGiven_of_spares fun d hd => spares_iff.mp h d (hds hd)

/-- Some deeds of a trail that does not read a variable. -/
theorem Trail.covered_of_subset (h : t.ignores id = true) (hds : ds ⊆ t.deeds) :
    Covered id last ds :=
  covered_of_ignores fun d hd => ignores_iff.mp h d (hds hd)

/-- Some deeds of a trail on which a variable does not occur, before others. -/
theorem Trail.covered_append_of_avoids (h : t.avoids id = true) (hds : ds ⊆ t.deeds)
    (hds' : Covered id last ds') : Covered id last (ds ++ ds') := by
  obtain ⟨hspares, hignores⟩ := avoids_iff.mp h
  refine covered_append.mpr ⟨covered_of_subset hignores hds, ?_⟩
  rwa [lastGiven_of_subset hspares hds]

/-- A trail on which a variable is given no type. -/
theorem Trail.Leads.knows (h : t.Leads passes s s') (hs : s.Typed) (hspares : t.spares id = true)
    (hknows : s.env.Knows id last) : s'.env.Knows id last :=
  hknows.congr (t.keeps s s' h hs (spares_iff.mp hspares)).1

theorem Trail.Leads.covered (h : t.Leads passes s s') (hs : s.Typed) (hspares : t.spares id = true)
    (hknows : s.env.Knows id last) (hds : ds ⊆ t.deeds) : Covered id last ds := by
  have hgives := spares_iff.mp hspares
  have hbefore := (t.keeps s s' h hs hgives).2
  exact covered_of_spares (fun d hd => hgives d (hds hd))
    fun d hd => hknows.congr (hbefore d (hds hd))

end Path

/-- Along the paths of a trail the current types of a variable cover those that it is given, and at
its end too if the variable matters there. -/
def Trail.Covers (passes : PassSet) (id : SymbolId) (later : Bool) (t : Trail) : Prop :=
  ∀ s s' last, t.Leads passes s s' → s.Typed → s.env.Knows id last → ∀ ds o, t.Path ds o →
    Covered id last ds ∧
      (later = true → o = .completes → s'.env.Knows id (lastGiven id last ds))

section Rules

variable {passes : PassSet} {id : SymbolId} {later a b : Bool} {t first rest body handler : Trail}

theorem covers_of_spares (h : t.spares id = true) : t.Covers passes id later := by
  intro s s' last hleads hs hknows ds o hpath
  have hsubset := hpath.subset_deeds
  refine ⟨hleads.covered hs h hknows hsubset, fun _ _ => ?_⟩
  rw [Trail.lastGiven_of_subset h hsubset]
  exact hleads.knows hs h hknows

theorem covers_deed (d : Deed) : (Trail.deed d).Covers passes id later := by
  intro s s' last hleads hs hknows ds o hpath
  obtain ⟨-, hbefore, hafter⟩ := hleads
  cases hpath
  refine ⟨⟨fun _ => hknows.congr (congrArg (Env.get? · id) hbefore.env), trivial⟩, fun _ _ => ?_⟩
  have hget := d.get?_after id
  rw [hbefore.env, ← hafter.env] at hget
  cases hgives : d.gives id with
  | none =>
    rw [hgives] at hget
    simp only [lastGiven, hgives, Option.none_or]
    exact hknows.congr hget
  | some type =>
    rw [hgives] at hget
    simp only [lastGiven, hgives, Option.some_or]
    exact fun t ht => ⟨type, hget, Option.some.inj ht ▸ .refl type⟩

theorem covers_andThen (hfirst : first.Covers passes id (later || !rest.ignores id))
    (hrest : rest.Covers passes id later) : (Trail.andThen first rest).Covers passes id later := by
  rintro s s' last ⟨u, hleads, hleads'⟩ hs hknows ds o hpath
  cases hpath with
  | leaves hpath ho =>
    have hcovered := hfirst s u last hleads hs hknows _ _ hpath
    exact ⟨hcovered.1, fun _ hcompletes => absurd hcompletes ho⟩
  | goesOn hpath hpath' =>
    obtain ⟨hcovered, hknows'⟩ := hfirst s u last hleads hs hknows _ _ hpath
    rw [covered_append, lastGiven_append]
    cases hmatters : later || !rest.ignores id with
    | true =>
      have hu := hknows' hmatters rfl
      have hcovered' := hrest u s' _ hleads' (hleads.typed hs) hu _ _ hpath'
      exact ⟨⟨hcovered, hcovered'.1⟩, hcovered'.2⟩
    | false =>
      obtain ⟨hlater, hignores⟩ := Bool.or_eq_false_iff.mp hmatters
      rw [Bool.not_eq_false'] at hignores
      refine ⟨⟨hcovered, Trail.covered_of_subset hignores hpath'.subset_deeds⟩, fun h => ?_⟩
      exact absurd h (Bool.eq_false_iff.mp hlater)

/-- On a path through the first of two branches the types of the second one are added at the end. -/
theorem covers_first (h : first.Covers passes id later)
    (ha : a = true → ∀ ds, ¬first.Path ds .completes) {s u v : State} {last : Option Ty}
    (hleads : first.Leads passes s u) (hs : s.Typed) (hv : v.Typed) (hknows : s.env.Knows id last)
    {ds : List Deed} {o : Ending} (hpath : first.Path ds o) :
    Covered id last ds ∧ (later = true → o = .completes →
      (v.after (mergeBranches u.env a b)).env.Knows id (lastGiven id last ds)) := by
  obtain ⟨hcovered, hend⟩ := h s u last hleads hs hknows _ _ hpath
  refine ⟨hcovered, fun hlater ho => ?_⟩
  obtain rfl : a = false := Bool.eq_false_iff.mpr fun h => ha h _ (ho ▸ hpath)
  exact knows_mergeBranches_first (hleads.typed hs).env hv.env (hend hlater ho) b

theorem covers_either (hfirst : first.Covers passes id later) (hrest : rest.Covers passes id later)
    (ha : a = true → ∀ ds, ¬first.Path ds .completes)
    (hb : b = true → ∀ ds, ¬rest.Path ds .completes) :
    (Trail.either first rest a b).Covers passes id later := by
  rintro s s' last ⟨u, v, hleads, hleads', hmerge⟩ hs hknows ds o hpath
  have hu := hleads.typed hs
  have hv := hleads'.typed (hu.setEnv hs.env)
  rw [hmerge.env]
  cases hpath with
  | yes hpath => exact covers_first hfirst ha hleads hs hv hknows hpath
  | no hpath =>
    obtain ⟨hcovered, hend⟩ := hrest _ v last hleads' (hu.setEnv hs.env) hknows _ _ hpath
    refine ⟨hcovered, fun hlater ho => ?_⟩
    obtain rfl : b = false := Bool.eq_false_iff.mpr fun h => hb h _ (ho ▸ hpath)
    exact knows_mergeBranches_second hu.env hv.env (hend hlater ho) a

theorem covers_maybe (h : t.Covers passes id later) : (Trail.maybe t).Covers passes id later := by
  rintro s s' last ⟨u, hleads, hjoin⟩ hs hknows ds o hpath
  have hu := hleads.typed hs
  rw [hjoin.env]
  cases hpath with
  | skips => exact ⟨trivial, fun _ _ => knows_mergeBranches_first hs.env hu.env hknows false⟩
  | takes hpath =>
    obtain ⟨hcovered, hend⟩ := h s u last hleads hs hknows _ _ hpath
    exact ⟨hcovered, fun hlater ho =>
      knows_mergeBranches_second hs.env hu.env (hend hlater ho) false⟩

/-- The variable is given no type in a block with a handler. -/
theorem covers_tryCatch_of_spares (hbody : body.spares id = true)
    (hhandler : handler.Covers passes id later) (ha : a = true → ∀ ds, ¬body.Path ds .completes)
    (hb : b = true → ∀ ds, ¬handler.Path ds .completes) :
    (Trail.tryCatch body handler a b).Covers passes id later := by
  rintro s s' last ⟨u, v, hleads, hleads', hmerge⟩ hs hknows ds o hpath
  have hu := hleads.typed hs
  have hhandled := hu.setEnv (hs.env.join hu.env)
  have hv := hleads'.typed hhandled
  rw [hmerge.env]
  cases hpath with
  | tries hpath _ => exact covers_first (covers_of_spares hbody) ha hleads hs hv hknows hpath
  | catches hpath hpath' =>
    have hsubset := hpath.subset_deeds
    have hjoined := Env.Knows.join hs.env hu.env (.inl hknows)
    obtain ⟨hcovered, hend⟩ := hhandler _ v last hleads' hhandled hjoined _ _ hpath'
    rw [covered_append, lastGiven_append, Trail.lastGiven_of_subset hbody hsubset]
    refine ⟨⟨hleads.covered hs hbody hknows hsubset, hcovered⟩, fun hlater ho => ?_⟩
    obtain rfl : b = false := Bool.eq_false_iff.mpr fun h => hb h _ (ho ▸ hpath')
    exact knows_mergeBranches_second hu.env hv.env (hend hlater ho) a

/-- The variable is not read by the handler, nor after it. -/
theorem covers_tryCatch_of_ignores (hbody : body.Covers passes id later)
    (hhandler : handler.ignores id = true) (hlater : later = true → b = true)
    (ha : a = true → ∀ ds, ¬body.Path ds .completes)
    (hb : b = true → ∀ ds, ¬handler.Path ds .completes) :
    (Trail.tryCatch body handler a b).Covers passes id later := by
  rintro s s' last ⟨u, v, hleads, hleads', hmerge⟩ hs hknows ds o hpath
  have hu := hleads.typed hs
  have hv := hleads'.typed (hu.setEnv (hs.env.join hu.env))
  rw [hmerge.env]
  cases hpath with
  | tries hpath _ => exact covers_first hbody ha hleads hs hv hknows hpath
  | catches hpath hpath' =>
    have hcovered := (hbody s u last hleads hs hknows _ _ hpath).1
    refine ⟨covered_append.mpr ⟨hcovered, ?_⟩, fun h ho => ?_⟩
    · exact Trail.covered_of_subset hhandler hpath'.subset_deeds
    · exact absurd (ho ▸ hpath') (hb (hlater h) _)

/-- Variables that matter after a function are given no type in it. -/
theorem covers_function (scope : Nat) (h : later = true → body.spares id = true) :
    (Trail.function scope body).Covers passes id later := by
  intro s s' last hleads hs hknows ds o hpath
  cases hpath
  refine ⟨trivial, fun hlater _ => ?_⟩
  have hspares : (Trail.function scope body).spares id = true := h hlater
  exact hleads.knows hs hspares hknows

end Rules

/-! ### Cases of a switch -/

/-- Along the paths that enter one of some cases, the current types of a variable cover those that it
is given. In the tests the variable does not occur. -/
structure Trail.CoversCases (passes : PassSet) (id : SymbolId) (cases : Trail) : Prop where
  tests : cases.tests.avoids id = true
  entries : ∀ s s' last, cases.Leads passes s s' → s.Typed → s.env.Knows id last →
    ∀ way ∈ cases.entries, ∀ ds o, way.Path ds o → Covered id last ds

section Cases

variable {passes : PassSet} {id : SymbolId} {later isDefault : Bool}
  {cases test body rest way : Trail} {ds : List Deed} {o : Ending}

/-- A path along two trails, which may not come to the second one. -/
theorem Trail.Path.of_andThen {first : Trail} (h : (Trail.andThen first rest).Path ds o) :
    ∃ ds₁ ds₂, ds = ds₁ ++ ds₂ ∧ (∃ o, first.Path ds₁ o) ∧ (ds₂ = [] ∨ rest.Path ds₂ o) := by
  cases h with
  | leaves h _ => exact ⟨ds, [], (append_nil _).symm, ⟨_, h⟩, .inl rfl⟩
  | goesOn h h' => exact ⟨_, _, rfl, ⟨_, h⟩, .inr h'⟩

/-- Some deeds of the first test, then perhaps a path along the first body, then perhaps one that
enters the other cases. -/
def Trail.Splits (test body rest : Trail) (ds : List Deed) : Prop :=
  ∃ ds₁ ds₂ ds₃, ds = ds₁ ++ (ds₂ ++ ds₃) ∧ ds₁ ⊆ test.deeds ∧
    (ds₂ = [] ∨ ∃ o, body.Path ds₂ o) ∧ (ds₃ = [] ∨ ∃ way ∈ rest.entries, ∃ o, way.Path ds₃ o)

theorem Trail.Path.splits_bodies (h : (Trail.andThen body rest.bodies).Path ds o) :
    Trail.Splits test body rest ds := by
  obtain ⟨ds₂, ds₃, hds, hbody, hrest⟩ := h.of_andThen
  refine ⟨[], ds₂, ds₃, hds, nil_subset _, .inr hbody, hrest.imp_right fun h => ?_⟩
  exact ⟨_, mem_cons_self .., o, h⟩

theorem Trail.Path.splits_later (hway : way ∈ rest.selected)
    (h : (Trail.andThen test way).Path ds o) : Trail.Splits test body rest ds := by
  obtain ⟨ds₁, ds₃, hds, ⟨_, htest⟩, hrest⟩ := h.of_andThen
  refine ⟨ds₁, [], ds₃, hds, htest.subset_deeds, .inl rfl, hrest.imp_right fun h => ?_⟩
  exact ⟨way, mem_cons_of_mem _ (mem_cons_of_mem _ hway), o, h⟩

/-- A path into the first body, after its test. -/
theorem Trail.Path.splits_first (h : (Trail.andThen test (.andThen body rest.bodies)).Path ds o) :
    Trail.Splits test body rest ds := by
  obtain ⟨ds₁, ds', rfl, ⟨_, htest⟩, hrest⟩ := h.of_andThen
  obtain rfl | hrest := hrest
  · exact ⟨ds₁, [], [], rfl, htest.subset_deeds, .inl rfl, .inl rfl⟩
  · obtain ⟨ds₂, ds₃, rfl, hbody, hrest⟩ := hrest.of_andThen
    refine ⟨ds₁, ds₂, ds₃, rfl, htest.subset_deeds, .inr hbody, hrest.imp_right fun h => ?_⟩
    exact ⟨_, mem_cons_self .., o, h⟩

theorem Trail.Path.splits (hway : way ∈ (Trail.case isDefault test body rest).entries)
    (h : way.Path ds o) : Trail.Splits test body rest ds := by
  obtain rfl | rfl | hway := mem_cons.mp hway |>.imp_right mem_cons.mp
  · exact h.splits_bodies
  · cases isDefault with
    | true => exact h.splits_bodies
    | false =>
      refine ⟨[], [], ds, rfl, nil_subset _, .inl rfl, .inr ⟨_, ?_, o, h⟩⟩
      exact mem_cons_of_mem _ (mem_cons_self ..)
  · have hlater (hway : way ∈ rest.selected.map (Trail.andThen test)) :
        Trail.Splits test body rest ds := by
      obtain ⟨w, hw, rfl⟩ := mem_map.mp hway
      exact h.splits_later hw
    cases isDefault with
    | true => exact hlater hway
    | false =>
      obtain rfl | hway := mem_cons.mp hway
      · exact h.splits_first
      · exact hlater hway

theorem Trail.avoids_andThen {first : Trail} :
    (Trail.andThen first rest).avoids id = true ↔
      first.avoids id = true ∧ rest.avoids id = true := by
  simp only [avoids, spares, ignores, deeds, all_append, Bool.and_eq_true]
  exact and_and_and_comm

theorem Trail.avoids_tests (h : cases.avoids id = true) : cases.tests.avoids id = true := by
  obtain ⟨hspares, hignores⟩ := avoids_iff.mp h
  refine avoids_iff.mpr ⟨spares_iff.mpr fun d hd => ?_, ignores_iff.mpr fun d hd => ?_⟩
  · exact spares_iff.mp hspares d (deeds_tests hd)
  · exact ignores_iff.mp hignores d (deeds_tests hd)

/-- The variable occurs in the first body only. -/
theorem coversCases_body (htest : test.avoids id = true) (hbody : body.Covers passes id false)
    (hrest : rest.avoids id = true) : (Trail.case isDefault test body rest).CoversCases passes id := by
  refine ⟨Trail.avoids_andThen.mpr ⟨htest, Trail.avoids_tests hrest⟩, ?_⟩
  rintro s s' last ⟨u, v, hleads, hleads', -⟩ hs hknows way hway ds o hpath
  obtain ⟨ds₁, ds₂, ds₃, rfl, hsubset, hds₂, hds₃⟩ := hpath.splits hway
  refine Trail.covered_append_of_avoids htest hsubset (covered_append.mpr ⟨?_, ?_⟩)
  · obtain rfl | ⟨o', hpath'⟩ := hds₂
    · trivial
    · have hu := hleads.knows hs (Trail.avoids_iff.mp htest).1 hknows
      exact (hbody u v last hleads' (hleads.typed hs) hu ds₂ o' hpath').1
  · obtain rfl | ⟨w, hw, o', hpath'⟩ := hds₃
    · trivial
    · exact Trail.covered_of_subset (Trail.avoids_iff.mp hrest).2
        (List.Subset.trans hpath'.subset_deeds (Trail.deeds_entries w hw))

/-- The variable does not occur in the first body. -/
theorem coversCases_rest (htest : test.avoids id = true) (hbody : body.avoids id = true)
    (hrest : rest.CoversCases passes id) :
    (Trail.case isDefault test body rest).CoversCases passes id := by
  refine ⟨Trail.avoids_andThen.mpr ⟨htest, hrest.tests⟩, ?_⟩
  rintro s s' last ⟨u, v, hleads, hleads', hleads''⟩ hs hknows way hway ds o hpath
  obtain ⟨ds₁, ds₂, ds₃, rfl, hsubset, hds₂, hds₃⟩ := hpath.splits hway
  have hu := hleads.typed hs
  have hknows' := hleads'.knows hu (Trail.avoids_iff.mp hbody).1
    (hleads.knows hs (Trail.avoids_iff.mp htest).1 hknows)
  have hsubset' : ds₂ ⊆ body.deeds := by
    obtain rfl | ⟨o', hpath'⟩ := hds₂
    · exact nil_subset _
    · exact hpath'.subset_deeds
  refine Trail.covered_append_of_avoids htest hsubset ?_
  refine Trail.covered_append_of_avoids hbody hsubset' ?_
  obtain rfl | ⟨w, hw, o', hpath'⟩ := hds₃
  · trivial
  · exact hrest.entries v s' last hleads'' (hleads'.typed hu) hknows' w hw ds₃ o' hpath'

/-- Where there are no cases. -/
theorem coversCases_done (htests : cases.tests = .done) (hentries : cases.entries = [.done, .done]) :
    cases.CoversCases passes id := by
  refine ⟨htests ▸ rfl, fun s s' last _ _ _ way hway ds o hpath => ?_⟩
  obtain rfl : way = .done := by simpa [hentries] using hway
  cases hpath
  trivial

/-- A variable that occurs in one case only and does not matter after the switch. -/
theorem covers_switch (h : cases.CoversCases passes id) :
    (Trail.switch cases).Covers passes id false := by
  rintro s s' last ⟨u, hleads, -⟩ hs hknows ds o hpath
  refine ⟨?_, nofun⟩
  cases hpath with
  | switch hway hpath =>
    obtain rfl | hway := mem_cons.mp hway
    · obtain ⟨ds₁, ds₂, rfl, ⟨_, htests⟩, hrest⟩ := hpath.of_andThen
      refine Trail.covered_append_of_avoids h.tests htests.subset_deeds ?_
      obtain rfl | hrest := hrest
      · trivial
      · exact h.entries s u last hleads hs hknows _
          (mem_cons_of_mem _ (mem_cons_self ..)) ds₂ _ hrest
    · exact h.entries s u last hleads hs hknows _
        (mem_cons_of_mem _ (mem_cons_of_mem _ hway)) _ _ hpath

end Cases

/-! ### All trails -/

section

variable {passes : PassSet} {id : SymbolId}

mutual

/-- The types of a steady variable keep up with all paths. -/
theorem covers_of_isSteady : (t : Trail) → (later : Bool) → t.Honest → t.isSteady id later = true →
    t.Covers passes id later
  | .deed d, _, _, _ => covers_deed d
  | .andThen first rest, later, hhonest, h => by
    obtain ⟨hfirst, hrest⟩ := (Bool.and_eq_true _ _).mp h
    exact covers_andThen (covers_of_isSteady first _ hhonest.1 hfirst)
      (covers_of_isSteady rest later hhonest.2 hrest)
  | .either yes no a b, later, hhonest, h => by
    obtain ⟨hyes, hno⟩ := (Bool.and_eq_true _ _).mp h
    obtain ⟨hhonest, hhonest', ha, hb⟩ := hhonest
    exact covers_either (covers_of_isSteady yes later hhonest hyes)
      (covers_of_isSteady no later hhonest' hno) ha hb
  | .maybe part, later, hhonest, h => covers_maybe (covers_of_isSteady part later hhonest h)
  | .tryCatch body handler a b, later, hhonest, h => by
    obtain ⟨hhonest, hhonest', ha, hb⟩ := hhonest
    obtain h | h := (Bool.or_eq_true _ _).mp h
    · obtain ⟨hbody, hhandler⟩ := (Bool.and_eq_true _ _).mp h
      have hcovers := covers_of_isSteady handler later hhonest' hhandler
      exact covers_tryCatch_of_spares hbody hcovers ha hb
    · obtain ⟨h, hlater⟩ := (Bool.and_eq_true _ _).mp h
      obtain ⟨hbody, hhandler⟩ := (Bool.and_eq_true _ _).mp h
      have hcovers := covers_of_isSteady body later hhonest hbody
      refine covers_tryCatch_of_ignores hcovers hhandler ?_ ha hb
      rintro rfl
      simpa using hlater
  | .loop start body update, _, _, h => by
    refine covers_of_spares ?_
    simpa [Trail.isSteady, Trail.spares, and_assoc] using h
  | .switch cases, later, hhonest, h => by
    obtain h | h := (Bool.or_eq_true _ _).mp h
    · exact covers_of_spares h
    · obtain ⟨hlater, hcases⟩ := (Bool.and_eq_true _ _).mp h
      rw [Bool.not_eq_true'] at hlater
      rw [hlater]
      exact covers_switch (coversCases_of_isSteady cases hhonest hcases)
  | .function scope body, later, _, h => by
    refine covers_function scope ?_
    rintro rfl
    simpa [Trail.isSteady] using h
  | .case _ _ _ _, _, _, _ => fun _ _ _ _ _ _ _ _ hpath => nomatch hpath
  | .done, _, _, _ | .cut, _, _, _ | .mayThrow, _, _, _ | .exit, _, _, _ | .returns _, _, _, _
  | .breaks, _, _, _ | .continues, _, _, _ => covers_of_spares rfl

theorem coversCases_of_isSteady : (t : Trail) → t.Honest → t.isSteady id false = true →
    t.CoversCases passes id
  | .case _ test body rest, hhonest, h => by
    obtain ⟨htest, h⟩ := (Bool.and_eq_true _ _).mp h
    obtain ⟨-, hhonest, hhonest'⟩ := hhonest
    obtain h | h := (Bool.or_eq_true _ _).mp h
    · obtain ⟨hbody, hrest⟩ := (Bool.and_eq_true _ _).mp h
      exact coversCases_body htest (covers_of_isSteady body false hhonest hbody) hrest
    · obtain ⟨hbody, hrest⟩ := (Bool.and_eq_true _ _).mp h
      exact coversCases_rest htest hbody (coversCases_of_isSteady rest hhonest' hrest)
  | .deed _, _, _ | .andThen _ _, _, _ | .either _ _ _ _, _, _ | .maybe _, _, _
  | .tryCatch _ _ _ _, _, _ | .loop _ _ _, _, _ | .switch _, _, _ | .function _ _, _, _
  | .done, _, _ | .cut, _, _ | .mayThrow, _, _ | .exit, _, _ | .returns _, _, _
  | .breaks, _, _ | .continues, _, _ => coversCases_done rfl rfl

end

end

/-! ### Some paths -/

/-- Some paths of a trail, as far as it is nested up to a depth: each test goes either way, no loop
runs a round, and no expression throws. -/
def Trail.somePaths : Nat → Trail → List (List Deed × Ending)
  | 0, _ => []
  | _ + 1, .deed d => [([d], .completes)]
  | n + 1, .andThen first rest => (first.somePaths n).flatMap fun p =>
    if p.2.isEnd then (rest.somePaths n).map fun q => (p.1 ++ q.1, q.2) else [p]
  | n + 1, .either yes no _ _ => yes.somePaths n ++ no.somePaths n
  | n + 1, .maybe part => ([], .completes) :: part.somePaths n
  | n + 1, .switch cases =>
    cases.ways.flatMap fun way => (way.somePaths n).map fun p => (p.1, p.2.afterSwitch)
  | n + 1, .tryCatch body _ _ _ => (body.somePaths n).filter (·.2.isEnd)
  | _ + 1, .done | _ + 1, .cut | _ + 1, .mayThrow | _ + 1, .loop _ _ _ | _ + 1, .function _ _ =>
    [([], .completes)]
  | _ + 1, .exit => [([], .throws)]
  | _ + 1, .returns type => [([], .returns type)]
  | _ + 1, .breaks => [([], .breaks)]
  | _ + 1, .continues => [([], .continues)]
  | _ + 1, .case _ _ _ _ => []

theorem Trail.path_of_mem_somePaths {n : Nat} {t : Trail} {p : List Deed × Ending}
    (h : p ∈ t.somePaths n) : t.Path p.1 p.2 := by
  induction n generalizing t p with
  | zero => exact absurd h not_mem_nil
  | succ n ih =>
    cases t with
    | deed d =>
      cases mem_singleton.mp h
      exact .deed d
    | andThen first rest =>
      obtain ⟨q, hq, hp⟩ := mem_flatMap.mp h
      by_cases hend : q.2.isEnd = true
      · rw [if_pos hend] at hp
        obtain ⟨r, hr, rfl⟩ := mem_map.mp hp
        exact .goesOn (Ending.isEnd_iff.mp hend ▸ ih hq) (ih hr)
      · rw [if_neg hend] at hp
        cases mem_singleton.mp hp
        exact .leaves (ih hq) fun ho => hend (Ending.isEnd_iff.mpr ho)
    | either yes no a b => exact (mem_append.mp h).elim (.yes <| ih ·) (.no <| ih ·)
    | «maybe» part =>
      obtain rfl | hp := mem_cons.mp h
      · exact .skips part
      · exact .takes (ih hp)
    | switch cases =>
      obtain ⟨way, hway, hp⟩ := mem_flatMap.mp h
      obtain ⟨q, hq, rfl⟩ := mem_map.mp hp
      exact .switch hway (ih hq)
    | tryCatch body handler a b =>
      obtain ⟨hp, hend⟩ := mem_filter.mp h
      refine .tries (ih hp) ?_
      rw [Ending.isEnd_iff.mp hend]
      nofun
    | case => exact absurd h not_mem_nil
    | cut =>
      cases mem_singleton.mp h
      exact .cut (.inl rfl)
    | mayThrow =>
      cases mem_singleton.mp h
      exact .mayThrow (.inl rfl)
    | _ =>
      cases mem_singleton.mp h
      constructor

instance (env : Env) (id : SymbolId) (last : Option Ty) : Decidable (env.Knows id last) :=
  inferInstanceAs (Decidable (∀ type ∈ last, _))

/-- Whether the types of a variable keep up with a path can be computed. -/
def decidableCovered (id : SymbolId) : (last : Option Ty) → (ds : List Deed) →
    Decidable (Covered id last ds)
  | _, [] => inferInstanceAs (Decidable True)
  | last, d :: ds =>
    have := decidableCovered id ((d.gives id).or last) ds
    inferInstanceAs (Decidable (_ ∧ _))

instance (id : SymbolId) (last : Option Ty) (ds : List Deed) : Decidable (Covered id last ds) :=
  decidableCovered id last ds

end Walk

namespace Analysis

open Text Walk

/-- On every path, the current type of a steady variable covers the one that it was given last. -/
theorem covered_path (passes : PassSet) (fileExists : String → Bool) (program : Program)
    (id : SymbolId) (hsteady : (trail passes fileExists program).isSteady id false = true)
    (ds : List Deed) (o : Ending) (hpath : (trail passes fileExists program).Path ds o) :
    Covered id none ds := by
  have hleads := (follows_trail passes fileExists program).leads
  have hcanonical := State.canonical_initial (region program)
  have hhonest := honest_trail passes fileExists program
  exact (covers_of_isSteady _ false hhonest hsteady _ _ none hleads
    ⟨hcanonical.table, hcanonical.env⟩ nofun ds o hpath).1

/-- A variable with a type of its own in each branch. -/
def givenInBranches : List Char := "let x = 1; if (x) x = 'a'; else x = 2.5; x;".toList

theorem covered_path_branches :
    let t := trail .all (fun _ => false) (parse .normal givenInBranches).program
    t.isSteady ⟨0, 0⟩ false = true ∧
      (t.somePaths 40).map (fun p => lastGiven ⟨0, 0⟩ none p.1) = [some .string, some .double] ∧
      ∀ p ∈ t.somePaths 40, Covered ⟨0, 0⟩ none p.1 := by
  intro t
  have h : t.isSteady ⟨0, 0⟩ false = true ∧
      (t.somePaths 40).map (fun p => lastGiven ⟨0, 0⟩ none p.1) = [some .string, some .double] := by
    decide +kernel
  refine ⟨h.1, h.2, fun p hp => ?_⟩
  exact covered_path .all (fun _ => false) _ ⟨0, 0⟩ h.1 p.1 p.2 (Trail.path_of_mem_somePaths hp)

/-- A variable with a type of its own in one case, which is read in another one. -/
def givenInCase : List Char :=
  "let c = 2; let f = print; switch (c) { case 1: f = 1; break; case 2: f(); }".toList

/-- The second case is visited with the type from the first one, also if it is entered alone. -/
theorem not_covered_second_case :
    ∃ ds o, (trail .all (fun _ => false) (parse .normal givenInCase).program).Path ds o ∧
      ¬Covered ⟨0, 1⟩ none ds := by
  obtain ⟨p, hp, hlost⟩ :
      ∃ p ∈ (trail .all (fun _ => false) (parse .normal givenInCase).program).somePaths 40,
        ¬Covered ⟨0, 1⟩ none p.1 := by decide +kernel
  exact ⟨p.1, p.2, Trail.path_of_mem_somePaths hp, hlost⟩

end Analysis

end ScriptCheck
