import ScriptCheck.Proofs.Divergence
import ScriptCheck.Proofs.ReadPositions

/-!
# Surveys of trails

A *path* is what an execution makes of a trail: the deeds that it comes by, in order, and how it
ends. Each test goes either way, a loop runs any number of rounds, and an expression may throw at its
end. The tests of a switch are made in order until one of them holds; from there the bodies run until
one of them is left. If none holds, the default runs, wherever it stands. A function does nothing
where it stands.

A trail says of some branches that their end is not reached. It is *honest* if no path reaches it.
The trails of all visits are, since each path ends like an execution of the course of the statement.
The same induction over statements and expressions tells how many levels a trail takes and which
names it reads (`surveys_stmt`).
-/

namespace ScriptCheck

variable {c : Course}

/-- A case without a test. -/
def SwitchCase.isDefault : SwitchCase → Bool
  | .mk _ test _ => test.isNone

namespace Walk

open Course (RunsAll Selects)

/-! ### Ways through a switch -/

namespace Trail

/-- The bodies of some cases, one after the other. -/
def bodies : Trail → Trail
  | .case _ _ body rest => .andThen body rest.bodies
  | _ => .done

/-- The tests of some cases, one after the other. -/
def tests : Trail → Trail
  | .case _ test _ rest => .andThen test rest.tests
  | _ => .done

/-- What runs if no test of some cases holds. -/
def unselected : Trail → Trail
  | .case isDefault _ body rest => if isDefault then .andThen body rest.bodies else rest.unselected
  | _ => .done

/-- What runs if the test of one of some cases is the first to hold. -/
def selected : Trail → List Trail
  | .case isDefault test body rest =>
    let later := rest.selected.map (.andThen test)
    if isDefault then later else .andThen test (.andThen body rest.bodies) :: later
  | _ => []

/-- All ways through the cases of a switch. -/
def ways (cases : Trail) : List Trail := .andThen cases.tests cases.unselected :: cases.selected

/-! ### Paths -/

/-- An execution along a trail comes by some deeds and ends in a given way. -/
inductive Path : Trail → List Deed → Ending → Prop
  | done : Path .done [] .completes
  | deed (d : Deed) : Path (.deed d) [d] .completes
  | cut {o : Ending} (ho : Course.plain.Runs o) : Path .cut [] o
  | mayThrow {o : Ending} (ho : Course.plain.Runs o) : Path .mayThrow [] o
  | leaves {first rest : Trail} {ds : List Deed} {o : Ending} (hfirst : Path first ds o)
    (ho : o ≠ .completes) : Path (.andThen first rest) ds o
  | goesOn {first rest : Trail} {ds ds' : List Deed} {o : Ending}
    (hfirst : Path first ds .completes) (hrest : Path rest ds' o) :
    Path (.andThen first rest) (ds ++ ds') o
  | yes {yes no : Trail} {a b : Bool} {ds : List Deed} {o : Ending} (h : Path yes ds o) :
    Path (.either yes no a b) ds o
  | no {yes no : Trail} {a b : Bool} {ds : List Deed} {o : Ending} (h : Path no ds o) :
    Path (.either yes no a b) ds o
  | skips (part : Trail) : Path (.maybe part) [] .completes
  | takes {part : Trail} {ds : List Deed} {o : Ending} (h : Path part ds o) :
    Path (.maybe part) ds o
  | ends (start body update : Trail) : Path (.loop start body update) [] .completes
  /-- The test of a loop does not hold, or throws. -/
  | starts {start body update : Trail} {ds : List Deed} {o : Ending} (hstart : Path start ds o) :
    Path (.loop start body update) ds o
  | again {start body update : Trail} {ds ds' ds'' rest : List Deed} {o o' : Ending}
    (hstart : Path start ds .completes) (hbody : Path body ds' o)
    (ho : o = .completes ∨ o = .continues) (hupdate : Path update ds'' .completes)
    (hrest : Path (.loop start body update) rest o') :
    Path (.loop start body update) (ds ++ (ds' ++ (ds'' ++ rest))) o'
  /-- What follows a round throws. -/
  | updates {start body update : Trail} {ds ds' ds'' : List Deed} {o o' : Ending}
    (hstart : Path start ds .completes) (hbody : Path body ds' o)
    (ho : o = .completes ∨ o = .continues) (hupdate : Path update ds'' o') :
    Path (.loop start body update) (ds ++ (ds' ++ ds'')) o'
  | breaksLoop {start body update : Trail} {ds ds' : List Deed}
    (hstart : Path start ds .completes) (hbody : Path body ds' .breaks) :
    Path (.loop start body update) (ds ++ ds') .completes
  | leavesLoop {start body update : Trail} {ds ds' : List Deed} {o : Ending}
    (hstart : Path start ds .completes) (hbody : Path body ds' o)
    (ho : o = .throws ∨ ∃ type, o = .returns type) :
    Path (.loop start body update) (ds ++ ds') o
  | switch {cases way : Trail} {ds : List Deed} {o : Ending} (hway : way ∈ cases.ways)
    (h : Path way ds o) : Path (.switch cases) ds o.afterSwitch
  | tries {body handler : Trail} {a b : Bool} {ds : List Deed} {o : Ending}
    (hbody : Path body ds o) (ho : o ≠ .throws) : Path (.tryCatch body handler a b) ds o
  | catches {body handler : Trail} {a b : Bool} {ds ds' : List Deed} {o : Ending}
    (hbody : Path body ds .throws) (hhandler : Path handler ds' o) :
    Path (.tryCatch body handler a b) (ds ++ ds') o
  | function (scope : Nat) (body : Trail) : Path (.function scope body) [] .completes
  | exit : Path .exit [] .throws
  | returns (type : Ty) : Path (.returns type) [] (.returns type)
  | breaks : Path .breaks [] .breaks
  | continues : Path .continues [] .continues

/-- All that a trail says of ends that are not reached is true. What a function does when it is
called is left out. -/
def Honest : Trail → Prop
  | .andThen first rest => first.Honest ∧ rest.Honest
  | .either yes no a b => yes.Honest ∧ no.Honest ∧ (a = true → ∀ ds, ¬yes.Path ds .completes) ∧
    (b = true → ∀ ds, ¬no.Path ds .completes)
  | .maybe part => part.Honest
  | .loop start body update => start.Honest ∧ body.Honest ∧ update.Honest
  | .switch cases => cases.Honest
  | .case _ test body rest => test.Honest ∧ body.Honest ∧ rest.Honest
  | .tryCatch body handler a b => body.Honest ∧ handler.Honest ∧
    (a = true → ∀ ds, ¬body.Path ds .completes) ∧ (b = true → ∀ ds, ¬handler.Path ds .completes)
  | .done | .deed _ | .cut | .mayThrow | .function _ _ | .exit | .returns _ | .breaks
  | .continues => True

end Trail

/-! ### Putting trails together -/

/-- A trail is honest, and its paths end as said. -/
structure Tells (t : Trail) (runs : Ending → Prop) : Prop where
  ends : ∀ ds o, t.Path ds o → runs o
  honest : t.Honest

/-- The end is reached. -/
def Completes (o : Ending) : Prop := o = .completes

section Rules

variable {t u : Trail} {runs runs' : Ending → Prop}

namespace Tells

theorem mono (h : Tells t runs) (hle : ∀ o, runs o → runs' o) : Tells t runs' :=
  ⟨fun ds o hpath => hle o (h.ends ds o hpath), h.honest⟩

theorem andThen (ht : Tells t runs) (hu : Tells u runs') :
    Tells (.andThen t u) (Ending.Then runs runs') := by
  refine ⟨fun ds o hpath => ?_, ht.honest, hu.honest⟩
  cases hpath with
  | leaves hfirst ho => exact .inl ⟨ht.ends _ _ hfirst, ho⟩
  | goesOn hfirst hrest => exact .inr ⟨ht.ends _ _ hfirst, hu.ends _ _ hrest⟩

/-- What comes first always reaches its end. -/
theorem after (hu : Tells u runs) (ht : Tells t Completes) : Tells (.andThen t u) runs := by
  refine (ht.andThen hu).mono fun o ho => ?_
  obtain ⟨hfirst, hne⟩ | ⟨-, hrest⟩ := ho
  · exact absurd hfirst hne
  · exact hrest

/-- What comes first may throw. -/
theorem afterPlain (hu : Tells u runs) (ht : Tells t Course.plain.Runs)
    (hthrows : runs .throws) : Tells (.andThen t u) runs := by
  refine (ht.andThen hu).mono fun o ho => ?_
  obtain ⟨rfl | rfl, hne⟩ | ⟨-, hrest⟩ := ho
  · exact absurd rfl hne
  · exact hthrows
  · exact hrest

/-- What comes last always reaches its end. -/
theorem before (ht : Tells t runs) (hu : Tells u Completes) : Tells (.andThen t u) runs := by
  refine (ht.andThen hu).mono fun o ho => ?_
  obtain ⟨hfirst, -⟩ | ⟨hfirst, hrest⟩ := ho
  · exact hfirst
  · rw [show o = .completes from hrest]
    exact hfirst

theorem plain (h : Tells t Completes) : Tells t Course.plain.Runs := h.mono fun _ => .inl

end Tells

theorem tells_done : Tells .done Completes := by
  refine ⟨fun ds o hpath => ?_, trivial⟩
  cases hpath
  rfl

theorem tells_deed (d : Deed) : Tells (.deed d) Completes := by
  refine ⟨fun ds o hpath => ?_, trivial⟩
  cases hpath
  rfl

theorem tells_function (scope : Nat) (body : Trail) : Tells (.function scope body) Completes := by
  refine ⟨fun ds o hpath => ?_, trivial⟩
  cases hpath
  rfl

theorem tells_exit : Tells .exit Course.exit.Runs := by
  refine ⟨fun ds o hpath => ?_, trivial⟩
  cases hpath
  rfl

theorem tells_returns (type : Ty) : Tells (.returns type) (Course.returns type).Runs := by
  refine ⟨fun ds o hpath => ?_, trivial⟩
  cases hpath
  exact .inl rfl

theorem tells_breaks : Tells .breaks Course.breaks.Runs := by
  refine ⟨fun ds o hpath => ?_, trivial⟩
  cases hpath
  rfl

theorem tells_continues : Tells .continues Course.continues.Runs := by
  refine ⟨fun ds o hpath => ?_, trivial⟩
  cases hpath
  rfl

end Rules

/-! ### Cases -/

/-- The trail of the cases of a switch is honest, and the ways through it end as said. -/
structure TellsCases (t : Trail) (hasDefault : Bool) (courses : List Course) : Prop where
  honest : t.Honest
  tests : Tells t.tests Course.plain.Runs
  bodies : Tells t.bodies (RunsAll courses)
  unselected : ∀ ds o, t.unselected.Path ds o →
    if hasDefault then Selects courses o else o = .completes
  selected : ∀ way ∈ t.selected, ∀ ds o, way.Path ds o → o = .throws ∨ Selects courses o

theorem tellsCases_nil : TellsCases .done false [] := by
  refine ⟨trivial, tells_done.plain, tells_done, fun ds o hpath => ?_, nofun⟩
  exact tells_done.ends ds o hpath

theorem TellsCases.cons {test body rest : Trail} {courses : List Course}
    {hasDefault : Bool} (htest : Tells test Course.plain.Runs) (hbody : Tells body c.Runs)
    (hrest : TellsCases rest hasDefault courses) (isDefault : Bool) :
    TellsCases (.case isDefault test body rest) (isDefault || hasDefault) (c :: courses) := by
  have hbodies := hbody.andThen hrest.bodies
  refine ⟨⟨htest.honest, hbody.honest, hrest.honest⟩, hrest.tests.afterPlain htest (.inr rfl),
    hbodies, ?_, ?_⟩
  · intro ds o hpath
    cases isDefault with
    | true => exact .inl (hbodies.ends ds o hpath)
    | false =>
      have hlater := hrest.unselected ds o hpath
      cases hasDefault with
      | true => exact .inr hlater
      | false => exact hlater
  · have hlater : ∀ way ∈ rest.selected.map (Trail.andThen test), ∀ ds o, way.Path ds o →
        o = .throws ∨ Selects (c :: courses) o := by
      intro way hway ds o hpath
      obtain ⟨w, hw, rfl⟩ := List.mem_map.mp hway
      cases hpath with
      | leaves hfirst ho =>
        obtain rfl | rfl := htest.ends _ _ hfirst
        · exact absurd rfl ho
        · exact .inl rfl
      | goesOn hfirst hpath => exact (hrest.selected w hw _ _ hpath).imp id .inr
    cases isDefault with
    | true => exact hlater
    | false =>
      refine List.forall_mem_cons.mpr ⟨fun ds o hpath => ?_, hlater⟩
      cases hpath with
      | leaves hfirst ho =>
        obtain rfl | rfl := htest.ends _ _ hfirst
        · exact absurd rfl ho
        · exact .inl rfl
      | goesOn hfirst hpath => exact .inr (.inl (hbodies.ends _ _ hpath))

theorem TellsCases.switch {t : Trail} {hasDefault : Bool} {courses : List Course}
    (h : TellsCases t hasDefault courses) :
    Tells (.switch t) (Course.switch hasDefault courses).Runs := by
  refine ⟨fun ds o hpath => ?_, h.honest⟩
  cases hpath with
  | switch hway hpath =>
    next way o =>
    rcases List.mem_cons.mp hway with rfl | hway
    · cases hpath with
      | leaves hfirst ho =>
        obtain rfl | rfl := h.tests.ends _ _ hfirst
        · exact absurd rfl ho
        · exact .inl rfl
      | goesOn hfirst hpath =>
        have hunselected := h.unselected _ _ hpath
        cases hasDefault with
        | true => exact .inr (.inr ⟨o, hunselected, rfl⟩)
        | false =>
          have ho : o = .completes := hunselected
          rw [ho]
          exact .inr (.inl ⟨rfl, rfl⟩)
    · obtain rfl | hselects := h.selected way hway _ _ hpath
      · exact .inl rfl
      · exact .inr (.inr ⟨o, hselects, rfl⟩)

/-! ### Surveys -/

/-- The name that a deed reads. -/
def Deed.readName? (d : Deed) : Option Ident :=
  match d.act with
  | .read name => some name
  | _ => none

/-- A trail that starts at some depth is whole exactly if its levels are within the limit, and then
reads some names. -/
structure Charts (depth levels : Nat) (names : List Ident) (t : Trail) : Prop where
  whole : t.Whole ↔ depth + levels ≤ maxNesting
  reads : t.Whole → t.deeds.filterMap Deed.readName? = names

/-- It is known what a trail that starts at some depth reaches, and how its paths end. -/
structure Surveys (depth levels : Nat) (names : List Ident) (runs : Ending → Prop) (t : Trail) : Prop
    extends Charts depth levels names t, Tells t runs

section Rules

variable {depth n m : Nat} {xs ys : List Ident} {t u : Trail} {runs runs' : Ending → Prop}
  {ctx : Context}

/-- Two trails that are both part of a third one. -/
theorem Charts.both {v : Trail} (ht : Charts depth n xs t) (hu : Charts depth m ys u)
    (hwhole : v.Whole ↔ t.Whole ∧ u.Whole) (hdeeds : v.deeds = t.deeds ++ u.deeds) :
    Charts depth (max n m) (xs ++ ys) v := by
  constructor
  · rw [hwhole, ht.whole, hu.whole]
    omega
  · intro hv
    obtain ⟨hwt, hwu⟩ := hwhole.mp hv
    rw [hdeeds, List.filterMap_append, ht.reads hwt, hu.reads hwu]

/-- What comes first takes no level and reads nothing. -/
theorem Charts.after (hu : Charts depth n xs u) (ht : Charts depth 0 [] t) :
    Charts depth n xs (.andThen t u) := by
  have h := ht.both hu (v := .andThen t u) Iff.rfl rfl
  rwa [Nat.zero_max] at h

/-- A trail that takes no level and reads nothing. -/
theorem Tells.surveys (h : Tells t runs) (hd : depth ≤ maxNesting) (hwhole : t.Whole)
    (hreads : t.deeds.filterMap Deed.readName? = []) : Surveys depth 0 [] runs t :=
  ⟨⟨⟨fun _ => hd, fun _ => hwhole⟩, fun _ => hreads⟩, h⟩

theorem surveys_done (hd : depth ≤ maxNesting) : Surveys depth 0 [] Completes .done :=
  tells_done.surveys hd trivial rfl

theorem surveys_deed (hd : depth ≤ maxNesting) {d : Deed} (h : d.readName? = none) :
    Surveys depth 0 [] Completes (.deed d) :=
  (tells_deed d).surveys hd trivial (by simp [h])

namespace Surveys

theorem mono (h : Surveys depth n xs runs t) (hle : ∀ o, runs o → runs' o) :
    Surveys depth n xs runs' t :=
  ⟨h.toCharts, h.toTells.mono hle⟩

theorem plain (h : Surveys depth n xs Completes t) : Surveys depth n xs Course.plain.Runs t :=
  h.mono fun _ => .inl

theorem andThen (ht : Surveys depth n xs runs t) (hu : Surveys depth m ys runs' u) :
    Surveys depth (max n m) (xs ++ ys) (Ending.Then runs runs') (.andThen t u) :=
  ⟨ht.both hu.toCharts Iff.rfl rfl, ht.toTells.andThen hu.toTells⟩

/-- What comes first always reaches its end. -/
theorem next (ht : Surveys depth n xs Completes t) (hu : Surveys depth m ys runs u) :
    Surveys depth (max n m) (xs ++ ys) runs (.andThen t u) :=
  ⟨ht.both hu.toCharts Iff.rfl rfl, hu.toTells.after ht.toTells⟩

/-- What comes first takes no level and reads nothing. -/
theorem after (hu : Surveys depth n xs runs u) (ht : Surveys depth 0 [] Completes t) :
    Surveys depth n xs runs (.andThen t u) :=
  ⟨hu.toCharts.after ht.toCharts, hu.toTells.after ht.toTells⟩

/-- What comes last takes no level and reads nothing. -/
theorem before (ht : Surveys depth n xs runs t) (hu : Surveys depth 0 [] Completes u) :
    Surveys depth n xs runs (.andThen t u) := by
  have h := ht.both hu.toCharts (v := .andThen t u) Iff.rfl rfl
  rw [Nat.max_zero, List.append_nil] at h
  exact ⟨h, ht.toTells.before hu.toTells⟩

/-- What comes first may throw. -/
theorem afterPlain (hu : Surveys depth m ys runs u) (ht : Surveys depth n xs Course.plain.Runs t)
    (hthrows : runs .throws) : Surveys depth (max n m) (xs ++ ys) runs (.andThen t u) :=
  ⟨ht.both hu.toCharts Iff.rfl rfl, hu.toTells.afterPlain ht.toTells hthrows⟩

/-- What comes first may throw, and what comes last takes no level and reads nothing. -/
theorem closes (hu : Surveys depth 0 [] runs u) (ht : Surveys depth n xs Course.plain.Runs t)
    (hthrows : runs .throws) : Surveys depth n xs runs (.andThen t u) := by
  have h := hu.afterPlain ht hthrows
  rwa [Nat.max_zero, List.append_nil] at h

theorem thenPlain (ht : Surveys depth n xs Course.plain.Runs t)
    (hu : Surveys depth m ys Course.plain.Runs u) :
    Surveys depth (max n m) (xs ++ ys) Course.plain.Runs (.andThen t u) :=
  hu.afterPlain ht (.inr rfl)

theorem «maybe» (h : Surveys depth n xs Course.plain.Runs t) :
    Surveys depth n xs Course.plain.Runs (.maybe t) := by
  refine ⟨⟨h.whole, h.reads⟩, fun ds o hpath => ?_, h.honest⟩
  cases hpath with
  | skips => exact .inl rfl
  | takes hpart => exact h.ends _ _ hpart

/-- Both sides are said to reach their ends. -/
theorem choice (ht : Surveys depth n xs runs t) (hu : Surveys depth m ys runs u) :
    Surveys depth (max n m) (xs ++ ys) runs (.either t u false false) := by
  refine ⟨ht.both hu.toCharts Iff.rfl rfl, fun ds o hpath => ?_, ht.honest, hu.honest, nofun, nofun⟩
  cases hpath with
  | yes h => exact ht.ends _ _ h
  | no h => exact hu.ends _ _ h

theorem branch {yes no : Course} {a b : Bool} (ht : Surveys depth n xs yes.Runs t)
    (hu : Surveys depth m ys no.Runs u) (ha : a = true → ¬yes.Runs .completes)
    (hb : b = true → ¬no.Runs .completes) :
    Surveys depth (max n m) (xs ++ ys) (Course.branch yes no).Runs (.either t u a b) := by
  refine ⟨ht.both hu.toCharts Iff.rfl rfl, fun ds o hpath => ?_, ht.honest, hu.honest,
    fun h ds hpath => ?_, fun h ds hpath => ?_⟩
  · cases hpath with
    | yes h => exact .inr (.inl (ht.ends _ _ h))
    | no h => exact .inr (.inr (hu.ends _ _ h))
  · exact ha h (ht.ends _ _ hpath)
  · exact hb h (hu.ends _ _ hpath)

theorem loop {k : Nat} {zs : List Ident} {v : Trail}
    (ht : Surveys depth n xs Course.plain.Runs t) (hu : Surveys depth m ys c.Runs u)
    (hv : Surveys depth k zs Course.plain.Runs v) :
    Surveys depth (max n (max m k)) (xs ++ (ys ++ zs)) (Course.loop c).Runs (.loop t u v) := by
  refine ⟨ht.both (hu.andThen hv).toCharts Iff.rfl rfl, fun ds o hpath => ?_, ht.honest, hu.honest,
    hv.honest⟩
  have hplain {o : Ending} (ho : Course.plain.Runs o) : Iterates c.Runs o := by
    obtain rfl | rfl := ho
    · exact .ends
    · exact .throws
  -- the rounds after the first one are a path of the same loop
  generalize hloop : Trail.loop t u v = l at hpath
  induction hpath with
  | ends => exact .ends
  | starts hstart =>
    cases hloop
    exact hplain (ht.ends _ _ hstart)
  | again _ hbody ho _ _ _ _ _ ih =>
    cases hloop
    exact .again (hu.ends _ _ hbody) ho (ih rfl)
  | updates _ hbody ho hupdate =>
    cases hloop
    exact .again (hu.ends _ _ hbody) ho (hplain (hv.ends _ _ hupdate))
  | breaksLoop _ hbody =>
    cases hloop
    exact .breaks (hu.ends _ _ hbody)
  | leavesLoop _ hbody ho =>
    cases hloop
    obtain rfl | ⟨type, rfl⟩ := ho
    · exact .throws
    · exact .returns (hu.ends _ _ hbody)
  | _ => cases hloop

/-- Nothing is done after a round. -/
theorem rounds (ht : Surveys depth n xs Course.plain.Runs t)
    (hu : Surveys depth m ys c.Runs u) (hd : depth ≤ maxNesting) :
    Surveys depth (max n m) (xs ++ ys) (Course.loop c).Runs (.loop t u .done) := by
  have h := ht.loop hu (surveys_done hd).plain
  rwa [Nat.max_zero, List.append_nil] at h

theorem tryCatch {body handler : List Course} {a b : Bool} (ht : Surveys depth n xs (RunsAll body) t)
    (hu : Surveys depth m ys (RunsAll handler) u) (ha : a = true → ¬RunsAll body .completes)
    (hb : b = true → ¬RunsAll handler .completes) :
    Surveys depth (max n m) (xs ++ ys) (Course.tryCatch body handler).Runs (.tryCatch t u a b) := by
  refine ⟨ht.both hu.toCharts Iff.rfl rfl, fun ds o hpath => ?_, ht.honest, hu.honest,
    fun h ds hpath => ?_, fun h ds hpath => ?_⟩
  · cases hpath with
    | tries hbody ho => exact .inl ⟨ht.ends _ _ hbody, ho⟩
    | catches hbody hhandler => exact .inr ⟨ht.ends _ _ hbody, hu.ends _ _ hhandler⟩
  · exact ha h (ht.ends _ _ hpath)
  · exact hb h (hu.ends _ _ hpath)

theorem switch {hasDefault : Bool} {courses : List Course}
    (h : Charts depth n xs t ∧ TellsCases t hasDefault courses) :
    Surveys depth n xs (Course.switch hasDefault courses).Runs (.switch t) :=
  ⟨⟨h.1.whole, h.1.reads⟩, h.2.switch⟩

theorem function (h : Charts depth n xs t) (scope : Nat) :
    Surveys depth n xs Completes (.function scope t) :=
  ⟨⟨h.whole, h.reads⟩, tells_function scope t⟩

end Surveys

theorem surveys_nested {trail : Context → State → Trail} {s : State} (hd : ctx.AtDepth depth)
    (h : ∀ inner : Context, inner.AtDepth (depth + 1) →
      Surveys (depth + 1) n xs Course.plain.Runs (trail inner s)) :
    Surveys depth (n + 1) xs Course.plain.Runs (nestedTrail ctx trail s) := by
  obtain ⟨rfl, _⟩ := hd
  unfold nestedTrail
  split
  · refine ⟨⟨⟨False.elim, fun hle => ?_⟩, False.elim⟩, fun ds o hpath => ?_, trivial⟩
    · omega
    · cases hpath with
      | cut ho => exact ho
  · next hle =>
    have hdeeper : ctx.deeper.AtDepth (ctx.depth + 1) := ⟨rfl, Nat.lt_of_not_le hle⟩
    have hthrow : Tells .mayThrow Course.plain.Runs := by
      refine ⟨fun ds o hpath => ?_, trivial⟩
      cases hpath with
      | mayThrow ho => exact ho
    have hinner :=
      (hthrow.surveys hdeeper.le trivial rfl).closes (h ctx.deeper hdeeper) (.inr rfl)
    refine ⟨⟨?_, hinner.reads⟩, hinner.toTells⟩
    rw [hinner.whole]
    omega

end Rules

/-! ### Steps -/

section Steps

variable {depth : Nat} {ctx : Context} (hd : depth ≤ maxNesting)

include hd

theorem surveys_read (name : Ident) (s : State) :
    Surveys depth 0 [name] Completes (.deed ⟨ctx, .read name, s⟩) :=
  ⟨⟨⟨fun _ => hd, fun _ => trivial⟩, fun _ => rfl⟩, tells_deed _⟩

theorem surveys_openBlock (span : Option Span) (s : State) :
    Surveys depth 0 [] Completes (openBlockTrail ctx span s) := by
  cases span with
  | some span => exact surveys_deed hd rfl
  | none => exact surveys_done hd

theorem surveys_assignTarget (target : Expr) (type : Ty) (s : State) :
    Surveys depth 0 [] Completes (assignTargetTrail ctx target type s) := by
  unfold assignTargetTrail
  split
  · exact surveys_deed hd rfl
  · exact surveys_done hd

theorem surveys_hoistFunction (name : Option Ident) (params : List Param) (s : State) :
    Surveys depth 0 [] Completes (hoistFunctionTrail ctx name params s) := by
  cases name with
  | some name => exact surveys_deed hd rfl
  | none => exact surveys_done hd

theorem surveys_hoist (body : List Stmt) (s : State) :
    Surveys depth 0 [] Completes (hoistTrail ctx body s) := by
  refine hoistTrail_rule (P := fun _ _ t => Surveys depth 0 [] Completes t) ?_ ?_ body s
  · exact fun _ => surveys_done hd
  · intro name params _ s t ih
    exact ih.after (surveys_hoistFunction hd name params s)

theorem surveys_params (params : List Param) (s : State) :
    Surveys depth 0 [] Completes (paramsTrail ctx params s) := by
  induction params generalizing s with
  | nil => exact surveys_done hd
  | cons param rest ih => exact (ih _).after (surveys_deed hd rfl)

theorem surveys_imports (source : String) (typeOf : ImportSpec → Walk Ty) (specs : List ImportSpec)
    (s : State) : Surveys depth 0 [] Completes (importsTrail ctx source typeOf specs s) := by
  induction specs generalizing s with
  | nil => exact surveys_done hd
  | cons spec rest ih => exact (ih _).after (surveys_deed hd rfl)

theorem surveys_importNames (specs : List ImportSpec) (source : TextLit) (s : State) :
    Surveys depth 0 [] Completes (importNamesTrail ctx specs source s) := by
  unfold importNamesTrail
  split
  · exact surveys_done hd
  · split
    · exact surveys_imports hd _ _ specs s
    · exact surveys_imports hd _ _ specs s

theorem surveys_countExported (names : List Ident) (s : State) :
    Surveys depth 0 [] Completes (countExportedTrail ctx names s) := by
  induction names generalizing s with
  | nil => exact surveys_done hd
  | cons name rest ih => exact (ih _).after (surveys_deed hd rfl)

theorem surveys_readExported (specs : List ExportSpec) (s : State) :
    Surveys depth 0 (specs.map ExportSpec.name) Completes (readExportedTrail ctx specs s) := by
  induction specs generalizing s with
  | nil => exact surveys_done hd
  | cons spec rest ih => exact (surveys_read hd spec.name s).next (ih _)

theorem surveys_bindForIn (kind : Option SymbolKind) (name : Option Ident) (type : Ty) (s : State) :
    Surveys depth 0 [] Completes (bindForInTrail ctx kind name type s) := by
  unfold bindForInTrail
  split
  · exact surveys_deed hd rfl
  · exact surveys_deed hd rfl
  · exact surveys_done hd

theorem surveys_declareCaught (param : Option Ident) (s : State) :
    Surveys depth 0 [] Completes (declareCaughtTrail ctx param s) := by
  cases param with
  | some param => exact surveys_deed hd rfl
  | none => exact surveys_done hd

variable {n m : Nat} {xs ys : List Ident} {runs : Ending → Prop}

theorem surveys_sequence (body : List Stmt) {trail : Flow → State → Trail} (s : State)
    (h : Surveys depth n xs runs (trail .reachable (s.after (hoist ctx body)))) :
    Surveys depth n xs runs (sequenceTrail ctx body trail s) :=
  h.after (surveys_hoist hd body s)

omit hd in
/-- Where a function stands, its body does not run. -/
theorem surveys_function (hd : ctx.AtDepth depth) (span : Span) (params : List Param)
    {trail : Context → State → Trail} (s : State)
    (h : ∀ inner : Context, inner.AtDepth depth → ∀ u, Charts depth n xs (trail inner u)) :
    Surveys depth n xs Completes (functionTrail ctx span params trail s) := by
  refine Surveys.after (Surveys.function ?_ _) (surveys_deed hd.le rfl)
  refine Charts.after (h _ ?_ _) (surveys_params hd.le params _).toCharts
  exact ⟨hd.depth_eq, hd.le⟩

theorem surveys_functionDecl (name : Option Ident) (params : List Param) (visit : Walk Ty)
    {trail : State → Trail} (s : State) (h : ∀ u, Surveys depth n xs Completes (trail u)) :
    Surveys depth n xs Completes (functionDeclTrail ctx name params visit trail s) := by
  cases name with
  | some name =>
    have hrecorded (u : State) : Surveys depth n xs Completes (.andThen (trail u)
        (.deed ⟨ctx, .recordFunction name (u.answer visit), u.after visit⟩)) :=
      (h u).before (surveys_deed hd rfl)
    unfold functionDeclTrail
    dsimp only
    split
    · exact (hrecorded _).after (surveys_hoistFunction hd (some name) params _)
    · exact hrecorded _
  | none => exact h s

omit hd

variable {left right : State → Trail} (hleft : ∀ u, Surveys depth n xs Course.plain.Runs (left u))
  (hright : ∀ u, Surveys depth m ys Course.plain.Runs (right u))

include hleft hright

theorem surveys_binary (op : BinaryOp) (lhs : Walk Ty) (s : State) :
    Surveys depth (max n m) (xs ++ ys) Course.plain.Runs (binaryTrail op lhs left right s) := by
  unfold binaryTrail
  split
  · exact (hleft s).thenPlain (hright _).maybe
  · exact (hleft s).thenPlain (hright _)

theorem surveys_assigned (op : AssignOp) (target : Expr) (visit : Walk Ty) (s : State) :
    Surveys depth (max (if target.isOverwritten op then 0 else n) m)
      ((if target.isOverwritten op then [] else xs) ++ ys) Course.plain.Runs
      (assignedTrail op (isIdent target) visit left right s) := by
  cases op with
  | assign =>
    cases hname : isIdent target with
    | true => simpa [Expr.isOverwritten, hname, assignedTrail] using hright s
    | false =>
      simpa [Expr.isOverwritten, hname, assignedTrail] using (hleft s).thenPlain (hright _)
  | compound op =>
    simpa [Expr.isOverwritten, assignedTrail] using surveys_binary hleft hright op visit s

end Steps

/-! ### Statements and expressions -/

theorem runsAll_singleton {o : Ending} (h : c.Runs o) : RunsAll [c] o := by
  by_cases ho : o = .completes
  · subst ho
    exact .inr ⟨h, rfl⟩
  · exact .inl ⟨h, ho⟩

mutual

theorem surveys_stmt {depth : Nat} {ctx : Context} (hd : ctx.AtDepth depth) :
    (stmt : Stmt) → (s : State) →
    Surveys depth stmt.levels stmt.reads (course ctx stmt s).Runs (stmtTrail ctx stmt s)
  | .expr _ value, s => by
    rw [course]
    have hvalue := surveys_infer hd .value value s
    change Surveys _ _ _ _ (.andThen (inferTrail ctx .value value s)
      (if (s.after (infer ctx .value value)).answer (exits ctx value) then .exit else .done))
    split
    · exact (tells_exit.surveys hd.le trivial rfl).closes hvalue rfl
    · exact hvalue.before (surveys_done hd.le)
  | .decl _ kind ds, s => surveys_declarators hd kind.symbolKind ds s
  | .function span name params body, s =>
    (surveys_functionDecl hd.le name params _ s fun u =>
      surveys_function hd span params u fun _ hd v =>
        (surveys_sequence hd.le body v (surveys_stmts hd body .reachable _)).toCharts).plain
  | .ifElse _ test yes no, s =>
    let before := s.after (infer ctx .value test)
    let other := (before.after (stmt ctx yes)).after (setEnv before.env)
    Surveys.afterPlain
      ((surveys_stmt hd yes before).branch (surveys_stmtOption hd no other)
        (accounts_stmt ctx yes before).stops (accounts_stmtOption ctx no other).stops)
      (surveys_infer hd .value test s) (.inl rfl)
  | .whileLoop _ test body, s =>
    (surveys_infer hd .value test s).rounds (surveys_stmt hd.inLoop body _) hd.le
  | .forLoop span init test update body, s => by
    have hinner := hd.openBlock (if init.any declares then some span else none) s
    refine Surveys.after ?_ (surveys_openBlock hd.le _ s)
    refine (surveys_stmtOption hinner init _).andThen (Surveys.mono ?_ fun _ => runsAll_singleton)
    exact (surveys_inferOption hinner test _).loop (surveys_stmt hinner.inLoop body _)
      (surveys_inferOption hinner update _)
  | .forIn span kind key value iterable body, s => by
    let visited := s.after (typeOf (infer ctx .value iterable))
    have hinner := hd.openBlock (if kind.isSome then some span else none) visited
    refine Surveys.afterPlain ?_ (surveys_infer hd .value iterable s) .throws
    refine Surveys.after ?_ (surveys_openBlock hd.le _ visited)
    rw [← Nat.zero_max body.levels, ← List.nil_append body.reads]
    refine Surveys.rounds (Surveys.plain ?_) (surveys_stmt hinner.inLoop body _) hd.le
    exact (surveys_bindForIn hd.le _ (some value) _ _).after (surveys_bindForIn hd.le _ key _ _)
  | .switch span subject cs, s => by
    let before := s.after (infer ctx .value subject)
    have hinner := hd.openBlock (switchSpan span cs) before
    refine Surveys.afterPlain ?_ (surveys_infer hd .value subject s) (.inl rfl)
    refine Surveys.after ?_ (surveys_openBlock hd.le _ before)
    exact .switch (surveys_cases hinner.inSwitch cs _)
  | .tryCatch span body param handler, s => by
    have hinner := hd.openBlock (blockSpan span body) s
    refine Surveys.tryCatch ?_ ?_ ?_ ?_
    · refine Surveys.after ?_ (surveys_openBlock hd.le _ s)
      exact surveys_sequence hd.le body _ (surveys_stmts hinner body .reachable _)
    · refine Surveys.after ?_ (surveys_openBlock hd.le _ _)
      refine Surveys.after ?_ (surveys_declareCaught hd.le param _)
      exact surveys_sequence hd.le handler _
        (surveys_stmts (hd.openBlock _ _) handler .reachable _)
    · exact (accounts_sequence _ body _).stops
    · exact (accounts_sequence _ handler _).stops
  | .returns _ value, s =>
    ((tells_returns _).surveys hd.le trivial rfl).closes (surveys_inferOption hd value s) (.inr rfl)
  | .breaks _, _ => tells_breaks.surveys hd.le trivial rfl
  | .continues _, _ => tells_continues.surveys hd.le trivial rfl
  | .block span body, s => by
    have hinner := hd.openBlock (blockSpan span body) s
    refine Surveys.after ?_ (surveys_openBlock hd.le _ s)
    exact surveys_sequence hd.le body _ (surveys_stmts hinner body .reachable _)
  | .imports _ specs source, s => (surveys_importNames hd.le specs source s).plain
  | .exportDecl _ declaration, s =>
    (surveys_stmt hd declaration s).before (surveys_countExported hd.le _ _)
  | .exportDefault _ value, s => surveys_infer hd .value value s
  | .exportNames _ specs none, s => (surveys_readExported hd.le specs s).plain
  | .exportNames _ _ (some _), _ | .exportAll _ _ _, _ | .empty _, _ => (surveys_done hd.le).plain

theorem surveys_stmtOption {depth : Nat} {ctx : Context} (hd : ctx.AtDepth depth) :
    (stmt : Option Stmt) → (s : State) →
    Surveys depth (stmtOptionLevels stmt) (stmtOptionReads stmt) (courseOption ctx stmt s).Runs
      (stmtOptionTrail ctx stmt s)
  | some stmt, s => surveys_stmt hd stmt s
  | none, _ => (surveys_done hd.le).plain

theorem surveys_stmts {depth : Nat} {ctx : Context} (hd : ctx.AtDepth depth) :
    (ss : List Stmt) → (flow : Flow) → (s : State) →
    Surveys depth (stmtsLevels ss) (stmtsReads ss) (RunsAll (courses ctx ss flow s))
      (stmtsTrail ctx ss flow s)
  | [], _, _ => surveys_done hd.le
  | stmt :: rest, _, _ => (surveys_stmt hd stmt _).andThen (surveys_stmts hd rest _ _)

theorem surveys_declarators {depth : Nat} {ctx : Context} (hd : ctx.AtDepth depth)
    (kind : SymbolKind) : (ds : List Declarator) → (s : State) →
    Surveys depth (declaratorsLevels ds) (declaratorsReads ds) Course.plain.Runs
      (declaratorsTrail ctx kind ds s)
  | [], _ => (surveys_done hd.le).plain
  | .mk _ init :: rest, s =>
    (surveys_inferOption hd init s).thenPlain <|
      (surveys_declarators hd kind rest _).after (surveys_deed hd.le rfl)

theorem surveys_cases {depth : Nat} {ctx : Context} (hd : ctx.AtDepth depth) :
    (cs : List SwitchCase) → (s : State) →
    Charts depth (casesLevels cs) (casesReads cs) (casesTrail ctx cs s) ∧
      TellsCases (casesTrail ctx cs s) (cs.any SwitchCase.isDefault) (caseCourses ctx cs s)
  | [], _ => ⟨(surveys_done hd.le).toCharts, tellsCases_nil⟩
  | .mk _ test body :: rest, s =>
    let before := s.after (inferOption ctx test)
    have htest := surveys_inferOption hd test s
    have hbody := surveys_sequence hd.le body before (surveys_stmts hd body .reachable _)
    have ⟨hcharts, htells⟩ :=
      surveys_cases hd rest (before.after (sequence ctx body (stmts ctx body)))
    ⟨htest.both (hbody.both hcharts (v := .andThen _ _) Iff.rfl rfl) Iff.rfl rfl,
      .cons htest.toTells hbody.toTells htells _⟩

theorem surveys_infer {depth : Nat} {ctx : Context} (hd : ctx.AtDepth depth) (use : Use) :
    (e : Expr) → (s : State) →
    Surveys depth (e.levels use) e.reads Course.plain.Runs (inferTrail ctx use e s)
  | .ident name, s => by
    cases use with
    | callee => exact (surveys_read hd.le name s).plain
    | value =>
      change Surveys depth (0 + 1) _ _
        (nestedTrail ctx (fun ctx s => .deed ⟨ctx, .read name, s⟩) s)
      exact surveys_nested hd fun _ hd => (surveys_read hd.le name s).plain
  | .int _ _, _ | .double _ _, _ | .string _ _, _ | .regexp _ _ _, _ | .bool _ _, _ | .null _, _
  | .this _, _ | .invalid _, _ => surveys_nested hd fun _ hd => (surveys_done hd.le).plain
  | .template _ parts, s => surveys_nested hd fun _ hd => surveys_inferAll hd parts s
  | .array _ elements, s => surveys_nested hd fun _ hd => surveys_inferAll hd elements s
  | .object _ ps, s => surveys_nested hd fun _ hd => surveys_properties hd ps s
  | .spread _ value, s => surveys_nested hd fun _ hd => surveys_infer hd .value value s
  | .unary _ _ operand, s => surveys_nested hd fun _ hd => surveys_infer hd .value operand s
  | .update _ _ _ target, s => surveys_nested hd fun _ hd =>
    (surveys_infer hd .value target s).before (surveys_assignTarget hd.le target _ _)
  | .binary _ op lhs rhs, s => surveys_nested hd fun _ hd =>
    surveys_binary (fun u => surveys_infer hd .value lhs u)
      (fun u => surveys_infer hd .value rhs u) op _ s
  | .assign _ op target value, s => surveys_nested hd fun _ hd =>
    (surveys_assigned (fun u => surveys_infer hd .value target u)
      (fun u => surveys_infer hd .value value u) op target _ s).before
      (surveys_assignTarget hd.le target _ _)
  | .conditional _ test yes no, s => surveys_nested hd fun _ hd =>
    (surveys_infer hd .value test s).thenPlain <|
      (surveys_infer hd .value yes _).choice (surveys_infer hd .value no _)
  | .call _ callee args _, s => surveys_nested hd fun _ hd =>
    (surveys_infer hd .callee callee s).thenPlain (surveys_inferAll hd args _)
  | .member _ object _ _, s => by
    cases use with
    | callee => exact surveys_infer hd .value object s
    | value =>
      change Surveys depth (object.levels .value + 1) _ _
        (nestedTrail ctx (fun ctx s => inferTrail ctx .value object s) s)
      exact surveys_nested hd fun _ hd => surveys_infer hd .value object s
  | .index _ object index _, s => surveys_nested hd fun _ hd =>
    (surveys_infer hd .value object s).thenPlain (surveys_infer hd .value index _)
  | .function span _ params body, s | .arrowBlock span params body, s =>
    surveys_nested hd fun _ hd => (surveys_function hd span params s fun _ hd v =>
      (surveys_sequence hd.le body v (surveys_stmts hd body .reachable _)).toCharts).plain
  | .arrowExpr span params body, s => surveys_nested hd fun _ hd =>
    (surveys_function hd span params s fun _ hd v =>
      (surveys_infer hd .value body v).toCharts).plain
  | .paren _ e, s => by
    cases use with
    | callee => exact surveys_infer hd .callee e s
    | value =>
      change Surveys depth (e.levels .value + 1) _ _
        (nestedTrail ctx (fun ctx s => inferTrail ctx .value e s) s)
      exact surveys_nested hd fun _ hd => surveys_infer hd .value e s

theorem surveys_inferOption {depth : Nat} {ctx : Context} (hd : ctx.AtDepth depth) :
    (e : Option Expr) → (s : State) →
    Surveys depth (exprOptionLevels e) (exprOptionReads e) Course.plain.Runs (inferOptionTrail ctx e s)
  | some e, s => surveys_infer hd .value e s
  | none, _ => (surveys_done hd.le).plain

theorem surveys_inferAll {depth : Nat} {ctx : Context} (hd : ctx.AtDepth depth) :
    (es : List Expr) → (s : State) →
    Surveys depth (exprsLevels es) (exprsReads es) Course.plain.Runs (inferAllTrail ctx es s)
  | [], _ => (surveys_done hd.le).plain
  | e :: rest, s => (surveys_infer hd .value e s).thenPlain (surveys_inferAll hd rest _)

theorem surveys_properties {depth : Nat} {ctx : Context} (hd : ctx.AtDepth depth) :
    (ps : List Property) → (s : State) →
    Surveys depth (propertiesLevels ps) (propertiesReads ps) Course.plain.Runs
      (propertiesTrail ctx ps s)
  | [], _ => (surveys_done hd.le).plain
  | .named _ value :: rest, s | .spread value :: rest, s =>
    (surveys_infer hd .value value s).thenPlain (surveys_properties hd rest _)
  | .computed key value :: rest, s =>
    (surveys_infer hd .value key s).thenPlain <|
      (surveys_infer hd .value value _).thenPlain (surveys_properties hd rest _)
  | .shorthand name :: rest, s => by
    rw [propertiesLevels, ← Nat.zero_max (propertiesLevels rest)]
    exact (surveys_read hd.le name s).next (surveys_properties hd rest _)

end

end Walk

namespace Analysis

variable (passes : PassSet) (fileExists : String → Bool) (program : Program)

theorem surveys_trail : ∃ runs,
    Walk.Surveys 0 program.levels program.reads runs (trail passes fileExists program) := by
  have hroot : (outermost passes fileExists).AtDepth 0 := ⟨rfl, Nat.zero_le _⟩
  exact ⟨_, Walk.surveys_sequence hroot.le program.body _
    (Walk.surveys_stmts hroot program.body .reachable _)⟩

/-- The trail of a program is whole exactly if the levels of the program are within the limit, and
then reads the names of the program. -/
theorem charts_trail :
    Walk.Charts 0 program.levels program.reads (trail passes fileExists program) :=
  have ⟨_, h⟩ := surveys_trail passes fileExists program
  h.toCharts

/-- All that the trail of a program says of ends that are not reached is true. -/
theorem honest_trail : (trail passes fileExists program).Honest :=
  have ⟨_, h⟩ := surveys_trail passes fileExists program
  h.honest

end Analysis

end ScriptCheck
