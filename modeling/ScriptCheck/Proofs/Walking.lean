import ScriptCheck.Analysis.Walk
import ScriptCheck.Proofs.ScopeTable

/-!
# Sound steps of an analysis

A state of an analysis is *sound* if all that was required so far held, its table is well formed and
it has types only for symbols of the table. `Keeps T p W` says that a step `p`, taken in any sound
state with a table that extends `T`, leads to another such state, and that `W` holds of its value in
the table it leaves. What a step relies on, such as its scope, has to be in `T`; since tables only
grow, it can be relied on in all later steps too. There is one rule for each way to put steps
together, and one lemma for each step.
-/

namespace ScriptCheck

open List

/-! ### Current types -/

instance : Std.TransCmp SymbolId.compare :=
  inferInstanceAs (Std.TransCmp (compareLex (compareOn SymbolId.scope) (compareOn SymbolId.index)))

instance : Std.LawfulEqCmp SymbolId.compare where
  compare_self := by simp [SymbolId.compare]
  eq_of_compare := by
    rintro ⟨scope, index⟩ ⟨scope', index'⟩ h
    simpa [SymbolId.compare, Ordering.then_eq_eq] using h

namespace Env

/-- Types are known only for symbols of a table. -/
def Known (t : SymbolTable) (env : Env) : Prop := ∀ id, id ∈ env.types → t.hasSymbol id

variable {t t' : SymbolTable} {env env' : Env} {id : SymbolId}

theorem known_empty : empty.Known t := fun id h => absurd h (by simp [empty])

variable (h : env.Known t)

include h

theorem Known.mono (hext : t'.Extends t) : env.Known t' :=
  fun id hid => hext.hasSymbol (h id hid)

theorem Known.set (hid : t.hasSymbol id) (type : Ty) :
    (env.set id type).Known t := by
  intro id' hid'
  rcases Std.TreeMap.mem_insert.1 hid' with heq | hid'
  · rwa [← Std.LawfulEqCmp.eq_of_compare heq]
  · exact h id' hid'

theorem Known.setAll {entries : List (SymbolId × Ty)}
    (hentries : ∀ id ∈ entries.map Prod.fst, t.hasSymbol id) : (env.setAll entries).Known t := by
  intro id hid
  rcases Std.TreeMap.mem_insertMany_list.1 hid with hid | hid
  · exact h id hid
  · exact hentries id (by simpa using hid)

theorem Known.of_mem_toList {entry : SymbolId × Ty}
    (hentry : entry ∈ env.toList) :
    t.hasSymbol entry.1 := by
  refine h entry.1 (Std.TreeMap.mem_keys.1 ?_)
  rw [← Std.TreeMap.map_fst_toList_eq_keys]
  exact mem_map_of_mem hentry

theorem Known.join (h' : env'.Known t) : (env.join env').Known t := by
  refine h.setAll fun id hid => ?_
  simp only [map_map, mem_map] at hid
  obtain ⟨entry, hentry, rfl⟩ := hid
  change t.hasSymbol entry.1
  exact h'.of_mem_toList hentry

/-- What a function changed are symbols of the table. -/
theorem Known.changed (outer : Env) (scope : Nat) :
    ∀ id ∈ outer.changed env scope, t.hasSymbol id := by
  intro id hid
  obtain ⟨entry, hentry, hchanged⟩ := mem_filterMap.1 hid
  obtain ⟨-, hid⟩ := Option.ite_none_right_eq_some.1 hchanged
  exact Option.some.inj hid ▸ h.of_mem_toList hentry

theorem Known.afterFunction (h' : env'.Known t) (scope : Nat) :
    (env.afterFunction env' t scope).Known t := by
  refine h.setAll fun id hid => h'.changed env scope id ?_
  simp only [mem_map, mem_filterMap] at hid
  obtain ⟨_, ⟨id', hid', heq⟩, rfl⟩ := hid
  obtain ⟨_, -, rfl⟩ := Option.map_eq_some_iff.1 heq
  exact hid'

end Env

/-! ### Sound states -/

namespace Walk

variable {id : SymbolId}

/-- All that was required held, and types are known only for symbols of a well-formed table. -/
structure State.Sound (s : State) : Prop where
  sound : s.sound = true
  table : s.table.WellFormed
  env : s.env.Known s.table

theorem State.sound_initial {span : Span} (h : span.Fits) : (State.initial span).Sound :=
  ⟨by simpa [initial] using h, SymbolTable.wellFormed_empty span, Env.known_empty⟩

/-- What is known of a step from any sound state whose table extends `T`. -/
def Keeps {α : Type} (T : SymbolTable) (p : Walk α) (W : SymbolTable → α → Prop) : Prop :=
  ∀ s : State, s.Sound → s.table.Extends T →
    (p.run s).2.Sound ∧ (p.run s).2.table.Extends s.table ∧ W (p.run s).2.table (p.run s).1

variable {α β : Type} {T : SymbolTable} {ctx : Context}

namespace Keeps

variable {p : Walk α} {f : α → Walk β} {W W' : SymbolTable → α → Prop}
  {V : SymbolTable → β → Prop}

theorem bind (hp : Keeps T p W) (hf : ∀ a T', T'.Extends T → W T' a → Keeps T' (f a) V) :
    Keeps T (p >>= f) V := by
  intro s hs hext
  obtain ⟨hsound, hgrew, hW⟩ := hp s hs hext
  obtain ⟨hsound', hgrew', hV⟩ := hf _ _ (hgrew.trans hext) hW _ hsound (.refl _)
  exact ⟨hsound', hgrew'.trans hgrew, hV⟩

theorem pure {a : α} (h : ∀ T', T'.Extends T → W T' a) : Keeps T (Pure.pure a) W :=
  fun _ hs hext => ⟨hs, .refl _, h _ hext⟩

/-- The state can be asked for. -/
theorem get {f : State → Walk β}
    (h : ∀ s : State, s.Sound → s.table.Extends T → Keeps s.table (f s) V) :
    Keeps T (MonadState.get >>= f) V :=
  fun s hs hext => h s hs hext s hs (.refl _)

theorem modify {g : State → State} {W : SymbolTable → PUnit → Prop}
    (h : ∀ s : State, s.Sound → s.table.Extends T →
      (g s).Sound ∧ (g s).table.Extends s.table ∧ W (g s).table ⟨⟩) :
    Keeps T (modifyGet fun s => (⟨⟩, g s)) W :=
  h

end Keeps

/-- A step of which only the state matters. -/
abbrev Steady {α : Type} (T : SymbolTable) (p : Walk α) : Prop := Keeps T p fun _ _ => True

theorem steady_pure (a : α) : Steady T (pure a : Walk α) := .pure fun _ _ => trivial

/-- One step after another, of which only the states matter. -/
theorem Keeps.andThen {p : Walk α} {f : α → Walk β} {W : SymbolTable → α → Prop}
    {V : SymbolTable → β → Prop} (hp : Keeps T p W)
    (hf : ∀ a T', T'.Extends T → Keeps T' (f a) V) : Keeps T (p >>= f) V :=
  hp.bind fun a T' hext _ => hf a T' hext

/-- A step whose value is made into that of the whole. -/
theorem Keeps.thenPure {p : Walk α} {g : α → β} {W : SymbolTable → α → Prop} (hp : Keeps T p W) :
    Steady T (p >>= fun a => Pure.pure (g a)) :=
  hp.andThen fun a _ _ => steady_pure (g a)

/-- What soundness depends on is the same in two states. -/
structure State.Agrees (t s : State) : Prop where
  sound : t.sound = s.sound
  table : t.table = s.table
  env : t.env = s.env

theorem State.Sound.congr {s t : State} (h : s.Sound) (ht : t.Agrees s) : t.Sound :=
  ⟨ht.sound ▸ h.sound, ht.table ▸ h.table, ht.table ▸ ht.env ▸ h.env⟩

/-- A change of what soundness does not depend on. -/
theorem steady_modify {g : State → State} (h : ∀ s, (g s).Agrees s) :
    Steady T (modify g : Walk Unit) :=
  Keeps.modify fun s hs _ => ⟨hs.congr (h s), (h s).table ▸ .refl _, trivial⟩

theorem steady_require {holds : Bool} (h : holds = true) : Steady T (require holds) :=
  steady_modify fun _ => ⟨by simp [h], rfl, rfl⟩

theorem steady_report {span : Span} {finding : Finding} : Steady T (report ctx span finding) := by
  refine steady_modify fun s => ?_
  split <;> exact ⟨rfl, rfl, rfl⟩

/-! ### Current types -/

theorem keeps_env : Keeps T env fun T' e => e.Known T' :=
  .get fun _ hs _ => .pure fun _ hext => hs.env.mono hext

theorem steady_setEnv {e : Env} (h : e.Known T) : Steady T (setEnv e) :=
  Keeps.modify fun _ hs hext => ⟨⟨hs.sound, hs.table, h.mono hext⟩, .refl _, trivial⟩

theorem steady_mergeBranches {first : Env} (h : first.Known T) (a b : Bool) :
    Steady T (mergeBranches first a b) := by
  refine Keeps.modify fun s hs hext => ?_
  split
  · exact ⟨⟨hs.sound, hs.table, h.mono hext⟩, .refl _, trivial⟩
  · exact ⟨⟨hs.sound, hs.table, (h.mono hext).join hs.env⟩, .refl _, trivial⟩
  · exact ⟨hs, .refl _, trivial⟩

theorem steady_setType (h : T.hasSymbol id) (type : Ty) :
    Steady T (setType id type) :=
  Keeps.modify fun _ hs hext =>
    ⟨⟨hs.sound, hs.table, hs.env.set (hext.hasSymbol h) type⟩, .refl _, trivial⟩

/-! ### Scopes and symbols -/

theorem steady_symbol (h : T.hasSymbol id) : Steady T (symbol id) :=
  .get fun _ _ hext => (steady_require (hext.hasSymbol h)).thenPure

/-- A change of the table that keeps the number of scopes. -/
theorem State.Sound.withTable {s : State} (h : s.Sound) {t : SymbolTable}
    (hext : t.Extends s.table) (hlength : t.scopes.length = s.table.scopes.length) :
    State.Sound { s with table := t } :=
  ⟨h.sound, h.table.of_extends hext hlength, h.env.mono hext⟩

theorem steady_refer (name : Ident) (id : SymbolId) : Steady T (refer name id) :=
  Keeps.modify fun _ hs _ =>
    ⟨hs.withTable SymbolTable.extends_addReference rfl, SymbolTable.extends_addReference, trivial⟩

theorem steady_updateSymbol (h : T.hasSymbol id) {f : Symbol → Symbol}
    (hf : ∀ symbol, (f symbol).name = symbol.name) : Steady T (updateSymbol id f) := by
  refine .get fun s hs hext => .bind (steady_require (hext.hasSymbol h)) fun _ _ _ _ => ?_
  refine Keeps.modify fun _ hs _ => ?_
  have hgrew {t : SymbolTable} : (t.modifySymbol id f).Extends t :=
    SymbolTable.extends_modifySymbol hf
  exact ⟨hs.withTable hgrew (length_modify ..), hgrew, trivial⟩

theorem keeps_declareIn {scope : Nat} (h : T.hasScope scope) (symbol : Symbol) :
    Keeps T (declareIn scope symbol) fun T' found => T'.hasSymbol found.1 := by
  intro s hs hext
  obtain ⟨hhas, hgrew, hlength⟩ := SymbolTable.declare_spec symbol (hext.hasScope h)
  have hsound : State.Sound { s with sound := s.sound && s.table.hasScope scope } :=
    hs.congr ⟨by simp [hext.hasScope h], rfl, rfl⟩
  exact ⟨hsound.withTable hgrew hlength, hgrew, hhas⟩

section

variable (h : T.hasScope ctx.scope) (name : Ident)

include h

theorem keeps_openScope (kind : ScopeKind) (span : Span) :
    Keeps T (openScope ctx kind span) fun T' id => T'.hasScope id := by
  refine .get fun s _ hext => .bind (steady_require (hext.hasScope h)) fun _ T' hext' _ => ?_
  refine .bind (W := fun T'' _ => s.table.scopes.length < T''.scopes.length) ?_ ?_
  · refine Keeps.modify fun u hu hext'' => ?_
    -- the new scope takes the number that the table of `s` has free, or a later one
    have hlength := (hext''.trans hext').length_le
    have hscope := (hext''.trans (hext'.trans hext)).hasScope h
    refine ⟨⟨hu.sound, hu.table.push hscope kind span, hu.env.mono SymbolTable.extends_push⟩,
      SymbolTable.extends_push, ?_⟩
    simp only [SymbolTable.push, length_append, length_singleton]
    omega
  · refine fun _ T'' _ hlt => .pure fun _ hext => ?_
    have := hext.length_le
    simp only [SymbolTable.hasScope, decide_eq_true_eq]
    omega

theorem keeps_lookup :
    Keeps T (lookup ctx name) fun T' found => ∀ id ∈ found, T'.hasSymbol id := by
  refine .get fun s hs hext => ?_
  refine .bind (steady_require (hs.table.isRooted (hext.hasScope h))) fun _ _ hext' _ => ?_
  refine .pure fun _ hext'' id hid => ?_
  exact (hext''.trans hext').hasSymbol (SymbolTable.hasSymbol_of_lookup hid)

/-! ### Names -/

theorem keeps_declare (kind : SymbolKind) (type : Ty) :
    Keeps T (declare ctx name kind type) fun T' found => ∀ id ∈ found, T'.hasSymbol id := by
  unfold declare
  refine .bind (keeps_declareIn h _) fun found T' _ hfound => ?_
  obtain ⟨id, isNew⟩ := found
  cases isNew with
  | true =>
    refine .bind (steady_setType hfound type) fun _ _ hext _ => .pure ?_
    rintro _ hext' _ ⟨⟩
    exact (hext'.trans hext).hasSymbol hfound
  -- a name that is taken answers nothing, though the symbol that has it is in the table
  | false => exact .bind steady_report fun _ _ _ _ => .pure fun _ _ _ h => nomatch h

omit h in
theorem steady_globalType : Steady T (globalType ctx name) := by
  unfold globalType
  split
  · exact steady_pure _
  · exact steady_pure _
  · exact .thenPure steady_report

theorem steady_read : Steady T (read ctx name) := by
  refine .bind (keeps_lookup h name) fun found T' _ hfound => ?_
  cases found with
  | some id =>
    have hid := hfound id rfl
    refine .bind (steady_refer name id) fun _ _ hext _ => ?_
    refine .bind (steady_updateSymbol (hext.hasSymbol hid) fun _ => rfl) fun _ _ hext' _ => ?_
    refine .bind (steady_symbol ((hext'.trans hext).hasSymbol hid)) fun _ _ _ _ => ?_
    exact .thenPure keeps_env
  | none => exact steady_globalType name

omit h in
theorem steady_assignSymbol {id : SymbolId} (hid : T.hasSymbol id) (name : Ident) (type : Ty) :
    Steady T (assignSymbol ctx name type id) := by
  refine (steady_refer name id).andThen fun _ _ hext => ?_
  refine (steady_symbol (hext.hasSymbol hid)).andThen fun declared _ hext' => ?_
  have hid := (hext'.trans hext).hasSymbol hid
  split
  · exact steady_report
  · refine .andThen (steady_updateSymbol hid fun _ => rfl) fun _ _ hext => ?_
    exact steady_setType (hext.hasSymbol hid) type

theorem steady_assign (type : Ty) : Steady T (assign ctx name type) := by
  refine (keeps_lookup h name).bind fun found T' hext hfound => ?_
  cases found with
  | some id => exact steady_assignSymbol (hfound id rfl) name type
  | none =>
    refine .get fun s hs hext' => ?_
    have hscope := hs.table.functionScope ((hext'.trans hext).hasScope h)
    exact (keeps_declareIn hscope _).bind fun found _ _ hfound => steady_setType hfound type

theorem steady_recordFunction (type : Ty) :
    Steady T (recordFunction ctx name type) := by
  refine (keeps_lookup h name).bind fun found T' _ hfound => ?_
  cases found with
  | some id =>
    have hid := hfound id rfl
    refine (steady_symbol hid).andThen fun declared _ hext => ?_
    have hid := hext.hasSymbol hid
    split
    · refine .andThen (steady_updateSymbol hid fun _ => rfl) fun _ _ hext => ?_
      exact steady_setType (hext.hasSymbol hid) type
    · exact steady_setType hid type
  | none => exact steady_pure _

theorem steady_declareImport (source : String) (name : Ident) (specifier : Option String)
    (type : Ty) : Steady T (declareImport ctx source name specifier type) := by
  refine (keeps_declare h name .imported type).bind fun found T' _ hfound => ?_
  cases found with
  | some id => exact steady_updateSymbol (hfound id rfl) fun _ => rfl
  | none => exact steady_pure _

theorem steady_countExported (names : List Ident) : Steady T (countExported ctx names) := by
  induction names generalizing T with
  | nil => exact steady_pure _
  | cons name rest ih =>
    refine (keeps_lookup h name).bind fun found T' hext hfound => ?_
    have h := hext.hasScope h
    cases found with
    | some id =>
      exact .andThen (steady_updateSymbol (hfound id rfl) fun _ => rfl) fun _ _ hext =>
        ih (hext.hasScope h)
    | none => exact ih h

end

end Walk

end ScriptCheck
