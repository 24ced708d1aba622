import ScriptCheck.Proofs.CurrentTypes
import ScriptCheck.Proofs.NameSteps

/-!
# Where a trail leads

A trail *leads* from a state to another one if the deeds on it, made one after the other, change the
table, the current types and the findings about names as they differ between the two
(`Trail.Leads`). What else a visit does in between is *aside*: it leaves these three alone.

All types in a state are canonical, as deeds and other steps keep them (`Fine`).
-/

namespace ScriptCheck

open List

/-! ### Symbols of a table -/

namespace SymbolTable

variable {t : SymbolTable} {id : SymbolId}

theorem Leads.extends {t' : SymbolTable} (h : t.Leads t') : t'.Extends t := by
  induction h with
  | refl => exact .refl t
  | tail _ hstep ih =>
    refine Extends.trans ?_ ih
    cases hstep with
    | push kind parent span => exact extends_push
    | add isNew => exact extends_add
    | revise id hf => exact extends_modifySymbol hf.name
    | refer span id => exact extends_addReference

@[simp] theorem symbol?_push (t : SymbolTable) (kind : ScopeKind) (parent : Nat) (span : Span)
    (id : SymbolId) : (t.push kind parent span).symbol? id = t.symbol? id := by
  unfold symbol? push
  by_cases hlt : id.scope < t.scopes.length
  · rw [getElem?_append_left hlt]
  · rw [getElem?_append_right (Nat.le_of_not_lt hlt),
      getElem?_eq_none (Nat.le_of_not_lt hlt)]
    cases hnew : ([⟨kind, some parent, span, []⟩] : List Scope)[id.scope - t.scopes.length]? with
    | none => rfl
    | some s =>
      obtain rfl : s = ⟨kind, some parent, span, []⟩ := by
        simpa using mem_of_getElem? hnew
      rfl

@[simp] theorem symbol?_addReference (t : SymbolTable) (span : Span) (x id : SymbolId) :
    (t.addReference span x).symbol? id = t.symbol? id := rfl

theorem symbol?_modifySymbol (t : SymbolTable) (x id : SymbolId) (f : Symbol → Symbol) :
    (t.modifySymbol x f).symbol? id = if x = id then (t.symbol? id).map f else t.symbol? id := by
  unfold symbol? modifySymbol
  rw [getElem?_modify]
  cases hs : t.scopes[id.scope]? with
  | none => simp
  | some s =>
    by_cases hscope : x.scope = id.scope
    · have heq : x = id ↔ x.index = id.index := by
        cases x
        cases id
        simp_all
      simp only [hscope, if_true, heq, Option.bind_some]
      split <;> simp_all
    · have hne : x ≠ id := fun heq => hscope (heq ▸ rfl)
      simp [hscope, hne]

variable {scope : Nat} {symbol : Symbol}

/-- A new symbol is behind the others of its scope. -/
theorem symbol?_add {s : Scope} (hs : t.scopes[scope]? = some s) (symbol : Symbol)
    (id : SymbolId) : (t.add scope symbol).symbol? id =
      if id = ⟨scope, s.symbols.length⟩ then some symbol else t.symbol? id := by
  unfold symbol? add
  rw [getElem?_modify]
  by_cases hscope : scope = id.scope
  · subst hscope
    have heq : id = ⟨id.scope, s.symbols.length⟩ ↔ id.index = s.symbols.length := by
      cases id
      simp
    simp only [hs, heq, if_true, Option.map_eq_map, Option.map_some, Option.bind_some,
      getElem?_append]
    split
    · next hlt => rw [if_neg (Nat.ne_of_lt hlt)]
    · next hle =>
      split
      · next hidx => simp [hidx]
      · next hidx =>
        rw [getElem?_eq_none (Nat.le_of_not_lt hle), getElem?_eq_none]
        simp only [length_singleton]
        omega
  · have hne : id ≠ ⟨scope, s.symbols.length⟩ := fun heq => hscope (heq ▸ rfl)
    simp [hscope, hne]

/-- Nothing is added to a scope that is not there. -/
theorem add_of_none (hs : t.scopes[scope]? = none) (symbol : Symbol) : t.add scope symbol = t := by
  unfold add
  rw [modify_eq_self (List.getElem?_eq_none_iff.mp hs)]

/-- A new symbol, or one that was there before. -/
theorem of_symbol?_add {x : Symbol} (h : (t.add scope symbol).symbol? id = some x) :
    x = symbol ∨ t.symbol? id = some x := by
  cases hs : t.scopes[scope]? with
  | some s =>
    rw [symbol?_add hs] at h
    split at h
    · exact .inl (Option.some.inj h).symm
    · exact .inr h
  | none => exact .inr (add_of_none hs symbol ▸ h)

/-- The symbols that were there before stay. -/
theorem symbol?_add_of_some (scope : Nat) (new : Symbol) (h : t.symbol? id = some symbol) :
    (t.add scope new).symbol? id = some symbol := by
  cases hs : t.scopes[scope]? with
  | some s =>
    rw [symbol?_add hs, if_neg]
    · exact h
    · rintro rfl
      simp [symbol?, hs] at h
  | none => exact (add_of_none hs new).symm ▸ h

/-- The recorded types are canonical. -/
def Canonical (t : SymbolTable) : Prop :=
  ∀ id symbol, t.symbol? id = some symbol → symbol.type.Canonical

theorem canonical_empty (span : Span) : (empty span).Canonical := by
  rintro ⟨scope, index⟩ symbol h
  cases scope <;> simp [empty, symbol?] at h

theorem Canonical.modifySymbol (h : t.Canonical) {f : Symbol → Symbol}
    (hf : ∀ s, s.type.Canonical → (f s).type.Canonical) (x : SymbolId) :
    (t.modifySymbol x f).Canonical := by
  intro id symbol hsymbol
  rw [symbol?_modifySymbol] at hsymbol
  split at hsymbol
  · obtain ⟨s, hs, rfl⟩ := Option.map_eq_some_iff.mp hsymbol
    exact hf s (h id s hs)
  · exact h id symbol hsymbol

theorem Canonical.declare (h : t.Canonical) (scope : Nat) (hsymbol : symbol.type.Canonical) :
    (t.declare scope symbol).2.2.Canonical := by
  unfold SymbolTable.declare
  split
  · exact h
  · intro id x hx
    obtain rfl | hx := of_symbol?_add hx
    · exact hsymbol
    · exact h id x hx

end SymbolTable

/-! ### Findings -/

namespace Finding

/-- A finding that is made while a name is declared or used. -/
def isOfName : Finding → Bool
  | redeclaration _ | undefinedVariable _ | assignToConstant _ => true
  | _ => false

/-- The types that a finding shows are canonical. -/
def Canonical : Finding → Prop
  | notCallable type | arithmeticOnCompound type => type.Canonical
  | _ => True

end Finding

namespace Walk

/-! ### States with canonical types -/

/-- All types in a state are canonical. -/
structure State.Canonical (s : State) : Prop where
  table : s.table.Canonical
  env : s.env.Canonical
  returns : ∀ t ∈ s.returns, t.Canonical
  findings : ∀ f ∈ s.findings, f.value.Canonical

theorem State.canonical_initial (span : Span) : (State.initial span).Canonical :=
  ⟨SymbolTable.canonical_empty span, Env.canonical_empty, nofun, nofun⟩

theorem State.Canonical.withEnv {s : State} (h : s.Canonical) {e : Env} (he : e.Canonical) :
    State.Canonical { s with env := e } := ⟨h.table, he, h.returns, h.findings⟩

variable {α β : Type} {p : Walk α} {f : α → Walk β} {Q : α → Prop} {R : β → Prop} {ctx : Context}

/-- A step keeps to canonical types, and its answer has a property. -/
def Fine (p : Walk α) (Q : α → Prop) : Prop :=
  ∀ s : State, s.Canonical → (s.after p).Canonical ∧ Q (s.answer p)

/-- A step keeps to canonical types, whatever it answers. -/
abbrev JustFine (p : Walk α) : Prop := Fine p fun _ => True

theorem fine_pure {a : α} (h : Q a) : Fine (pure a) Q := fun _ hs => ⟨hs, h⟩

namespace Fine

theorem bind (hp : Fine p Q) (hf : ∀ a, Q a → Fine (f a) R) : Fine (p >>= f) R :=
  fun s hs => hf _ (hp s hs).2 _ (hp s hs).1

theorem thenPure (hp : Fine p Q) {g : α → β} (hg : ∀ a, Q a → R (g a)) :
    Fine (p >>= fun a => pure (g a)) R :=
  hp.bind fun a ha => fine_pure (hg a ha)

theorem get {f : State → Walk β} (h : ∀ s : State, s.Canonical → Fine (f s) R) :
    Fine (MonadState.get >>= f) R :=
  fun s hs => h s hs s hs

theorem modify {g : State → State} (h : ∀ s : State, s.Canonical → (g s).Canonical) :
    JustFine (modify g : Walk PUnit) :=
  fun s hs => ⟨h s hs, trivial⟩

end Fine

theorem fine_require (holds : Bool) : JustFine (require holds) :=
  .modify fun _ h => ⟨h.table, h.env, h.returns, h.findings⟩

theorem fine_report (span : Span) (finding : Finding) (h : finding.Canonical) :
    JustFine (report ctx span finding) := by
  refine .modify fun s hs => ?_
  split
  · refine ⟨hs.table, hs.env, hs.returns, fun f hf => ?_⟩
    rcases mem_append.mp hf with hf | hf
    · exact hs.findings f hf
    · rw [mem_singleton.mp hf]
      exact h
  · exact hs

theorem fine_setEnv {e : Env} (he : e.Canonical) : JustFine (setEnv e) :=
  .modify fun _ hs => hs.withEnv he

theorem fine_mergeBranches {first : Env} (h : first.Canonical) (a b : Bool) :
    JustFine (mergeBranches first a b) := by
  refine .modify fun _ hs => ?_
  split
  · exact hs.withEnv h
  · exact hs.withEnv (h.join hs.env)
  · exact hs

theorem fine_lookup (name : Ident) : JustFine (lookup ctx name) :=
  .get fun _ _ => (fine_require _).thenPure fun _ _ => trivial

theorem fine_symbol (id : SymbolId) : JustFine (symbol id) :=
  .get fun _ _ => (fine_require _).thenPure fun _ _ => trivial

/-! ### Deeds with canonical types -/

/-- The type that a step gives is canonical. -/
def Act.Canonical : Act → Prop
  | .assign _ type | .declare _ _ type | .declareImport _ _ _ type | .recordFunction _ type =>
    type.Canonical
  | .read _ | .countExported _ | .openScope _ _ => True

variable {act : Act} {scope : Nat} {t : SymbolTable}

theorem Act.Canonical.tableAfter (h : act.Canonical) (ht : t.Canonical) :
    (act.tableAfter scope t).Canonical := by
  cases act with
  | read name | countExported name =>
    simp only [Act.tableAfter]
    split
    · apply SymbolTable.Canonical.modifySymbol
      · exact ht
      · exact fun _ hs => hs
    · exact ht
  | assign name type =>
    simp only [Act.tableAfter]
    split
    · split
      · exact ht
      · apply SymbolTable.Canonical.modifySymbol
        · exact ht
        · exact fun _ hs => Ty.canonical_join hs h
    · exact ht.declare _ (by exact h)
  | declare name kind type => exact ht.declare scope (by exact h)
  | declareImport source name specifier type =>
    have hdeclare := ht.declare scope (show (Symbol.declared name.name .imported type
      name.span).type.Canonical from h)
    simp only [Act.tableAfter]
    split
    · apply hdeclare.modifySymbol
      exact fun _ hs => hs
    · exact hdeclare
  | recordFunction name type =>
    simp only [Act.tableAfter]
    split
    · split
      · apply ht.modifySymbol
        exact fun _ _ => h
      · exact ht
    · exact ht
  | openScope kind span =>
    simpa only [Act.tableAfter, SymbolTable.Canonical, SymbolTable.symbol?_push]

theorem Act.Canonical.gives (h : act.Canonical) {given : SymbolId × Ty}
    (hgives : act.gives scope t = some given) : given.2.Canonical := by
  cases act with
  | read | countExported | openScope => cases hgives
  | assign name type =>
    simp only [Act.gives] at hgives
    split at hgives
    · obtain ⟨-, hgives⟩ := Option.ite_none_left_eq_some.1 hgives
      exact Option.some.inj hgives ▸ h
    · exact Option.some.inj hgives ▸ h
  | declare | declareImport =>
    obtain ⟨-, hgives⟩ := Option.ite_none_right_eq_some.1 hgives
    exact Option.some.inj hgives ▸ h
  | recordFunction =>
    obtain ⟨_, -, rfl⟩ := Option.map_eq_some_iff.1 hgives
    exact h

theorem Act.canonical_finding {f : Located Finding} (h : act.finding? scope t = some f) :
    f.value.Canonical := by
  unfold Act.finding? at h
  repeat' split at h
  all_goals cases h <;> trivial

theorem answer_found {s : State} {name : Ident} {found : Option SymbolId}
    (h : s.table.lookup name.name ctx.scope = found) (f : Option SymbolId → Walk α) :
    s.answer (lookup ctx name >>= f) = (s.after (lookup ctx name)).answer (f found) := by
  subst h
  rfl

/-- Reading a name answers the type it has there, or the one it was declared with. -/
theorem canonical_read (name : Ident) {s : State} (hs : s.Canonical) :
    (s.answer (read ctx name)).Canonical := by
  have hgetD {o : Option Ty} (h : ∀ type, o = some type → type.Canonical) :
      (o.getD .unknown).Canonical := by
    cases o with
    | some type => exact h type rfl
    | none => trivial
  unfold read
  cases hfound : s.table.lookup name.name ctx.scope with
  | some id =>
    have hdeclared : ((Act.read name).tableAfter ctx.scope s.table).Canonical :=
      Act.Canonical.tableAfter trivial hs.table
    simp only [Act.tableAfter, hfound] at hdeclared
    rw [answer_found hfound]
    refine hgetD fun type htype => ?_
    rcases Option.or_eq_some_iff.1 (Option.orElse_eq_or.symm.trans htype) with hnow | ⟨-, hrecorded⟩
    · exact hs.env id type hnow
    · obtain ⟨symbol, hsymbol, rfl⟩ := Option.map_eq_some_iff.1 hrecorded
      exact hdeclared id symbol hsymbol
  | none =>
    rw [answer_found hfound]
    change (State.answer _ (globalType ctx name)).Canonical
    unfold globalType
    split
    · exact Builtin.canonical_signature _
    · exact Builtin.canonical_constant _
    · trivial

theorem Deed.changes (d : Deed) : d.before.Changes 2 d.after := by
  obtain ⟨ctx, act, s⟩ := d
  have hchanges {p : PassSet → Walk Unit} (h : Tame 2 p) := h.changes ctx.passes s
  cases act with
  | read name => exact hchanges ((tame_read ctx name).thenPure _)
  | assign name type => exact hchanges (tame_assign ctx name type)
  | declare name kind type => exact hchanges ((tame_declare ctx name kind type).thenPure _)
  | declareImport source name specifier type =>
    exact hchanges (tame_declareImport ctx source name specifier type)
  | recordFunction name type => exact hchanges (tame_recordFunction ctx name type)
  | countExported name => exact hchanges (tame_countExported ctx [name])
  | openScope kind span => exact hchanges ((tame_openScope ctx kind span).thenPure _)

/-- A deed takes nothing out of the table. -/
theorem Deed.extends_after (d : Deed) : d.after.table.Extends d.before.table :=
  d.changes.table.extends

theorem Deed.canonical_after (d : Deed) (h : d.act.Canonical) (hs : d.before.Canonical) :
    d.after.Canonical := by
  have hdid := d.did
  refine ⟨hdid.table ▸ h.tableAfter hs.table, ?_, ?_, ?_⟩
  · rw [hdid.env]
    cases hgives : d.act.gives d.place.scope d.before.table with
    | some given => exact hs.env.set (h.gives hgives) given.1
    | none => exact hs.env
  · rw [(d.changes.quiet (by decide)).1]
    exact hs.returns
  · rw [hdid.findings]
    intro f hf
    rcases mem_append.1 hf with hf | hf
    · exact hs.findings f hf
    · exact Act.canonical_finding (Option.mem_toList.1 (mem_of_mem_filter hf))

theorem steady_act {T : SymbolTable} (h : T.hasScope ctx.scope) (act : Act) :
    Steady T (act.step ctx) := by
  cases act with
  | read name => exact (steady_read h name).thenPure
  | assign name type => exact steady_assign h name type
  | declare name kind type => exact (keeps_declare h name kind type).thenPure
  | declareImport source name specifier type =>
    exact steady_declareImport h source name specifier type
  | recordFunction name type => exact steady_recordFunction h name type
  | countExported name => exact steady_countExported h [name]
  | openScope kind span => exact (keeps_openScope h kind span).thenPure

/-! ### Where trails lead -/

/-- Two states differ neither in the table nor in the findings about names. The later one is sound
only if the earlier one is. -/
structure State.SameNames (s t : State) : Prop where
  table : t.table = s.table
  findings : t.findings.filter (·.value.isOfName) = s.findings.filter (·.value.isOfName)
  sound : t.sound = true → s.sound = true

theorem State.SameNames.trans {s t u : State} (h : s.SameNames t) (h' : t.SameNames u) :
    s.SameNames u :=
  ⟨h'.table.trans h.table, h'.findings.trans h.findings, fun hu => h.sound (h'.sound hu)⟩

/-- Between two states nothing happens to names. -/
structure State.Aside (s t : State) : Prop extends s.SameNames t where
  env : t.env = s.env

namespace State.Aside

variable {s t u : State}

theorem of_eq (htable : t.table = s.table) (hfindings : t.findings = s.findings)
    (hsound : t.sound = s.sound) (henv : t.env = s.env) : s.Aside t :=
  ⟨⟨htable, by rw [hfindings], fun h => hsound ▸ h⟩, henv⟩

theorem refl (s : State) : s.Aside s := .of_eq rfl rfl rfl rfl

theorem trans (h : s.Aside t) (h' : t.Aside u) : s.Aside u :=
  ⟨h.toSameNames.trans h'.toSameNames, h'.env.trans h.env⟩

end State.Aside

theorem State.sameNames_setEnv (s : State) (e : Env) : s.SameNames (s.after (setEnv e)) :=
  ⟨rfl, rfl, id⟩

theorem State.sameNames_mergeBranches (s : State) (e : Env) (a b : Bool) :
    s.SameNames (s.after (mergeBranches e a b)) := by
  cases a <;> cases b <;> exact ⟨rfl, rfl, id⟩

theorem State.extends_mergeBranches (s : State) (e : Env) (a b : Bool) :
    (s.after (mergeBranches e a b)).table.Extends s.table :=
  (s.sameNames_mergeBranches e a b).table ▸ .refl _

/-- A deed that is done under some passes, with canonical types. -/
structure Deed.Fits (passes : PassSet) (d : Deed) : Prop where
  passes : d.place.passes = passes
  before : d.before.Canonical
  act : d.act.Canonical

/-- The deeds of a trail lead from one state to another. -/
def Trail.Leads (passes : PassSet) : Trail → State → State → Prop
  | .deed d, s, t => d.Fits passes ∧ s.Aside d.before ∧ d.after.Aside t
  | .andThen first rest, s, t => ∃ u, first.Leads passes s u ∧ rest.Leads passes u t
  | .either yes no a b, s, t => ∃ u v, yes.Leads passes s u ∧
    no.Leads passes (u.after (setEnv s.env)) v ∧ (v.after (mergeBranches u.env a b)).Aside t
  | .maybe part, s, t => ∃ u, part.Leads passes s u ∧ (u.after (joinBefore s.env)).Aside t
  | .loop start body update, s, t => ∃ u v w, start.Leads passes s u ∧ body.Leads passes u v ∧
    update.Leads passes v w ∧ (w.after (joinBefore u.env)).Aside t
  | .switch cases, s, t => ∃ u, cases.Leads passes s u ∧ (u.after (joinBefore s.env)).Aside t
  | .case _ test body rest, s, t => ∃ u v, test.Leads passes s u ∧ body.Leads passes u v ∧
    rest.Leads passes v t
  | .tryCatch body handler a b, s, t => ∃ u v, body.Leads passes s u ∧
    handler.Leads passes (u.after (setEnv (s.env.join u.env))) v ∧
    (v.after (mergeBranches u.env a b)).Aside t
  | .function scope body, s, t => ∃ u, body.Leads passes s u ∧
    (u.after (setEnv (s.env.afterFunction u.env u.table scope))).Aside t
  | .done, s, t | .cut, s, t | .mayThrow, s, t | .exit, s, t | .returns _, s, t | .breaks, s, t
  | .continues, s, t => s.Aside t

namespace Trail.Leads

variable {passes : PassSet} {trail : Trail} {s s' t t' : State}

/-- What happens aside before a trail does not matter. -/
theorem before (h : trail.Leads passes s t) (hs : s'.Aside s) : trail.Leads passes s' t := by
  induction trail generalizing s s' t with
  | deed d => exact ⟨h.1, hs.trans h.2.1, h.2.2⟩
  | andThen first rest ihfirst _ =>
    obtain ⟨u, hfirst, hrest⟩ := h
    exact ⟨u, ihfirst hfirst hs, hrest⟩
  | either yes no a b ihyes _ =>
    obtain ⟨u, v, hyes, hno, hmerge⟩ := h
    rw [hs.env] at hno
    exact ⟨u, v, ihyes hyes hs, hno, hmerge⟩
  | «maybe» part ih =>
    obtain ⟨u, hpart, hjoin⟩ := h
    rw [hs.env] at hjoin
    exact ⟨u, ih hpart hs, hjoin⟩
  | loop start body update ihstart _ _ =>
    obtain ⟨u, v, w, hstart, hrest⟩ := h
    exact ⟨u, v, w, ihstart hstart hs, hrest⟩
  | switch cases ih =>
    obtain ⟨u, hcases, hjoin⟩ := h
    rw [hs.env] at hjoin
    exact ⟨u, ih hcases hs, hjoin⟩
  | case _ test body rest ihtest _ _ =>
    obtain ⟨u, v, htest, hrest⟩ := h
    exact ⟨u, v, ihtest htest hs, hrest⟩
  | tryCatch body handler a b ihbody _ =>
    obtain ⟨u, v, hbody, hhandler, hmerge⟩ := h
    rw [hs.env] at hhandler
    exact ⟨u, v, ihbody hbody hs, hhandler, hmerge⟩
  | function scope body ih =>
    obtain ⟨u, hbody, hend⟩ := h
    rw [hs.env] at hend
    exact ⟨u, ih hbody hs, hend⟩
  | done | cut | mayThrow | exit | returns | breaks | continues => exact hs.trans h

/-- What happens aside after a trail does not matter. -/
theorem later (h : trail.Leads passes s t) (ht : t.Aside t') : trail.Leads passes s t' := by
  induction trail generalizing s t t' with
  | deed d => exact ⟨h.1, h.2.1, h.2.2.trans ht⟩
  | andThen first rest _ ihrest =>
    obtain ⟨u, hfirst, hrest⟩ := h
    exact ⟨u, hfirst, ihrest hrest ht⟩
  | either yes no a b _ _ =>
    obtain ⟨u, v, hyes, hno, hmerge⟩ := h
    exact ⟨u, v, hyes, hno, hmerge.trans ht⟩
  | «maybe» part _ =>
    obtain ⟨u, hpart, hjoin⟩ := h
    exact ⟨u, hpart, hjoin.trans ht⟩
  | loop start body update _ _ _ =>
    obtain ⟨u, v, w, hstart, hbody, hupdate, hjoin⟩ := h
    exact ⟨u, v, w, hstart, hbody, hupdate, hjoin.trans ht⟩
  | switch cases _ =>
    obtain ⟨u, hcases, hjoin⟩ := h
    exact ⟨u, hcases, hjoin.trans ht⟩
  | case _ test body rest _ _ ihrest =>
    obtain ⟨u, v, htest, hbody, hrest⟩ := h
    exact ⟨u, v, htest, hbody, ihrest hrest ht⟩
  | tryCatch body handler a b _ _ =>
    obtain ⟨u, v, hbody, hhandler, hmerge⟩ := h
    exact ⟨u, v, hbody, hhandler, hmerge.trans ht⟩
  | function scope body _ =>
    obtain ⟨u, hbody, hend⟩ := h
    exact ⟨u, hbody, hend.trans ht⟩
  | done | cut | mayThrow | exit | returns | breaks | continues => exact State.Aside.trans h ht

end Trail.Leads

end Walk

end ScriptCheck
