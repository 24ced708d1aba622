import Mathlib.Logic.Relation
import ScriptCheck.Analysis.Program

/-!
# What a visit changes

A visit goes from one state of an analysis to another. Findings are only added on the way, and the
table of symbols changes only by the four steps of `SymbolTable.Step`. How much else may change is
the *extent* of the visit (`State.Changes`):

* 0, the table stays as it is;
* 1, no scope is opened;
* 2, nothing is found about jumps;
* 3, the types returned so far by the function around, and whether a `break` leaves the switch
  around, stay as they are;
* 4, a type that is returned may be added, and a `break` be found, but neither is taken back.

An expression has the extent 3, whatever functions stand in it, and a statement has the extent 4.

Besides, it does not matter for anything but the list of findings which passes report. `Gates c p q`
relates two steps: taken from states that differ only in that the first one lists the findings of
the passes in `c` alone, they answer the same and lead to states that differ in that way again. A
step that has an extent, and for each set of passes stands in this relation to the one that reports
all of them, is *tame* (`Tame`).

There is a rule for each way to put steps together and a lemma for each step; the last section goes
through all statements and expressions.
-/

namespace ScriptCheck

open List

/-- The same place in an analysis that reports some passes. -/
def Context.reporting (ctx : Context) (passes : PassSet) : Context := { ctx with passes }

/-- The findings of some passes. -/
def PassSet.select (passes : PassSet) (findings : List (Located Finding)) :
    List (Located Finding) :=
  findings.filter fun f => passes.enabled f.value.pass

/-- A jump was found to lead nowhere. -/
def Finding.isOfJump : Finding → Bool
  | breakOutsideLoop | continueOutsideLoop => true
  | _ => false

/-- A change of a symbol that leaves alone what its declaration says, and loses no reads. -/
structure Symbol.Revises (f : Symbol → Symbol) : Prop where
  name : ∀ s, (f s).name = s.name
  kind : ∀ s, (f s).kind = s.kind
  span : ∀ s, (f s).span = s.span
  reads : ∀ s, s.reads ≤ (f s).reads

namespace SymbolTable

/-- The ways in which a table of symbols changes. -/
inductive Step : SymbolTable → SymbolTable → Prop
  | push (t : SymbolTable) (kind : ScopeKind) (parent : Nat) (span : Span) :
    Step t (t.push kind parent span)
  | add {t : SymbolTable} {scope : Nat} {symbol : Symbol}
    (isNew : t.find? scope symbol.name = none) : Step t (t.add scope symbol)
  | revise (t : SymbolTable) (id : SymbolId) {f : Symbol → Symbol} (hf : Symbol.Revises f) :
    Step t (t.modifySymbol id f)
  | refer (t : SymbolTable) (span : Span) (id : SymbolId) : Step t (t.addReference span id)

/-- A table comes from another one by some steps. -/
abbrev Leads : SymbolTable → SymbolTable → Prop := Relation.ReflTransGen Step

/-- Declaring a symbol adds it, or changes nothing. -/
theorem leads_declare (t : SymbolTable) (scope : Nat) (symbol : Symbol) :
    t.Leads (t.declare scope symbol).2.2 := by
  unfold declare
  split
  · exact .refl
  · next isNew => exact .single (.add isNew)

theorem length_scopes_declare (t : SymbolTable) (scope : Nat) (symbol : Symbol) :
    (t.declare scope symbol).2.2.scopes.length = t.scopes.length := by
  unfold declare
  split
  · rfl
  · exact length_modify ..

end SymbolTable

namespace Walk

/-! ### States before and after a step -/

namespace State

/-- The state after a step. -/
def after {α : Type} (s : State) (p : Walk α) : State := (p.run s).2

/-- What a step answers. -/
def answer {α : Type} (s : State) (p : Walk α) : α := (p.run s).1

/-- The second step starts where the first one ends. -/
theorem after_bind {α β : Type} (s : State) (p : Walk α) (f : α → Walk β) :
    s.after (p >>= f) = (s.after p).after (f (s.answer p)) := rfl

/-- What is known if only some passes report. -/
def gated (passes : PassSet) (s : State) : State :=
  { s with findings := passes.select s.findings }

/-- The findings about jumps so far. -/
def strays (s : State) : List (Located Finding) := s.findings.filter (·.value.isOfJump)

/-- What a visit of some extent may do to a state. -/
structure Changes (extent : Nat) (s t : State) : Prop where
  table : s.table.Leads t.table
  findings : s.findings <+: t.findings
  returns : s.returns <+: t.returns
  broke : s.broke = true → t.broke = true
  quiet : extent ≤ 3 → t.returns = s.returns ∧ t.broke = s.broke
  silent : extent ≤ 2 → t.strays = s.strays
  flat : extent ≤ 1 → t.table.scopes.length = s.table.scopes.length
  still : extent = 0 → t.table = s.table

namespace Changes

variable {k : Nat} {s t u : State}

theorem refl (s : State) : s.Changes k s :=
  ⟨.refl, prefix_rfl, prefix_rfl, id, fun _ => ⟨rfl, rfl⟩, fun _ => rfl, fun _ => rfl,
    fun _ => rfl⟩

theorem trans (h : s.Changes k t) (h' : t.Changes k u) : s.Changes k u where
  table := h.table.trans h'.table
  findings := h.findings.trans h'.findings
  returns := h.returns.trans h'.returns
  broke hs := h'.broke (h.broke hs)
  quiet hk := ⟨(h'.quiet hk).1.trans (h.quiet hk).1, (h'.quiet hk).2.trans (h.quiet hk).2⟩
  silent hk := (h'.silent hk).trans (h.silent hk)
  flat hk := (h'.flat hk).trans (h.flat hk)
  still hk := (h'.still hk).trans (h.still hk)

/-- A change of the table by steps that open no scope. -/
theorem of_table {t : SymbolTable} (h : s.table.Leads t)
    (hflat : t.scopes.length = s.table.scopes.length) :
    s.Changes (k + 1) { s with table := t } where
  table := h
  findings := prefix_rfl
  returns := prefix_rfl
  broke := id
  quiet _ := ⟨rfl, rfl⟩
  silent _ := rfl
  flat _ := hflat
  still hk := absurd hk (Nat.succ_ne_zero k)

/-- A visit that puts the types returned and what is known of a `break` back in place. -/
theorem restore (htable : s.table.Leads t.table) (hfindings : s.findings <+: t.findings)
    (hreturns : t.returns = s.returns) (hbroke : t.broke = s.broke) : s.Changes (k + 3) t where
  table := htable
  findings := hfindings
  returns := hreturns ▸ prefix_rfl
  broke hs := hbroke.trans hs
  quiet _ := ⟨hreturns, hbroke⟩
  silent hk := absurd hk (by omega)
  flat hk := absurd hk (by omega)
  still hk := absurd hk (by omega)

/-- A visit that takes nothing back. -/
theorem forward (htable : s.table.Leads t.table) (hfindings : s.findings <+: t.findings)
    (hreturns : s.returns <+: t.returns) (hbroke : s.broke = true → t.broke = true) :
    s.Changes (k + 4) t where
  table := htable
  findings := hfindings
  returns := hreturns
  broke := hbroke
  quiet hk := absurd hk (by omega)
  silent hk := absurd hk (by omega)
  flat hk := absurd hk (by omega)
  still hk := absurd hk (by omega)

end Changes

end State

/-! ### Putting steps together -/

/-- Two steps that differ only in which of the findings they list. -/
def Gates {α : Type} (c : PassSet) (p q : Walk α) : Prop :=
  ∀ s : State, p.run (s.gated c) = ((q.run s).1, (q.run s).2.gated c)

/-- A step that has an extent, and for which it only matters to the list of findings which passes
report. -/
structure Tame {α : Type} (extent : Nat) (P : PassSet → Walk α) : Prop where
  gates : ∀ c, Gates c (P c) (P .all)
  changes : ∀ c (s : State), s.Changes extent (s.after (P c))

variable {α β : Type} {c : PassSet} {k : Nat}

namespace Gates

theorem pure (a : α) : Gates c (Pure.pure a) (Pure.pure a) := fun _ => rfl

theorem bind {p q : Walk α} {f g : α → Walk β} (hp : Gates c p q)
    (hf : ∀ a, Gates c (f a) (g a)) : Gates c (p >>= f) (q >>= g) := by
  intro s
  change (f (p.run (s.gated c)).1).run (p.run (s.gated c)).2 = _
  rw [hp s]
  exact hf _ _

/-- A state can be asked for, as long as the findings in it are not used. -/
theorem get {f g : State → Walk β} (h : ∀ s, Gates c (f (s.gated c)) (g s)) :
    Gates c (MonadState.get >>= f) (MonadState.get >>= g) :=
  fun s => h s s

/-- A change of the state that does not depend on its findings. -/
theorem modify {u v : State → State} (h : ∀ s, u (s.gated c) = (v s).gated c) :
    Gates c (modify u : Walk Unit) (modify v : Walk Unit) :=
  fun s => congrArg (Prod.mk ()) (h s)

end Gates

namespace Tame

variable {P Q : PassSet → Walk α} {F : PassSet → α → Walk β}

theorem pure (a : α) : Tame k fun _ => (Pure.pure a : Walk α) := ⟨fun _ => .pure a, fun _ => .refl⟩

theorem bind (hP : Tame k P) (hF : ∀ a, Tame k (F · a)) : Tame k fun c => P c >>= F c :=
  ⟨fun c => (hP.gates c).bind fun a => (hF a).gates c,
    fun c s => (hP.changes c s).trans ((hF _).changes c _)⟩

/-- A step whose value is made into that of the whole. -/
theorem thenPure (hP : Tame k P) (g : α → β) : Tame k fun c => P c >>= fun a => Pure.pure (g a) :=
  hP.bind fun a => pure (g a)

/-- A state can be asked for, as long as the findings in it are not used. -/
theorem get {F : PassSet → State → Walk β} (hF : ∀ c d s, F c (s.gated d) = F c s)
    (h : ∀ s, Tame k (F · s)) : Tame k fun c => MonadState.get >>= F c :=
  ⟨fun c => .get fun s => by rw [hF]; exact (h s).gates c, fun c s => (h s).changes c s⟩

/-- A change of the state that does not depend on its findings. -/
theorem modify {u : State → State} (hu : ∀ c s, u (s.gated c) = (u s).gated c)
    (h : ∀ s : State, s.Changes k (u s)) : Tame k fun _ => (modify u : Walk Unit) :=
  ⟨fun c => .modify (hu c), fun _ => h⟩

theorem ite {holds : Prop} [Decidable holds] (hP : Tame k P) (hQ : Tame k Q) :
    Tame k fun c => if holds then P c else Q c := by
  split
  · exact hP
  · exact hQ

end Tame

/-! ### Findings, types, scopes and symbols -/

variable (ctx : Context)

theorem tame_require (holds : Bool) : Tame k fun _ => require holds :=
  .modify (fun _ _ => rfl) fun s => { State.Changes.refl s with }

/-- The only step that asks which passes report. -/
theorem tame_report (span : Span) {finding : Finding} (h : k ≤ 2 → finding.isOfJump = false) :
    Tame k fun c => report (ctx.reporting c) span finding := by
  constructor
  · refine fun c => .modify fun s => ?_
    have hall : PassSet.all.enabled finding.pass = true := by cases finding.pass <;> rfl
    change (if c.enabled finding.pass then _ else _) =
      (if PassSet.all.enabled finding.pass then _ else _ : State).gated c
    rw [hall, if_pos rfl]
    split
    · next h => simp [State.gated, PassSet.select, h]
    · next h => simp [State.gated, PassSet.select, h]
  · intro c s
    change s.Changes k (if c.enabled finding.pass then _ else _)
    split
    · refine { State.Changes.refl s with findings := prefix_append .., silent := fun hk => ?_ }
      simp [State.strays, h hk]
    · exact .refl s

theorem tame_reportWhen (found : Bool) (span : Span) {finding : Finding}
    (h : k ≤ 2 → finding.isOfJump = false) :
    Tame k fun c => reportWhen (ctx.reporting c) found span finding :=
  .ite (tame_report _ span h) (.pure ())

theorem tame_env : Tame k fun _ => env := .get (fun _ _ _ => rfl) fun _ => .pure _

theorem tame_setEnv (e : Env) : Tame k fun _ => setEnv e :=
  .modify (fun _ _ => rfl) fun s => { State.Changes.refl s with }

theorem tame_mergeBranches (first : Env) (a b : Bool) :
    Tame k fun _ => mergeBranches first a b := by
  refine .modify (fun _ s => ?_) fun s => ?_
  · cases a <;> cases b <;> rfl
  · cases a <;> cases b <;> exact { State.Changes.refl s with }

theorem tame_setType (id : SymbolId) (type : Ty) : Tame k fun _ => setType id type :=
  .modify (fun _ _ => rfl) fun s => { State.Changes.refl s with }

theorem tame_refer (name : Ident) (id : SymbolId) : Tame (k + 1) fun _ => refer name id :=
  .modify (fun _ _ => rfl) fun _ => .of_table (.single (.refer ..)) rfl

theorem tame_lookup (name : Ident) : Tame k fun c => lookup (ctx.reporting c) name := by
  change Tame k fun _ => lookup ctx name
  exact .get (fun _ _ _ => rfl) fun _ => (tame_require _).thenPure _

theorem tame_symbol (id : SymbolId) : Tame k fun _ => symbol id :=
  .get (fun _ _ _ => rfl) fun _ => (tame_require _).thenPure _

theorem tame_updateSymbol (id : SymbolId) {f : Symbol → Symbol} (hf : Symbol.Revises f) :
    Tame (k + 1) fun _ => updateSymbol id f := by
  refine .get (fun _ _ _ => rfl) fun _ => (tame_require _).bind fun _ => ?_
  refine .modify (fun _ _ => rfl) fun _ => ?_
  exact .of_table (.single (.revise _ id hf)) (length_modify ..)

theorem tame_declareIn (scope : Nat) (symbol : Symbol) :
    Tame (k + 1) fun _ => declareIn scope symbol := by
  constructor
  · intro c s
    rfl
  · intro c s
    refine ((tame_require (s.table.hasScope scope)).changes c s).trans ?_
    exact .of_table (s.table.leads_declare ..) (s.table.length_scopes_declare ..)

theorem tame_openScope (kind : ScopeKind) (span : Span) :
    Tame (k + 2) fun c => openScope (ctx.reporting c) kind span := by
  constructor
  · intro c s
    rfl
  · intro c s
    refine ((tame_require (s.table.hasScope ctx.scope)).changes c s).trans ?_
    refine { State.Changes.refl _ with
      table := .single (.push ..), flat := fun hk => ?_, still := fun hk => ?_ } <;> omega

/-- What follows inside a block is visited at one place. -/
theorem tame_openBlock {F : PassSet → Context → Walk β} (span : Option Span)
    (h : ∀ inner : Context, Tame (k + 2) fun c => F c (inner.reporting c)) :
    Tame (k + 2) fun c => openBlock (ctx.reporting c) span >>= F c := by
  cases span with
  | some span => exact (tame_openScope _ .block span).bind fun scope => h (ctx.inScope scope)
  | none => exact h ctx

/-! ### Names -/

theorem tame_declare (name : Ident) (kind : SymbolKind) (type : Ty) :
    Tame (k + 1) fun c => declare (ctx.reporting c) name kind type := by
  refine (tame_declareIn ctx.scope _).bind fun found => ?_
  obtain ⟨id, isNew⟩ := found
  cases isNew with
  | true => exact (tame_setType id type).thenPure _
  | false => exact (tame_report _ _ fun _ => rfl).thenPure _

theorem tame_globalType (name : Ident) : Tame k fun c => globalType (ctx.reporting c) name := by
  unfold globalType
  split
  · exact .pure _
  · exact .pure _
  · exact (tame_report _ _ fun _ => rfl).thenPure _

/-- Counting a use of a symbol. -/
theorem revises_reads : Symbol.Revises fun s => { s with reads := s.reads + 1 } :=
  ⟨fun _ => rfl, fun _ => rfl, fun _ => rfl, fun _ => Nat.le_succ _⟩

/-- Recording another type of a symbol. -/
theorem revises_type (g : Ty → Ty) : Symbol.Revises fun s => { s with type := g s.type } :=
  ⟨fun _ => rfl, fun _ => rfl, fun _ => rfl, fun _ => Nat.le_refl _⟩

theorem tame_read (name : Ident) : Tame (k + 1) fun c => read (ctx.reporting c) name := by
  refine (tame_lookup _ name).bind fun found => ?_
  cases found with
  | some id =>
    refine (tame_refer name id).bind fun _ => (tame_updateSymbol id revises_reads).bind fun _ => ?_
    exact (tame_symbol id).bind fun recorded => tame_env.thenPure _
  | none => exact tame_globalType _ name

theorem tame_assignSymbol (name : Ident) (type : Ty) (id : SymbolId) :
    Tame (k + 1) fun c => assignSymbol (ctx.reporting c) name type id := by
  refine (tame_refer name id).bind fun _ => (tame_symbol id).bind fun declared => ?_
  refine .ite (tame_report _ _ fun _ => rfl) ?_
  exact (tame_updateSymbol id (revises_type (·.join type))).bind fun _ => tame_setType id type

theorem tame_assign (name : Ident) (type : Ty) :
    Tame (k + 1) fun c => assign (ctx.reporting c) name type := by
  refine (tame_lookup _ name).bind fun found => ?_
  cases found with
  | some id => exact tame_assignSymbol _ name type id
  | none =>
    refine .get (fun _ _ _ => rfl) fun s => ?_
    refine (tame_declareIn (s.table.functionScope ctx.scope) _).bind fun found => ?_
    exact tame_setType found.1 type

theorem tame_assignTarget (target : Expr) (type : Ty) :
    Tame (k + 1) fun c => assignTarget (ctx.reporting c) target type := by
  unfold assignTarget
  split
  · exact tame_assign _ _ type
  · exact .pure _

theorem tame_typeOf {visit : PassSet → Walk Typed} (h : Tame k visit) :
    Tame k fun c => typeOf (visit c) :=
  h.thenPure Typed.type

/-! ### Functions -/

theorem tame_hoistFunction (name : Option Ident) (params : List Param) :
    Tame (k + 1) fun c => hoistFunction (ctx.reporting c) name params := by
  cases name with
  | some name => exact (tame_declare _ name _ _).thenPure _
  | none => exact .pure _

theorem tame_hoist (body : List Stmt) :
    Tame (k + 1) fun c => hoist (ctx.reporting c) body := by
  fun_induction hoist ctx body with
  | case1 => exact .pure _
  | case2 _ name params _ rest ih => exact (tame_hoistFunction _ name params).bind fun _ => ih
  | case3 _ _ name params _ rest ih => exact (tame_hoistFunction _ name params).bind fun _ => ih
  | case4 s rest hfunction hexport ih =>
    simp only [hoist.eq_4 _ s rest hfunction hexport]
    exact ih

theorem tame_declareParams (params : List Param) :
    Tame (k + 1) fun c => declareParams (ctx.reporting c) params := by
  induction params with
  | nil => exact .pure _
  | cons param rest ih => exact (tame_declare _ param.name _ _).bind fun _ => ih

/-- What the body of a function returns and whether a `break` is in it is forgotten at its end. -/
theorem tame_function {span : Span} {params : List Param} {body : PassSet → Context → Walk Ty}
    (hbody : ∀ inner : Context, Tame 4 fun c => body c (inner.reporting c)) :
    Tame (k + 3) fun c => function (ctx.reporting c) span params (body c) := by
  have hopen : Tame (k + 3) fun c => openScope (ctx.reporting c) .function span :=
    tame_openScope _ .function span
  have hvisit (scope : Nat) := (tame_declareParams (ctx.inFunction scope) params).bind
    fun _ => hbody (ctx.inFunction scope)
  constructor
  · intro c
    refine (hopen.gates c).bind fun scope => .get fun outer => .bind (.modify fun _ => rfl) ?_
    refine fun _ => .bind ((tame_declareParams (k := 0) (ctx.inFunction scope) params).gates c) ?_
    refine fun _ => ((hbody (ctx.inFunction scope)).gates c).bind fun result => .get fun s => ?_
    exact ((tame_require (k := 0) _).gates c).bind fun _ =>
      .bind (.modify fun _ => rfl) fun _ => .pure _
  · refine fun c s => (hopen.changes c s).trans ?_
    let opened := s.after (openScope (ctx.reporting c) .function span)
    have h := (hvisit (s.answer (openScope (ctx.reporting c) .function span))).changes c
      { opened with returns := [], broke := false }
    exact .restore h.table h.findings rfl rfl

theorem tame_resultOf {body : PassSet → Walk Bool} (h : Tame k body) :
    Tame k fun c => resultOf (body c) :=
  h.bind fun _ => .get (fun _ _ _ => rfl) fun _ => .pure _

theorem tame_recordFunction (name : Ident) (type : Ty) :
    Tame (k + 1) fun c => recordFunction (ctx.reporting c) name type := by
  refine (tame_lookup _ name).bind fun found => ?_
  cases found with
  | some id =>
    refine (tame_symbol id).bind fun declared => .ite ?_ (tame_setType id type)
    exact (tame_updateSymbol id (revises_type fun _ => type)).bind fun _ => tame_setType id type
  | none => exact .pure _

theorem tame_functionDecl (name : Option Ident) (params : List Param) {visit : PassSet → Walk Ty}
    (h : Tame (k + 1) visit) :
    Tame (k + 1) fun c => functionDecl (ctx.reporting c) name params (visit c) := by
  cases name with
  | some name =>
    refine (tame_lookup _ name).bind fun found => ?_
    have hrest : Tame (k + 1) fun c => visit c >>= recordFunction (ctx.reporting c) name :=
      h.bind fun type => tame_recordFunction _ name type
    change Tame (k + 1) fun c => if !found.any (·.scope == ctx.scope) then _ else _
    exact .ite ((tame_hoistFunction _ (some name) params).bind fun _ => hrest) hrest
  | none => exact h.thenPure _

/-! ### Imports and exports -/

theorem tame_declareImport (source : String) (name : Ident) (specifier : Option String)
    (type : Ty) :
    Tame (k + 1) fun c => declareImport (ctx.reporting c) source name specifier type := by
  refine (tame_declare _ name .imported type).bind fun found => ?_
  cases found with
  | some id =>
    exact tame_updateSymbol id ⟨fun _ => rfl, fun _ => rfl, fun _ => rfl, fun _ => Nat.le_refl _⟩
  | none => exact .pure _

theorem tame_importedType (m : Option Builtin.Module) (spec : ImportSpec) :
    Tame k fun c => importedType (ctx.reporting c) m spec := by
  unfold importedType
  split
  · split
    · exact .pure _
    · split
      · exact .pure _
      · exact (tame_report _ _ fun _ => rfl).thenPure _
  · exact .pure _
  · exact .pure _

theorem tame_declareImports (source : String) {typeOf : PassSet → ImportSpec → Walk Ty}
    (h : ∀ spec, Tame (k + 1) (typeOf · spec)) (specs : List ImportSpec) :
    Tame (k + 1) fun c => declareImports (ctx.reporting c) source (typeOf c) specs := by
  induction specs with
  | nil => exact .pure _
  | cons spec rest ih =>
    exact (h spec).bind fun type => (tame_declareImport _ source _ _ type).bind fun _ => ih

theorem tame_importNames (specs : List ImportSpec) (source : TextLit) :
    Tame (k + 1) fun c => importNames (ctx.reporting c) specs source := by
  change Tame (k + 1) fun c => if isMissing ctx source.value then _ else _
  refine .ite (tame_report _ _ fun _ => rfl) (.ite ?_ ?_)
  · exact tame_declareImports _ _ (fun _ => .pure _) specs
  · exact tame_declareImports _ _ (tame_importedType _ _) specs

theorem tame_checkSource (source : TextLit) :
    Tame k fun c => checkSource (ctx.reporting c) source :=
  tame_reportWhen _ (isMissing ctx source.value) _ fun _ => rfl

theorem tame_countExported (names : List Ident) :
    Tame (k + 1) fun c => countExported (ctx.reporting c) names := by
  induction names with
  | nil => exact .pure _
  | cons name rest ih =>
    refine (tame_lookup _ name).bind fun found => ?_
    cases found with
    | some id => exact (tame_updateSymbol id revises_reads).bind fun _ => ih
    | none => exact ih

theorem tame_readExported (specs : List ExportSpec) :
    Tame (k + 1) fun c => readExported (ctx.reporting c) specs := by
  induction specs with
  | nil => exact .pure _
  | cons spec rest ih => exact (tame_read _ spec.name).bind fun _ => ih

theorem tame_exportNames (specs : List ExportSpec) (source : Option TextLit) :
    Tame (k + 1) fun c => exportNames (ctx.reporting c) specs source := by
  cases source with
  | some source => exact tame_checkSource _ source
  | none => exact tame_readExported _ specs

/-! ### Members and calls -/

theorem tame_moduleMember (m : Builtin.Module) (property : Ident) :
    Tame k fun c => moduleMember (ctx.reporting c) m property := by
  unfold moduleMember
  split
  · exact .pure _
  · exact (tame_report _ _ fun _ => rfl).thenPure _
  · exact (tame_report _ _ fun _ => rfl).thenPure _

theorem tame_resourceMember (owner : Ty) (property : Ident) :
    Tame k fun c => resourceMember (ctx.reporting c) owner property := by
  unfold resourceMember
  split
  · exact .pure _
  · exact (tame_reportWhen _ _ _ fun _ => rfl).thenPure _
  · exact .pure _

theorem tame_member (owner : Ty) (property : Ident) :
    Tame k fun c => member (ctx.reporting c) owner property := by
  unfold member
  split
  · split
    · exact tame_moduleMember _ _ property
    · exact .pure _
  · exact tame_resourceMember _ owner property

theorem tame_nameSignature (name : Ident) :
    Tame k fun c => nameSignature (ctx.reporting c) name := by
  refine (tame_lookup _ name).bind fun found => ?_
  cases found with
  | some id => exact (tame_symbol id).thenPure _
  | none => exact .pure _

theorem tame_callResult (span : Span) (type : Ty) (signature : Option Builtin.Signature)
    (args : List Expr) :
    Tame k fun c => callResult (ctx.reporting c) span type signature args := by
  cases signature with
  | some f => exact (tame_reportWhen _ _ _ fun _ => rfl).thenPure _
  | none => exact .pure _

theorem tame_finishCall (span : Span) (callee : Expr) (type : Ty)
    (signature : Option Builtin.Signature) (args : List Expr) :
    Tame k fun c => finishCall (ctx.reporting c) span callee type signature args :=
  (tame_reportWhen _ _ _ fun _ => rfl).bind fun _ => tame_callResult _ span type signature args

theorem tame_exits (e : Expr) : Tame k fun c => exits (ctx.reporting c) e := by
  unfold exits
  split
  · exact .ite ((tame_lookup _ _).thenPure _) (.pure _)
  · exact .pure _

/-! ### Operators -/

theorem tame_binary (span : Span) (op : BinaryOp) {lhs rhs : PassSet → Walk Ty}
    (hlhs : Tame k lhs) (hrhs : Tame k rhs) :
    Tame k fun c => binary (ctx.reporting c) span op (lhs c) (rhs c) := by
  refine hlhs.bind fun left => .ite ?_ (hrhs.bind fun right => ?_)
  · refine tame_env.bind fun before => hrhs.bind fun right => ?_
    exact (tame_mergeBranches before false false).thenPure _
  · split
    · exact .pure _
    · exact .pure _
    · split
      · exact (tame_report _ _ fun _ => rfl).thenPure _
      · exact .pure _
    · exact (tame_require false).thenPure _

theorem tame_assigned (span : Span) (op : AssignOp) (isName : Bool)
    {target value : PassSet → Walk Ty} (htarget : Tame k target) (hvalue : Tame k value) :
    Tame k fun c => assigned (ctx.reporting c) span op isName (target c) (value c) := by
  cases op with
  | assign =>
    cases isName with
    | true => exact hvalue
    | false => exact htarget.bind fun _ => hvalue
  | compound op => exact tame_binary _ span op htarget hvalue

theorem tame_either {yes no : PassSet → Walk Ty} (hyes : Tame k yes) (hno : Tame k no) :
    Tame k fun c => either (yes c) (no c) := by
  refine tame_env.bind fun before => hyes.bind fun first => tame_env.bind fun after => ?_
  refine (tame_setEnv before).bind fun _ => hno.bind fun second => ?_
  exact (tame_mergeBranches after false false).thenPure _

theorem tame_nested {visit : PassSet → Context → Walk Ty}
    (h : Tame k fun c => visit c (ctx.deeper.reporting c)) :
    Tame k fun c => nested (ctx.reporting c) (visit c) := by
  change Tame k fun c => if maxNesting ≤ ctx.depth then _ else _
  exact .ite (.pure _) (h.thenPure _)

/-! ### Statements -/

theorem tame_enter (s : Stmt) (flow : Flow) : Tame k fun c => flow.enter (ctx.reporting c) s :=
  .ite ((tame_report _ _ fun _ => rfl).thenPure _) (.pure _)

/-- What was returned before a statement is kept by it, whether or not what it returns counts. -/
theorem tame_step (s : Stmt) (flow : Flow) {visit : PassSet → Walk Bool}
    (hvisit : Tame (k + 4) visit) :
    Tame (k + 4) fun c => step (ctx.reporting c) s flow (visit c) := by
  refine (tame_enter _ s flow).bind fun flow => ⟨fun c => ?_, fun c before => ?_⟩
  · refine .get fun before => (hvisit.gates c).bind fun diverges => ?_
    split
    · exact .bind (.modify fun _ => rfl) fun _ => .pure _
    · exact .pure _
  · have h := hvisit.changes c before
    by_cases hflow : flow = .reported
    · simp only [hflow, if_true]
      exact .forward h.table h.findings prefix_rfl h.broke
    · simp only [hflow, if_false]
      exact h

/-- Around a loop, whether a `break` leaves the switch around it does not change. -/
theorem tame_loop {body : PassSet → Walk Bool} {update : PassSet → Walk α}
    (hbody : Tame (k + 4) body) (hupdate : Tame (k + 4) update) :
    Tame (k + 4) fun c => loop (body c) (update c) := by
  have hrest (e : Env) := hupdate.bind fun _ => tame_mergeBranches e false false
  refine ⟨fun c => ?_, fun c s => ?_⟩
  · refine .get fun before => (hbody.gates c).bind fun _ => .bind (.modify fun _ => rfl) fun _ => ?_
    exact (hrest before.env).gates c
  · have h := hbody.changes c s
    have hended : s.Changes (k + 4) { s.after (body c) with broke := s.broke } :=
      .forward h.table h.findings h.returns id
    exact hended.trans ((hrest s.env).changes c _)

theorem tame_switchCases (hasDefault : Bool) {cases : PassSet → Walk Bool}
    (hcases : Tame (k + 4) cases) : Tame (k + 4) fun c => switchCases hasDefault (cases c) := by
  refine ⟨fun c => .get fun before => .bind (.modify fun _ => rfl) fun _ => ?_, fun c s => ?_⟩
  · refine (hcases.gates c).bind fun lastDiverges => .get fun after => ?_
    refine .bind (.modify fun _ => rfl) fun _ => ?_
    exact ((tame_mergeBranches (k := 0) before.env false false).thenPure _).gates c
  · have h := hcases.changes c { s with broke := false }
    exact .forward h.table h.findings h.returns id

theorem tame_bindForIn (kind : Option SymbolKind) (name : Option Ident) (type : Ty) :
    Tame (k + 1) fun c => bindForIn (ctx.reporting c) kind name type := by
  unfold bindForIn
  split
  · exact (tame_declare _ _ _ type).thenPure _
  · exact tame_assign _ _ type
  · exact .pure _

theorem tame_declareCaught (param : Option Ident) :
    Tame (k + 1) fun c => declareCaught (ctx.reporting c) param := by
  cases param with
  | some param => exact (tame_declare _ param _ _).thenPure _
  | none => exact .pure _

theorem tame_sequence (body : List Stmt) {visit : PassSet → Flow → Walk Flow}
    (hvisit : ∀ flow, Tame (k + 1) (visit · flow)) :
    Tame (k + 1) fun c => sequence (ctx.reporting c) body (visit c) :=
  (tame_hoist ctx body).bind fun _ => (hvisit .reachable).thenPure _

/-- What follows inside the handler of a `try` is visited at one place. -/
theorem tame_openHandler {F : PassSet → Context → Walk β} (param : Option Ident)
    (handler : List Stmt) (h : ∀ inner : Context, Tame (k + 2) fun c => F c (inner.reporting c)) :
    Tame (k + 2) fun c => openHandler (ctx.reporting c) param handler >>= F c :=
  (tame_require _).bind fun _ => tame_openBlock _ _ h

/-! ### Visits -/

mutual

theorem tame_stmt {k : Nat} (ctx : Context) : (s : Stmt) →
    Tame (k + 4) fun c => stmt (ctx.reporting c) s
  | .expr _ value => (tame_infer _ .value value).bind fun _ => tame_exits _ value
  | .decl _ kind ds => (tame_declarators _ kind.symbolKind ds).thenPure _
  | .function span name params body => by
    refine (tame_functionDecl _ name params <| tame_function _ fun inner => ?_).thenPure _
    exact tame_resultOf (tame_sequence _ body (tame_stmts _ body))
  | .ifElse _ test yes no => by
    refine (tame_infer _ .value test).bind fun _ => tame_env.bind fun before => ?_
    refine (tame_stmt _ yes).bind fun yesDiverges => tame_env.bind fun after => ?_
    refine (tame_setEnv before).bind fun _ => (tame_stmtOption _ no).bind fun noDiverges => ?_
    exact (tame_mergeBranches after yesDiverges noDiverges).thenPure _
  | .whileLoop _ test body => by
    refine (tame_infer _ .value test).bind fun _ => ?_
    exact (tame_loop (tame_stmt ctx.inLoop body) (.pure ())).thenPure _
  | .forLoop span init test update body => by
    refine tame_openBlock _ _ fun inner => (tame_stmtOption _ init).bind fun _ => ?_
    refine (tame_inferOption _ test).bind fun _ => ?_
    exact (tame_loop (tame_stmt inner.inLoop body) (tame_inferOption _ update)).thenPure _
  | .forIn span kind key value iterable body => by
    refine (tame_typeOf (tame_infer _ .value iterable)).bind fun type => ?_
    refine tame_openBlock _ _ fun inner => (tame_bindForIn _ _ key _).bind fun _ => ?_
    refine (tame_bindForIn _ _ (some value) _).bind fun _ => ?_
    exact (tame_loop (tame_stmt inner.inLoop body) (.pure ())).thenPure _
  | .switch span subject cs => by
    refine (tame_infer _ .value subject).bind fun _ => tame_openBlock _ _ fun inner => ?_
    exact tame_switchCases _ (tame_cases inner.inSwitch false cs)
  | .tryCatch span body param handler => by
    refine tame_env.bind fun before => tame_openBlock _ _ fun inner => ?_
    refine (tame_sequence _ body (tame_stmts _ body)).bind fun bodyDiverges => ?_
    refine tame_env.bind fun after => (tame_setEnv _).bind fun _ => ?_
    refine tame_openHandler _ param handler fun inner => (tame_declareCaught _ param).bind fun _ => ?_
    refine (tame_sequence _ handler (tame_stmts _ handler)).bind fun handlerDiverges => ?_
    exact (tame_mergeBranches after bodyDiverges handlerDiverges).thenPure _
  | .returns _ value =>
    (tame_inferOption _ value).bind fun _ => .bind (.modify (fun _ _ => rfl) fun _ =>
      .forward .refl prefix_rfl (prefix_append ..) id) fun _ => .pure _
  | .breaks _ =>
    (tame_reportWhen _ (!ctx.mayBreak) _ fun h => absurd h (by omega)).bind fun _ =>
      .bind (.modify (fun _ _ => rfl) fun _ =>
        .forward .refl prefix_rfl prefix_rfl fun _ => rfl) fun _ => .pure _
  | .continues _ =>
    (tame_reportWhen _ (!ctx.mayContinue) _ fun h => absurd h (by omega)).thenPure _
  | .block span body => tame_openBlock _ _ fun _ => tame_sequence _ body (tame_stmts _ body)
  | .imports _ specs source => (tame_importNames _ specs source).thenPure _
  | .exportDecl _ declaration =>
    (tame_stmt _ declaration).bind fun _ => (tame_countExported _ _).thenPure _
  | .exportDefault _ value => (tame_infer _ .value value).thenPure _
  | .exportNames _ specs source => (tame_exportNames _ specs source).thenPure _
  | .exportAll _ _ source => (tame_checkSource _ source).thenPure _
  | .empty _ => .pure _

theorem tame_stmtOption {k : Nat} (ctx : Context) : (s : Option Stmt) →
    Tame (k + 4) fun c => stmtOption (ctx.reporting c) s
  | some s => tame_stmt _ s
  | none => .pure _

theorem tame_stmts {k : Nat} (ctx : Context) : (ss : List Stmt) → (flow : Flow) →
    Tame (k + 4) fun c => stmts (ctx.reporting c) ss flow
  | [], _ => .pure _
  | s :: rest, flow => (tame_step _ s flow (tame_stmt _ s)).bind (tame_stmts _ rest)

theorem tame_declarators {k : Nat} (ctx : Context) (kind : SymbolKind) : (ds : List Declarator) →
    Tame (k + 3) fun c => declarators (ctx.reporting c) kind ds
  | [] => .pure _
  | .mk name init :: rest =>
    (tame_inferOption _ init).bind fun type =>
      (tame_declare _ name kind type).bind fun _ => tame_declarators _ kind rest

theorem tame_cases {k : Nat} (ctx : Context) (lastDiverges : Bool) : (cs : List SwitchCase) →
    Tame (k + 4) fun c => cases (ctx.reporting c) lastDiverges cs
  | [] => .pure _
  | .mk _ test body :: rest =>
    (tame_inferOption _ test).bind fun _ =>
      (tame_sequence _ body (tame_stmts _ body)).bind fun diverges => tame_cases _ diverges rest

theorem tame_infer {k : Nat} (ctx : Context) (use : Use) : (e : Expr) →
    Tame (k + 3) fun c => infer (ctx.reporting c) use e
  | .ident name => by
    cases use with
    | callee => exact (tame_read _ name).bind fun _ => (tame_nameSignature _ name).thenPure _
    | value =>
      simp only [infer]
      exact tame_nested _ (tame_read _ name)
  | .int _ _ | .double _ _ | .string _ _ | .regexp _ _ _ | .bool _ _ | .null _ | .this _
  | .invalid _ => tame_nested _ (.pure _)
  | .template _ parts => tame_nested _ ((tame_inferAll _ parts).thenPure _)
  | .array _ elements => tame_nested _ ((tame_inferAll _ elements).thenPure _)
  | .object _ ps => tame_nested _ ((tame_properties _ ps).thenPure _)
  | .spread _ value => tame_nested _ (tame_typeOf (tame_infer _ .value value))
  | .unary _ _ operand => tame_nested _ ((tame_typeOf (tame_infer _ .value operand)).thenPure _)
  | .update _ _ _ target => tame_nested _ <|
    (tame_typeOf (tame_infer _ .value target)).bind fun _ =>
      (tame_assignTarget _ target _).thenPure _
  | .binary span op lhs rhs => tame_nested _ <|
    tame_binary _ span op (tame_typeOf (tame_infer _ .value lhs))
      (tame_typeOf (tame_infer _ .value rhs))
  | .assign span op target value => tame_nested _ <|
    (tame_assigned _ span op _ (tame_typeOf (tame_infer _ .value target))
      (tame_typeOf (tame_infer _ .value value))).bind fun _ =>
        (tame_assignTarget _ target _).thenPure _
  | .conditional _ test yes no => tame_nested _ <|
    (tame_infer _ .value test).bind fun _ =>
      tame_either (tame_typeOf (tame_infer _ .value yes))
        (tame_typeOf (tame_infer _ .value no))
  | .call span callee args _ => tame_nested _ <|
    (tame_infer _ .callee callee).bind fun _ => (tame_inferAll _ args).bind fun _ =>
      tame_finishCall _ span callee _ _ args
  | .member _ object property _ => by
    cases use with
    | callee =>
      refine (tame_typeOf (tame_infer _ .value object)).bind fun type => ?_
      exact (tame_member _ type property).thenPure _
    | value =>
      simp only [infer]
      exact tame_nested _ <| (tame_typeOf (tame_infer _ .value object)).bind fun type =>
        tame_member _ type property
  | .index _ object index _ => tame_nested _ <|
    (tame_typeOf (tame_infer _ .value object)).bind fun _ =>
      (tame_infer _ .value index).thenPure _
  | .function _ _ _ body => tame_nested _ <| tame_function _ fun _ =>
    tame_resultOf (tame_sequence _ body (tame_stmts _ body))
  | .arrowBlock _ _ body => tame_nested _ <| tame_function _ fun _ =>
    tame_resultOf (tame_sequence _ body (tame_stmts _ body))
  | .arrowExpr _ _ body => tame_nested _ <| tame_function _ fun _ =>
    tame_typeOf (tame_infer _ .value body)
  | .paren _ inner => by
    cases use with
    | callee => exact tame_infer ctx .callee inner
    | value =>
      simp only [infer]
      exact tame_nested _ (tame_typeOf (tame_infer ctx.deeper .value inner))

theorem tame_inferOption {k : Nat} (ctx : Context) : (e : Option Expr) →
    Tame (k + 3) fun c => inferOption (ctx.reporting c) e
  | some e => tame_typeOf (tame_infer _ .value e)
  | none => .pure _

theorem tame_inferAll {k : Nat} (ctx : Context) : (es : List Expr) →
    Tame (k + 3) fun c => inferAll (ctx.reporting c) es
  | [] => .pure _
  | e :: rest =>
    (tame_typeOf (tame_infer _ .value e)).bind fun _ => (tame_inferAll _ rest).thenPure _

theorem tame_properties {k : Nat} (ctx : Context) : (ps : List Property) →
    Tame (k + 3) fun c => properties (ctx.reporting c) ps
  | [] => .pure _
  | .named _ value :: rest => (tame_infer _ .value value).bind fun _ => tame_properties _ rest
  | .computed key value :: rest =>
    (tame_infer _ .value key).bind fun _ => (tame_infer _ .value value).bind fun _ =>
      tame_properties _ rest
  | .shorthand name :: rest => (tame_read _ name).bind fun _ => tame_properties _ rest
  | .spread value :: rest => (tame_infer _ .value value).bind fun _ => tame_properties _ rest

end

end Walk

end ScriptCheck
