import ScriptCheck.Proofs.Deeds
import ScriptCheck.Proofs.Regions

/-!
# Every visit follows its trail

The trail of a visit leads from the state in which the visit starts to the one in which it ends
(`Follows`), so the deeds on it are all that happens to names. At the same time all types stay
canonical: those in the state and those that are answered. And the state stays sound, as long as the
regions of the part that is visited are not too long (`Analysis.sound_visited`).

There is a rule for each way to put steps together and a lemma for each step; the last section goes
through all statements and expressions.
-/

namespace ScriptCheck

namespace Walk

/-! ### Regions -/

section

variable {n : Nat}

theorem fits_of_hi_le {span : Span} (hn : n ≤ Span.maxLength) (h : span.hi ≤ n) : span.Fits := by
  have : span.len ≤ span.hi := Nat.le_add_left _ _
  change span.len ≤ Span.maxLength
  omega

theorem hi_through_le {s t : Span} (hs : s.hi ≤ n) (ht : t.hi ≤ n) : (s.through t).hi ≤ n := by
  have := s.lo_le_hi
  rw [Span.hi_through]
  omega

theorem hi_le_of_bodySpan {body : List Stmt} (h : stmtsRegions (upTo n) body) :
    ∀ span ∈ bodySpan body, span.hi ≤ n := by
  rw [stmtsRegions_iff] at h
  intro span hspan
  unfold bodySpan at hspan
  split at hspan
  · next first last hfirst hlast =>
    obtain rfl := Option.some.inj hspan
    exact hi_through_le (Stmt.span_of_regions (h first (List.mem_of_head? hfirst)))
      (Stmt.span_of_regions (h last (List.mem_of_getLast? hlast)))
  · simp at hspan

theorem hi_le_of_handlerSpan (param : Option Ident) {handler : List Stmt}
    (hparam : ∀ x ∈ param, x.span.hi ≤ n) (hhandler : stmtsRegions (upTo n) handler) :
    ∀ span ∈ handlerSpan param handler, span.hi ≤ n := by
  have hbody := hi_le_of_bodySpan hhandler
  intro span hspan
  unfold handlerSpan at hspan
  split at hspan
  · next param body hbodySpan =>
    obtain rfl := Option.some.inj hspan
    exact hi_through_le (hparam param rfl) (hbody body hbodySpan)
  · next param _ =>
    obtain rfl := Option.some.inj hspan
    exact hparam param rfl
  · split at hspan
    · exact hbody span hspan
    · simp at hspan

end

variable {α β : Type} {p : Walk α} {f : α → Walk β} {Q : α → Prop} {R : β → Prop} {ctx : Context}
  {fits : Prop} {passes : PassSet} {s : State} {t u : Trail} {type : Ty}

/-! ### Steps aside -/

theorem Keeps.sound {W : SymbolTable → α → Prop} (h : Keeps s.table p W) (hs : s.Sound) :
    (s.after p).Sound :=
  (h s hs (.refl _)).1

/-- A step that does nothing to names and answers something with a property. -/
structure Idle (ctx : Context) (p : Walk α) (Q : α → Prop) : Prop where
  fine : Fine p Q
  aside : ∀ s : State, s.Aside (s.after p)
  sound : ∀ s : State, s.table.hasScope ctx.scope → s.Sound → (s.after p).Sound

theorem idle_pure {a : α} (h : Q a) : Idle ctx (pure a) Q := ⟨fine_pure h, .refl, fun _ _ => id⟩

namespace Idle

theorem bindAll (hp : Idle ctx p Q) (hf : ∀ a, Idle ctx (f a) R) : Idle ctx (p >>= f) R :=
  ⟨hp.fine.bind fun a _ => (hf a).fine, fun s => (hp.aside s).trans ((hf _).aside _),
    fun s h hs => (hf _).sound _ ((hp.aside s).table ▸ h) (hp.sound s h hs)⟩

theorem thenPure (hp : Idle ctx p Q) {g : α → β} (hg : ∀ a, Q a → R (g a)) :
    Idle ctx (p >>= fun a => pure (g a)) R :=
  ⟨hp.fine.thenPure hg, hp.aside, hp.sound⟩

end Idle

theorem aside_require (holds : Bool) (s : State) : s.Aside (s.after (require holds)) :=
  ⟨⟨rfl, rfl, fun h => ((Bool.and_eq_true _ _).mp h).1⟩, rfl⟩

theorem idle_report (span : Span) (finding : Finding) (hname : finding.isOfName = false)
    (h : finding.Canonical) : Idle ctx (report ctx span finding) fun _ => True := by
  refine ⟨fine_report span finding h, fun s => ?_, fun _ _ => steady_report.sound⟩
  change s.Aside (if ctx.passes.enabled finding.pass then _ else _)
  split
  · exact ⟨⟨rfl, by simp [hname], id⟩, rfl⟩
  · exact .refl s

theorem idle_reportWhen (found : Bool) (span : Span) (finding : Finding)
    (hname : finding.isOfName = false) (h : finding.Canonical) :
    Idle ctx (reportWhen ctx found span finding) fun _ => True := by
  cases found with
  | true => exact idle_report span finding hname h
  | false => exact idle_pure trivial

theorem idle_lookup (name : Ident) : Idle ctx (lookup ctx name) fun _ => True :=
  ⟨fine_lookup name, fun s => aside_require (s.table.isRooted ctx.scope) s,
    fun _ h => (keeps_lookup h name).sound⟩

theorem idle_importedType (m : Option Builtin.Module) (spec : ImportSpec) :
    Idle ctx (importedType ctx m spec) Ty.Canonical := by
  have hmodule (m : Option Builtin.Module) :
      ((m.map (.namespaceOf ·.name)).getD .unknown : Ty).Canonical := by
    cases m <;> trivial
  unfold importedType
  split
  · split
    · exact idle_pure trivial
    · split
      · next h => exact idle_pure (Builtin.canonical_member h)
      · exact (idle_report _ (.notExported _ _) rfl trivial).thenPure fun _ _ => trivial
  · exact idle_pure (hmodule m)
  · exact idle_pure (hmodule m)

theorem idle_checkSource (source : TextLit) : Idle ctx (checkSource ctx source) fun _ => True :=
  idle_reportWhen _ _ (.moduleNotFound _) rfl trivial

theorem idle_moduleMember (m : Builtin.Module) (property : Ident) :
    Idle ctx (moduleMember ctx m property) Ty.Canonical := by
  unfold moduleMember
  split
  · next h => exact idle_pure (Builtin.canonical_member h)
  · exact (idle_report _ (.instanceMethod _ _ _) rfl trivial).thenPure fun _ _ => trivial
  · exact (idle_report _ (.unknownMember _ _) rfl trivial).thenPure fun _ _ => trivial

theorem idle_resourceMember (owner : Ty) (property : Ident) :
    Idle ctx (resourceMember ctx owner property) Ty.Canonical := by
  unfold resourceMember
  split
  · exact idle_pure trivial
  · exact (idle_reportWhen _ _ (.unknownMethod _ _) rfl trivial).thenPure
      fun _ _ => trivial
  · refine idle_pure (Ty.canonical_unionOf fun t ht => ?_)
    obtain ⟨method, _, rfl⟩ := List.mem_map.mp ht
    exact Builtin.canonical_signature method

theorem idle_member (owner : Ty) (property : Ident) :
    Idle ctx (member ctx owner property) Ty.Canonical := by
  unfold member
  split
  · split
    · exact idle_moduleMember _ property
    · exact idle_pure trivial
  · exact idle_resourceMember owner property

theorem idle_nameSignature (name : Ident) : Idle ctx (nameSignature ctx name) fun _ => True := by
  refine ⟨?_, fun s => ?_, fun s h => Keeps.sound (W := fun _ _ => True) ?_⟩
  · refine (fine_lookup name).bind fun found _ => ?_
    cases found with
    | some id => exact (fine_symbol id).thenPure fun _ _ => trivial
    | none => exact fine_pure trivial
  · have hlookup : s.Aside (s.after (lookup ctx name)) := (idle_lookup name).aside s
    unfold nameSignature
    cases hfound : s.table.lookup name.name ctx.scope with
    | some id =>
      rw [after_found hfound]
      exact hlookup.trans (aside_require (s.table.hasSymbol id) _)
    | none =>
      rw [after_found hfound]
      exact hlookup
  · refine (keeps_lookup h name).bind fun found _ _ hfound => ?_
    cases found with
    | some id => exact (steady_symbol (hfound id rfl)).thenPure
    | none => exact steady_pure _

theorem idle_callResult (span : Span) (h : type.Canonical)
    (signature : Option Builtin.Signature) (args : List Expr) :
    Idle ctx (callResult ctx span type signature args) Ty.Canonical := by
  cases signature with
  | some f =>
    exact (idle_reportWhen _ _ (.tooFewArguments _ _ _) rfl trivial).thenPure
      fun _ _ => Builtin.canonical_tyOf f.returns
  | none =>
    refine idle_pure ?_
    cases hresult : type.result? with
    | some result => exact Ty.canonical_result h hresult
    | none => trivial

theorem idle_finishCall (span : Span) (callee : Expr) (h : type.Canonical)
    (signature : Option Builtin.Signature) (args : List Expr) :
    Idle ctx (finishCall ctx span callee type signature args) Ty.Canonical :=
  (idle_reportWhen _ _ (.notCallable type) rfl h).bindAll
    fun _ => idle_callResult span h signature args

theorem idle_exits (e : Expr) : Idle ctx (exits ctx e) fun _ => True := by
  unfold exits
  split
  · split
    · exact (idle_lookup _).thenPure fun _ _ => trivial
    · exact idle_pure trivial
  · exact idle_pure trivial

theorem idle_enter (s : Stmt) (flow : Flow) : Idle ctx (flow.enter ctx s) fun _ => True := by
  unfold Flow.enter
  split
  · exact (idle_report _ .unreachable rfl trivial).thenPure fun _ _ => trivial
  · exact idle_pure trivial

/-! ### Putting steps together -/

theorem hasScope_openScope (ctx : Context) (kind : ScopeKind) (span : Span) (s : State) :
    (s.after (openScope ctx kind span)).table.hasScope (s.answer (openScope ctx kind span)) := by
  change decide (s.table.scopes.length < (s.table.scopes ++ [_]).length) = true
  simp

/-- A visit can start at a place: its findings are those of some passes, all types are canonical, and
its scope is in the table. -/
structure Starts (passes : PassSet) (ctx : Context) (s : State) : Prop where
  passes : ctx.passes = passes
  canonical : s.Canonical
  scope : s.table.hasScope ctx.scope

namespace Starts

variable (h : Starts passes ctx s)

include h

theorem deeper : Starts passes ctx.deeper s := ⟨h.passes, h.canonical, h.scope⟩

theorem inLoop : Starts passes ctx.inLoop s := ⟨h.passes, h.canonical, h.scope⟩

theorem inSwitch : Starts passes ctx.inSwitch s := ⟨h.passes, h.canonical, h.scope⟩

end Starts

/-- A trail leads from one state to another. If some regions fit, the second one is as sound as the
first. -/
structure Arrives (fits : Prop) (passes : PassSet) (t : Trail) (s s' : State) : Prop where
  leads : t.Leads passes s s'
  canonical : s'.Canonical
  grows : s'.table.Extends s.table
  sound : fits → s.Sound → s'.Sound

/-- A step from a state follows a trail, and answers something with a property. -/
structure Follows (fits : Prop) (passes : PassSet) (s : State) (p : Walk α) (Q : α → Prop)
    (t : Trail) : Prop extends Arrives fits passes t s (s.after p) where
  answer : Q (s.answer p)

/-- A step from a state follows a trail, whatever it answers. -/
abbrev JustFollows (fits : Prop) (passes : PassSet) (s : State) (p : Walk α) (t : Trail) : Prop :=
  Follows fits passes s p (fun _ => True) t

/-- A step follows its trail from every state in which it can start. -/
abbrev AlwaysFollows (fits : Prop) (passes : PassSet) (ctx : Context) (p : Walk α) (Q : α → Prop)
    (trail : State → Trail) : Prop :=
  ∀ s : State, Starts passes ctx s → Follows fits passes s p Q (trail s)

theorem Idle.follows (hp : Idle ctx p Q) (h : Starts passes ctx s) :
    Follows fits passes s p Q .done :=
  ⟨⟨hp.aside s, (hp.fine s h.canonical).1, (hp.aside s).table ▸ .refl _,
    fun _ => hp.sound s h.scope⟩, (hp.fine s h.canonical).2⟩

/-- What can start before a part of a visit can start after it. -/
theorem Arrives.starts {s' : State} (ha : Arrives fits passes t s s') (h : Starts passes ctx s) :
    Starts passes ctx s' :=
  ⟨h.passes, ha.canonical, ha.grows.hasScope h.scope⟩

/-- What happens aside before a step is no part of the trail. -/
theorem Idle.andThen (hp : Idle ctx p Q) (h : Starts passes ctx s)
    (hf : Starts passes ctx (s.after p) → Q (s.answer p) →
      Follows fits passes (s.after p) (f (s.answer p)) R t) :
    Follows fits passes s (p >>= f) R t := by
  have hp' : Follows fits passes s p Q .done := hp.follows h
  have hf := hf (hp'.starts h) hp'.answer
  exact ⟨⟨hf.leads.before (hp.aside s), hf.canonical, hf.grows.trans hp'.grows,
    fun hfits hs => hf.sound hfits (hp'.sound hfits hs)⟩, hf.answer⟩

theorem follows_pure {a : α} (hQ : Q a) (h : Starts passes ctx s) :
    Follows fits passes s (pure a) Q .done :=
  (idle_pure hQ).follows h

namespace Follows

/-- A step, and then one that can start at the same place. -/
theorem bind (hp : Follows fits passes s p Q t) (h : Starts passes ctx s)
    (hf : Starts passes ctx (s.after p) → Q (s.answer p) →
      Follows fits passes (s.after p) (f (s.answer p)) R u) :
    Follows fits passes s (p >>= f) R (.andThen t u) := by
  have hf := hf (hp.starts h) hp.answer
  exact ⟨⟨⟨_, hp.leads, hf.leads⟩, hf.canonical, hf.grows.trans hp.grows,
    fun hfits hs => hf.sound hfits (hp.sound hfits hs)⟩, hf.answer⟩

theorem thenPure (hp : Follows fits passes s p Q t) {g : α → β} (hg : ∀ a, Q a → R (g a)) :
    Follows fits passes s (p >>= fun a => pure (g a)) R t :=
  ⟨hp.toArrives, hg _ hp.answer⟩

theorem thenIdle (hp : Follows fits passes s p Q t) (h : Starts passes ctx s)
    (hf : ∀ a, Q a → Idle ctx (f a) R) : Follows fits passes s (p >>= f) R t := by
  have hidle := hf _ hp.answer
  have hf : Follows fits passes _ _ R .done := hidle.follows (hp.starts h)
  exact ⟨⟨hp.leads.later (hidle.aside _), hf.canonical, hf.grows.trans hp.grows,
    fun hfits hs => hf.sound hfits (hp.sound hfits hs)⟩, hf.answer⟩

end Follows

/-! ### Deeds -/

section Deeds

variable (h : Starts passes ctx s)

include h

theorem follows_act (act : Act) (hact : act.Canonical) :
    JustFollows fits passes s (act.step ctx) (.deed ⟨ctx, act, s⟩) :=
  let d : Deed := ⟨ctx, act, s⟩
  ⟨⟨⟨⟨h.passes, h.canonical, hact⟩, .refl _, .refl _⟩, d.canonical_after hact h.canonical,
    d.extends_after, fun _ => (steady_act h.scope act).sound⟩, trivial⟩

theorem follows_read (name : Ident) :
    Follows fits passes s (read ctx name) Ty.Canonical (.deed ⟨ctx, .read name, s⟩) :=
  ⟨(follows_act h (.read name) trivial).toArrives, canonical_read name h.canonical⟩

theorem follows_declare (name : Ident) (kind : SymbolKind) (htype : type.Canonical) :
    JustFollows fits passes s (declare ctx name kind type)
      (.deed ⟨ctx, .declare name kind type, s⟩) :=
  ⟨(follows_act h (.declare name kind type) htype).toArrives, trivial⟩

theorem follows_openScope (kind : ScopeKind) (span : Span) :
    Follows fits passes s (openScope ctx kind span)
      (fun id => (s.after (openScope ctx kind span)).table.hasScope id)
      (.deed ⟨ctx, .openScope kind span, s⟩) :=
  ⟨(follows_act h (.openScope kind span) trivial).toArrives, hasScope_openScope ctx kind span s⟩

/-- What is visited in a block can start there. -/
theorem follows_openBlock (span : Option Span) :
    Follows fits passes s (openBlock ctx span)
      (fun inner => Starts passes inner (s.after (openBlock ctx span)))
      (openBlockTrail ctx span s) := by
  cases span with
  | some span =>
    have hopen : Follows fits passes s _ _ _ := follows_openScope h .block span
    exact ⟨hopen.toArrives, h.passes, hopen.canonical, hopen.answer⟩
  | none => exact follows_pure h h

theorem follows_assignTarget (target : Expr) (htype : type.Canonical) :
    JustFollows fits passes s (assignTarget ctx target type)
      (assignTargetTrail ctx target type s) := by
  unfold assignTarget assignTargetTrail
  cases target? target with
  | some name => exact follows_act h (.assign name type) htype
  | none => exact follows_pure trivial h

theorem follows_hoistFunction (name : Option Ident) (params : List Param) :
    JustFollows fits passes s (hoistFunction ctx name params)
      (hoistFunctionTrail ctx name params s) := by
  cases name with
  | some name =>
    refine (follows_declare h name .function ?_).thenPure fun _ _ => trivial
    exact trivial
  | none => exact follows_pure trivial h

theorem follows_bindForIn (kind : Option SymbolKind) (name : Option Ident)
    (htype : type.Canonical) :
    JustFollows fits passes s (bindForIn ctx kind name type)
      (bindForInTrail ctx kind name type s) := by
  unfold bindForIn bindForInTrail
  split
  · exact (follows_declare h _ _ htype).thenPure fun _ _ => trivial
  · exact follows_act h (.assign _ type) htype
  · exact follows_pure trivial h

theorem follows_declareCaught (param : Option Ident) :
    JustFollows fits passes s (declareCaught ctx param) (declareCaughtTrail ctx param s) := by
  cases param with
  | some param =>
    have hobject : Ty.object.Canonical := trivial
    exact (follows_declare h param .letVar hobject).thenPure fun _ _ => trivial
  | none => exact follows_pure trivial h

theorem follows_openHandler (param : Option Ident) (handler : List Stmt)
    (hbody : fits → ∀ span ∈ bodySpan handler, span.Fits)
    (hhandler : fits → ∀ span ∈ handlerSpan param handler, span.Fits) :
    Follows fits passes s (openHandler ctx param handler)
      (fun inner => Starts passes inner (s.after (openHandler ctx param handler)))
      (openHandlerTrail ctx param handler s) := by
  let required := (bodySpan handler).all (·.Fits) && (handlerSpan param handler).all (·.Fits)
  have hfine := (fine_require required s h.canonical).1
  have hstarts : Starts passes ctx (s.after (require required)) := ⟨h.passes, hfine, h.scope⟩
  have hopen : Follows fits passes _ _ _ _ := follows_openBlock hstarts (handlerSpan param handler)
  refine ⟨⟨hopen.leads.before (aside_require required s), hopen.canonical, hopen.grows, ?_⟩,
    hopen.answer⟩
  intro hfits hs
  have hrequired : required = true := by
    simpa [required, Option.all_eq_true] using ⟨hbody hfits, hhandler hfits⟩
  exact hopen.sound hfits ((steady_require hrequired).sound hs)

end Deeds

/-- A deed, and then what follows. -/
theorem follows_stepTrail {rest : State → Trail}
    (hp : Follows fits passes s p Q (.deed ⟨ctx, act, s⟩)) (h : Starts passes ctx s)
    (hsame : s.after p = Deed.after ⟨ctx, act, s⟩)
    (hf : Starts passes ctx (s.after p) → Q (s.answer p) →
      Follows fits passes (s.after p) (f (s.answer p)) R (rest (s.after p))) :
    Follows fits passes s (p >>= f) R (stepTrail ctx act rest s) := by
  unfold stepTrail
  rw [← hsame]
  exact hp.bind h hf

section Lists

theorem follows_hoist (body : List Stmt) :
    AlwaysFollows fits passes ctx (hoist ctx body) (fun _ => True) (hoistTrail ctx body) := by
  intro s h
  refine hoistTrail_rule
    (P := fun p s t => Starts passes ctx s → JustFollows fits passes s p t) ?_ ?_ body s h
  · exact fun _ h => follows_pure trivial h
  · intro name params rest s t ih h
    exact (follows_hoistFunction h name params).bind h fun h _ => ih h

theorem follows_declareParams (params : List Param) :
    AlwaysFollows fits passes ctx (declareParams ctx params) (fun _ => True)
      (paramsTrail ctx params) := by
  intro s h
  induction params generalizing s with
  | nil => exact follows_pure trivial h
  | cons param rest ih =>
    have htype : (if param.rest then .array .unknown else .unknown : Ty).Canonical := by
      split <;> trivial
    exact follows_stepTrail (follows_declare h param.name .parameter htype) h rfl
      fun h _ => ih _ h

theorem follows_declareImports (source : String) {typeOf : ImportSpec → Walk Ty}
    (htypeOf : ∀ spec, Idle ctx (typeOf spec) Ty.Canonical) (specs : List ImportSpec) :
    AlwaysFollows fits passes ctx (declareImports ctx source typeOf specs) (fun _ => True)
      (importsTrail ctx source typeOf specs) := by
  intro s h
  induction specs generalizing s with
  | nil => exact follows_pure trivial h
  | cons spec rest ih =>
    refine (htypeOf spec).andThen h fun h htype => ?_
    let act := Act.declareImport source spec.declared (specifierOf spec) (s.answer (typeOf spec))
    exact follows_stepTrail (follows_act h act htype) h rfl fun h _ => ih _ h

theorem follows_importNames (specs : List ImportSpec) (source : TextLit) (h : Starts passes ctx s) :
    JustFollows fits passes s (importNames ctx specs source)
      (importNamesTrail ctx specs source s) := by
  unfold importNames importNamesTrail
  split
  · exact (idle_report _ (.moduleNotFound _) rfl trivial).follows h
  · split
    · exact follows_declareImports _ (fun _ => idle_pure (a := Ty.unknown) trivial) specs s h
    · exact follows_declareImports _ (idle_importedType _) specs s h

/-- Exported names are counted one by one. -/
theorem countExported_cons (ctx : Context) (name : Ident) (rest : List Ident) :
    countExported ctx (name :: rest) = countExported ctx [name] >>= fun _ => countExported ctx rest := by
  simp only [countExported, bind_assoc]
  refine bind_congr fun found => ?_
  cases found with
  | some id => simp
  | none => simp

theorem follows_countExported (names : List Ident) :
    AlwaysFollows fits passes ctx (countExported ctx names) (fun _ => True)
      (countExportedTrail ctx names) := by
  intro s h
  induction names generalizing s with
  | nil => exact follows_pure trivial h
  | cons name rest ih =>
    rw [countExported_cons]
    exact follows_stepTrail (follows_act h (.countExported name) trivial) h rfl fun h _ => ih _ h

theorem follows_readExported (specs : List ExportSpec) :
    AlwaysFollows fits passes ctx (readExported ctx specs) (fun _ => True)
      (readExportedTrail ctx specs) := by
  intro s h
  induction specs generalizing s with
  | nil => exact follows_pure trivial h
  | cons spec rest ih =>
    exact follows_stepTrail (follows_read h spec.name) h rfl fun h _ => ih _ h

theorem follows_exportNames (specs : List ExportSpec) (source : Option TextLit)
    (h : Starts passes ctx s) :
    JustFollows fits passes s (exportNames ctx specs source)
      (exportNamesTrail ctx specs source s) := by
  cases source with
  | some source => exact (idle_checkSource source).follows h
  | none => exact follows_readExported specs s h

end Lists

/-! ### Functions -/

theorem follows_function {span : Span} {params : List Param} {body : Context → Walk Ty}
    {trail : Context → State → Trail} (h : Starts passes ctx s)
    (hbody : ∀ inner, AlwaysFollows fits passes inner (body inner) Ty.Canonical (trail inner)) :
    Follows fits passes s (function ctx span params body) Ty.Canonical
      (functionTrail ctx span params trail s) := by
  refine (follows_openScope h .function span).bind h fun hopened hscope => ?_
  let scope := s.answer (openScope ctx .function span)
  let opened := s.after (openScope ctx .function span)
  let inner := ctx.inFunction scope
  let entered : State := { opened with returns := [], broke := false }
  have hcanonical := hopened.canonical
  have hentered : Starts passes inner entered :=
    ⟨h.passes, ⟨hcanonical.table, hcanonical.env, nofun, hcanonical.findings⟩, hscope⟩
  have hvisit : Follows fits passes entered (declareParams inner params >>= fun _ => body inner)
      Ty.Canonical _ :=
    (follows_declareParams params entered hentered).bind hentered fun h _ => hbody inner _ h
  let ended := entered.after (declareParams inner params >>= fun _ => body inner)
  have henv : (opened.env.afterFunction ended.env ended.table scope).Canonical :=
    hcanonical.env.afterFunction hvisit.canonical.table scope
  refine ⟨⟨⟨ended, hvisit.leads.before (.of_eq rfl rfl rfl rfl), ⟨rfl, rfl, ?_⟩, rfl⟩,
    ⟨hvisit.canonical.table, henv, hcanonical.returns, hvisit.canonical.findings⟩, hvisit.grows, ?_⟩,
    hvisit.answer⟩
  · exact fun h => ((Bool.and_eq_true _ _).mp h).1
  · intro hfits hs
    have hended := hvisit.sound hfits (hs.congr ⟨rfl, rfl, rfl⟩)
    -- the symbols whose types the body changed had types there, so they are in the table
    have hchanged : (opened.env.changed ended.env scope).all ended.table.hasSymbol := by
      simpa using hended.env.changed opened.env scope
    exact ⟨(Bool.and_eq_true _ _).mpr ⟨hended.sound, hchanged⟩, hended.table,
      (hs.env.mono hvisit.grows).afterFunction hended.env scope⟩

theorem follows_resultOf {body : Walk Bool} (h : JustFollows fits passes s body t) :
    Follows fits passes s (resultOf body) Ty.Canonical t := by
  refine ⟨h.toArrives, Ty.canonical_unionOf fun type htype => ?_⟩
  change type ∈ (if s.answer body then (s.after body).returns else _) at htype
  split at htype
  · exact h.canonical.returns type htype
  · rcases List.mem_append.mp htype with htype | htype
    · exact h.canonical.returns type htype
    · rw [List.mem_singleton.mp htype]
      trivial

theorem follows_functionDecl (name : Option Ident) (params : List Param) {visit : Walk Ty}
    {trail : State → Trail} (h : Starts passes ctx s)
    (hvisit : AlwaysFollows fits passes ctx visit Ty.Canonical trail) :
    JustFollows fits passes s (functionDecl ctx name params visit)
      (functionDeclTrail ctx name params visit trail s) := by
  cases name with
  | some name =>
    have hrest (u : State) (h : Starts passes ctx u) :
        JustFollows fits passes u (visit >>= recordFunction ctx name)
          (.andThen (trail u)
            (.deed ⟨ctx, .recordFunction name (u.answer visit), u.after visit⟩)) :=
      (hvisit u h).bind h fun h htype => follows_act h (.recordFunction name _) htype
    refine (idle_lookup name).andThen h fun h _ => ?_
    unfold functionDeclTrail
    dsimp only
    split
    · exact (follows_hoistFunction h (some name) params).bind h fun h _ => hrest _ h
    · exact hrest _ h
  | none => exact (hvisit s h).thenPure fun _ _ => trivial

/-! ### Operators -/

theorem follows_typeOf {visit : Walk Typed} (h : Follows fits passes s visit (·.type.Canonical) t) :
    Follows fits passes s (typeOf visit) Ty.Canonical t :=
  ⟨h.toArrives, h.answer⟩

theorem AlwaysFollows.typeOf {visit : Walk Typed} {trail : State → Trail}
    (h : AlwaysFollows fits passes ctx visit (·.type.Canonical) trail) :
    AlwaysFollows fits passes ctx (typeOf visit) Ty.Canonical trail :=
  fun u hu => follows_typeOf (h u hu)

theorem follows_nested {visit : Context → Walk Ty} {trail : Context → State → Trail}
    (h : Starts passes ctx s)
    (hvisit : Starts passes ctx.deeper s →
      Follows fits passes s (visit ctx.deeper) Ty.Canonical (trail ctx.deeper s)) :
    Follows fits passes s (nested ctx visit) (·.type.Canonical) (nestedTrail ctx trail s) := by
  unfold nested nestedTrail
  split
  · exact ⟨⟨.refl s, h.canonical, .refl _, fun _ => id⟩, trivial⟩
  · have hvisit := hvisit h.deeper
    exact ⟨⟨⟨_, hvisit.leads, .refl _⟩, hvisit.canonical, hvisit.grows, hvisit.sound⟩,
      hvisit.answer⟩

/-- A part starts from other types. -/
theorem Starts.setEnv (h : Starts passes ctx s) {e : Env} (he : e.Canonical) :
    Starts passes ctx (s.after (setEnv e)) :=
  ⟨h.passes, (fine_setEnv he s h.canonical).1, h.scope⟩

/-- Two branches, of which the second one starts with the types from before the first. -/
theorem Follows.branch {first : Walk α} {second : Walk β} (h : Starts passes ctx s)
    (hfirst : Follows fits passes s first Q t)
    (hsecond : Starts passes ctx ((s.after first).after (Walk.setEnv s.env)) →
      Follows fits passes ((s.after first).after (Walk.setEnv s.env)) second R u) (a b : Bool) :
    let ended := ((s.after first).after (Walk.setEnv s.env)).after second
    Arrives fits passes (.either t u a b) s (ended.after (mergeBranches (s.after first).env a b)) := by
  intro ended
  have hsecond := hsecond ((hfirst.starts h).setEnv h.canonical.env)
  have hgrows : ended.table.Extends (s.after first).table := hsecond.grows
  refine ⟨⟨_, _, hfirst.leads, hsecond.leads, .refl _⟩,
    (fine_mergeBranches hfirst.canonical.env a b _ hsecond.canonical).1, ?_, fun hfits hs => ?_⟩
  · exact (ended.extends_mergeBranches _ a b).trans (hgrows.trans hfirst.grows)
  · have hmiddle := hfirst.sound hfits hs
    have hended := hsecond.sound hfits ((steady_setEnv (hs.env.mono hfirst.grows)).sound hmiddle)
    exact (steady_mergeBranches (hmiddle.env.mono hgrows) a b).sound hended

section Operators

/-- The operators that are left after those which may skip their right operand. -/
theorem family_ne_shortCircuit {op : BinaryOp} (hop : op.isShortCircuit = false) :
    op.family ≠ .shortCircuit := by
  cases op <;> simp [BinaryOp.family, BinaryOp.isShortCircuit] at hop ⊢

variable {lhs rhs : Walk Ty} {left right : State → Trail}
  (hlhs : AlwaysFollows fits passes ctx lhs Ty.Canonical left)
  (hrhs : AlwaysFollows fits passes ctx rhs Ty.Canonical right) (h : Starts passes ctx s)

include hlhs hrhs h

theorem follows_binary (span : Span) (op : BinaryOp) :
    Follows fits passes s (binary ctx span op lhs rhs) Ty.Canonical
      (binaryTrail op lhs left right s) := by
  have hleft := hlhs s h
  have hright := hrhs _ (hleft.starts h)
  unfold binary binaryTrail
  split
  · refine hleft.bind h fun _ hl => ?_
    let joined := ((s.after lhs).after rhs).after (joinBefore (s.after lhs).env)
    have hjoined : joined.Canonical :=
      (fine_mergeBranches hleft.canonical.env false false _ hright.canonical).1
    refine ⟨⟨⟨_, hright.leads, .refl _⟩, hjoined, hright.grows, fun hfits hs => ?_⟩,
      Ty.canonical_shortCircuit hl hright.answer op⟩
    exact (steady_mergeBranches (hs.env.mono hright.grows) false false).sound (hright.sound hfits hs)
  · next hop =>
    refine hleft.bind h fun h hl => ?_
    refine hright.thenIdle h fun r hr => ?_
    split
    · exact idle_pure trivial
    · exact idle_pure trivial
    · cases hfind : [s.answer lhs, r].find? Ty.isCompound with
      | some compound =>
        have hcompound : compound.Canonical := by
          obtain rfl | rfl : compound = s.answer lhs ∨ compound = r := by
            simpa using List.mem_of_find?_eq_some hfind
          · exact hl
          · exact hr
        exact (idle_report _ (.arithmeticOnCompound compound) rfl hcompound).thenPure
          fun _ _ => Ty.canonical_arithmetic op _ _
      | none => exact idle_pure (Ty.canonical_arithmetic op _ _)
    -- nothing is left for the family that was tested first
    · next hfamily => exact absurd hfamily (family_ne_shortCircuit (by simpa using hop))

theorem follows_assigned (span : Span) (op : AssignOp) (isName : Bool) :
    Follows fits passes s (assigned ctx span op isName lhs rhs) Ty.Canonical
      (assignedTrail op isName lhs left right s) := by
  cases op with
  | assign =>
    cases isName with
    | true => exact hrhs s h
    | false => exact (hlhs s h).bind h fun h _ => hrhs _ h
  | compound op => exact follows_binary hlhs hrhs h span op

theorem follows_either :
    Follows fits passes s (either lhs rhs) Ty.Canonical (eitherTrail lhs left right s) := by
  have hleft := hlhs s h
  have hright := hrhs _ ((hleft.starts h).setEnv h.canonical.env)
  exact ⟨hleft.branch h (fun _ => hright) false false, Ty.canonical_join hleft.answer hright.answer⟩

end Operators

/-! ### Statements -/

section

variable (h : Starts passes ctx s)
include h

theorem follows_step (stmt : Stmt) (flow : Flow) {visit : Walk Bool}
    (hvisit : Starts passes ctx (s.after (flow.enter ctx stmt)) →
      JustFollows fits passes (s.after (flow.enter ctx stmt)) visit t) :
    JustFollows fits passes s (step ctx stmt flow visit) t := by
  refine (idle_enter stmt flow).andThen h fun h _ => ?_
  have hvisit := hvisit h
  by_cases hflow : s.answer (flow.enter ctx stmt) = .reported
  · simp only [hflow, if_true]
    have hcanonical := hvisit.canonical
    exact ⟨⟨hvisit.leads.later (.of_eq rfl rfl rfl rfl),
      ⟨hcanonical.table, hcanonical.env, h.canonical.returns, hcanonical.findings⟩, hvisit.grows,
      fun hfits hs => (hvisit.sound hfits hs).congr ⟨rfl, rfl, rfl⟩⟩, trivial⟩
  · simp only [hflow, if_false]
    exact ⟨hvisit.toArrives, trivial⟩

/-- What comes before each round of a loop is visited once, like the rest of the loop. -/
theorem Follows.loop {start : Walk α} {body : Walk Bool} {update : Walk β} {w : Trail}
    (hstart : Follows fits passes s start Q t)
    (hbody : Starts passes ctx (s.after start) → JustFollows fits passes (s.after start) body u)
    (hupdate : let ended := { (s.after start).after body with broke := (s.after start).broke }
      Starts passes ctx ended → Follows fits passes ended update R w) :
    Arrives fits passes (.loop t u w) s (s.after (start >>= fun _ => Walk.loop body update)) := by
  have hbody := hbody (hstart.starts h)
  have hended := hbody.starts (hstart.starts h)
  have hcanonical := hended.canonical
  have hupdate := hupdate ⟨h.passes, ⟨hcanonical.table, hcanonical.env, hcanonical.returns,
    hcanonical.findings⟩, hended.scope⟩
  have hbefore : ((s.after start).after body).Aside
      { (s.after start).after body with broke := (s.after start).broke } := .of_eq rfl rfl rfl rfl
  refine ⟨⟨_, _, _, hstart.leads, hbody.leads, hupdate.leads.before hbefore, .refl _⟩,
    (fine_mergeBranches hstart.canonical.env false false _ hupdate.canonical).1,
    hupdate.grows.trans (hbody.grows.trans hstart.grows), fun hfits hs => ?_⟩
  have hstarted := hstart.sound hfits hs
  have hknown := hstarted.env.mono (hupdate.grows.trans hbody.grows)
  exact (steady_mergeBranches hknown false false).sound
    (hupdate.sound hfits ((hbody.sound hfits hstarted).congr ⟨rfl, rfl, rfl⟩))

theorem follows_switchCases (hasDefault : Bool) {cases : Walk Bool}
    (hcases : let started := { s with broke := false }
      Starts passes ctx started → JustFollows fits passes started cases t) :
    JustFollows fits passes s (switchCases hasDefault cases) (.switch t) := by
  have hs := h.canonical
  have hcases := hcases ⟨h.passes, ⟨hs.table, hs.env, hs.returns, hs.findings⟩, h.scope⟩
  let ended := State.after { s with broke := false } cases
  have hended : ended.Canonical := hcases.canonical
  have hjoined : (s.env.join ended.env).Canonical := hs.env.join hended.env
  refine ⟨⟨⟨ended, hcases.leads.before (.of_eq rfl rfl rfl rfl), .of_eq rfl rfl rfl rfl⟩,
    ⟨hended.table, hjoined, hended.returns, hended.findings⟩, hcases.grows, fun hfits hs => ?_⟩,
    trivial⟩
  have hsound := hcases.sound hfits (hs.congr ⟨rfl, rfl, rfl⟩)
  exact ⟨hsound.sound, hsound.table, (hs.env.mono hcases.grows).join hsound.env⟩

theorem follows_sequence (body : List Stmt) {visit : Flow → Walk Flow}
    {trail : Flow → State → Trail}
    (hvisit : AlwaysFollows fits passes ctx (visit .reachable) (fun _ => True) (trail .reachable)) :
    JustFollows fits passes s (sequence ctx body visit) (sequenceTrail ctx body trail s) :=
  (follows_hoist body s h).bind h fun h _ => (hvisit _ h).thenPure fun _ _ => trivial

end

/-! ### Visits -/

section Visits

variable {n : Nat} (hn : fits → n ≤ Span.maxLength)

include hn

set_option linter.unusedSectionVars false in
mutual

theorem follows_stmt {ctx : Context} : (stmt : Stmt) → (fits → stmt.Regions (upTo n)) →
    AlwaysFollows fits passes ctx (Walk.stmt ctx stmt) (fun _ => True) (stmtTrail ctx stmt)
  | .expr _ value, hr, s, h => by
    refine (follows_infer .value value (fun hf => (hr hf).2) s h).bind h fun h _ => ?_
    have hexits : JustFollows fits passes _ (exits ctx value) .done := (idle_exits value).follows h
    refine ⟨⟨?_, hexits.canonical, hexits.grows, hexits.sound⟩, trivial⟩
    split
    · exact hexits.leads
    · exact hexits.leads
  | .decl _ kind ds, hr, s, h =>
    (follows_declarators kind.symbolKind ds (fun hf => (hr hf).2) s h).thenPure fun _ _ => trivial
  | .function span name params body, hr, s, h => by
    refine (follows_functionDecl name params h fun u h => ?_).thenPure fun _ _ => trivial
    refine follows_function h fun inner v h => follows_resultOf ?_
    exact follows_sequence h body (follows_stmts body .reachable fun hf => (hr hf).2.2.2)
  | .ifElse _ test yes no, hr, s, h => by
    refine (follows_infer .value test (fun hf => (hr hf).2.1) s h).bind h fun h _ => ?_
    have hyes := follows_stmt yes (fun hf => (hr hf).2.2.1) _ h
    exact ⟨hyes.branch h (follows_stmtOption no (fun hf => (hr hf).2.2.2) _) _ _, trivial⟩
  | .whileLoop _ test body, hr, s, h => by
    have htest := follows_infer .value test (fun hf => (hr hf).2.1) s h
    refine ⟨htest.loop h (fun h => ?_) (follows_pure (Q := fun _ => True) (a := ()) trivial),
      trivial⟩
    exact follows_stmt body (fun hf => (hr hf).2.2) _ h.inLoop
  | .forLoop span init test update body, hr, s, h => by
    refine (follows_openBlock h _).bind h fun _ h => ?_
    refine (follows_stmtOption init (fun hf => (hr hf).2.1) _ h).bind h fun h _ => ?_
    have htest := follows_inferOption test (fun hf => (hr hf).2.2.1) _ h
    refine ⟨htest.loop h (fun h => ?_)
      (follows_inferOption update (fun hf => (hr hf).2.2.2.1) _), trivial⟩
    exact follows_stmt body (fun hf => (hr hf).2.2.2.2) _ h.inLoop
  | .forIn span kind key value iterable body, hr, s, h => by
    have hiterable := follows_infer .value iterable (fun hf => (hr hf).2.2.2.1) s h
    refine (follows_typeOf hiterable).bind h fun h htype => ?_
    have htypes := Ty.canonical_forIn htype key.isSome
    refine (follows_openBlock h _).bind h fun _ h => ?_
    have hkey : JustFollows fits passes _ _ _ :=
      follows_bindForIn h (kind.map DeclKind.symbolKind) key htypes.1
    have hbind : JustFollows fits passes _ (bindForIn _ _ key _ >>= fun _ => bindForIn _ _ _ _) _ :=
      hkey.bind h fun h _ => follows_bindForIn h (kind.map DeclKind.symbolKind) (some value) htypes.2
    refine ⟨hbind.loop h (fun h => ?_) (follows_pure (Q := fun _ => True) (a := ()) trivial),
      trivial⟩
    exact follows_stmt body (fun hf => (hr hf).2.2.2.2) _ h.inLoop
  | .switch span subject cs, hr, s, h => by
    refine (follows_infer .value subject (fun hf => (hr hf).2.1) s h).bind h fun h _ => ?_
    refine (follows_openBlock h _).bind h fun _ h => ?_
    exact follows_switchCases h _ fun h =>
      follows_cases cs false (fun hf => (hr hf).2.2) _ h.inSwitch
  | .tryCatch span body param handler, hr, s, h => by
    have hopened : Follows fits passes _ _ _ _ := follows_openBlock h (blockSpan span body)
    have hbody := follows_sequence hopened.answer body
      (follows_stmts body .reachable fun hf => (hr hf).2.1)
    have hended := hbody.starts (hopened.starts h)
    have hcaught := hended.setEnv (h.canonical.env.join hended.canonical.env)
    have hhandling := follows_openHandler hcaught param handler
      (fun hf span hspan => fits_of_hi_le (hn hf) (hi_le_of_bodySpan (hr hf).2.2.2 span hspan))
      (fun hf span hspan => fits_of_hi_le (hn hf)
        (hi_le_of_handlerSpan param (hr hf).2.2.1 (hr hf).2.2.2 span hspan))
    have hparam : JustFollows fits passes _ _ _ := follows_declareCaught hhandling.answer param
    have hhandler := follows_sequence (hparam.starts hhandling.answer) handler
      (follows_stmts handler .reachable fun hf => (hr hf).2.2.2)
    have hgrows := hhandler.grows.trans (hparam.grows.trans hhandling.grows)
    refine ⟨⟨⟨_, _, ⟨_, hopened.leads, hbody.leads⟩,
      ⟨_, hhandling.leads, _, hparam.leads, hhandler.leads⟩, .refl _⟩,
      (fine_mergeBranches hbody.canonical.env _ _ _ hhandler.canonical).1, ?_, fun hf hs => ?_⟩,
      trivial⟩
    · exact (State.extends_mergeBranches _ _ _ _).trans
        (hgrows.trans (hbody.grows.trans hopened.grows))
    · have htried := hbody.sound hf (hopened.sound hf hs)
      -- the body may fail anywhere, so the handler starts from both types
      have hjoined := (hs.env.mono (hbody.grows.trans hopened.grows)).join htried.env
      have hparamed := hparam.sound hf (hhandling.sound hf ((steady_setEnv hjoined).sound htried))
      exact (steady_mergeBranches (htried.env.mono hgrows) _ _).sound (hhandler.sound hf hparamed)
  | .returns _ value, hr, s, h => by
    refine (follows_inferOption value (fun hf => (hr hf).2) s h).bind h fun h htype => ?_
    have hs := h.canonical
    refine ⟨⟨.of_eq rfl rfl rfl rfl, ⟨hs.table, hs.env, fun t ht => ?_, hs.findings⟩, .refl _,
      fun _ hs => hs.congr ⟨rfl, rfl, rfl⟩⟩, trivial⟩
    rcases List.mem_append.mp ht with ht | ht
    · exact hs.returns t ht
    · rw [List.mem_singleton.mp ht]
      exact htype
  | .breaks span, _, s, h => by
    have hreport : JustFollows fits passes s
        (reportWhen ctx (!ctx.mayBreak) span .breakOutsideLoop) .done :=
      (idle_reportWhen _ span .breakOutsideLoop rfl trivial).follows h
    have hafter := hreport.canonical
    exact ⟨⟨State.Aside.trans hreport.leads (.of_eq rfl rfl rfl rfl),
      ⟨hafter.table, hafter.env, hafter.returns, hafter.findings⟩, hreport.grows,
      fun hf hs => (hreport.sound hf hs).congr ⟨rfl, rfl, rfl⟩⟩, trivial⟩
  | .continues span, _, s, h => by
    have hreport : JustFollows fits passes s
        (reportWhen ctx (!ctx.mayContinue) span .continueOutsideLoop) .done :=
      (idle_reportWhen _ span .continueOutsideLoop rfl trivial).follows h
    exact ⟨⟨hreport.leads, hreport.canonical, hreport.grows, hreport.sound⟩, trivial⟩
  | .block span body, hr, s, h =>
    (follows_openBlock h _).bind h fun _ h =>
      follows_sequence h body (follows_stmts body .reachable fun hf => (hr hf).2)
  | .imports _ specs source, _, s, h =>
    (follows_importNames specs source h).thenPure fun _ _ => trivial
  | .exportDecl _ declaration, hr, s, h =>
    (follows_stmt declaration (fun hf => (hr hf).2) s h).bind h fun h _ =>
      (follows_countExported _ _ h).thenPure fun _ _ => trivial
  | .exportDefault _ value, hr, s, h =>
    (follows_infer .value value (fun hf => (hr hf).2) s h).thenPure fun _ _ => trivial
  | .exportNames _ specs source, _, s, h =>
    (follows_exportNames specs source h).thenPure fun _ _ => trivial
  | .exportAll _ _ source, _, s, h =>
    ((idle_checkSource source).thenPure fun _ _ => trivial).follows h
  | .empty _, _, s, h => follows_pure trivial h

theorem follows_stmtOption {ctx : Context} : (stmt : Option Stmt) →
    (fits → stmtOptionRegions (upTo n) stmt) →
    AlwaysFollows fits passes ctx (stmtOption ctx stmt) (fun _ => True) (stmtOptionTrail ctx stmt)
  | some stmt, hr, s, h => follows_stmt stmt hr s h
  | none, _, _, h => follows_pure trivial h

theorem follows_stmts {ctx : Context} : (ss : List Stmt) → (flow : Flow) →
    (fits → stmtsRegions (upTo n) ss) →
    AlwaysFollows fits passes ctx (stmts ctx ss flow) (fun _ => True) (stmtsTrail ctx ss flow)
  | [], _, _, _, h => follows_pure trivial h
  | stmt :: rest, flow, hr, s, h => by
    have hstep : JustFollows fits passes s (step ctx stmt flow _) _ :=
      follows_step h stmt flow fun h => follows_stmt stmt (fun hf => (hr hf).1) _ h
    refine hstep.bind h fun h _ => ?_
    exact follows_stmts rest _ (fun hf => (hr hf).2) _ h

theorem follows_declarators {ctx : Context} (kind : SymbolKind) : (ds : List Declarator) →
    (fits → declaratorsRegions (upTo n) ds) →
    AlwaysFollows fits passes ctx (declarators ctx kind ds) (fun _ => True)
      (declaratorsTrail ctx kind ds)
  | [], _, _, h => follows_pure trivial h
  | .mk name init :: rest, hr, s, h => by
    refine (follows_inferOption init (fun hf => (hr hf).1.2) s h).bind h fun h htype => ?_
    exact follows_stepTrail (follows_declare h name kind htype) h rfl fun h _ =>
      follows_declarators kind rest (fun hf => (hr hf).2) _ h

theorem follows_cases {ctx : Context} : (cs : List SwitchCase) → (last : Bool) →
    (fits → casesRegions (upTo n) cs) →
    AlwaysFollows fits passes ctx (cases ctx last cs) (fun _ => True) (casesTrail ctx cs)
  | [], _, _, _, h => follows_pure trivial h
  | .mk _ test body :: rest, _, hr, s, h => by
    have htest := follows_inferOption test (fun hf => (hr hf).1.2.1) s h
    have hbody := follows_sequence (htest.starts h) body
      (follows_stmts body .reachable fun hf => (hr hf).1.2.2)
    have hrest := follows_cases rest
      ((s.after (inferOption ctx test)).answer (sequence ctx body (stmts ctx body)))
      (fun hf => (hr hf).2) _ (hbody.starts (htest.starts h))
    exact ⟨⟨⟨_, _, htest.leads, hbody.leads, hrest.leads⟩, hrest.canonical,
      hrest.grows.trans (hbody.grows.trans htest.grows),
      fun hf hs => hrest.sound hf (hbody.sound hf (htest.sound hf hs))⟩, trivial⟩

theorem follows_infer {ctx : Context} (use : Use) : (e : Expr) → (fits → e.Regions (upTo n)) →
    AlwaysFollows fits passes ctx (infer ctx use e) (·.type.Canonical) (inferTrail ctx use e)
  | .ident name, _, s, h => by
    cases use with
    | callee =>
      refine (follows_read h name).thenIdle h fun type htype => ?_
      exact (idle_nameSignature name).thenPure fun _ _ => htype
    | value =>
      change Follows fits passes s (nested ctx fun ctx => read ctx name) _
        (nestedTrail ctx (fun ctx s => .deed ⟨ctx, .read name, s⟩) s)
      exact follows_nested h fun h => follows_read h name
  | .int _ _, _, s, h | .double _ _, _, s, h | .string _ _, _, s, h | .regexp _ _ _, _, s, h
  | .bool _ _, _, s, h | .null _, _, s, h | .this _, _, s, h | .invalid _, _, s, h =>
    follows_nested h fun h => follows_pure trivial h
  | .template _ parts, hr, s, h => follows_nested h fun h =>
    (follows_inferAll parts (fun hf => (hr hf).2) s h).thenPure fun _ _ => trivial
  | .array _ elements, hr, s, h => follows_nested h fun h =>
    (follows_inferAll elements (fun hf => (hr hf).2) s h).thenPure fun _ htypes =>
      Ty.canonical_unionOf htypes
  | .object _ ps, hr, s, h => follows_nested h fun h =>
    (follows_properties ps (fun hf => (hr hf).2) s h).thenPure fun _ _ => trivial
  | .spread _ value, hr, s, h => follows_nested h fun h =>
    follows_typeOf (follows_infer .value value (fun hf => (hr hf).2) s h)
  | .unary _ op operand, hr, s, h => follows_nested h fun h =>
    (follows_typeOf (follows_infer .value operand (fun hf => (hr hf).2) s h)).thenPure
      fun _ htype => Ty.canonical_unary htype op
  | .update _ _ _ target, hr, s, h => follows_nested h fun h =>
    (follows_typeOf (follows_infer .value target (fun hf => (hr hf).2) s h)).bind h
      fun h htype => (follows_assignTarget h target
        (Ty.canonical_numeric htype)).thenPure fun _ _ => Ty.canonical_numeric htype
  | .binary span op lhs rhs, hr, s, h => follows_nested h fun h =>
    follows_binary (follows_infer .value lhs fun hf => (hr hf).2.1).typeOf
      (follows_infer .value rhs fun hf => (hr hf).2.2).typeOf h span op
  | .assign span op target value, hr, s, h => follows_nested h fun h =>
    (follows_assigned (follows_infer .value target fun hf => (hr hf).2.1).typeOf
      (follows_infer .value value fun hf => (hr hf).2.2).typeOf h span op _).bind h
        fun h htype => (follows_assignTarget h target htype).thenPure fun _ _ => htype
  | .conditional _ test yes no, hr, s, h => follows_nested h fun h =>
    (follows_infer .value test (fun hf => (hr hf).2.1) s h).bind h fun h _ =>
      follows_either (follows_infer .value yes fun hf => (hr hf).2.2.1).typeOf
        (follows_infer .value no fun hf => (hr hf).2.2.2).typeOf h
  | .call span callee args _, hr, s, h => follows_nested h fun h =>
    (follows_infer .callee callee (fun hf => (hr hf).2.1) s h).bind h fun h htype =>
      (follows_inferAll args (fun hf => (hr hf).2.2) _ h).thenIdle h fun _ _ =>
        idle_finishCall span callee htype _ args
  | .member _ object property _, hr, s, h => by
    have hobject {ctx : Context} (h : Starts passes ctx s) :=
      follows_typeOf (follows_infer .value object (fun hf => (hr hf).2.1) s h)
    cases use with
    | callee =>
      refine (hobject h).thenIdle h fun type _ => ?_
      exact (idle_member type property).thenPure fun _ htype => htype
    | value =>
      change Follows fits passes s (nested ctx fun ctx => do
          let type ← typeOf (infer ctx .value object)
          member ctx type property) _
        (nestedTrail ctx (fun ctx s => inferTrail ctx .value object s) s)
      exact follows_nested h fun h => (hobject h).thenIdle h fun type _ => idle_member type property
  | .index _ object index _, hr, s, h => follows_nested h fun h =>
    (follows_typeOf (follows_infer .value object (fun hf => (hr hf).2.1) s h)).bind h
      fun h htype => (follows_infer .value index (fun hf => (hr hf).2.2) _ h).thenPure
        fun _ _ => Ty.canonical_indexed htype
  | .function span _ params body, hr, s, h => follows_nested h fun h =>
    follows_function h fun inner v h => follows_resultOf (follows_sequence h body
      (follows_stmts body .reachable fun hf => (hr hf).2.2.2))
  | .arrowBlock span params body, hr, s, h => follows_nested h fun h =>
    follows_function h fun inner v h => follows_resultOf (follows_sequence h body
      (follows_stmts body .reachable fun hf => (hr hf).2.2))
  | .arrowExpr span params body, hr, s, h => follows_nested h fun h =>
    follows_function h fun inner v h =>
      follows_typeOf (follows_infer .value body (fun hf => (hr hf).2.2) v h)
  | .paren _ inner, hr, s, h => by
    cases use with
    | callee => exact follows_infer .callee inner (fun hf => (hr hf).2) s h
    | value =>
      change Follows fits passes s (nested ctx fun ctx => typeOf (infer ctx .value inner)) _
        (nestedTrail ctx (fun ctx s => inferTrail ctx .value inner s) s)
      exact follows_nested h fun h =>
        follows_typeOf (follows_infer .value inner (fun hf => (hr hf).2) s h)

theorem follows_inferOption {ctx : Context} : (e : Option Expr) →
    (fits → optionRegions (upTo n) e) →
    AlwaysFollows fits passes ctx (inferOption ctx e) Ty.Canonical (inferOptionTrail ctx e)
  | some e, hr, s, h => follows_typeOf (follows_infer .value e hr s h)
  | none, _, _, h => follows_pure trivial h

theorem follows_inferAll {ctx : Context} : (es : List Expr) → (fits → exprsRegions (upTo n) es) →
    AlwaysFollows fits passes ctx (inferAll ctx es) (∀ t ∈ ·, t.Canonical) (inferAllTrail ctx es)
  | [], _, _, h => follows_pure nofun h
  | e :: rest, hr, s, h => by
    have he := follows_typeOf (follows_infer .value e (fun hf => (hr hf).1) s h)
    refine he.bind h fun h htype => ?_
    refine (follows_inferAll rest (fun hf => (hr hf).2) _ h).thenPure fun types htypes => ?_
    refine List.forall_mem_cons.mpr ⟨?_, htypes⟩
    split
    · exact Ty.canonical_spreadElement htype
    · exact htype

theorem follows_properties {ctx : Context} : (ps : List Property) →
    (fits → propertiesRegions (upTo n) ps) →
    AlwaysFollows fits passes ctx (properties ctx ps) (fun _ => True) (propertiesTrail ctx ps)
  | [], _, _, h => follows_pure trivial h
  | .named _ value :: rest, hr, s, h =>
    (follows_infer .value value (fun hf => (hr hf).1.2) s h).bind h fun h _ =>
      follows_properties rest (fun hf => (hr hf).2) _ h
  | .computed key value :: rest, hr, s, h =>
    (follows_infer .value key (fun hf => (hr hf).1.1) s h).bind h fun h _ =>
      (follows_infer .value value (fun hf => (hr hf).1.2) _ h).bind h fun h _ =>
        follows_properties rest (fun hf => (hr hf).2) _ h
  | .shorthand name :: rest, hr, _, h =>
    follows_stepTrail (follows_read h name) h rfl fun h _ =>
      follows_properties rest (fun hf => (hr hf).2) _ h
  | .spread value :: rest, hr, s, h =>
    (follows_infer .value value (fun hf => (hr hf).1) s h).bind h fun h _ =>
      follows_properties rest (fun hf => (hr hf).2) _ h

end

end Visits

end Walk

namespace Analysis

/-- The trail of a program leads from the state at its start to that in which all is visited. -/
theorem follows_program {fits : Prop} {n : Nat} (hn : fits → n ≤ Span.maxLength) {program : Program}
    (hr : fits → stmtsRegions (upTo n) program.body) (passes : PassSet)
    (fileExists : String → Bool) :
    let ctx := outermost passes fileExists
    Walk.JustFollows fits passes (.initial (region program))
      (Walk.sequence ctx program.body (Walk.stmts ctx program.body))
      (trail passes fileExists program) :=
  let ctx := outermost passes fileExists
  have h : Walk.Starts passes ctx (.initial (region program)) :=
    ⟨rfl, Walk.State.canonical_initial (region program), rfl⟩
  Walk.follows_sequence h program.body (Walk.follows_stmts hn program.body .reachable hr)

theorem follows_trail (passes : PassSet) (fileExists : String → Bool) (program : Program) :
    let ctx := outermost passes fileExists
    Walk.JustFollows False passes (.initial (region program))
      (Walk.sequence ctx program.body (Walk.stmts ctx program.body))
      (trail passes fileExists program) :=
  follows_program (n := 0) False.elim False.elim passes fileExists

theorem hi_le_of_region {n : Nat} {program : Program} (h : stmtsRegions (upTo n) program.body) :
    (region program).hi ≤ n := by
  rw [stmtsRegions_iff] at h
  rw [region, Span.hi_between, Nat.zero_max]
  cases hlast : program.body.getLast? with
  | none => simp
  | some last => exact Stmt.span_of_regions (h last (List.mem_of_getLast? hlast))

/-- What is known after all of a program is visited is sound, if its regions are not too long. -/
theorem sound_visited {n : Nat} (hn : n ≤ Span.maxLength) {program : Program}
    (h : stmtsRegions (upTo n) program.body) (passes : PassSet) (fileExists : String → Bool) :
    (visited passes fileExists program).Sound := by
  have hinitial := Walk.State.sound_initial (Walk.fits_of_hi_le hn (hi_le_of_region h))
  exact (follows_program (fun _ => hn) (fun _ => h) passes fileExists).sound trivial hinitial

end Analysis

end ScriptCheck
