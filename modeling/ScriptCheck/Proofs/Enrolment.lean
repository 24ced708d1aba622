import ScriptCheck.Proofs.Coherence
import ScriptCheck.Proofs.Ledger
import ScriptCheck.Proofs.Recording
import ScriptCheck.Proofs.Roster

/-!
# The roster of a visit

A visit that is not cut short opens exactly the scopes of the roster, and declares its names, each
once and in its scope (`Enrols`). A name gets a symbol, or is refused as another symbol of the scope
has it. There is one exception: a function that stands alone is passed over if its name is declared
in the scope already. Whether a function was declared at the start of its list is told by its name
only.
-/

namespace ScriptCheck

open List

namespace SymbolTable

variable {t t' : SymbolTable} {scope : Nat} {name : String}

/-- A name stands for a symbol of the scope itself exactly if it is declared there. -/
theorem lookup_here_iff :
    (t.lookup name scope).any (·.scope == scope) = true ↔ name ∈ t.namesIn scope := by
  obtain ⟨outer, houter⟩ := t.exists_ancestors_eq scope
  rw [Option.any_eq_true]
  constructor
  · rintro ⟨x, hx, hhere⟩
    obtain ⟨z, -, hfind⟩ := exists_of_findSome?_eq_some hx
    by_contra hmem
    rw [← find?_eq_none_iff, ← eq_of_beq hhere, scope_of_find? hfind, hfind] at hmem
    cases hmem
  · intro hmem
    cases hfind : t.find? scope name with
    | none => exact absurd hmem (find?_eq_none_iff.1 hfind)
    | some x =>
      refine ⟨x, ?_, by simp [scope_of_find? hfind]⟩
      rw [lookup, houter, findSome?_cons, hfind]

end SymbolTable

namespace Walk

/-! ### What becomes of names -/

/-- What becomes of a name that is declared. -/
inductive Fate where
  /-- It is that of a symbol. -/
  | added (id : SymbolId)
  /-- A symbol of its scope has the name already, which is reported. -/
  | refused (id : SymbolId)
  /-- A symbol of its scope has the name already, which is not reported. -/
  | passed (id : SymbolId)
  deriving DecidableEq

def Fate.of (declared : SymbolId × Bool × SymbolTable) : Fate :=
  if declared.2.1 then .added declared.1 else .refused declared.1

/-- The scope that a deed opens. -/
def Deed.frame? (d : Deed) : Option Frame :=
  match d.act with
  | .openScope kind span => some ⟨kind, some d.place.scope, span⟩
  | _ => none

/-- The name that a deed declares, with its scope and what becomes of it. -/
def Deed.fate? (d : Deed) : Option (Nat × Ident × Fate) :=
  match d.act with
  | .declare name kind type => some (d.place.scope, name,
      .of (d.before.table.declare d.place.scope (.declared name.name kind type name.span)))
  | .declareImport _ name _ type => some (d.place.scope, name,
      .of (d.before.table.declare d.place.scope (.declared name.name .imported type name.span)))
  | _ => none

/-- The part of what becomes of a name that a deed shows. -/
def shown? : Declaration × Fate → Option (Nat × Ident × Fate)
  | (_, .passed _) => none
  | (d, fate) => some (d.scope, d.name, fate)

/-- The declarations of a roster, with what becomes of them by some deeds. -/
structure Settles (t : SymbolTable) (items : List RosterItem) (ds : List Deed)
    (fates : List (Declaration × Fate)) : Prop where
  declarations : fates.map Prod.fst = items.filterMap RosterItem.declaration?
  shown : fates.filterMap shown? = ds.filterMap Deed.fate?
  /-- Only a function that stands alone is passed over, for a symbol with its name. -/
  passed : ∀ d id, (d, .passed id) ∈ fates → d.alone = true ∧ id.scope = d.scope ∧
    (t.symbol? id).map Symbol.name = some d.name.name
  /-- A function that stands alone is not refused. -/
  refused : ∀ d id, (d, .refused id) ∈ fates → d.alone = false

/-- Deeds lead from one table to another and do what is on a roster. -/
structure Enrolled (t t' : SymbolTable) (items : List RosterItem) (ds : List Deed) : Prop where
  grows : t'.Extends t
  length : t'.scopes.length = t.scopes.length + items.countP RosterItem.isScope
  frames : ds.filterMap Deed.frame? = items.filterMap RosterItem.frame?
  settles : ∃ fates, Settles t' items ds fates
  places : ∀ d ∈ ds, d.fate?.isSome → d.before.table.hasScope d.place.scope

/-- A trail that leads from one table to another does what is on a roster, unless it is cut. -/
def Enrols (t t' : SymbolTable) (trail : Trail) (r : Roster) : Prop :=
  trail.Whole → Enrolled t t' (r t.scopes.length) trail.deeds

/-- A step from a state does what is on a roster. -/
abbrev Enlists {α : Type} (s : State) (p : Walk α) (trail : Trail) (r : Roster) : Prop :=
  Enrols s.table (s.after p).table trail r

/-! ### Putting rosters together -/

section Rules

variable {t t₁ t₂ t₃ : SymbolTable} {items items' : List RosterItem} {ds ds' : List Deed}
  {fates fates' : List (Declaration × Fate)} {trail trail' trail'' : Trail} {r r' r'' : Roster}

theorem Settles.later (h : Settles t items ds fates) (hext : t₁.Extends t) :
    Settles t₁ items ds fates := by
  refine ⟨h.declarations, h.shown, fun d id hmem => ?_, h.refused⟩
  obtain ⟨halone, hscope, hname⟩ := h.passed d id hmem
  obtain ⟨symbol, hsymbol, hname⟩ := Option.map_eq_some_iff.mp hname
  obtain ⟨symbol', hsymbol', hsame⟩ := hext.symbol?_name hsymbol
  exact ⟨halone, hscope, by rw [hsymbol', Option.map_some, hsame, hname]⟩

theorem Settles.append (h : Settles t items ds fates) (h' : Settles t items' ds' fates') :
    Settles t (items ++ items') (ds ++ ds') (fates ++ fates') := by
  constructor
  · rw [map_append, filterMap_append, h.declarations, h'.declarations]
  · rw [filterMap_append, filterMap_append, h.shown, h'.shown]
  · intro d id hmem
    rcases mem_append.mp hmem with hmem | hmem
    · exact h.passed d id hmem
    · exact h'.passed d id hmem
  · intro d id hmem
    rcases mem_append.mp hmem with hmem | hmem
    · exact h.refused d id hmem
    · exact h'.refused d id hmem

theorem Enrolled.append (h : Enrolled t t₁ items ds) (h' : Enrolled t₁ t₂ items' ds') :
    Enrolled t t₂ (items ++ items') (ds ++ ds') := by
  constructor
  · exact h'.grows.trans h.grows
  · rw [h'.length, h.length, countP_append]
    omega
  · rw [filterMap_append, filterMap_append, h.frames, h'.frames]
  · obtain ⟨fates, hfates⟩ := h.settles
    obtain ⟨fates', hfates'⟩ := h'.settles
    exact ⟨_, (hfates.later h'.grows).append hfates'⟩
  · intro d hd
    rcases mem_append.mp hd with hd | hd
    · exact h.places d hd
    · exact h'.places d hd

namespace Enrols

section Parts

variable (h : Enrols t t₁ trail r) (h' : t₁.Extends t → Enrols t₁ t₂ trail' r')

include h h'

/-- Two trails that are both part of a third one. -/
theorem both {whole : Trail} (hwhole : whole.Whole → trail.Whole ∧ trail'.Whole)
    (hdeeds : whole.deeds = trail.deeds ++ trail'.deeds) : Enrols t t₂ whole (r.andThen r') := by
  intro hw
  obtain ⟨hfirst, hrest⟩ := hwhole hw
  have hfirst := h hfirst
  have hrest := h' hfirst.grows hrest
  rw [hfirst.length] at hrest
  rw [hdeeds]
  exact hfirst.append hrest

theorem andThen : Enrols t t₂ (.andThen trail trail') (r.andThen r') :=
  h.both h' id rfl

theorem either (a b : Bool) : Enrols t t₂ (.either trail trail' a b) (r.andThen r') :=
  h.both h' id rfl

theorem tryCatch (a b : Bool) : Enrols t t₂ (.tryCatch trail trail' a b) (r.andThen r') :=
  h.both h' id rfl

theorem loop (h'' : t₂.Extends t₁ → t₁.Extends t → Enrols t₂ t₃ trail'' r'') :
    Enrols t t₃ (.loop trail trail' trail'') (r.andThen (r'.andThen r'')) :=
  h.both (fun hext => (h' hext).andThen fun hext' => h'' hext' hext) id rfl

/-- A loop without an update. -/
theorem rounds : Enrols t t₂ (.loop trail trail' .done) (r.andThen r') :=
  h.both h' (fun hw => ⟨hw.1, hw.2.1⟩) (by rw [Trail.deeds, Trail.deeds, append_nil])

theorem case (h'' : t₂.Extends t₁ → t₁.Extends t → Enrols t₂ t₃ trail'' r'') (isDefault : Bool) :
    Enrols t t₃ (.case isDefault trail trail' trail'') (r.andThen (r'.andThen r'')) :=
  h.both (fun hext => (h' hext).andThen fun hext' => h'' hext' hext) id rfl

end Parts

/-- What comes first is not on the roster. -/
theorem after (h' : t₁.Extends t → Enrols t₁ t₂ trail' r)
    (h : Enrols t t₁ trail .nothing) : Enrols t t₂ (.andThen trail trail') r :=
  h.andThen h'

/-- What comes last is not on the roster. -/
theorem before (h : Enrols t t₁ trail r) (h' : Enrols t₁ t₂ trail' .nothing) :
    Enrols t t₂ (.andThen trail trail') r := by
  have hboth := h.andThen fun _ => h'
  rwa [Roster.andThen_nothing] at hboth

end Enrols

/-- A trail without deeds. -/
theorem enrols_nothing (hdeeds : trail.deeds = []) : Enrols t t trail .nothing := by
  intro _
  rw [hdeeds]
  refine ⟨.refl t, rfl, rfl, ⟨[], rfl, rfl, ?_, ?_⟩, ?_⟩
  · exact fun _ _ hmem => absurd hmem not_mem_nil
  · exact fun _ _ hmem => absurd hmem not_mem_nil
  · exact fun _ hmem => absurd hmem not_mem_nil

end Rules

/-! ### Rosters of steps -/

theorem countP_isScope (items : List RosterItem) :
    items.countP RosterItem.isScope = (items.filterMap RosterItem.frame?).length := by
  induction items with
  | nil => rfl
  | cons item items ih =>
    rw [countP_cons, filterMap_cons, ih]
    cases item with
    | scope frame => rfl
    | name declaration => rfl

/-- The scopes after a deed are those before it, and the one that it opens. -/
theorem Deed.frames_table (d : Deed) : d.after.table.scopes.map Scope.frame =
    d.before.table.scopes.map Scope.frame ++ d.frame?.toList := by
  -- whatever happens to the symbols of a scope, its frame stays
  have hmodify (l : List Scope) (n : Nat) (f : List Symbol → List Symbol) :
      (l.modify n fun s => { s with symbols := f s.symbols }).map Scope.frame =
        l.map Scope.frame ++ [] := by
    rw [append_nil]
    refine ext_getElem? fun i => ?_
    rw [getElem?_map, getElem?_map, getElem?_modify]
    split
    · cases l[i]? <;> rfl
    · cases l[i]? <;> rfl
  have hsymbol (t : SymbolTable) (id : SymbolId) (f : Symbol → Symbol) :
      (t.modifySymbol id f).scopes.map Scope.frame = t.scopes.map Scope.frame ++ [] :=
    hmodify t.scopes id.scope fun symbols => symbols.modify id.index f
  have hdeclare (t : SymbolTable) (n : Nat) (symbol : Symbol) :
      (t.declare n symbol).2.2.scopes.map Scope.frame = t.scopes.map Scope.frame ++ [] := by
    unfold SymbolTable.declare
    split
    · exact (append_nil _).symm
    · exact hmodify t.scopes n fun symbols => symbols ++ [symbol]
  rw [d.did.table]
  obtain ⟨ctx, act, s⟩ := d
  cases act with
  | read name =>
    simp only [Act.tableAfter]
    split
    · exact hsymbol _ _ _
    · exact (append_nil _).symm
  | assign name type =>
    simp only [Act.tableAfter]
    split
    · split
      · exact (append_nil _).symm
      · exact hsymbol _ _ _
    · exact hdeclare _ _ _
  | declare name kind type => exact hdeclare _ _ _
  | declareImport source name specifier type =>
    simp only [Act.tableAfter]
    split
    · rw [hsymbol, append_nil]
      exact hdeclare _ _ _
    · exact hdeclare _ _ _
  | recordFunction name type =>
    simp only [Act.tableAfter]
    split
    · split
      · exact hsymbol _ _ _
      · exact (append_nil _).symm
    · exact (append_nil _).symm
  | countExported name =>
    simp only [Act.tableAfter]
    split
    · exact hsymbol _ _ _
    · exact (append_nil _).symm
  | openScope kind span => exact map_append

/-- A deed does what is on a roster. -/
theorem enrolled_deed (d : Deed) {items : List RosterItem}
    (hframes : items.filterMap RosterItem.frame? = d.frame?.toList)
    (hfates : ∃ fates, Settles d.after.table items [d] fates)
    (hplace : d.fate?.isSome → d.before.table.hasScope d.place.scope) :
    Enrolled d.before.table d.after.table items [d] := by
  constructor
  · exact d.extends_after
  · have hlength := congrArg List.length d.frames_table
    rwa [length_append, length_map, length_map, ← hframes, ← countP_isScope]
      at hlength
  · rw [hframes, filterMap_cons]
    cases d.frame? <;> rfl
  · exact hfates
  · exact forall_mem_singleton.mpr hplace

section Steps

variable (ctx : Context) (s : State) {t : SymbolTable} {trail : Trail}

/-- A deed that is not on a roster. -/
theorem enrols_act (act : Act) (hframe : (Deed.mk ctx act s).frame? = none)
    (hfate : (Deed.mk ctx act s).fate? = none) :
    Enrols s.table (Deed.after ⟨ctx, act, s⟩).table (.deed ⟨ctx, act, s⟩) .nothing := by
  intro _
  refine enrolled_deed ⟨ctx, act, s⟩ (by rw [hframe]; rfl) ⟨[], rfl, ?_, ?_, ?_⟩ ?_
  · rw [filterMap_cons, hfate]
    rfl
  · exact fun _ _ hmem => absurd hmem not_mem_nil
  · exact fun _ _ hmem => absurd hmem not_mem_nil
  · rw [hfate]
    exact nofun

theorem shown?_of (d : Declaration) (declared : SymbolId × Bool × SymbolTable) :
    shown? (d, .of declared) = some (d.scope, d.name, .of declared) := by
  unfold Fate.of
  cases declared.2.1 with
  | true => rfl
  | false => rfl

/-- A name is declared. -/
theorem settles_declared {d : Deed} {name : Ident} (alone : Bool)
    {declared : SymbolId × Bool × SymbolTable}
    (hfate : d.fate? = some (d.place.scope, name, .of declared))
    (halone : alone = true → declared.2.1 = true) :
    Settles t [.name ⟨d.place.scope, name, alone⟩] [d]
      [(⟨d.place.scope, name, alone⟩, .of declared)] := by
  constructor
  · rfl
  · rw [filterMap_cons, filterMap_cons, hfate, shown?_of]
    rfl
  · intro x id hmem
    have hpassed := congrArg Prod.snd (mem_singleton.mp hmem)
    unfold Fate.of at hpassed
    split at hpassed <;> cases hpassed
  · intro x id hmem
    obtain ⟨rfl, hrefused⟩ := Prod.mk.inj (mem_singleton.mp hmem)
    unfold Fate.of at hrefused
    split at hrefused
    · cases hrefused
    · next hnew => exact Bool.eq_false_iff.mpr fun h => hnew (halone h)

variable {ctx s}

theorem enrols_reportWhen (found : Bool) (span : Span) (finding : Finding)
    (hdeeds : trail.deeds = []) : Enlists s (reportWhen ctx found span finding) trail .nothing := by
  rw [Enlists, still_reportWhen]
  exact enrols_nothing hdeeds

/-- A part is visited in a scope of its own. -/
theorem Enrols.inScope {part : Nat → Roster} {kind : ScopeKind} {span : Span}
    (h : Enrols (s.after (openScope ctx kind span)).table t trail
      (part s.table.scopes.length)) :
    Enrols s.table t (.andThen (.deed ⟨ctx, .openScope kind span, s⟩) trail)
      (.inScope kind ctx.scope span part) := by
  rintro ⟨-, hwhole⟩
  have hopened : Enrolled s.table (s.after (openScope ctx kind span)).table
      [.scope ⟨kind, some ctx.scope, span⟩] [⟨ctx, .openScope kind span, s⟩] := by
    refine enrolled_deed ⟨ctx, .openScope kind span, s⟩ rfl ⟨[], rfl, rfl, ?_, ?_⟩ nofun
    · exact fun _ _ hmem => absurd hmem not_mem_nil
    · exact fun _ _ hmem => absurd hmem not_mem_nil
  have hinner := h hwhole
  rw [hopened.length] at hinner
  exact hopened.append hinner

theorem Enrols.inBlock {part : Nat → Roster} {span : Option Span}
    (h : Enrols (s.after (openBlock ctx span)).table t trail
      (part (s.answer (openBlock ctx span)).scope)) :
    Enrols s.table t (.andThen (openBlockTrail ctx span s) trail)
      (.inBlock ctx.scope span part) := by
  cases span with
  | some span => exact Enrols.inScope h
  | none => exact Enrols.after (fun _ => h) (enrols_nothing rfl)

theorem enrols_assignTarget (target : Expr) (type : Ty) :
    Enlists s (assignTarget ctx target type) (assignTargetTrail ctx target type s) .nothing := by
  unfold assignTarget assignTargetTrail
  cases target? target with
  | some name => exact enrols_act ctx s (.assign name type) rfl rfl
  | none => exact enrols_nothing rfl

theorem enrols_countExported (names : List Ident) :
    Enlists s (countExported ctx names) (countExportedTrail ctx names s) .nothing := by
  induction names generalizing s with
  | nil => exact enrols_nothing rfl
  | cons name rest ih =>
    rw [countExported_cons]
    exact Enrols.after (fun _ => ih) (enrols_act ctx s (.countExported name) rfl rfl)

theorem enrols_readExported (specs : List ExportSpec) :
    Enlists s (readExported ctx specs) (readExportedTrail ctx specs s) .nothing := by
  induction specs generalizing s with
  | nil => exact enrols_nothing rfl
  | cons spec rest ih =>
    exact Enrols.after (fun _ => ih) (enrols_act ctx s (.read spec.name) rfl rfl)

variable (h : s.table.hasScope ctx.scope)
include h

theorem enrols_declare (name : Ident) (kind : SymbolKind)
    (type : Ty) :
    Enlists s (declare ctx name kind type)
      (.deed ⟨ctx, .declare name kind type, s⟩) (.names ctx.scope [name]) := by
  let d : Deed := ⟨ctx, .declare name kind type, s⟩
  have hfates : Settles d.after.table _ [d] _ := settles_declared false rfl nofun
  exact fun _ => enrolled_deed d rfl ⟨_, hfates⟩ fun _ => h

theorem enrols_declareImport (source : String) (name : Ident)
    (specifier : Option String) (type : Ty) :
    Enlists s (declareImport ctx source name specifier type)
      (.deed ⟨ctx, .declareImport source name specifier type, s⟩) (.names ctx.scope [name]) := by
  let d : Deed := ⟨ctx, .declareImport source name specifier type, s⟩
  have hfates : Settles d.after.table _ [d] _ := settles_declared false rfl nofun
  exact fun _ => enrolled_deed d rfl ⟨_, hfates⟩ fun _ => h

theorem enrols_bindForIn (kind : Option SymbolKind)
    (name : Option Ident) (type : Ty) :
    Enlists s (bindForIn ctx kind name type) (bindForInTrail ctx kind name type s)
      (if kind.isSome then .names ctx.scope name.toList else .nothing) := by
  cases name with
  | some name =>
    cases kind with
    | some kind => exact enrols_declare h name kind type
    | none => exact enrols_act ctx s (.assign name type) rfl rfl
  | none =>
    cases kind with
    | some kind => exact enrols_nothing rfl
    | none => exact enrols_nothing rfl

/-- Both names of a loop over values. -/
theorem enrols_bindNames (kind : Option DeclKind)
    (key : Option Ident) (value : Ident) (types : Ty × Ty) :
    let kind' := kind.map DeclKind.symbolKind
    let bound := s.after (bindForIn ctx kind' key types.1)
    Enrols s.table (bound.after (bindForIn ctx kind' (some value) types.2)).table
      (.andThen (bindForInTrail ctx kind' key types.1 s)
        (bindForInTrail ctx kind' (some value) types.2 bound))
      (if kind.isSome then .names ctx.scope (key.toList ++ [value]) else .nothing) := by
  intro kind' bound
  have hboth := (enrols_bindForIn h kind' key types.1).andThen fun hext =>
    enrols_bindForIn (hext.hasScope h) kind' (some value) types.2
  cases kind with
  | some kind => exact Roster.names_append .. ▸ hboth
  | none => exact hboth

theorem enrols_declareCaught (param : Option Ident) :
    Enlists s (declareCaught ctx param) (declareCaughtTrail ctx param s)
      (.names ctx.scope param.toList) := by
  cases param with
  | some param => exact enrols_declare h param .letVar .object
  | none => exact enrols_nothing rfl

theorem enrols_hoistFunction (name : Option Ident)
    (params : List Param) :
    Enlists s (hoistFunction ctx name params)
      (hoistFunctionTrail ctx name params s) (.names ctx.scope name.toList) := by
  cases name with
  | some name => exact enrols_declare h name .function _
  | none => exact enrols_nothing rfl

theorem enrols_params (params : List Param) :
    Enlists s (declareParams ctx params) (paramsTrail ctx params s)
      (.names ctx.scope (params.map Param.name)) := by
  induction params generalizing s with
  | nil => exact enrols_nothing rfl
  | cons param rest ih =>
    exact (enrols_declare h param.name .parameter _).andThen fun hext => ih (hext.hasScope h)

theorem enrols_imports (source : String)
    {typeOf : ImportSpec → Walk Ty} (htypes : ∀ spec, Still (typeOf spec))
    (specs : List ImportSpec) :
    Enlists s (declareImports ctx source typeOf specs)
      (importsTrail ctx source typeOf specs s) (.names ctx.scope (specs.map ImportSpec.declared)) := by
  induction specs generalizing s with
  | nil => exact enrols_nothing rfl
  | cons spec rest ih =>
    rw [← htypes spec s] at h
    rw [Enlists, ← htypes spec s]
    exact (enrols_declareImport h source spec.declared (specifierOf spec) _).andThen fun hext =>
      ih (hext.hasScope h)

theorem enrols_importNames (specs : List ImportSpec)
    (source : TextLit) :
    Enlists s (importNames ctx specs source) (importNamesTrail ctx specs source s)
      (if (Builtin.scriptPath? source.value).any fun path => !ctx.fileExists path then .nothing
        else .names ctx.scope (specs.map ImportSpec.declared)) := by
  unfold importNames importNamesTrail isMissing
  split
  · rw [Enlists, still_report]
    exact enrols_nothing rfl
  · split
    · exact enrols_imports h _ (fun _ => still_pure _) specs
    · exact enrols_imports h _ (fun spec => (tame_importedType ctx _ spec).still _) specs

/-- Functions are declared at the start of their list. -/
theorem enrols_hoist (body : List Stmt) :
    Enlists s (hoist ctx body) (hoistTrail ctx body s)
      (.names ctx.scope (body.filterMap Stmt.hoisted?)) := by
  fun_induction hoistTrail ctx body s with
  | case1 s => exact enrols_nothing rfl
  | case2 _ name params _ rest s ih | case3 _ _ name params _ rest s ih =>
    rw [Stmt.filterMap_hoisted?, Roster.names_append]
    exact (enrols_hoistFunction h name params).andThen fun hext => ih (hext.hasScope h)
  | case4 first rest s hfunction hexport ih =>
    rw [hoist.eq_4 ctx first rest hfunction hexport, Stmt.filterMap_hoisted?,
      Stmt.hoisted?_of_ne hfunction hexport]
    exact ih h

/-- After the functions of a list are declared, their names are in the scope. -/
theorem mem_namesIn_hoist (body : List Stmt) :
    ∀ stmt ∈ body, ∀ x ∈ stmt.hoisted?,
      x.name ∈ (s.after (hoist ctx body)).table.namesIn ctx.scope := by
  have hfirst (s : State) (h : s.table.hasScope ctx.scope) (name : Option Ident)
      (params : List Param) : ∀ x ∈ name,
        x.name ∈ (s.after (hoistFunction ctx name params)).table.namesIn ctx.scope := by
    rintro x rfl
    let type := Ty.function (params.map Param.display) .unknown
    have htable := (Deed.mk ctx (.declare x .function type) s).did.table
    change x.name ∈ (Deed.mk ctx (.declare x .function type) s).after.table.namesIn ctx.scope
    rw [htable]
    exact SymbolTable.mem_namesIn_declare h
  have hlater (name : Option Ident) (params : List Param) (s : State) :
      (s.after (hoistFunction ctx name params)).table.Extends s.table :=
    ((tame_hoistFunction (k := 0) ctx name params).changes _ s).table.extends
  fun_induction hoist ctx body generalizing s with
  | case1 => exact forall_mem_nil _
  | case2 _ name params _ rest ih | case3 _ _ name params _ rest ih =>
    have hrest := ((tame_hoist (k := 0) ctx rest).changes ctx.passes
      (s.after (hoistFunction ctx name params))).table.extends
    refine forall_mem_cons.mpr ⟨fun x hx => ?_, ih ((hlater name params s).hasScope h)⟩
    exact hrest.namesIn_subset _ (hfirst s h name params x hx)
  | case4 first rest hfunction hexport ih =>
    refine forall_mem_cons.mpr ⟨?_, ih h⟩
    rw [Stmt.hoisted?_of_ne hfunction hexport]
    exact fun x hx => absurd hx (Option.not_mem_none x)

end Steps

/-! ### Rosters of functions and lists -/

/-- A place knows which scripts exist, and its scope is in a table. -/
def Placed (fileExists : String → Bool) (ctx : Context) (t : SymbolTable) : Prop :=
  ctx.fileExists = fileExists ∧ t.hasScope ctx.scope

/-- A step does what is on a roster from every state in which its place is. -/
abbrev AlwaysEnlists {α : Type} (fileExists : String → Bool) (ctx : Context) (p : Walk α)
    (trail : State → Trail) (r : Roster) : Prop :=
  ∀ s : State, Placed fileExists ctx s.table → Enlists s p (trail s) r

section Places

variable {fileExists : String → Bool} {ctx : Context} {s : State} {t t' : SymbolTable} {r : Roster}

theorem Placed.later (h : Placed fileExists ctx t) (hext : t'.Extends t) :
    Placed fileExists ctx t' :=
  ⟨h.1, hext.hasScope h.2⟩

theorem placed_openBlock (h : Placed fileExists ctx s.table) (span : Option Span) :
    Placed fileExists (s.answer (openBlock ctx span)) (s.after (openBlock ctx span)).table := by
  cases span with
  | some span => exact ⟨h.1, hasScope_openScope ctx .block span s⟩
  | none => exact h

theorem enrols_function {span : Span} {params : List Param} {body : Context → Walk Ty}
    {trail : Context → State → Trail} {part : Nat → Roster} (h : Placed fileExists ctx s.table)
    (hbody : ∀ inner,
      AlwaysEnlists fileExists inner (body inner) (trail inner) (part inner.scope)) :
    Enlists s (function ctx span params body)
      (functionTrail ctx span params trail s) (.function ctx.scope span params part) := by
  refine Enrols.inScope ?_
  let inner := ctx.inFunction (s.answer (openScope ctx .function span))
  let entered : State := { s.after (openScope ctx .function span) with returns := [], broke := false }
  have hinner : Placed fileExists inner entered.table := ⟨h.1, hasScope_openScope ctx .function span s⟩
  have hparams := enrols_params hinner.2 params
  exact hparams.andThen fun hext => hbody inner _ (hinner.later hext)

/-- The name of a function that stands alone is passed over if its scope has it. -/
theorem enrols_passed {name : Ident} {scope : Nat} (hmem : name.name ∈ t.namesIn scope) :
    Enrols t t .done (.alone scope (some name)) := by
  intro _
  cases hfind : t.find? scope name.name with
  | none => exact absurd hmem (SymbolTable.find?_eq_none_iff.1 hfind)
  | some id =>
    refine ⟨.refl t, rfl, rfl, ⟨[(⟨scope, name, true⟩, .passed id)], rfl, rfl, ?_, ?_⟩, ?_⟩
    · intro d x hx
      obtain ⟨rfl, hid⟩ := Prod.mk.inj (mem_singleton.mp hx)
      obtain rfl := Fate.passed.inj hid
      obtain ⟨symbol, hsymbol, hname⟩ := SymbolTable.name_of_find? hfind
      exact ⟨rfl, SymbolTable.scope_of_find? hfind, by rw [hsymbol, Option.map_some, hname]⟩
    · intro d x hx
      cases (Prod.mk.inj (mem_singleton.mp hx)).2
    · exact fun _ hmem => absurd hmem not_mem_nil

/-- A function that stands alone is declared if its scope does not have the name. -/
theorem enrols_hoistAlone {name : Ident} (h : s.table.hasScope ctx.scope)
    (hmem : name.name ∉ s.table.namesIn ctx.scope) (params : List Param) :
    Enlists s (hoistFunction ctx (some name) params)
      (hoistFunctionTrail ctx (some name) params s) (.alone ctx.scope (some name)) := by
  let d : Deed := ⟨ctx, .declare name .function (.function (params.map Param.display) .unknown), s⟩
  have hnew (symbol : Symbol) (hname : symbol.name = name.name) :
      (s.table.declare ctx.scope symbol).2.1 = true := by
    rw [← hname, ← SymbolTable.find?_eq_none_iff] at hmem
    simp only [SymbolTable.declare, hmem]
  have hfates : Settles d.after.table _ [d] _ := settles_declared true rfl fun _ => hnew _ rfl
  exact fun _ => enrolled_deed d rfl ⟨_, hfates⟩ fun _ => h

theorem enrols_functionDecl (listed : Bool) (name : Option Ident) (params : List Param)
    {visit : Walk Ty} {trail : State → Trail} (h : Placed fileExists ctx s.table)
    (hlisted : listed = true → ∀ x ∈ name, x.name ∈ s.table.namesIn ctx.scope)
    (hvisit : AlwaysEnlists fileExists ctx visit trail r) :
    Enlists s (functionDecl ctx name params visit) (functionDeclTrail ctx name params visit trail s)
      ((if listed then Roster.nothing else .alone ctx.scope name).andThen r) := by
  cases name with
  | none =>
    cases listed with
    | true => exact hvisit s h
    | false => exact hvisit s h
  | some name =>
    let looked := s.after (lookup ctx name)
    have hrecorded (u : State) (hu : Placed fileExists ctx u.table) :
        Enlists u (visit >>= recordFunction ctx name)
          (.andThen (trail u) (.deed ⟨ctx, .recordFunction name (u.answer visit), u.after visit⟩))
          r := by
      rw [Enlists, State.after_bind]
      exact (hvisit u hu).before (enrols_act ctx (u.after visit) (.recordFunction name _) rfl rfl)
    let declared : Walk Unit := hoistFunction ctx (some name) params >>= fun _ =>
      visit >>= recordFunction ctx name
    change Enrols s.table (looked.after (if !(s.answer (lookup ctx name)).any (·.scope == ctx.scope)
      then declared else visit >>= recordFunction ctx name)).table _ _
    unfold functionDeclTrail
    dsimp only
    by_cases hmem : name.name ∈ s.table.namesIn ctx.scope
    · have hfound : (s.answer (lookup ctx name)).any (·.scope == ctx.scope) = true :=
        SymbolTable.lookup_here_iff.mpr hmem
      have hrest := hrecorded looked h
      rw [hfound]
      cases listed with
      | true => exact hrest
      | false => exact (enrols_passed hmem).both (fun _ => hrest) (fun h => ⟨trivial, h⟩) rfl
    · have hfound : (s.answer (lookup ctx name)).any (·.scope == ctx.scope) = false :=
        Bool.eq_false_iff.mpr fun h => hmem (SymbolTable.lookup_here_iff.mp h)
      rw [hfound]
      cases listed with
      | true => exact absurd (hlisted rfl name rfl) hmem
      | false =>
        have hdeclared := enrols_hoistAlone (s := looked) h.2 hmem params
        rw [Bool.not_false, if_pos rfl, State.after_bind]
        exact hdeclared.andThen fun hext => hrecorded _ (h.later hext)

theorem enrols_sequence (h : Placed fileExists ctx s.table) (body : List Stmt)
    {visit : Flow → Walk Flow} {trail : Flow → State → Trail}
    (hvisit : ∀ u : State, Placed fileExists ctx u.table →
      (∀ stmt ∈ body, ∀ x ∈ stmt.hoisted?, x.name ∈ u.table.namesIn ctx.scope) →
      Enlists u (visit .reachable) (trail .reachable u) r) :
    Enlists s (sequence ctx body visit) (sequenceTrail ctx body trail s)
      (.sequence ctx.scope body r) :=
  (enrols_hoist h.2 body).andThen fun hext =>
    hvisit _ (h.later hext) (mem_namesIn_hoist h.2 body)

theorem enrols_nested {visit : Context → Walk Ty} {trail : Context → State → Trail}
    (h : Enlists s (visit ctx.deeper) (trail ctx.deeper s) r) :
    Enlists s (nested ctx visit) (nestedTrail ctx trail s) r := by
  unfold nested nestedTrail
  split
  · exact False.elim
  · exact h.before (enrols_nothing rfl)

theorem table_step (stmt : Stmt) (flow : Flow) (visit : Walk Bool) (s : State) :
    (s.after (step ctx stmt flow visit)).table =
      ((s.after (flow.enter ctx stmt)).after visit).table := by
  change ((((s.after (flow.enter ctx stmt)).after visit).after
    (if s.answer (flow.enter ctx stmt) = .reported then _ else _)).table) = _
  split <;> rfl

section Operators

variable {lhs rhs : Walk Ty} {left right : State → Trail} {r r' : Roster}
  (hlhs : AlwaysEnlists fileExists ctx lhs left r)
  (hrhs : AlwaysEnlists fileExists ctx rhs right r')
  (h : Placed fileExists ctx s.table)

include hlhs hrhs h

theorem enrols_binary (span : Span) (op : BinaryOp) :
    Enlists s (binary ctx span op lhs rhs) (binaryTrail op lhs left right s) (r.andThen r') := by
  have hboth := (hlhs s h).andThen fun hext => hrhs (s.after lhs) (h.later hext)
  have htable : (s.after (binary ctx span op lhs rhs)).table = ((s.after lhs).after rhs).table := by
    unfold binary
    split
    · rfl
    · change (((s.after lhs).after rhs).after _).table = _
      split
      · rfl
      · rfl
      · split
        · exact still_report _ _ _
        · rfl
      · rfl
  rw [Enlists, htable]
  unfold binaryTrail
  split
  · exact hboth
  · exact hboth

theorem enrols_assigned (span : Span) (op : AssignOp) (isName : Bool)
    (hname : isName = true → r = .nothing) :
    Enlists s (assigned ctx span op isName lhs rhs)
      (assignedTrail op isName lhs left right s) (r.andThen r') := by
  cases op with
  | assign =>
    cases isName with
    | true =>
      rw [hname rfl]
      exact hrhs s h
    | false => exact (hlhs s h).andThen fun hext => hrhs _ (h.later hext)
  | compound op => exact enrols_binary hlhs hrhs h span op

theorem enrols_either : Enlists s (either lhs rhs) (eitherTrail lhs left right s) (r.andThen r') :=
  (hlhs s h).either (fun hext =>
    hrhs ((s.after lhs).after (setEnv s.env)) (h.later hext)) false false

end Operators

end Places

/-! ### Rosters of statements and expressions -/

variable {fileExists : String → Bool}

mutual

theorem enrols_stmt (ctx : Context) (listed : Bool) :
    (stmt : Stmt) → (s : State) → Placed fileExists ctx s.table →
    (listed = true → ∀ x ∈ stmt.hoisted?, x.name ∈ s.table.namesIn ctx.scope) →
    Enlists s (Walk.stmt ctx stmt) (stmtTrail ctx stmt s)
      (stmt.roster fileExists listed ctx.scope)
  | .expr _ value, s, hs, _ => by
    change Enrols _ (State.after _ (exits ctx value)).table _ _
    have hexits : Still (exits ctx value) := (tame_exits ctx value).still _
    rw [hexits]
    refine (enrols_infer ctx .value value s hs).before (enrols_nothing ?_)
    split <;> rfl
  | .decl _ kind ds, s, hs, _ => enrols_declarators ctx kind.symbolKind ds s hs
  | .function span name params body, s, hs, hlisted =>
    enrols_functionDecl listed name params hs hlisted fun u hu =>
      enrols_function hu fun inner v hv =>
        enrols_sequence hv body fun w hw hnames => enrols_stmts inner body .reachable w hw hnames
  | .ifElse _ test yes no, s, hs, _ => by
    refine (enrols_infer ctx .value test s hs).andThen fun htest => ?_
    let before := s.after (infer ctx .value test)
    let other := (before.after (stmt ctx yes)).after (setEnv before.env)
    change Enrols _ ((other.after (stmtOption ctx no)).after (mergeBranches _ _ _)).table _ _
    rw [still_mergeBranches]
    exact (enrols_stmt ctx false yes _ (hs.later htest) nofun).either (fun hyes =>
      enrols_stmtOption ctx no other ((hs.later htest).later hyes)) _ _
  | .whileLoop _ test body, s, hs, _ =>
    (enrols_infer ctx .value test s hs).rounds fun htest =>
      enrols_stmt ctx.inLoop false body _ (hs.later htest) nofun
  | .forLoop span init test update body, s, hs, _ => by
    have hinner := placed_openBlock hs (if init.any declares then some span else none)
    refine Enrols.inBlock ((enrols_stmtOption _ init _ hinner).andThen fun hinit => ?_)
    have hinner := hinner.later hinit
    exact (enrols_inferOption _ test _ hinner).loop
      (fun htest => enrols_stmt (Context.inLoop _) false body _ (hinner.later htest) nofun)
      fun hbody htest => enrols_inferOption _ update _ ((hinner.later htest).later hbody)
  | .forIn span kind key value iterable body, s, hs, _ => by
    refine (enrols_infer ctx .value iterable s hs).andThen fun hiterable => ?_
    have hinner := placed_openBlock (hs.later hiterable) (if kind.isSome then some span else none)
    refine Enrols.inBlock ?_
    refine (enrols_bindNames hinner.2 kind key value _).rounds fun hbound => ?_
    exact enrols_stmt (Context.inLoop _) false body _ (hinner.later hbound) nofun
  | .switch span subject cs, s, hs, _ => by
    refine (enrols_infer ctx .value subject s hs).andThen fun hsubject => ?_
    have hinner := placed_openBlock (hs.later hsubject) (switchSpan span cs)
    exact Enrols.inBlock (enrols_cases (Context.inSwitch _) cs false _ hinner)
  | .tryCatch span body param handler, s, hs, _ => by
    have hinner := placed_openBlock hs (blockSpan span body)
    change Enrols _ ((State.after _ (sequence _ handler _)).after (mergeBranches _ _ _)).table _ _
    rw [still_mergeBranches]
    refine Enrols.tryCatch (Enrols.inBlock ?_) (fun hbody => Enrols.inBlock ?_) _ _
    · exact enrols_sequence hinner body fun u hu hnames =>
        enrols_stmts _ body .reachable u hu hnames
    · have hinner := placed_openBlock (hs.later hbody) (handlerSpan param handler)
      refine (enrols_declareCaught hinner.2 param).andThen fun hparam => ?_
      exact enrols_sequence (hinner.later hparam) handler fun u hu hnames =>
        enrols_stmts _ handler .reachable u hu hnames
  | .returns _ value, s, hs, _ => (enrols_inferOption ctx value s hs).before (enrols_nothing rfl)
  | .breaks span, _, _, _ => enrols_reportWhen _ span .breakOutsideLoop rfl
  | .continues span, _, _, _ => enrols_reportWhen _ span .continueOutsideLoop rfl
  | .block span body, s, hs, _ =>
    Enrols.inBlock (enrols_sequence (placed_openBlock hs (blockSpan span body)) body
      fun u hu hnames => enrols_stmts _ body .reachable u hu hnames)
  | .imports _ specs source, s, hs, _ => by
    obtain ⟨rfl, hscope⟩ := hs
    exact enrols_importNames hscope specs source
  | .exportDecl _ declaration, s, hs, hlisted => by
    refine (enrols_stmt ctx _ declaration s hs fun h => ?_).before (enrols_countExported _)
    obtain ⟨hlist, hfunction⟩ := (Bool.and_eq_true _ _).mp h
    cases declaration with
    | function => exact hlisted hlist
    | _ => cases hfunction
  | .exportDefault _ value, s, hs, _ => enrols_infer ctx .value value s hs
  | .exportNames _ _ (some source), _, _, _ | .exportAll _ _ source, _, _, _ =>
    enrols_reportWhen (isMissing ctx source.value) source.span (.moduleNotFound source.value) rfl
  | .exportNames _ specs none, _, _, _ => enrols_readExported specs
  | .empty _, _, _, _ => enrols_nothing rfl

theorem enrols_stmtOption (ctx : Context) : (stmt : Option Stmt)  →
    AlwaysEnlists fileExists ctx (stmtOption ctx stmt) (stmtOptionTrail ctx stmt)
      (stmtOptionRoster fileExists ctx.scope stmt)
  | some stmt, s, hs => enrols_stmt ctx false stmt s hs nofun
  | none, _, _ => enrols_nothing rfl

theorem enrols_stmts (ctx : Context) : (ss : List Stmt) →
    (flow : Flow) → (s : State) → Placed fileExists ctx s.table →
    (∀ stmt ∈ ss, ∀ x ∈ stmt.hoisted?, x.name ∈ s.table.namesIn ctx.scope) →
    Enlists s (stmts ctx ss flow) (stmtsTrail ctx ss flow s)
      (stmtsRoster fileExists ctx.scope ss)
  | [], _, _, _, _ => enrols_nothing rfl
  | stmt :: rest, flow, s, hs, hnames => by
    obtain ⟨hfirst, hrest⟩ := forall_mem_cons.mp hnames
    have hentered : (s.after (flow.enter ctx stmt)).table = s.table :=
      (tame_enter ctx stmt flow).still _ s
    have hvisit := enrols_stmt ctx true stmt (s.after (flow.enter ctx stmt)) (hentered ▸ hs)
      fun _ => hentered ▸ hfirst
    rw [Enlists, ← table_step, hentered] at hvisit
    exact hvisit.andThen fun hext => enrols_stmts ctx rest _ _ (hs.later hext) fun u hu x hx =>
      hext.namesIn_subset _ (hrest u hu x hx)

theorem enrols_declarators (ctx : Context) (kind : SymbolKind) :
    (ds : List Declarator)  →
    AlwaysEnlists fileExists ctx (declarators ctx kind ds) (declaratorsTrail ctx kind ds)
      (declaratorsRoster fileExists ctx.scope ds)
  | [], _, _ => enrols_nothing rfl
  | .mk name init :: rest, s, hs =>
    (enrols_inferOption ctx init s hs).andThen fun hinit =>
      (enrols_declare (hs.later hinit).2 name kind _).andThen fun hname =>
        enrols_declarators ctx kind rest _ ((hs.later hinit).later hname)

theorem enrols_cases (ctx : Context) : (cs : List SwitchCase) →
    (last : Bool)  →
    AlwaysEnlists fileExists ctx (cases ctx last cs) (casesTrail ctx cs)
      (casesRoster fileExists ctx.scope cs)
  | [], _, _, _ => enrols_nothing rfl
  | .mk _ test body :: rest, _, s, hs =>
    (enrols_inferOption ctx test s hs).case
      (fun htest => enrols_sequence (hs.later htest) body fun u hu hnames =>
        enrols_stmts ctx body .reachable u hu hnames)
      (fun hbody htest => enrols_cases ctx rest _ _ ((hs.later htest).later hbody)) _

theorem enrols_infer (ctx : Context) (use : Use) : (e : Expr)  →
    AlwaysEnlists fileExists ctx (infer ctx use e) (inferTrail ctx use e)
      (e.roster fileExists ctx.scope)
  | .ident name, s, hs => by
    cases use with
    | callee =>
      change Enrols s.table ((s.after (read ctx name)).after (nameSignature ctx name)).table _ _
      have hsignature : Still (nameSignature ctx name) := (tame_nameSignature ctx name).still _
      rw [hsignature]
      exact enrols_act ctx s (.read name) rfl rfl
    | value =>
      change Enlists s (nested ctx fun ctx => read ctx name)
        (nestedTrail ctx (fun ctx s => .deed ⟨ctx, .read name, s⟩) s) _
      exact enrols_nested (enrols_act ctx.deeper s (.read name) rfl rfl)
  | .int _ _, s, _ | .double _ _, s, _ | .string _ _, s, _ | .regexp _ _ _, s, _
  | .bool _ _, s, _ | .null _, s, _ | .this _, s, _ | .invalid _, s, _ =>
    enrols_nested (enrols_nothing rfl)
  | .template _ parts, s, hs => enrols_nested (enrols_inferAll ctx.deeper parts s hs)
  | .array _ elements, s, hs => enrols_nested (enrols_inferAll ctx.deeper elements s hs)
  | .object _ ps, s, hs => enrols_nested (enrols_properties ctx.deeper ps s hs)
  | .spread _ value, s, hs => enrols_nested (enrols_infer ctx.deeper .value value s hs)
  | .unary _ _ operand, s, hs => enrols_nested (enrols_infer ctx.deeper .value operand s hs)
  | .update _ _ _ target, s, hs => enrols_nested <|
    (enrols_infer ctx.deeper .value target s hs).before (enrols_assignTarget target _)
  | .binary span op lhs rhs, s, hs => enrols_nested <|
    enrols_binary (enrols_infer ctx.deeper .value lhs)
      (enrols_infer ctx.deeper .value rhs) hs span op
  | .assign span op target value, s, hs => enrols_nested <| by
    have hname : isIdent target = true → target.roster fileExists ctx.scope = .nothing := by
      cases target with
      | ident => exact fun _ => rfl
      | _ => exact nofun
    exact (enrols_assigned (enrols_infer ctx.deeper .value target)
      (enrols_infer ctx.deeper .value value) hs span op _ hname).before
        (enrols_assignTarget target _)
  | .conditional _ test yes no, s, hs => enrols_nested <| by
    refine (enrols_infer ctx.deeper .value test s hs).andThen fun htest => ?_
    let branches := either (typeOf (infer ctx.deeper .value yes)) (typeOf (infer ctx.deeper .value no))
    change Enrols _ ((s.after (infer ctx.deeper .value test)).after branches).table _ _
    exact enrols_either (enrols_infer ctx.deeper .value yes)
      (enrols_infer ctx.deeper .value no) (hs.later htest)
  | .call span callee args _, s, hs => enrols_nested <| by
    have hfinish (type : Ty) (signature : Option Builtin.Signature) :
        Still (finishCall ctx.deeper span callee type signature args) :=
      (tame_finishCall ctx.deeper span callee type signature args).still _
    change Enrols _ (State.after _ (finishCall ctx.deeper _ _ _ _ _)).table _ _
    rw [hfinish]
    exact (enrols_infer ctx.deeper .callee callee s hs).andThen fun hcallee =>
      enrols_inferAll ctx.deeper args _ (hs.later hcallee)
  | .member _ object property _, s, hs => by
    have hmember (ctx : Context) (type : Ty) : Still (member ctx type property) :=
      (tame_member ctx type property).still _
    cases use with
    | callee =>
      change Enrols _ (State.after _ (member ctx _ property)).table _ _
      rw [hmember]
      exact enrols_infer ctx .value object s hs
    | value =>
      change Enlists s (nested ctx fun ctx => do
          let type ← typeOf (infer ctx .value object)
          member ctx type property)
        (nestedTrail ctx (fun ctx s => inferTrail ctx .value object s) s) _
      refine enrols_nested ?_
      change Enrols _ (State.after _ (member ctx.deeper _ property)).table _ _
      rw [hmember]
      exact enrols_infer ctx.deeper .value object s hs
  | .index _ object index _, s, hs => enrols_nested <|
    (enrols_infer ctx.deeper .value object s hs).andThen fun hobject =>
      enrols_infer ctx.deeper .value index _ (hs.later hobject)
  | .function span _ params body, s, hs | .arrowBlock span params body, s, hs => enrols_nested <|
    enrols_function hs fun inner v hv => enrols_sequence hv body fun w hw hnames =>
      enrols_stmts inner body .reachable w hw hnames
  | .arrowExpr span params body, s, hs => enrols_nested <|
    enrols_function hs fun inner v hv => enrols_infer inner .value body v hv
  | .paren _ inner, s, hs => by
    cases use with
    | callee => exact enrols_infer ctx .callee inner s hs
    | value =>
      change Enlists s (nested ctx fun ctx => typeOf (infer ctx .value inner))
        (nestedTrail ctx (fun ctx s => inferTrail ctx .value inner s) s) _
      exact enrols_nested (enrols_infer ctx.deeper .value inner s hs)

theorem enrols_inferOption (ctx : Context) : (e : Option Expr)  →
    AlwaysEnlists fileExists ctx (inferOption ctx e) (inferOptionTrail ctx e)
      (exprOptionRoster fileExists ctx.scope e)
  | some e, s, hs => enrols_infer ctx .value e s hs
  | none, _, _ => enrols_nothing rfl

theorem enrols_inferAll (ctx : Context) : (es : List Expr)  →
    AlwaysEnlists fileExists ctx (inferAll ctx es) (inferAllTrail ctx es)
      (exprsRoster fileExists ctx.scope es)
  | [], _, _ => enrols_nothing rfl
  | e :: rest, s, hs => (enrols_infer ctx .value e s hs).andThen fun hfirst =>
    enrols_inferAll ctx rest _ (hs.later hfirst)

theorem enrols_properties (ctx : Context) : (ps : List Property)  →
    AlwaysEnlists fileExists ctx (properties ctx ps) (propertiesTrail ctx ps)
      (propertiesRoster fileExists ctx.scope ps)
  | [], _, _ => enrols_nothing rfl
  | .named _ value :: rest, s, hs | .spread value :: rest, s, hs =>
    (enrols_infer ctx .value value s hs).andThen fun hvalue =>
      enrols_properties ctx rest _ (hs.later hvalue)
  | .computed key value :: rest, s, hs =>
    (enrols_infer ctx .value key s hs).andThen fun hkey =>
      (enrols_infer ctx .value value _ (hs.later hkey)).andThen fun hvalue =>
        enrols_properties ctx rest _ ((hs.later hkey).later hvalue)
  | .shorthand name :: rest, s, hs =>
    Enrols.after (fun hext => enrols_properties ctx rest _ (hs.later hext))
      (enrols_act ctx s (.read name) rfl rfl)

end

end Walk

/-- The visit of a program does what is on its roster. -/
theorem Analysis.enrols_trail (passes : PassSet) (fileExists : String → Bool) (program : Program)
    (hwhole : (trail passes fileExists program).Whole) :
    Walk.Enrolled (.empty (region program)) (visited passes fileExists program).table
      (program.roster fileExists) (trail passes fileExists program).deeds := by
  let ctx := outermost passes fileExists
  have hplaced : Walk.Placed fileExists ctx (Walk.State.initial (region program)).table :=
    ⟨rfl, rfl⟩
  have henrols := Walk.enrols_sequence hplaced program.body
    fun u hu hnames => Walk.enrols_stmts ctx program.body .reachable u hu hnames
  exact henrols hwhole

end ScriptCheck
