import ScriptCheck.Proofs.Coherence
import ScriptCheck.Proofs.LayoutProgram
import ScriptCheck.Proofs.Readings
import ScriptCheck.Proofs.Resolution
import ScriptCheck.Proofs.Roster

/-!
# Functions are known in all of their list

The functions that stand directly in a list of statements are declared before any of the list is
visited, and all that is visited in the list is in the scope of the list or further inside. So none
of their names is found undefined in the region of the list (`Analysis.hoisted_ofProgram`).

The argument has two halves. A name that a visit does not find is reached from the whole program
without going through a list that declares a function of this name (`Trail.MissesOnly`). And in a
program that was read from a script, whatever lies in the region of a list is reached through the
list only (`Node.Reaches.not_encloses`).
-/

namespace ScriptCheck

open List

open Text

variable {f : Located Finding}

/-! ### Tables that grow -/

namespace SymbolTable

variable {t t' : SymbolTable} {name : String} {u : Nat}

theorem ancestorsUpTo_subset {n m : Nat} (h : n ≤ m) (id : Nat) :
    t.ancestorsUpTo n id ⊆ t.ancestorsUpTo m id := by
  induction n generalizing m id with
  | zero =>
    cases m with
    | zero => exact List.Subset.refl _
    | succ m =>
      rw [ancestorsUpTo, ancestorsUpTo]
      split <;> simp
  | succ n ih =>
    obtain ⟨m, rfl⟩ : ∃ k, m = k + 1 := ⟨m - 1, by omega⟩
    rw [ancestorsUpTo, ancestorsUpTo]
    split
    · exact cons_subset_cons _ (ih (by omega) _)
    · exact List.Subset.refl _

theorem Extends.ancestorsUpTo_subset (hext : t'.Extends t) (n id : Nat) :
    t.ancestorsUpTo n id ⊆ t'.ancestorsUpTo n id := by
  induction n generalizing id with
  | zero => exact List.Subset.refl _
  | succ n ih =>
    rw [ancestorsUpTo]
    split
    · next parent hparent =>
      obtain ⟨s, hs, hp⟩ := Option.bind_eq_some_iff.1 hparent
      obtain ⟨s', hs', hgrew⟩ := hext id s hs
      rw [ancestorsUpTo, hs', Option.bind_some, hgrew.parent_eq, hp]
      exact cons_subset_cons _ (ih parent)
    · rw [ancestorsUpTo]
      split <;> simp

/-- A name that stands for nothing stood for nothing before. -/
theorem Extends.lookup_eq_none (hext : t'.Extends t) (h : t'.lookup name u = none) :
    t.lookup name u = none := by
  rw [lookup_eq_none_iff] at h ⊢
  exact fun z hz hmem => h z (hext.ancestorsUpTo_subset u u hz) (hext.namesIn_subset z hmem)

/-- A name that stands for nothing in a new scope stands for nothing where the scope is opened. -/
theorem lookup_eq_none_of_push (hu : t.hasScope u) {kind : ScopeKind} {span : Span}
    (h : (t.push kind u span).lookup name t.scopes.length = none) : t.lookup name u = none := by
  rw [lookup_eq_none_iff] at h ⊢
  intro z hz hmem
  have hlt : u < t.scopes.length := by simpa [hasScope] using hu
  obtain ⟨n, hn⟩ : ∃ n, t.scopes.length = n + 1 := ⟨t.scopes.length - 1, by omega⟩
  have haround : z ∈ (t.push kind u span).ancestorsUpTo n u :=
    ancestorsUpTo_subset (by omega) u (extends_push.ancestorsUpTo_subset u u hz)
  refine h z ?_ (extends_push.namesIn_subset z hmem)
  have hparent : (t.push kind u span).scopes[t.scopes.length]?.bind Scope.parent = some u := by
    rw [push, getElem?_concat_length, Option.bind_some]
  rw [ancestors]
  nth_rewrite 1 [hn]
  rw [ancestorsUpTo, hparent]
  exact mem_cons_of_mem _ haround

/-- A name that was declared in a scope stands for something there. -/
theorem lookup_declare_ne_none (hu : t.hasScope u) (symbol : Symbol) :
    (t.declare u symbol).2.2.lookup symbol.name u ≠ none := by
  intro hnone
  obtain ⟨outer, houter⟩ := (t.declare u symbol).2.2.exists_ancestors_eq u
  exact lookup_eq_none_iff.1 hnone u (houter ▸ mem_cons_self) (mem_namesIn_declare hu)

end SymbolTable

/-! ### Lists of statements -/

/-- The names of the functions that stand directly in a list of statements, plain or exported. -/
def functionNames (body : List Stmt) : List String :=
  (body.filterMap Stmt.hoisted?).map Ident.name

namespace Node

/-- The lists of statements directly below a node. -/
def lists : Node → List (List Stmt)
  | .stmt (.block _ body) | .stmt (.function _ _ _ body) | .expr (.function _ _ _ body)
  | .expr (.arrowBlock _ _ body) | .case (.mk _ _ body) => [body]
  | .stmt (.tryCatch _ body _ handler) => [body, handler]
  | _ => []

/-- The nodes directly below a node that do not stand in a list of statements. -/
def loose : Node → List Node
  | .stmt (.block _ _) => []
  | .stmt (.function _ own params _) | .expr (.function _ own params _) =>
    own.toList.map .name ++ paramNodes params
  | .expr (.arrowBlock _ params _) => paramNodes params
  | .case (.mk _ test _) => test.toList.map .expr
  | .stmt (.tryCatch _ _ param _) => param.toList.map .name
  | n => n.parts

/-- A node stands directly below another one, and not in a list that declares a function of some
name. -/
inductive Opens (x : String) (n : Node) : Node → Prop
  | part {c : Node} (h : c ∈ n.loose) : Opens x n c
  | stmt {body : List Stmt} {s : Stmt} (hbody : body ∈ n.lists) (hx : x ∉ functionNames body)
    (hs : s ∈ body) : Opens x n (.stmt s)

/-- A name is below a node, and in no list there that declares a function of some name. -/
def Reaches (x : String) (n : Node) (y : Ident) : Prop :=
  Relation.ReflTransGen (Opens x) n (.name y)

variable {x : String} {n c : Node} {y : Ident}

theorem Reaches.self (x : String) (y : Ident) : Reaches x (.name y) y := Relation.ReflTransGen.refl

/-- A name is below one of some nodes, and in no list there that declares a function of some
name. -/
def ReachesAny (x : String) (ns : List Node) (y : Ident) : Prop := ∃ n ∈ ns, Reaches x n y

theorem mem_parts_iff : c ∈ n.parts ↔ c ∈ n.loose ∨ ∃ body ∈ n.lists, ∃ s ∈ body, .stmt s = c := by
  unfold loose lists
  split <;> simp [parts, Stmt.parts, Expr.parts, SwitchCase.parts, functionParts, or_assoc,
    or_left_comm]

theorem Opens.mem_parts (h : Opens x n c) : c ∈ n.parts := by
  cases h with
  | part h => exact mem_parts_iff.2 (.inl h)
  | stmt hbody _ hs => exact mem_parts_iff.2 (.inr ⟨_, hbody, _, hs, rfl⟩)

/-- A list divides the parts of its node. If it declares a function, then what is reached without
going through it comes before or behind it. -/
theorem exists_split {body : List Stmt} (hbody : body ∈ n.lists) :
    ∃ front back, n.parts = front ++ (body.map .stmt ++ back) ∧
      ∀ x ∈ functionNames body, ∀ c, Opens x n c → c ∈ front ∨ c ∈ back := by
  -- all nodes but a `try` have at most one list
  have hone (front : List Node) {list : List Stmt} (hparts : n.parts = front ++ list.map .stmt)
      (hlists : n.lists = [list]) (hloose : n.loose = front) :
      ∃ front back, n.parts = front ++ (body.map .stmt ++ back) ∧
        ∀ x ∈ functionNames body, ∀ c, Opens x n c → c ∈ front ∨ c ∈ back := by
    rw [hlists, mem_singleton] at hbody
    subst hbody
    refine ⟨front, [], by rw [hparts, append_nil], fun x hx c h => ?_⟩
    cases h with
    | part h => exact .inl (hloose ▸ h)
    | stmt hbody hx' hs =>
      rw [hlists, mem_singleton] at hbody
      exact absurd hx (hbody ▸ hx')
  cases n with
  | stmt s =>
    cases s with
    | block span list => exact hone [] rfl rfl rfl
    | function span name params list => exact hone _ (append_assoc ..).symm rfl rfl
    | tryCatch span tried param handler =>
      have hparts : (Node.stmt (.tryCatch span tried param handler)).parts =
        tried.map .stmt ++ (param.toList.map .name ++ handler.map .stmt) := rfl
      rcases mem_pair.1 hbody with rfl | rfl
      · refine ⟨[], _, hparts, fun x hx c h => .inr ?_⟩
        cases h with
        | part h => exact mem_append_left _ h
        | stmt hbody hx' hs =>
          rcases mem_pair.1 hbody with rfl | rfl
          · exact absurd hx hx'
          · exact mem_append_right _ (mem_map_of_mem hs)
      · refine ⟨tried.map .stmt ++ param.toList.map .name, [], ?_, fun x hx c h => .inl ?_⟩
        · rw [hparts, append_nil, append_assoc]
        · cases h with
          | part h => exact mem_append_right _ h
          | stmt hbody hx' hs =>
            rcases mem_pair.1 hbody with rfl | rfl
            · exact mem_append_left _ (mem_map_of_mem hs)
            · exact absurd hx hx'
    | _ => cases hbody
  | case switchCase =>
    obtain ⟨span, test, list⟩ := switchCase
    exact hone _ rfl rfl rfl
  | expr e =>
    cases e with
    | function span name params list => exact hone _ (append_assoc ..).symm rfl rfl
    | arrowBlock span params list => exact hone _ rfl rfl rfl
    | _ => cases hbody
  | name z => cases hbody

end Node

namespace Walk

open Node (Reaches ReachesAny)

/-! ### Names that are not found -/

/-- A deed reads a name that stands for no symbol there. -/
def Deed.Misses (d : Deed) (y : Ident) : Prop :=
  d.act = .read y ∧ d.before.table.lookup y.name d.place.scope = none

variable {passes : PassSet} {x : String} {u : Nat} {P Q : Ident → Prop} {t t₁ t₂ t₃ : Trail}
  {ctx : Context} {n c : Node} {ns ms ls : List Node}

/-- The deeds of a trail miss a name only if it stands for nothing in a scope at the start of the
trail, and only where it is one of some names. -/
def Trail.MissesOnly (passes : PassSet) (x : String) (u : Nat) (P : Ident → Prop) (t : Trail) :
    Prop :=
  ∀ s s', t.Leads passes s s' → s.table.hasScope u → ∀ d ∈ t.deeds, ∀ y, d.Misses y → y.name = x →
    s.table.lookup x u = none ∧ P y

/-- The names are below some nodes. -/
abbrev Trail.MissesIn (passes : PassSet) (x : String) (u : Nat) (ns : List Node) (t : Trail) :
    Prop :=
  t.MissesOnly passes x u (ReachesAny x ns)

theorem Trail.MissesOnly.mono (h : t.MissesOnly passes x u P) (hPQ : ∀ y, P y → Q y) :
    t.MissesOnly passes x u Q :=
  fun s s' hleads hu d hd y hmisses hy => (h s s' hleads hu d hd y hmisses hy).imp_right (hPQ y)

theorem missesIn_of_deeds (h : t.deeds = []) : t.MissesIn passes x u ns := by
  intro s s' _ _ d hd
  rw [h] at hd
  cases hd

namespace Trail.MissesIn

theorem within (h : t.MissesIn passes x u ns) (hns : ns ⊆ ms) : t.MissesIn passes x u ms :=
  h.mono fun _ ⟨c, hc, hy⟩ => ⟨c, hns hc, hy⟩

/-- The parts of a node that are in none of its lists. -/
theorem node (h : t.MissesIn passes x u n.loose) : t.MissesIn passes x u [n] :=
  h.mono fun _ ⟨_, hc, hy⟩ => ⟨n, mem_cons_self, .head (.part hc) hy⟩

section Parts

variable (h₁ : t₁.MissesIn passes x u ns) (h₂ : t₂.MissesIn passes x u ms)

include h₁ h₂

/-- A trail of which the parts follow each other. -/
theorem both (hdeeds : t.deeds = t₁.deeds ++ t₂.deeds)
    (hleads : ∀ s s', t.Leads passes s s' → ∃ m m' v, t₁.Leads passes s m ∧ m'.table = m.table ∧
      t₂.Leads passes m' v) : t.MissesIn passes x u (ns ++ ms) := by
  intro s s' h hu d hd y hmisses hy
  obtain ⟨m, m', v, hfirst, htable, hsecond⟩ := hleads s s' h
  have hext : m'.table.Extends s.table := htable ▸ hfirst.chain.extends_table
  rw [hdeeds, mem_append] at hd
  rcases hd with hd | hd
  · exact h₁.within (subset_append_left ..) s m hfirst hu d hd y hmisses hy
  · have h₂ := h₂.within (subset_append_right ns ms)
    exact (h₂ m' v hsecond (hext.hasScope hu) d hd y hmisses hy).imp_left hext.lookup_eq_none

theorem andThen : (Trail.andThen t₁ t₂).MissesIn passes x u (ns ++ ms) :=
  h₁.both h₂ rfl fun _ s' ⟨m, hfirst, hrest⟩ => ⟨m, m, s', hfirst, rfl, hrest⟩

theorem either (a b : Bool) : (Trail.either t₁ t₂ a b).MissesIn passes x u (ns ++ ms) :=
  h₁.both h₂ rfl fun s _ ⟨m, v, hfirst, hrest, _⟩ =>
    ⟨m, m.after (setEnv s.env), v, hfirst, rfl, hrest⟩

theorem tryCatch (a b : Bool) : (Trail.tryCatch t₁ t₂ a b).MissesIn passes x u (ns ++ ms) :=
  h₁.both h₂ rfl fun s _ ⟨m, v, hfirst, hrest, _⟩ =>
    ⟨m, m.after (setEnv (s.env.join m.env)), v, hfirst, rfl, hrest⟩

theorem loop (h₃ : t₃.MissesIn passes x u ls) :
    (Trail.loop t₁ t₂ t₃).MissesIn passes x u (ns ++ (ms ++ ls)) :=
  h₁.both (h₂.andThen h₃) rfl fun _ _ ⟨m, v, w, hstart, hbody, hupdate, _⟩ =>
    ⟨m, m, w, hstart, rfl, v, hbody, hupdate⟩

/-- A loop without an update. -/
theorem rounds : (Trail.loop t₁ t₂ .done).MissesIn passes x u (ns ++ ms) :=
  append_nil ms ▸ h₁.loop h₂ (missesIn_of_deeds rfl)

theorem case (h₃ : t₃.MissesIn passes x u ls) (isDefault : Bool) :
    (Trail.case isDefault t₁ t₂ t₃).MissesIn passes x u (ns ++ (ms ++ ls)) :=
  h₁.both (h₂.andThen h₃) rfl fun _ s' ⟨m, v, htest, hbody, hrest⟩ =>
    ⟨m, m, s', htest, rfl, v, hbody, hrest⟩

end Parts

/-- What comes last misses nothing. -/
theorem before (h : t₁.MissesIn passes x u ns) (h' : t₂.MissesIn passes x u []) :
    (Trail.andThen t₁ t₂).MissesIn passes x u ns :=
  append_nil ns ▸ h.andThen h'

theorem «maybe» (h : t.MissesIn passes x u ns) : (Trail.maybe t).MissesIn passes x u ns :=
  fun s _ ⟨m, hleads, _⟩ => h s m hleads

theorem switch (h : t.MissesIn passes x u ns) : (Trail.switch t).MissesIn passes x u ns :=
  fun s _ ⟨m, hleads, _⟩ => h s m hleads

theorem function (h : t.MissesIn passes x u ns) (scope : Nat) :
    (Trail.function scope t).MissesIn passes x u ns :=
  fun s _ ⟨m, hleads, _⟩ => h s m hleads

end Trail.MissesIn

/-- A trail that reads nothing misses nothing. -/
theorem Surveys.missesOnly {runs : Ending → Prop} (h : Surveys 0 0 [] runs t) :
    t.MissesOnly passes x u P := by
  intro s s' _ _ d hd y hmisses
  have hread : y ∈ t.deeds.filterMap Deed.readName? :=
    mem_filterMap.2 ⟨d, hd, by rw [Deed.readName?, hmisses.1]⟩
  rw [h.reads (h.whole.2 (Nat.zero_le _))] at hread
  cases hread

theorem Surveys.missesIn {runs : Ending → Prop} (h : Surveys 0 0 [] runs t) :
    t.MissesIn passes x u [] :=
  h.missesOnly

theorem missesIn_read (name : Ident) (s : State) :
    (Trail.deed ⟨ctx, .read name, s⟩).MissesIn passes x ctx.scope [.name name] := by
  intro s₀ _ hleads _ d hd y hmisses hy
  obtain rfl := mem_singleton.1 hd
  obtain ⟨hact, hnone⟩ := hmisses
  obtain rfl := Act.read.inj hact
  subst hy
  refine ⟨?_, .name name, mem_cons_self, .self _ name⟩
  rw [← hleads.2.1.table]
  exact hnone

theorem missesIn_nested {trail : Context → State → Trail} {s : State}
    (h : (trail ctx.deeper s).MissesIn passes x ctx.scope ns) :
    (nestedTrail ctx trail s).MissesIn passes x ctx.scope ns := by
  unfold nestedTrail
  split
  · exact missesIn_of_deeds rfl
  · exact h.before (missesIn_of_deeds rfl)

/-- What is missed in a new scope is missed where the scope is opened. -/
theorem Trail.MissesIn.inScope {kind : ScopeKind} {span : Span} {s : State}
    (h : t.MissesIn passes x s.table.scopes.length ns) :
    (Trail.andThen (.deed ⟨ctx, .openScope kind span, s⟩) t).MissesIn passes x ctx.scope ns := by
  rintro s₀ s' ⟨m, ⟨-, hbefore, hafter⟩, hrest⟩ hu d hd y hmisses hy
  rcases mem_cons.1 hd with rfl | hd
  · cases hmisses.1
  · have hpush : m.table = s₀.table.push kind ctx.scope span := by
      rw [hafter.table, ← hbefore.table]
      rfl
    have hnew : m.table.hasScope s.table.scopes.length := by
      rw [hpush, hbefore.table]
      simp [SymbolTable.hasScope, SymbolTable.push]
    refine (h m s' hrest hnew d hd y hmisses hy).imp_left fun hnone => ?_
    rw [hpush, hbefore.table] at hnone
    exact SymbolTable.lookup_eq_none_of_push hu hnone

theorem missesIn_openBlock {span : Option Span} {s : State}
    (h : t.MissesIn passes x (s.answer (openBlock ctx span)).scope ns) :
    (Trail.andThen (openBlockTrail ctx span s) t).MissesIn passes x ctx.scope ns := by
  cases span with
  | some span => exact h.inScope
  | none =>
    have hnothing : (openBlockTrail ctx none s).MissesIn passes x ctx.scope [] :=
      missesIn_of_deeds rfl
    exact hnothing.andThen h

theorem missesIn_function (span : Span) (params : List Param) {trail : Context → State → Trail}
    (s : State) (h : ∀ inner s, (trail inner s).MissesIn passes x inner.scope ns) :
    (functionTrail ctx span params trail s).MissesIn passes x ctx.scope ns := by
  refine Trail.MissesIn.inScope (.function ?_ _)
  exact (surveys_params (Nat.zero_le _) params _).missesIn.andThen (h _ _)

theorem missesIn_functionDecl (name : Option Ident) (params : List Param) (visit : Walk Ty)
    {trail : State → Trail} (s : State) (h : ∀ s, (trail s).MissesIn passes x u ns) :
    (functionDeclTrail ctx name params visit trail s).MissesIn passes x u ns := by
  cases name with
  | some name =>
    have hrecorded (s : State) : (Trail.andThen (trail s) (.deed ⟨ctx, .recordFunction name
        (s.answer visit), s.after visit⟩)).MissesIn passes x u ns :=
      (h s).before (surveys_deed (Nat.zero_le _) rfl).missesIn
    unfold functionDeclTrail
    dsimp only
    split
    · exact (surveys_hoistFunction (Nat.zero_le _) (some name) params _).missesIn.andThen
        (hrecorded _)
    · exact hrecorded _
  | none => exact h s

/-! ### Functions are declared first -/

/-- The functions of a list are declared by the deeds at its start. -/
theorem exists_hoist_deed {body : List Stmt} {name : Ident}
    (h : name ∈ body.filterMap Stmt.hoisted?) (s : State) :
    ∃ type σ, ⟨ctx, .declare name .function type, σ⟩ ∈ (hoistTrail ctx body s).deeds := by
  have hname {own : Option Ident} {rest : List Ident} {σ : State} {params : List Param}
      {others : Trail} (h : name ∈ own.toList ++ rest)
      (hrest : name ∈ rest → ∃ type σ, ⟨ctx, .declare name .function type, σ⟩ ∈ others.deeds) :
      ∃ type τ, ⟨ctx, .declare name .function type, τ⟩ ∈
        (Trail.andThen (hoistFunctionTrail ctx own params σ) others).deeds := by
    rcases mem_append.1 h with hown | hmem
    · obtain rfl := Option.mem_toList.1 hown
      exact ⟨_, _, mem_append_left _ (mem_singleton_self _)⟩
    · obtain ⟨type, τ, hdeed⟩ := hrest hmem
      exact ⟨type, τ, mem_append_right _ hdeed⟩
  fun_induction hoistTrail ctx body s with
  | case1 => cases h
  | case2 _ _ _ _ _ _ ih | case3 _ _ _ _ _ _ _ ih =>
    rw [Stmt.filterMap_hoisted?] at h
    exact hname h ih
  | case4 first rest _ hfunction hexport ih =>
    rw [Stmt.filterMap_hoisted?, Stmt.hoisted?_of_ne hfunction hexport] at h
    exact ih h

/-- After the functions of a list are declared, their names stand for something. -/
theorem lookup_of_hoist {body : List Stmt} {s s₀ m : State}
    (hleads : (hoistTrail ctx body s).Leads passes s₀ m) (hscope : s₀.table.hasScope ctx.scope)
    (hx : x ∈ functionNames body) : m.table.lookup x ctx.scope ≠ none := by
  obtain ⟨name, hname, rfl⟩ := mem_map.1 hx
  obtain ⟨type, σ, hdeed⟩ := exists_hoist_deed hname s
  obtain ⟨hbefore, hafter⟩ := hleads.chain.around hdeed
  intro hnone
  refine SymbolTable.lookup_declare_ne_none (hbefore.hasScope hscope)
    (.declared name.name .function type name.span) ?_
  have htable : (Deed.after ⟨ctx, .declare name .function type, σ⟩).table = _ :=
    (Deed.did ⟨ctx, .declare name .function type, σ⟩).table
  have hafter' := hafter.lookup_eq_none hnone
  rw [htable] at hafter'
  exact hafter'

/-- Nothing is missed in a list of statements that is the name of one of its functions. -/
theorem missesOnly_sequence {body : List Stmt} {trail : Flow → State → Trail} (s : State)
    (h : ∀ s, (trail .reachable s).MissesOnly passes x ctx.scope P) :
    (sequenceTrail ctx body trail s).MissesOnly passes x ctx.scope
      fun y => x ∉ functionNames body ∧ P y := by
  rintro s₀ s' ⟨m, hhoist, hrest⟩ hu d hd y hmisses hy
  rcases mem_append.1 hd with hd | hd
  · have hnothing : (hoistTrail ctx body s).MissesOnly passes x ctx.scope
        fun y => x ∉ functionNames body ∧ P y :=
      (surveys_hoist (Nat.zero_le _) body s).missesOnly
    exact hnothing s₀ m hhoist hu d hd y hmisses hy
  · have hext := hhoist.chain.extends_table
    obtain ⟨hnone, hP⟩ := h _ m s' hrest (hext.hasScope hu) d hd y hmisses hy
    exact ⟨hext.lookup_eq_none hnone, fun hx => lookup_of_hoist hhoist hu hx hnone, hP⟩

theorem missesIn_body {body : List Stmt} {trail : Flow → State → Trail} (hbody : body ∈ n.lists)
    (s : State) (h : ∀ s, (trail .reachable s).MissesIn passes x ctx.scope (body.map .stmt)) :
    (sequenceTrail ctx body trail s).MissesIn passes x ctx.scope [n] := by
  refine (missesOnly_sequence s h).mono ?_
  rintro y ⟨hx, c, hc, hy⟩
  obtain ⟨stmt, hstmt, rfl⟩ := mem_map.1 hc
  exact ⟨n, mem_cons_self, .head (.stmt hbody hx hstmt) hy⟩

/-! ### Operators -/

section Operators

variable {left right : State → Trail} (hleft : ∀ s, (left s).MissesIn passes x u ns)
  (hright : ∀ s, (right s).MissesIn passes x u ms)

include hleft hright

theorem missesIn_binary (op : BinaryOp) (lhs : Walk Ty) (s : State) :
    (binaryTrail op lhs left right s).MissesIn passes x u (ns ++ ms) := by
  unfold binaryTrail
  split
  · exact (hleft s).andThen (hright _).maybe
  · exact (hleft s).andThen (hright _)

theorem missesIn_assigned (op : AssignOp) (isName : Bool) (visit : Walk Ty) (s : State) :
    (assignedTrail op isName visit left right s).MissesIn passes x u (ns ++ ms) := by
  cases op with
  | assign =>
    cases isName with
    | true => exact (hright s).within (subset_append_right ..)
    | false => exact (hleft s).andThen (hright _)
  | compound op => exact missesIn_binary hleft hright op visit s

end Operators

theorem missesIn_readExported (specs : List ExportSpec) (s : State) :
    (readExportedTrail ctx specs s).MissesIn passes x ctx.scope
      ((specs.flatMap ExportSpec.names).map .name) := by
  induction specs generalizing s with
  | nil => exact missesIn_of_deeds rfl
  | cons spec rest ih =>
    rw [flatMap_cons, map_append]
    have hname : [.name spec.name] ⊆ spec.names.map Node.name :=
      cons_subset_cons _ (nil_subset _)
    exact ((missesIn_read spec.name s).within hname).andThen (ih _)

/-! ### Statements and expressions -/

mutual

theorem missesIn_stmt (ctx : Context) : (stmt : Stmt) → (s : State) →
    (stmtTrail ctx stmt s).MissesIn passes x ctx.scope [.stmt stmt]
  | .expr _ value, s => by
    refine .node ((missesIn_infer ctx .value value s).before ?_)
    split
    · exact missesIn_of_deeds rfl
    · exact missesIn_of_deeds rfl
  | .decl _ kind ds, s => .node (missesIn_declarators ctx kind.symbolKind ds s)
  | .function span name params body, s =>
    missesIn_functionDecl name params _ s fun u =>
      missesIn_function span params u fun inner v =>
        missesIn_body mem_cons_self v fun w => missesIn_stmts inner body .reachable w
  | .ifElse _ test yes no, s => .node <| (missesIn_infer ctx .value test s).andThen <|
    (missesIn_stmt ctx yes _).either (missesIn_stmtOption ctx no _) _ _
  | .whileLoop _ test body, s =>
    .node <| (missesIn_infer ctx .value test s).rounds (missesIn_stmt ctx.inLoop body _)
  | .forLoop span init test update body, s => by
    refine missesIn_openBlock (.node (.within (.andThen (missesIn_stmtOption _ init _)
      (.loop (missesIn_inferOption _ test _) (missesIn_stmt (Context.inLoop _) body _)
        (missesIn_inferOption _ update _))) ?_))
    -- the body comes last in the script, but before the update in a visit
    exact ((perm_append_comm.append_left _).append_left _).subset
  | .forIn span kind key value iterable body, s => by
    refine .node (.within ((missesIn_infer ctx .value iterable s).andThen (missesIn_openBlock
      (.rounds (.andThen (surveys_bindForIn (Nat.zero_le _) _ key _ _).missesIn
        (surveys_bindForIn (Nat.zero_le _) _ (some value) _ _).missesIn)
        (missesIn_stmt (Context.inLoop _) body _)))) ?_)
    exact subset_append_of_subset_right _ (subset_cons_self ..)
  | .switch span subject cs, s => .node <| (missesIn_infer ctx .value subject s).andThen <|
    missesIn_openBlock (missesIn_cases (Context.inSwitch _) cs _).switch
  | .tryCatch span body param handler, s => by
    refine .within (.tryCatch (missesIn_openBlock ?_) (missesIn_openBlock (.andThen
      (surveys_declareCaught (Nat.zero_le _) param _).missesIn ?_)) _ _)
      (append_subset.2 ⟨List.Subset.refl _, List.Subset.refl _⟩)
    · exact missesIn_body mem_cons_self _ fun u => missesIn_stmts _ body .reachable u
    · exact missesIn_body (mem_cons_of_mem _ mem_cons_self) _ fun u =>
        missesIn_stmts _ handler .reachable u
  | .returns _ value, s =>
    .node <| (missesIn_inferOption ctx value s).before (missesIn_of_deeds rfl)
  | .breaks _, _ | .continues _, _ | .exportAll _ _ _, _ | .empty _, _ => missesIn_of_deeds rfl
  | .block span body, s =>
    missesIn_openBlock <| missesIn_body mem_cons_self _ fun u =>
      missesIn_stmts _ body .reachable u
  | .imports _ specs source, s => (surveys_importNames (Nat.zero_le _) specs source s).missesOnly
  | .exportDecl _ declaration, s => .node <| (missesIn_stmt ctx declaration s).before
    (surveys_countExported (Nat.zero_le _) _ _).missesIn
  | .exportDefault _ value, s => .node (missesIn_infer ctx .value value s)
  | .exportNames _ specs none, s => .node (missesIn_readExported specs s)
  | .exportNames _ _ (some _), _ => missesIn_of_deeds rfl

theorem missesIn_stmtOption (ctx : Context) : (stmt : Option Stmt) → (s : State) →
    (stmtOptionTrail ctx stmt s).MissesIn passes x ctx.scope (stmt.toList.map .stmt)
  | some stmt, s => missesIn_stmt ctx stmt s
  | none, _ => missesIn_of_deeds rfl

theorem missesIn_stmts (ctx : Context) : (ss : List Stmt) → (flow : Flow) → (s : State) →
    (stmtsTrail ctx ss flow s).MissesIn passes x ctx.scope (ss.map .stmt)
  | [], _, _ => missesIn_of_deeds rfl
  | stmt :: rest, _, _ => (missesIn_stmt ctx stmt _).andThen (missesIn_stmts ctx rest _ _)

theorem missesIn_declarators (ctx : Context) (kind : SymbolKind) : (ds : List Declarator) →
    (s : State) → (declaratorsTrail ctx kind ds s).MissesIn passes x ctx.scope
      (ds.flatMap Declarator.parts)
  | [], _ => missesIn_of_deeds rfl
  | .mk _ init :: rest, s => .within ((missesIn_inferOption ctx init s).andThen
    ((surveys_deed (Nat.zero_le _) rfl).missesIn.andThen (missesIn_declarators ctx kind rest _)))
    (subset_cons_self ..)

theorem missesIn_cases (ctx : Context) : (cs : List SwitchCase) → (s : State) →
    (casesTrail ctx cs s).MissesIn passes x ctx.scope (cs.map .case)
  | [], _ => missesIn_of_deeds rfl
  | .mk span test body :: rest, s => by
    let c : Node := .case (.mk span test body)
    refine .within (.case (.node (n := c) (missesIn_inferOption ctx test s))
      (missesIn_body (n := c) mem_cons_self _ fun u => missesIn_stmts ctx body .reachable u)
      (missesIn_cases ctx rest _) _) ?_
    exact cons_subset.2 ⟨mem_cons_self, List.Subset.refl _⟩

theorem missesIn_infer (ctx : Context) (use : Use) : (e : Expr) → (s : State) →
    (inferTrail ctx use e s).MissesIn passes x ctx.scope [.expr e]
  | .ident name, s => by
    cases use with
    | callee => exact .node (missesIn_read name s)
    | value =>
      change (nestedTrail ctx (fun ctx s => .deed ⟨ctx, .read name, s⟩) s).MissesIn ..
      exact missesIn_nested (.node (missesIn_read name s))
  | .int _ _, _ | .double _ _, _ | .string _ _, _ | .regexp _ _ _, _ | .bool _ _, _ | .null _, _
  | .this _, _ | .invalid _, _ => missesIn_nested (missesIn_of_deeds rfl)
  | .template _ es, s | .array _ es, s =>
    missesIn_nested (.node (missesIn_inferAll ctx.deeper es s))
  | .object _ ps, s => missesIn_nested (.node (missesIn_properties ctx.deeper ps s))
  | .spread _ e, s | .unary _ _ e, s =>
    missesIn_nested (.node (missesIn_infer ctx.deeper .value e s))
  | .update _ _ _ target, s => missesIn_nested <| .node <|
    (missesIn_infer ctx.deeper .value target s).before
      (surveys_assignTarget (Nat.zero_le _) target _ _).missesIn
  | .binary _ op lhs rhs, s => missesIn_nested <| .node <| missesIn_binary
    (missesIn_infer ctx.deeper .value lhs) (missesIn_infer ctx.deeper .value rhs) op _ s
  | .assign _ op target value, s => missesIn_nested <| .node <|
    (missesIn_assigned (missesIn_infer ctx.deeper .value target)
      (missesIn_infer ctx.deeper .value value) op _ _ s).before
      (surveys_assignTarget (Nat.zero_le _) target _ _).missesIn
  | .conditional _ test yes no, s => missesIn_nested <| .node <|
    (missesIn_infer ctx.deeper .value test s).andThen <|
      (missesIn_infer ctx.deeper .value yes _).either (missesIn_infer ctx.deeper .value no _) _ _
  | .call _ callee args _, s => missesIn_nested <| .node <|
    (missesIn_infer ctx.deeper .callee callee s).andThen (missesIn_inferAll ctx.deeper args _)
  | .member _ object property _, s => by
    have hobject : [Node.expr object] ⊆ [.expr object, .name property] := subset_append_left _ _
    cases use with
    | callee => exact .node ((missesIn_infer ctx .value object s).within hobject)
    | value =>
      change (nestedTrail ctx (fun ctx s => inferTrail ctx .value object s) s).MissesIn ..
      exact missesIn_nested (.node ((missesIn_infer ctx.deeper .value object s).within hobject))
  | .index _ object index _, s => missesIn_nested <| .node <|
    (missesIn_infer ctx.deeper .value object s).andThen (missesIn_infer ctx.deeper .value index _)
  | .function span _ params body, s | .arrowBlock span params body, s => missesIn_nested <|
    missesIn_function span params s fun inner u =>
      missesIn_body mem_cons_self u fun v => missesIn_stmts inner body .reachable v
  | .arrowExpr span params body, s => missesIn_nested <|
    missesIn_function span params s fun inner u =>
      .node ((missesIn_infer inner .value body u).within (subset_append_right ..))
  | .paren _ inner, s => by
    cases use with
    | callee => exact .node (missesIn_infer ctx .callee inner s)
    | value =>
      change (nestedTrail ctx (fun ctx s => inferTrail ctx .value inner s) s).MissesIn ..
      exact missesIn_nested (.node (missesIn_infer ctx.deeper .value inner s))

theorem missesIn_inferOption (ctx : Context) : (e : Option Expr) → (s : State) →
    (inferOptionTrail ctx e s).MissesIn passes x ctx.scope (e.toList.map .expr)
  | some e, s => missesIn_infer ctx .value e s
  | none, _ => missesIn_of_deeds rfl

theorem missesIn_inferAll (ctx : Context) : (es : List Expr) → (s : State) →
    (inferAllTrail ctx es s).MissesIn passes x ctx.scope (es.map .expr)
  | [], _ => missesIn_of_deeds rfl
  | e :: rest, s => (missesIn_infer ctx .value e s).andThen (missesIn_inferAll ctx rest _)

theorem missesIn_properties (ctx : Context) : (ps : List Property) → (s : State) →
    (propertiesTrail ctx ps s).MissesIn passes x ctx.scope (ps.flatMap Property.parts)
  | [], _ => missesIn_of_deeds rfl
  | .named _ value :: rest, s =>
    ((missesIn_infer ctx .value value s).within (subset_append_right ..)).andThen
      (missesIn_properties ctx rest _)
  | .computed key value :: rest, s => (missesIn_infer ctx .value key s).andThen <|
    (missesIn_infer ctx .value value _).andThen (missesIn_properties ctx rest _)
  | .shorthand name :: rest, s => (missesIn_read name s).andThen (missesIn_properties ctx rest _)
  | .spread value :: rest, s =>
    (missesIn_infer ctx .value value s).andThen (missesIn_properties ctx rest _)

end

end Walk

/-! ### Regions of lists -/

namespace Node

variable {source : List Char} {x : String} {n m c : Node} {y : Ident} {body : List Stmt}
  {region : Span}

theorem Reaches.holds (h : Reaches x n y) : n.Holds (.name y) := by
  induction h using Relation.ReflTransGen.head_induction_on with
  | refl => exact .refl _
  | head hopens _ ih => exact (holds_of_mem hopens.mem_parts).trans ih

theorem isComposite_of_lists (h : body ∈ n.lists) : n.isComposite := by
  unfold lists at h
  split at h
  · rfl
  · rfl
  · rfl
  · rfl
  · rfl
  · rfl
  · cases h

/-- The region of a list lies between what comes before the list and what comes behind it. -/
theorem region_of_split {front back : List Node} {a b : Nat}
    (ho : InOrder a b ((front ++ (body.map Node.stmt ++ back)).map span))
    (hregion : Walk.bodySpan body = some region) :
    (a ≤ region.lo ∧ region.hi ≤ b) ∧ ∀ c, c ∈ front ∨ c ∈ back → c.span.Apart region := by
  rw [map_append, map_append, Walk.map_span_stmt] at ho
  obtain ⟨lo, hfront, ho⟩ := ho.split
  obtain ⟨hi, hbody, hback⟩ := ho.split
  obtain ⟨hlo, -, hhi, -⟩ := Walk.bodySpan_bounds hbody hregion
  refine ⟨⟨hfront.le.trans hlo, hhi.trans hback.le⟩, ?_⟩
  rintro c (hc | hc)
  · exact .inl ((hfront.mem (mem_map_of_mem hc)).2.2.trans hlo)
  · exact .inr (hhi.trans (hback.mem (mem_map_of_mem hc)).1)

/-- The region of a list lies in its node. If the list declares a function, then what is reached
without going through it lies apart from it. -/
theorem Laid.region_of_lists (hn : n.Laid source) (hbody : body ∈ n.lists)
    (hregion : Walk.bodySpan body = some region) : n.span.Encloses region ∧
      ∀ x ∈ functionNames body, ∀ c, Opens x n c → c.span.Apart region := by
  obtain ⟨front, back, hparts, hsides⟩ := exists_split hbody
  have ho := hn.inOrder
  rw [standing_eq_parts (isComposite_of_lists hbody), hparts] at ho
  obtain ⟨hencloses, hapart⟩ := region_of_split ho hregion
  exact ⟨hencloses, fun x hx c hopens => hapart c (hsides x hx c hopens)⟩

theorem not_encloses_of_apart {s t r : Span} (hr : 0 < r.len) (hapart : s.Apart t)
    (hs : s.Encloses r) : ¬t.Encloses r := by
  rintro ⟨hlo, hhi⟩
  obtain ⟨hlo', hhi'⟩ := hs
  unfold Span.Apart at hapart
  unfold Span.hi at *
  omega

/-- In a tree that is laid out, a name that is reached without going through a list which declares a
function does not lie in the region of the list. -/
theorem Reaches.not_encloses (hy : Reaches x n y) (hlaid : n.All (Laid source)) (hm : n.Holds m)
    (hbody : body ∈ m.lists) (hx : x ∈ functionNames body)
    (hregion : Walk.bodySpan body = some region) : ¬region.Encloses y.span := by
  intro hencloses
  have hpos : 0 < y.span.len := by
    have hlt := ((hlaid _ hy.holds).word y rfl).lo_lt_hi
    unfold Span.hi at hlt
    omega
  obtain ⟨hin, hapart⟩ := (hlaid m hm).region_of_lists hbody hregion
  have hmspan : m.span.Encloses y.span := hin.trans hencloses
  have hmpos : 0 < m.span.len := by
    obtain ⟨hlo, hhi⟩ := hmspan
    unfold Span.hi at hhi
    omega
  -- downwards along the way to the name, as long as the list is below the same part
  induction hy using Relation.ReflTransGen.head_induction_on with
  | refl =>
    rcases holds_iff.1 hm with rfl | ⟨d, hd, -⟩
    · cases hbody
    · cases hd
  | @head n c hopens hcy ih =>
    have hc := hopens.mem_parts
    have hall := hlaid.of_holds (holds_of_mem hc)
    have hcholds : c.Holds (.name y) := Reaches.holds hcy
    have hcspan : c.span.Encloses y.span := hall.encloses_of_pos hcholds hpos
    rcases holds_iff.1 hm with rfl | ⟨d, hd, hdm⟩
    · exact not_encloses_of_apart hpos (hapart x hx c hopens) hcspan hencloses
    · have hdspan : d.span.Encloses y.span :=
        ((hlaid.of_holds (holds_of_mem hd)).encloses_of_pos hdm hmpos).trans hmspan
      rcases same_or_apart hlaid.self.inOrder (mem_standing hc hcholds hpos)
        (mem_standing hd hdm hmpos) with rfl | hcd | hdc
      · exact ih hall hdm
      · exact not_encloses_of_apart hpos (.inl hcd) hcspan hdspan
      · exact not_encloses_of_apart hpos (.inr hdc) hcspan hdspan

end Node

/-! ### Programs -/

/-- A list of statements stands in a program: its own, a block, the body of a function, a case of a
switch, or the body or the handler of a `try`. -/
def Program.HasList (p : Program) (body : List Stmt) : Prop :=
  body = p.body ∨ ∃ n, p.Holds n ∧ body ∈ n.lists

/-- A deed that finds a name undefined misses it. -/
theorem Walk.Deed.misses_of_undefined? {d : Deed} {x : String}
    (h : d.undefined? = some f) (hx : f.value = .undefinedVariable x) :
    ∃ y, d.Misses y ∧ y.name = x ∧ y.span = f.span := by
  unfold undefined? at h
  split at h
  · next name hreading =>
    obtain rfl := Option.some.inj h
    obtain ⟨ctx, act, s⟩ := d
    cases act with
    | read y =>
      obtain ⟨rfl, houtcome⟩ := Prod.mk.inj (Option.some.inj hreading)
      refine ⟨y, ⟨rfl, ?_⟩, Finding.undefinedVariable.inj hx, rfl⟩
      change s.table.lookup y.name ctx.scope = none
      cases hfound : s.table.lookup y.name ctx.scope with
      | some id =>
        rw [Outcome.of_eq_symbol.2 hfound] at houtcome
        cases houtcome
      | none => rfl
    | _ => cases hreading
  · cases h

namespace Analysis

open Walk

variable (passes : PassSet) (fileExists : String → Bool)

/-- What is found with some passes is found with all of them. -/
theorem mem_visited_all {program : Program}
    (hf : f ∈ (visited passes fileExists program).findings) :
    f ∈ (visited .all fileExists program).findings := by
  rw [visited_eq_gated] at hf
  exact (mem_filter.1 hf).1

/-- A name that is found undefined is reached from the program without going through a list that
declares a function of this name. -/
theorem reaches_of_undefined {program : Program} {x : String}
    (hf : f ∈ (ofProgram passes fileExists program).findings)
    (hx : f.value = .undefinedVariable x) :
    ∃ y : Ident, y.span = f.span ∧ x ∉ functionNames program.body ∧
      Node.ReachesAny x (program.body.map .stmt) y := by
  have hundefined : f.value.isUndefined = true := by rw [hx]; rfl
  have hvisited : f ∈ (visited passes fileExists program).findings := by
    have hmem : f ∈ (ofProgram passes fileExists program).findings.filter (·.value.isUndefined) :=
      mem_filter.2 ⟨hf, hundefined⟩
    rw [undefined_findings_ofProgram] at hmem
    exact (mem_filter.1 hmem).1
  let ctx := outermost .all fileExists
  have hleads := (follows_trail .all fileExists program).leads
  have hdeed : f ∈ (trail .all fileExists program).deeds.filterMap Deed.undefined? := by
    have hmem : f ∈ ((State.initial (region program)).after (sequence ctx program.body
        (stmts ctx program.body))).findings.filter (·.value.isUndefined) :=
      mem_filter.2 ⟨mem_visited_all passes fileExists hvisited, hundefined⟩
    rw [hleads.chain.undefined_findings rfl] at hmem
    exact (mem_append.1 hmem).resolve_left nofun
  obtain ⟨d, hd, hfound⟩ := mem_filterMap.1 hdeed
  obtain ⟨y, hmisses, hname, hspan⟩ := Deed.misses_of_undefined? hfound hx
  have hmissed : (trail .all fileExists program).MissesOnly .all x ctx.scope fun y =>
      x ∉ functionNames program.body ∧ Node.ReachesAny x (program.body.map .stmt) y :=
    missesOnly_sequence _ fun u => missesIn_stmts ctx program.body .reachable u
  exact ⟨y, hspan, (hmissed _ _ hleads rfl d hd y hmisses hname).2⟩

/-- If a list of statements of a script declares a function, plain or exported, then its name is
nowhere found undefined in the region of the list. -/
theorem hoisted_ofProgram (mode : LexMode) (source : List Char) {body : List Stmt} {region : Span}
    {x : String} (hbody : (parse mode source).program.HasList body)
    (hregion : bodySpan body = some region) (hx : x ∈ functionNames body) {f : Located Finding}
    (hf : f ∈ (ofProgram passes fileExists (parse mode source).program).findings)
    (hundefined : f.value = .undefinedVariable x) : ¬region.Encloses f.span := by
  obtain ⟨y, hspan, hnone, c, hc, hy⟩ := reaches_of_undefined passes fileExists hf hundefined
  obtain ⟨s, hs, rfl⟩ := List.mem_map.1 hc
  have hroot : Node.Reaches x ((parse mode source).program.root source) y :=
    .head (.stmt List.mem_cons_self hnone hs) hy
  obtain ⟨m, hm, hlists⟩ : ∃ m, ((parse mode source).program.root source).Holds m ∧
      body ∈ m.lists := by
    rcases hbody with rfl | ⟨n, hn, hlists⟩
    · exact ⟨_, .refl _, List.mem_cons_self⟩
    · exact ⟨n, Program.holds_root hn, hlists⟩
  rw [← hspan]
  exact hroot.not_encloses (laid_parse mode source) hm hlists hx hregion

/-- The handler of a `try` declares a function that it uses before, in a function and in a branch.
The use in the body of the `try` is found undefined. -/
theorem hoisted_handler :
    let source := ("try \x7b f(); \x7d catch (e) \x7b g(() => f); if (e) \x7b f(); \x7d " ++
      "function f() \x7b\x7d \x7d").toList
    let found : Located Finding := ⟨⟨6, 1⟩, .undefinedVariable "f"⟩
    ∃ body, (parse .normal source).program.HasList body ∧ bodySpan body = some ⟨25, 43⟩ ∧
      "f" ∈ functionNames body ∧
      found ∈ (ofProgram .all (fun _ => false) (parse .normal source).program).findings ∧
      ¬(⟨25, 43⟩ : Span).Encloses found.span := by
  intro source found
  have hhandler : (parse .normal source).program.body.any fun s =>
      (Node.stmt s).lists.any fun body =>
        bodySpan body = some ⟨25, 43⟩ ∧ "f" ∈ functionNames body := by decide +kernel
  obtain ⟨s, hs, hlists⟩ := List.any_eq_true.1 hhandler
  obtain ⟨body, hbody, hlist⟩ := List.any_eq_true.1 hlists
  obtain ⟨hregion, hx⟩ := of_decide_eq_true hlist
  have hhas : (parse .normal source).program.HasList body :=
    .inr ⟨.stmt s, ⟨s, hs, .refl _⟩, hbody⟩
  have hfound : found ∈ (ofProgram .all (fun _ => false)
      (parse .normal source).program).findings := by decide +kernel
  exact ⟨body, hhas, hregion, hx, hfound,
    hoisted_ofProgram .all (fun _ => false) .normal source hhas hregion hx hfound rfl⟩

end Analysis

end ScriptCheck
