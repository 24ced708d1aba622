import ScriptCheck.Proofs.Effect
import ScriptCheck.Proofs.Moves

/-!
# What visits record

Visiting a part of a program has an `Effect` on the table that stays in the region of the part. For
expressions it is known besides that names keep the symbols they stand for, as an expression declares
no name in its scope that stands for something already.

There is a rule for each way to put steps together and a lemma for each step; the last section goes
through all statements and expressions.
-/

namespace ScriptCheck

open List

variable {name : Option Ident} {s : State}

/-- A region is a head of a statement that one of some nodes holds. -/
def HeadIn (ns : List Node) (head : Span) : Prop :=
  ∃ n ∈ ns, ∃ m, n.Holds m ∧ m.head? = some head

section Heads

variable {n : Node} {ns ms : List Node} {head : Span}

theorem headIn_nil : HeadIn [] = fun _ => False := by
  funext head
  simp [HeadIn]

theorem headIn_append : HeadIn (ns ++ ms) = fun head => HeadIn ns head ∨ HeadIn ms head := by
  funext head
  simp [HeadIn, or_and_right, exists_or]

/-- A head in a node is that of the node itself, or one in its parts. -/
theorem headIn_node (n : Node) :
    HeadIn [n] = fun head => n.head? = some head ∨ HeadIn n.parts head := by
  funext head
  refine propext ⟨?_, ?_⟩
  · rintro ⟨_, hn, m, hm, hhead⟩
    rw [mem_singleton.1 hn] at hm
    rcases Node.holds_iff.1 hm with rfl | ⟨c, hc, hcm⟩
    · exact .inl hhead
    · exact .inr ⟨c, hc, m, hcm, hhead⟩
  · rintro (hhead | ⟨c, hc, m, hcm, hhead⟩)
    · exact ⟨n, mem_singleton_self n, n, .refl n, hhead⟩
    · exact ⟨n, mem_singleton_self n, m, (Node.holds_of_mem hc).trans hcm, hhead⟩

theorem headIn_of_none (h : n.head? = none) : HeadIn [n] = HeadIn n.parts := by
  rw [headIn_node]
  simp [h]

theorem headIn_names (xs : List Ident) : HeadIn (xs.map .name) = HeadIn [] := by
  induction xs with
  | nil => rfl
  | cons x rest ih =>
    have hname : HeadIn [.name x] = HeadIn [] := headIn_of_none rfl
    have hsplit : (x :: rest).map Node.name = [Node.name x] ++ rest.map Node.name := rfl
    rw [hsplit, headIn_append, hname, ih, headIn_nil]
    simp

end Heads

namespace Walk

open SymbolTable (Ready Effect)

variable {α β : Type} {p : Walk α} {f : α → Walk β} {tree : Node} {calm : Bool} {u a b c : Nat}
  {ns ms : List Node} {ctx : Context} {span : Span} {x : Ident}

/-! ### Steps that leave the table alone -/

/-- A step that leaves the table alone in every state. -/
def Still (p : Walk α) : Prop := ∀ s : State, (s.after p).table = s.table

theorem still_pure (x : α) : Still (pure x : Walk α) := fun _ => rfl

theorem Still.bind (hp : Still p) (hf : ∀ x, Still (f x)) : Still (p >>= f) :=
  fun s => (hf _ _).trans (hp s)

theorem Still.thenPure (hp : Still p) (g : α → β) : Still (p >>= fun x => pure (g x)) :=
  hp.bind fun x => still_pure (g x)

theorem Still.get {f : State → Walk β} (h : ∀ s, Still (f s)) : Still (MonadState.get >>= f) :=
  fun s => h s s

theorem still_report (span : Span) (finding : Finding) : Still (report ctx span finding) := by
  intro s
  change (if ctx.passes.enabled finding.pass then _ else s).table = s.table
  split <;> rfl

theorem still_reportWhen (found : Bool) (span : Span) (finding : Finding) :
    Still (reportWhen ctx found span finding) := by
  cases found with
  | true => exact still_report span finding
  | false => exact still_pure ()

theorem still_env : Still env := fun _ => rfl

theorem still_setEnv (e : Env) : Still (setEnv e) := fun _ => rfl

theorem still_mergeBranches (first : Env) (a b : Bool) : Still (mergeBranches first a b) := by
  intro s
  cases a <;> cases b <;> rfl

theorem still_setType (id : SymbolId) (type : Ty) : Still (setType id type) := fun _ => rfl

theorem still_lookup (name : Ident) : Still (lookup ctx name) := fun _ => rfl

theorem still_symbol (id : SymbolId) : Still (symbol id) := fun _ => rfl

/-- What is of the smallest extent leaves the table alone. -/
theorem Tame.still {P : PassSet → Walk α} (h : Tame 0 P) (c : PassSet) : Still (P c) :=
  fun s => (h.changes c s).still rfl

/-! ### Steps that open no scope -/

/-- A step that opens no scope. -/
def Flat (p : Walk α) : Prop :=
  ∀ s : State, (s.after p).table.scopes.length = s.table.scopes.length

theorem Flat.bind (hp : Flat p) (hf : ∀ x, Flat (f x)) : Flat (p >>= f) :=
  fun s => (hf _ _).trans (hp s)

theorem Tame.flat {P : PassSet → Walk α} (h : Tame 1 P) (c : PassSet) : Flat (P c) :=
  fun s => (h.changes c s).flat (Nat.le_refl 1)

/-! ### Putting steps together -/

/-- A step visits some nodes of a tree, which lie in a region, in an open scope. If it is `calm`,
names keep the symbols they stand for. -/
def Visits (tree : Node) (calm : Bool) (u a b : Nat) (ns : List Node) (p : Walk α) : Prop :=
  ∀ s : State, Ready tree s.table u a b →
    Effect tree u a b (HeadIn ns) s.table (s.after p).table ∧
      (calm = true → s.table.Steadfast (s.after p).table u)

namespace Visits

theorem loosen (h : Visits tree true u a b ns p) : Visits tree calm u a b ns p :=
  fun s hs => ⟨(h s hs).1, fun _ => (h s hs).2 rfl⟩

theorem widen {a' b' : Nat} (h : Visits tree calm u a b ns p) (ha : a' ≤ a) (hb : b ≤ b') :
    Visits tree calm u a' b' ns p := by
  intro s hs
  obtain ⟨heffect, hcalm⟩ := h s (hs.mono ha hb)
  exact ⟨heffect.mono ha hb, hcalm⟩

theorem congr (h : Visits tree calm u a b ns p) (heq : HeadIn ns = HeadIn ms) :
    Visits tree calm u a b ms p := by
  intro s hs
  rw [← heq]
  exact h s hs

/-- Visiting the parts of a node is visiting the node, unless one of them is its head. -/
theorem node {n : Node} (h : Visits tree calm u a b n.parts p) (hhead : n.head? = none) :
    Visits tree calm u a b [n] p :=
  h.congr (headIn_of_none hhead).symm

theorem of_still (hp : Still p) : Visits tree calm u a b [] p := by
  intro s hs
  rw [hp s]
  exact ⟨.refl hs (by simp [HeadIn]), fun _ => .refl _ _⟩

/-- Nodes in order are visited one after the other. -/
theorem bind (hp : Visits tree calm u a b ns p) (hf : ∀ x, Visits tree calm u b c ms (f x))
    (hab : a ≤ b) (hbc : b ≤ c) : Visits tree calm u a c (ns ++ ms) (p >>= f) := by
  intro s hs
  obtain ⟨h₁, hcalm₁⟩ := hp s (hs.mono le_rfl hbc)
  obtain ⟨h₂, hcalm₂⟩ := hf (s.answer p) (s.after p) ((h₁.ready hs).mono hab le_rfl)
  rw [headIn_append]
  refine ⟨h₁.trans hs h₂ ⟨le_rfl, hbc⟩ ⟨hab, le_rfl⟩ ?_ ?_, fun hcalm => ?_⟩
  · exact .inl le_rfl
  · exact .inl le_rfl
  · exact (hcalm₁ hcalm).trans (hcalm₂ hcalm)

theorem afterStill (hp : Still p) (hf : ∀ x, Visits tree calm u a b ns (f x)) :
    Visits tree calm u a b ns (p >>= f) := by
  intro s hs
  have h := hf (s.answer p) (s.after p)
  rw [hp s] at h
  exact h hs

theorem thenStill (hp : Visits tree calm u a b ns p) (hf : ∀ x, Still (f x)) :
    Visits tree calm u a b ns (p >>= f) := by
  intro s hs
  have heq : (s.after (p >>= f)).table = (s.after p).table := hf (s.answer p) (s.after p)
  rw [heq]
  exact hp s hs

theorem thenPure (hp : Visits tree calm u a b ns p) (g : α → β) :
    Visits tree calm u a b ns (p >>= fun x => pure (g x)) :=
  hp.thenStill fun x => still_pure (g x)

/-- A step without nodes, and then others. -/
theorem plainThen (hp : Visits tree calm u a a [] p) (hf : ∀ x, Visits tree calm u a b ns (f x))
    (hab : a ≤ b) : Visits tree calm u a b ns (p >>= f) :=
  hp.bind hf le_rfl hab

theorem thenPlain (hp : Visits tree calm u a b ns p) (hf : ∀ x, Visits tree calm u b b [] (f x))
    (hab : a ≤ b) : Visits tree calm u a b ns (p >>= f) := by
  rw [← append_nil ns]
  exact hp.bind hf hab le_rfl

end Visits

/-! ### Names -/

section Names

variable {x : Ident}

theorem visits_updateSymbol (id : SymbolId) {f : Symbol → Symbol} (hf : Symbol.Revises f) :
    Visits tree calm u a b [] (updateSymbol id f) := by
  intro s hs
  rw [headIn_nil]
  exact ⟨.revise hs id hf.name hf.span, fun _ =>
    SymbolTable.steadfast_modifySymbol hs.sourced.wellFormed hs.hasScope id hf.name⟩

theorem visits_declare (hx : tree.Holds (.name x)) (kind : SymbolKind) (type : Ty) :
    Visits tree false ctx.scope a b [] (declare ctx x kind type) := by
  have hdeclareIn : Visits tree false ctx.scope a b []
      (declareIn ctx.scope (.declared x.name kind type x.span)) := by
    intro s hs
    rw [headIn_nil]
    exact ⟨.declare hs hx rfl rfl (hs.sourced.wellFormed.functionScope_le hs.hasScope), nofun⟩
  refine hdeclareIn.thenStill fun found => ?_
  obtain ⟨id, isNew⟩ := found
  cases isNew with
  | true => exact (still_setType id type).thenPure _
  | false => exact (still_report _ _).thenPure _

theorem after_lookup (s : State) (x : Ident) (f : Option SymbolId → Walk β) :
    s.after (lookup ctx x >>= f) =
      (s.after (lookup ctx x)).after (f (s.table.lookup x.name ctx.scope)) := rfl

variable (hx : tree.Holds (.name x)) (hlo : a ≤ x.span.lo) (hlt : x.span.lo < x.span.hi)
  (hhi : x.span.hi ≤ b)
include hx hlo hlt hhi

/-- After some part was visited, a name is used that stands for a symbol, and then the table changes
without new scopes and uses. -/
theorem effect_refer {t : SymbolTable} {heads : Span → Prop} {rest : Walk α}
    (hready : Ready tree t u a b) (h : Effect tree u a b heads t s.table) {id : SymbolId}
    (hid : s.table.lookup x.name u = some id)
    (hsame : ∀ r ∈ t.newReferences s.table, r.span = x.span → r.symbol = id)
    (hrest : Visits tree true u b b [] rest) :
    Effect tree u a b heads t (s.after (refer x id >>= fun _ => rest)).table ∧
      s.table.Steadfast (s.after (refer x id >>= fun _ => rest)).table u := by
  have hrefer := h.refer hready hx hlo hlt hhi hid hsame
  have hready' := hrefer.ready hready
  obtain ⟨hplain, hcalm⟩ := hrest (s.after (refer x id)) (hready'.mono (by omega) le_rfl)
  rw [headIn_nil] at hplain
  refine ⟨hrefer.thenPlain hready hplain (by omega), ?_⟩
  have hscope := (h.ready hready).hasScope
  exact (SymbolTable.steadfast_addReference h.sourced.wellFormed hscope x.span id).trans (hcalm rfl)

theorem visits_read : Visits tree true ctx.scope a b [] (read ctx x) := by
  intro s hs
  rw [headIn_nil, read, after_lookup]
  cases hid : s.table.lookup x.name ctx.scope with
  | none =>
    dsimp only
    have hglobal : Still (globalType ctx x) := (tame_globalType ctx x).still _
    rw [hglobal, still_lookup x]
    exact ⟨.none hs, fun _ => .refl _ _⟩
  | some id =>
    obtain ⟨heffect, hcalm⟩ := effect_refer (s := s.after (lookup ctx x)) hx hlo hlt hhi
      hs (.none hs) hid (fun r hr _ => absurd hr SymbolTable.not_mem_newReferences_self)
      ((visits_updateSymbol id revises_reads).thenStill fun _ =>
        (still_symbol id).bind fun recorded => still_env.thenPure fun current =>
          (current.get? id <|> recorded.map Symbol.type).getD .unknown)
    exact ⟨heffect, fun _ => hcalm⟩

/-- After some part was visited, a name in its region is assigned to. If the name was used in the
part, then for the symbol it stands for now. -/
theorem effect_assign {t : SymbolTable} {heads : Span → Prop}
    (hready : Ready tree t ctx.scope a b) (h : Effect tree ctx.scope a b heads t s.table)
    (hsame : ∀ r ∈ t.newReferences s.table, r.span = x.span →
      s.table.lookup x.name ctx.scope = some r.symbol) (type : Ty) :
    Effect tree ctx.scope a b heads t (s.after (assign ctx x type)).table ∧
      s.table.Steadfast (s.after (assign ctx x type)).table ctx.scope := by
  have hready' := h.ready hready
  rw [assign, after_lookup]
  cases hid : s.table.lookup x.name ctx.scope with
  | none =>
    -- the name is declared in the function around the place
    let symbol := { Symbol.declared x.name .letVar type x.span with implicit := true }
    have hplain : Effect tree ctx.scope b b (fun _ => False) s.table
        (s.table.declare (s.table.functionScope ctx.scope) symbol).2.2 :=
      .declare (hready'.mono (by omega) le_rfl) hx rfl rfl le_rfl
    refine ⟨h.thenPlain hready hplain (by omega), ?_⟩
    exact SymbolTable.steadfast_declare hready'.sourced.wellFormed hready'.hasScope hid _
  | some id =>
    refine effect_refer (s := s.after (lookup ctx x)) hx hlo hlt hhi hready h hid ?_ ?_
    · intro r hr hspan
      exact Option.some.inj ((hsame r hr hspan).symm.trans hid)
    · refine .afterStill (still_symbol id) fun declared => ?_
      split
      · exact .of_still (still_report _ _)
      · exact (visits_updateSymbol id (revises_type (·.join type))).thenStill fun _ =>
          still_setType id type

theorem visits_assign (type : Ty) : Visits tree true ctx.scope a b [] (assign ctx x type) := by
  intro s hs
  rw [headIn_nil]
  obtain ⟨heffect, hcalm⟩ := effect_assign hx hlo hlt hhi hs (.none hs)
    (fun r hr _ => absurd hr SymbolTable.not_mem_newReferences_self) type
  exact ⟨heffect, fun _ => hcalm⟩

end Names

/-! ### Functions -/

theorem visits_hoistFunction (hname : ∀ x ∈ name, tree.Holds (.name x))
    (params : List Param) : Visits tree false ctx.scope a b [] (hoistFunction ctx name params) := by
  cases name with
  | some x => exact (visits_declare (hname x rfl) _ _).thenPure _
  | none => exact .of_still (still_pure _)

/-- The names of functions in a body are declared before it. -/
theorem visits_hoist {body : List Stmt} (hbody : ∀ s ∈ body, tree.Holds (.stmt s)) (hab : a ≤ b) :
    Visits tree false ctx.scope a b [] (hoist ctx body) := by
  have hname {n : Node} {name : Option Ident} (hn : tree.Holds n)
      (hparts : ∀ x ∈ name, .name x ∈ n.parts) : ∀ x ∈ name, tree.Holds (.name x) :=
    fun x hx => hn.trans (Node.holds_of_mem (hparts x hx))
  fun_induction hoist ctx body with
  | case1 => exact .of_still (still_pure _)
  | case2 span name params inner rest ih =>
    obtain ⟨hs, hrest⟩ := forall_mem_cons.1 hbody
    refine .plainThen (visits_hoistFunction (hname hs fun x hx => ?_) params)
      (fun _ => ih hrest) hab
    cases hx
    exact mem_cons_self
  | case3 span span' name params inner rest ih =>
    obtain ⟨hs, hrest⟩ := forall_mem_cons.1 hbody
    have hs' : tree.Holds (.stmt (.function span' name params inner)) :=
      hs.trans (Node.holds_of_mem mem_cons_self)
    refine .plainThen (visits_hoistFunction (hname hs' fun x hx => ?_) params)
      (fun _ => ih hrest) hab
    cases hx
    exact mem_cons_self
  | case4 s rest _ _ ih => exact ih (forall_mem_cons.1 hbody).2

theorem visits_declareParams {params : List Param}
    (hparams : ∀ p ∈ params, tree.Holds (.name p.name)) (hab : a ≤ b) :
    Visits tree false ctx.scope a b [] (declareParams ctx params) := by
  induction params with
  | nil => exact .of_still (still_pure _)
  | cons param rest ih =>
    obtain ⟨hparam, hrest⟩ := forall_mem_cons.1 hparams
    exact .plainThen (visits_declare hparam _ _) (fun _ => ih hrest) hab

/-- A function is visited in a scope for all of it. -/
theorem visits_function (ctx : Context) {params : List Param} {body : Context → Walk Ty}
    (hspan : span.lo < span.hi) (hparams : ∀ p ∈ params, tree.Holds (.name p.name))
    (hbody : ∀ inner : Context, Visits tree false inner.scope span.lo span.hi ns (body inner)) :
    Visits tree true ctx.scope span.lo span.hi ns (function ctx span params body) := by
  intro s hs
  have hle := span.lo_le_hi
  let inner := ctx.inFunction s.table.scopes.length
  let opened : State :=
    { s.after (openScope ctx .function span) with returns := [], broke := false }
  have hready : Ready tree opened.table inner.scope span.lo span.hi :=
    hs.push .function le_rfl le_rfl
  have hvisit : Visits tree false inner.scope span.lo span.hi ns
      (declareParams inner params >>= fun _ => body inner) :=
    .plainThen (visits_declareParams hparams le_rfl) (fun _ => hbody inner) hle
  obtain ⟨heffect, -⟩ := hvisit opened hready
  refine ⟨?_, fun _ => heffect.steadfast_opened hs⟩
  exact heffect.opened hs ⟨le_rfl, hspan, le_rfl⟩ ⟨le_rfl, le_rfl⟩

theorem visits_recordFunction (name : Ident) (type : Ty) :
    Visits tree calm u a b [] (recordFunction ctx name type) := by
  refine .afterStill (still_lookup name) fun found => ?_
  cases found with
  | some id =>
    refine .afterStill (still_symbol id) fun declared => ?_
    split
    · exact (visits_updateSymbol id (revises_type fun _ => type)).thenStill fun _ =>
        still_setType id type
    · exact .of_still (still_setType id type)
  | none => exact .of_still (still_pure _)

theorem visits_functionDecl (hname : ∀ x ∈ name, tree.Holds (.name x))
    (params : List Param) {visit : Walk Ty} (hvisit : Visits tree false ctx.scope a b ns visit)
    (hab : a ≤ b) : Visits tree false ctx.scope a b ns (functionDecl ctx name params visit) := by
  cases name with
  | some x =>
    refine .afterStill (still_lookup x) fun found => ?_
    have hrest : Visits tree false ctx.scope a b ns (visit >>= recordFunction ctx x) :=
      hvisit.thenPlain (fun type => visits_recordFunction x type) hab
    split
    · exact .plainThen (visits_hoistFunction hname params) (fun _ => hrest) hab
    · exact hrest
  | none => exact hvisit.thenPure _

/-! ### Imports and exports -/

theorem visits_declareImports {source : String} {typeOf : ImportSpec → Walk Ty}
    (htype : ∀ spec, Still (typeOf spec)) {specs : List ImportSpec}
    (hspecs : ∀ spec ∈ specs, tree.Holds (.name spec.declared)) (hab : a ≤ b) :
    Visits tree false ctx.scope a b [] (declareImports ctx source typeOf specs) := by
  induction specs with
  | nil => exact .of_still (still_pure _)
  | cons spec rest ih =>
    obtain ⟨hspec, hrest⟩ := forall_mem_cons.1 hspecs
    refine .afterStill (htype spec) fun type => .plainThen ?_ (fun _ => ih hrest) hab
    refine .plainThen (visits_declare hspec _ _) (fun found => ?_) le_rfl
    cases found with
    | some id =>
      exact visits_updateSymbol id ⟨fun _ => rfl, fun _ => rfl, fun _ => rfl, fun _ => le_rfl⟩
    | none => exact .of_still (still_pure _)

theorem visits_importNames {specs : List ImportSpec} {source : TextLit}
    (hspecs : ∀ spec ∈ specs, tree.Holds (.name spec.declared)) (hab : a ≤ b) :
    Visits tree false ctx.scope a b [] (importNames ctx specs source) := by
  unfold importNames
  split
  · exact .of_still (still_report _ _)
  · split
    · exact visits_declareImports (fun _ => still_pure _) hspecs hab
    · exact visits_declareImports (fun spec => (tame_importedType ctx _ spec).still _) hspecs hab

theorem visits_countExported (names : List Ident) (hab : a ≤ b) :
    Visits tree calm u a b [] (countExported ctx names) := by
  induction names with
  | nil => exact .of_still (still_pure _)
  | cons name rest ih =>
    refine .afterStill (still_lookup name) fun found => ?_
    cases found with
    | some id => exact .plainThen (visits_updateSymbol id revises_reads) (fun _ => ih) hab
    | none => exact ih

/-! ### Operators -/

theorem visits_typeOf {visit : Walk Typed} (h : Visits tree calm u a b ns visit) :
    Visits tree calm u a b ns (typeOf visit) := h.thenPure Typed.type

theorem visits_nested {visit : Context → Walk Ty}
    (h : Visits tree calm u a b ns (visit ctx.deeper)) :
    Visits tree calm u a b ns (nested ctx visit) := by
  unfold nested
  split
  · -- what is nested too deep is not visited, but still has its heads
    exact fun s hs => ⟨.refl hs (h s hs).1.heads_within, fun _ => .refl _ _⟩
  · exact h.thenPure _

/-- An operator first visits its left operand. -/
theorem binary_eq_bind (ctx : Context) (span : Span) (op : BinaryOp) {rhs : Walk Ty}
    (hrhs : Visits tree calm u a b ns rhs) : ∃ rest : Ty → Walk Ty,
      (∀ left, Visits tree calm u a b ns (rest left)) ∧
        ∀ lhs, binary ctx span op lhs rhs = lhs >>= rest := by
  refine ⟨_, fun left => ?_, fun _ => rfl⟩
  split
  · refine .afterStill still_env fun before => hrhs.thenStill fun right => ?_
    exact (still_mergeBranches before false false).thenPure _
  · refine hrhs.thenStill fun right => ?_
    split
    · exact still_pure _
    · exact still_pure _
    · split
      · exact (still_report _ _).thenPure _
      · exact still_pure _
    · exact ((tame_require false).still .all).thenPure _

theorem visits_binary (span : Span) (op : BinaryOp) {lhs rhs : Walk Ty}
    (hlhs : Visits tree calm u a b ns lhs) (hrhs : Visits tree calm u b c ms rhs) (hab : a ≤ b)
    (hbc : b ≤ c) : Visits tree calm u a c (ns ++ ms) (binary ctx span op lhs rhs) := by
  obtain ⟨rest, hrest, heq⟩ := binary_eq_bind ctx span op hrhs
  rw [heq]
  exact hlhs.bind hrest hab hbc

/-- An assignment first visits its target, unless that is a name that is only assigned to. -/
theorem assigned_eq_bind (ctx : Context) (span : Span) (op : AssignOp) (isName : Bool) {value : Walk Ty}
    (hvalue : Visits tree calm u a b ns value) :
    (op = .assign ∧ isName = true) ∨ ∃ rest : Ty → Walk Ty,
      (∀ type, Visits tree calm u a b ns (rest type)) ∧
        ∀ target, assigned ctx span op isName target value = target >>= rest := by
  cases op with
  | assign =>
    cases isName with
    | true => exact .inl ⟨rfl, rfl⟩
    | false => exact .inr ⟨fun _ => value, fun _ => hvalue, fun _ => rfl⟩
  | compound op => exact .inr (binary_eq_bind ctx span op hvalue)

theorem visits_either {yes no : Walk Ty} (hyes : Visits tree calm u a b ns yes)
    (hno : Visits tree calm u b c ms no) (hab : a ≤ b) (hbc : b ≤ c) :
    Visits tree calm u a c (ns ++ ms) (either yes no) := by
  refine .afterStill still_env fun before => hyes.bind (fun first => ?_) hab hbc
  refine .afterStill still_env fun after => .afterStill (still_setEnv before) fun _ => ?_
  exact hno.thenStill fun second => (still_mergeBranches after false false).thenPure _

/-! ### Assignments -/

/-- A use of a name that stands before an offset is not in a part behind it. -/
theorem mem_newReferences_bind (hs : Ready tree s.table u a c)
    (hp : Visits tree calm u a b ns p) (hf : ∀ x, Visits tree calm u b c ms (f x)) (hab : a ≤ b)
    (hbc : b ≤ c) {r : Reference} (hr : r ∈ s.table.newReferences (s.after (p >>= f)).table)
    (hhi : r.span.hi ≤ b) : r ∈ s.table.newReferences (s.after p).table := by
  obtain ⟨h₁, -⟩ := hp s (hs.mono le_rfl hbc)
  obtain ⟨h₂, -⟩ := hf (s.answer p) (s.after p) ((h₁.ready hs).mono hab le_rfl)
  rcases (SymbolTable.mem_newReferences_trans h₁.keeps h₂.keeps).1 hr with hfirst | hsecond
  · exact hfirst
  · have hregion := (h₂.recorded r hsecond).region
    omega

theorem symbol_of_mem_read {r : Reference}
    (hr : r ∈ s.table.newReferences (s.after (read ctx x)).table) :
    s.table.lookup x.name ctx.scope = some r.symbol := by
  rw [read, after_lookup] at hr
  cases hid : s.table.lookup x.name ctx.scope with
  | none =>
    rw [hid] at hr
    dsimp only at hr
    have hglobal : Still (globalType ctx x) := (tame_globalType ctx x).still _
    rw [hglobal, still_lookup x] at hr
    exact absurd hr SymbolTable.not_mem_newReferences_self
  | some id =>
    rw [hid] at hr
    have hrefs : r ∈ (s.table.references ++ [(⟨x.span, id⟩ : Reference)]).drop
        s.table.references.length := hr
    rw [drop_left, mem_singleton] at hrefs
    rw [hrefs]

/-- If a name is the target of an assignment and read before, it is read for the symbol that it
stands for. -/
theorem symbol_of_mem_target : (e : Expr) → target? e = some x → ∀ (ctx : Context)
    (s : State) (r : Reference),
    r ∈ s.table.newReferences (s.after (infer ctx .value e)).table →
      s.table.lookup x.name ctx.scope = some r.symbol
  | .ident name, htarget, ctx, s, r, hr => by
    obtain rfl : name = x := Option.some.inj htarget
    rw [infer, nested] at hr
    split at hr
    · exact absurd hr SymbolTable.not_mem_newReferences_self
    · exact symbol_of_mem_read hr
  | .paren _ inner, htarget, ctx, s, r, hr => by
    rw [infer, nested] at hr
    split at hr
    · exact absurd hr SymbolTable.not_mem_newReferences_self
    · exact symbol_of_mem_target inner htarget ctx.deeper s r hr

theorem holds_of_target? : (e : Expr) → target? e = some x →
    (Node.expr e).Holds (.name x)
  | .ident name, htarget => by
    obtain rfl : name = x := Option.some.inj htarget
    exact Node.holds_of_mem mem_cons_self
  | .paren _ inner, htarget =>
    (Node.holds_of_mem mem_cons_self).trans (holds_of_target? inner htarget)

/-- A part is visited, and then a target in its region is assigned to. If the target is a name that
was used in the part, it was used for the symbol that it stands for. -/
theorem visits_assignTarget {source : List Char} (hlaid : tree.All (Node.Laid source))
    {target : Expr} (htarget : tree.Holds (.expr target)) (hlo : a ≤ target.span.lo)
    (hhi : target.span.hi ≤ b) (type : α → Ty) (result : α → β)
    (hp : Visits tree true ctx.scope a b ns p)
    (hsame : ∀ x, target? target = some x → target.span.Encloses x.span → ∀ s : State,
      Ready tree s.table ctx.scope a b → ∀ r ∈ s.table.newReferences (s.after p).table,
        r.span = x.span → s.table.lookup x.name ctx.scope = some r.symbol) :
    Visits tree true ctx.scope a b ns
      (p >>= fun v => assignTarget ctx target (type v) >>= fun _ => pure (result v)) := by
  cases hx : target? target with
  | none =>
    refine hp.thenStill fun v => ?_
    rw [assignTarget, hx]
    exact still_pure _
  | some x =>
    have hholds := holds_of_target? target hx
    have hname := htarget.trans hholds
    have hlt := ((hlaid _ hname).word x rfl).lo_lt_hi
    have hpos : 0 < (Node.name x).span.len := by
      rw [Span.hi] at hlt
      exact Nat.pos_of_lt_add_right hlt
    have henc : target.span.Encloses x.span := (hlaid.of_holds htarget).encloses_of_pos hholds hpos
    intro s hs
    obtain ⟨heffect, hcalm⟩ := hp s hs
    obtain ⟨hassign, hcalm'⟩ := effect_assign hname (hlo.trans henc.1) hlt
      (henc.2.trans hhi) hs heffect
      (fun r hr hspan => hcalm rfl _ _ (hsame x hx henc s hs r hr hspan)) (type (s.answer p))
    have heq : s.after (p >>= fun v => assignTarget ctx target (type v) >>= fun _ =>
        pure (result v)) = (s.after p).after (assign ctx x (type (s.answer p))) := by
      change (s.after p).after (assignTarget ctx target (type (s.answer p))) = _
      rw [assignTarget, hx]
    rw [heq]
    exact ⟨hassign, fun hc => (hcalm hc).trans hcalm'⟩

/-! ### Statements -/

theorem visits_step (s : Stmt) (flow : Flow) {visit : Walk Bool}
    (hvisit : Visits tree false u a b ns visit) :
    Visits tree false u a b ns (step ctx s flow visit) := by
  refine .afterStill ((tame_enter ctx s flow).still _) fun flow before hready => ?_
  have h := hvisit before hready
  by_cases hflow : flow = .reported
  · simp only [hflow, if_true]
    exact h
  · simp only [hflow, if_false]
    exact h

theorem visits_sequence {body : List Stmt} {visit : Flow → Walk Flow}
    (hbody : ∀ s ∈ body, tree.Holds (.stmt s)) (hab : a ≤ b)
    (hvisit : ∀ flow, Visits tree false ctx.scope a b ns (visit flow)) :
    Visits tree false ctx.scope a b ns (sequence ctx body visit) :=
  .plainThen (visits_hoist hbody le_rfl) (fun _ => (hvisit .reachable).thenPure _) hab

theorem visits_switchCases (hasDefault : Bool) {cases : Walk Bool}
    (hcases : Visits tree false u a b ns cases) :
    Visits tree false u a b ns (switchCases hasDefault cases) :=
  fun s hs => hcases { s with broke := false } hs

/-- The body of a loop is visited, and then what follows it, which lies before it. -/
theorem visits_loop {body : Walk Bool} {update : Walk α} {a₁ b₁ a₂ b₂ : Nat}
    (hbody : Visits tree false u a₂ b₂ ms body) (hupdate : Visits tree false u a₁ b₁ ns update)
    (hlt : b₁ < a₂) (ha : a ≤ a₁) (hle₁ : a₁ ≤ b₁) (hle₂ : a₂ ≤ b₂) (hb : b₂ ≤ b) :
    Visits tree false u a b (ns ++ ms) (loop body update) := by
  intro s hs
  obtain ⟨h₁, -⟩ := hbody s (hs.mono (by omega) hb)
  let ended : State := { s.after body with broke := s.broke }
  obtain ⟨h₂, -⟩ := hupdate ended ((h₁.ready hs).mono ha (by omega))
  have htable : (s.after (loop body update)).table = (ended.after update).table :=
    still_mergeBranches s.env false false (ended.after update)
  have h := h₁.trans hs h₂ ⟨by omega, hb⟩ ⟨ha, by omega⟩ (.inr (by omega)) (.inr (.inl hlt))
  simp only [or_comm] at h
  rw [htable, headIn_append]
  exact ⟨h, nofun⟩

theorem visits_loop_still {body : Walk Bool} {update : Walk α}
    (hbody : Visits tree false u a b ns body) (hupdate : Still update) :
    Visits tree false u a b ns (loop body update) := by
  intro s hs
  let ended : State := { s.after body with broke := s.broke }
  have htable : (s.after (loop body update)).table = (s.after body).table :=
    (still_mergeBranches s.env false false (ended.after update)).trans (hupdate ended)
  rw [htable]
  exact hbody s hs

/-- A part is visited in a scope of its own if it has a region for one. -/
theorem visits_openBlock {block : Option Span} {f : Context → Walk α}
    (hsome : ∀ span ∈ block, a ≤ span.lo ∧ span.lo < span.hi ∧ span.hi ≤ b ∧
      ∀ inner : Context, Visits tree false inner.scope span.lo span.hi ns (f inner))
    (hnone : block = none → Visits tree false ctx.scope a b ns (f ctx)) :
    Visits tree false ctx.scope a b ns (openBlock ctx block >>= f) := by
  cases block with
  | none => exact hnone rfl
  | some span =>
    obtain ⟨hlo, hlt, hhi, hvisit⟩ := hsome span rfl
    intro s hs
    obtain ⟨heffect, -⟩ := hvisit (ctx.inScope s.table.scopes.length)
      (s.after (openScope ctx .block span)) (hs.push .block hlo hhi)
    exact ⟨heffect.opened hs ⟨hlo, hlt, hhi⟩ ⟨le_rfl, le_rfl⟩, nofun⟩

/-- A part is visited in a scope of its own, whose region spans what is visited next too. -/
theorem visits_openBlockThen {block : Option Span} {f : Context → Walk α} {g : α → Walk β}
    {a₂ b₂ : Nat} (hblock : block = some span ∨ block = none)
    (hf : ∀ inner : Context, Visits tree false inner.scope span.lo c ns (f inner))
    (hg : ∀ x, Visits tree false ctx.scope a₂ b₂ ms (g x)) (hspan : span.lo < span.hi)
    (hlo : span.lo ≤ c) (hmid : c ≤ a₂) (hle : a₂ ≤ b₂) (hhi : b₂ ≤ span.hi)
    (hexposes : block = some span → ∀ s : Span, a₂ ≤ s.lo → s.lo < s.hi → s.hi ≤ b₂ →
      tree.Exposes span s) :
    Visits tree false ctx.scope span.lo span.hi (ns ++ ms)
      (openBlock ctx block >>= fun inner => f inner >>= g) := by
  rcases hblock with rfl | rfl
  · intro s hs
    let inner := ctx.inScope s.table.scopes.length
    let opened := s.after (openScope ctx .block span)
    have hready : Ready tree opened.table inner.scope span.lo span.hi :=
      hs.push .block le_rfl le_rfl
    obtain ⟨h₁, -⟩ := hf inner opened (hready.mono le_rfl (by omega))
    have hbounds : span.lo ≤ span.lo ∧ span.lo < span.hi ∧ span.hi ≤ span.hi :=
      ⟨le_rfl, hspan, le_rfl⟩
    have hin : span.lo ≤ span.lo ∧ c ≤ span.hi := ⟨le_rfl, by omega⟩
    have hopened := h₁.opened hs hbounds hin
    obtain ⟨h₂, -⟩ := hg (opened.answer (f inner)) (opened.after (f inner))
      ((hopened.ready hs).mono (by omega) hhi)
    rw [headIn_append]
    exact ⟨h₁.openedThen hs hbounds h₂ hin ⟨by omega, hhi⟩ hmid (hexposes rfl), nofun⟩
  · exact (hf ctx).bind (fun x => (hg x).widen hmid hhi) hlo (by omega)

/-- A head is visited, and then a part in a scope that spans the head too. -/
theorem visits_headed {n : Node} {head : Span} {f : α → Context → Walk β} (hn : tree.Holds n)
    (hspan : n.span = span) (hhead : n.head? = some head)
    (hparts : HeadIn n.parts = HeadIn (ns ++ ms))
    (hp : Visits tree false ctx.scope head.lo head.hi ns p)
    (hf : ∀ x (inner : Context), Visits tree false inner.scope head.hi span.hi ms (f x inner))
    (hlo : span.lo < head.lo) (hhi : head.hi ≤ span.hi) :
    Visits tree false ctx.scope span.lo span.hi [n]
      (p >>= fun x => openBlock ctx (some span) >>= f x) := by
  intro s hs
  have hle := head.lo_le_hi
  obtain ⟨h₁, -⟩ := hp s (hs.mono (by omega) hhi)
  let inner := ctx.inScope (s.after p).table.scopes.length
  let opened := (s.after p).after (openScope ctx .block span)
  have hready : Ready tree opened.table inner.scope span.lo span.hi :=
    (h₁.ready hs).push .block le_rfl le_rfl
  obtain ⟨h₂, -⟩ := hf (s.answer p) inner opened (hready.mono (by omega) le_rfl)
  have h := h₁.headed hs ⟨le_rfl, by omega, le_rfl⟩ h₂ ⟨hlo, le_rfl⟩
    ⟨hhi, le_rfl⟩ fun s hs => ⟨n, head, hn, hspan, Node.exposed?_of_head? hhead, hs⟩
  have hheads : HeadIn [n] =
      fun region => (region = head ∨ HeadIn ns region) ∨ HeadIn ms region := by
    rw [headIn_node, hhead, hparts, headIn_append]
    simp only [Option.some.injEq, or_assoc, eq_comm]
  rw [hheads]
  exact ⟨h, nofun⟩

/-- A part is visited, and then names before it are assigned to. -/
theorem Visits.bindBefore (hp : Visits tree calm u b c ns p)
    (hf : ∀ x, Visits tree calm u a b [] (f x)) (hflat : ∀ x, Flat (f x)) (hab : a ≤ b)
    (hbc : b ≤ c) : Visits tree calm u a c ns (p >>= f) := by
  intro s hs
  obtain ⟨h₁, hcalm₁⟩ := hp s (hs.mono hab le_rfl)
  obtain ⟨h₂, hcalm₂⟩ := hf (s.answer p) (s.after p) ((h₁.ready hs).mono le_rfl hbc)
  have h := h₁.trans hs h₂ ⟨hab, le_rfl⟩ ⟨le_rfl, hbc⟩ (.inr le_rfl)
    (.inr (.inr (hflat _ _)))
  simp only [headIn_nil, or_false] at h
  exact ⟨h, fun hcalm => (hcalm₁ hcalm).trans (hcalm₂ hcalm)⟩

theorem visits_bindForIn_assign (ho : Row tree a b (name.toList.map .name))
    (type : Ty) : Visits tree true ctx.scope a b [] (bindForIn ctx none name type) := by
  cases name with
  | some x => exact visits_assign ho.head.1 ho.lo_le ho.head.2 ho.hi_le type
  | none => exact .of_still (still_pure _)

theorem visits_bindForIn (hname : ∀ x ∈ name, tree.Holds (.name x))
    (kind : SymbolKind) (type : Ty) :
    Visits tree false ctx.scope a b [] (bindForIn ctx (some kind) name type) := by
  cases name with
  | some x => exact (visits_declare (hname x rfl) kind type).thenPure _
  | none => exact .of_still (still_pure _)

theorem visits_declareCaught {param : Option Ident} (hparam : ∀ x ∈ param, tree.Holds (.name x)) :
    Visits tree false ctx.scope a b [] (declareCaught ctx param) := by
  cases param with
  | some x => exact (visits_declare (hparam x rfl) _ _).thenPure _
  | none => exact .of_still (still_pure _)

end Walk

end ScriptCheck
