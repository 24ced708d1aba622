import ScriptCheck.Proofs.LayoutProgram
import ScriptCheck.Proofs.Resolution
import ScriptCheck.Proofs.Roster

/-!
# Where declared names stand

A roster has the names that are declared in the order of a visit. This is not the order of the
script: functions come first in their list, a name comes after its initial value, and the names of a
`for` loop come after its values. But in a program that was read from a script each name of the
roster has a place of its own (`Program.nodup_places`).

What a node declares is what its parts do, up to the order (`Roster.Of`). So by induction over the
nodes the names that are declared in one of them are *spread* over its region (`Stmt.spreads`).
-/

namespace ScriptCheck

open List

open Text

/-- Names that lie between two offsets and apart from each other. -/
structure Spread (a b : Nat) (xs : List Ident) : Prop where
  le : a ≤ b
  bounds : ∀ x ∈ xs, a ≤ x.span.lo ∧ x.span.lo < x.span.hi ∧ x.span.hi ≤ b
  apart : xs.Pairwise fun x y => x.span.Apart y.span

namespace Spread

variable {a b c d : Nat} {xs ys zs : List Ident}

theorem nil (hle : a ≤ b) : Spread a b [] :=
  ⟨hle, fun _ hx => absurd hx not_mem_nil, .nil⟩

theorem widen (h : Spread b c xs) (hab : a ≤ b) (hcd : c ≤ d) : Spread a d xs := by
  refine ⟨hab.trans (h.le.trans hcd), fun x hx => ?_, h.apart⟩
  obtain ⟨hlo, hlt, hhi⟩ := h.bounds x hx
  exact ⟨hab.trans hlo, hlt, hhi.trans hcd⟩

theorem append (h : Spread a b xs) (h' : Spread b c ys) : Spread a c (xs ++ ys) := by
  refine ⟨h.le.trans h'.le, fun x hx => ?_, ?_⟩
  · rcases mem_append.1 hx with hx | hx
    · exact (h.widen le_rfl h'.le).bounds x hx
    · exact (h'.widen h.le le_rfl).bounds x hx
  · refine pairwise_append.2 ⟨h.apart, h'.apart, fun x hx y hy => ?_⟩
    exact .inl (Nat.le_trans (h.bounds x hx).2.2 (h'.bounds y hy).1)

theorem perm (h : Spread a b xs) (hperm : ys.Perm xs) : Spread a b ys :=
  ⟨h.le, fun x hx => h.bounds x (hperm.mem_iff.1 hx),
    (hperm.pairwise_iff Span.Apart.symm).2 h.apart⟩

theorem sublist (h : Spread a b xs) (hsub : ys.Sublist xs) : Spread a b ys :=
  ⟨h.le, fun x hx => h.bounds x (hsub.subset hx), h.apart.sublist hsub⟩

/-- What comes second in the script may be listed first. -/
theorem between (hxs : Spread b c xs) (hys : Spread a b ys) (hzs : Spread c d zs) :
    Spread a d (xs ++ (ys ++ zs)) := by
  refine ((hys.append hxs).append hzs).perm ?_
  rw [← append_assoc]
  exact perm_append_comm.append_right zs

theorem of_inOrder (h : InOrder a b (xs.map Ident.span)) : Spread a b xs :=
  ⟨h.le, fun _ hx => h.mem (mem_map_of_mem hx),
    (pairwise_map.1 h.pairwise).imp fun hle => .inl hle⟩

theorem nodup (h : Spread a b xs) : (xs.map Ident.span).Nodup := by
  refine pairwise_map.2 (h.apart.imp_of_mem fun hx _ hapart heq => ?_)
  have hlt := (h.bounds _ hx).2.1
  rw [← heq] at hapart
  unfold Span.Apart at hapart
  omega

end Spread

/-! ### Names of a roster -/

namespace Roster

/-- The names that are declared in a part of a program with some number of scopes before it. -/
def declared (r : Roster) (n : Nat) : List Ident :=
  (r n).filterMap fun item => item.declaration?.map Declaration.name

variable {r r' : Roster} {scope n : Nat} {xs : List Ident}

theorem declared_names : (names scope xs).declared n = xs := by
  simp [declared, names, RosterItem.declaration?, filterMap_map]

theorem declared_andThen : (r.andThen r').declared n =
    r.declared n ++ r'.declared (n + (r n).countP RosterItem.isScope) :=
  filterMap_append

theorem andThen_assoc (r r' r'' : Roster) :
    (r.andThen r').andThen r'' = r.andThen (r'.andThen r'') := by
  funext n
  simp [andThen, Nat.add_assoc]

theorem declared_inBlock (scope : Nat) (span : Option Span) (part : Nat → Roster) (n : Nat) :
    ∃ inner m, (inBlock scope span part).declared n = (part inner).declared m := by
  cases span with
  | some span => exact ⟨n, n + 1, rfl⟩
  | none => exact ⟨scope, n, rfl⟩

theorem declared_sequence (scope : Nat) (body : List Stmt) (r : Roster) (n : Nat) :
    (sequence scope body r).declared n = body.filterMap Stmt.hoisted? ++ r.declared n := by
  have hscopes : (names scope (body.filterMap Stmt.hoisted?) n).countP RosterItem.isScope = 0 := by
    simp [names, RosterItem.isScope, countP_eq_zero]
  rw [sequence, declared_andThen, declared_names, hscopes, Nat.add_zero]

end Roster

variable (fileExists : String → Bool)

/-- The names that an import declares are among those in it. -/
theorem sublist_declared (specs : List ImportSpec) :
    (specs.map ImportSpec.declared).Sublist (specs.flatMap ImportSpec.names) := by
  induction specs with
  | nil => exact .slnil
  | cons spec rest ih =>
    have hfirst : [spec.declared].Sublist spec.names := by
      cases spec with
      | named imported newName => cases newName <;> simp [ImportSpec.declared, ImportSpec.names]
      | default name | namespaceOf name => exact .refl _
    exact hfirst.append ih

/-- A statement declares the same names in a list as it does alone, but in a list one of them is
declared at the start. -/
theorem Stmt.declared_roster (s : Stmt) (scope n : Nat) :
    (s.roster fileExists false scope).declared n =
      s.hoisted?.toList ++ (s.roster fileExists true scope).declared n := by
  have hfunction (span : Span) (name : Option Ident) (params : List Param) (body : List Stmt) :
      ((Stmt.function span name params body).roster fileExists false scope).declared n =
        name.toList ++
          ((Stmt.function span name params body).roster fileExists true scope).declared n := by
    cases name <;> simp [Stmt.roster, Roster.declared, Roster.andThen, Roster.alone, Roster.nothing,
      RosterItem.declaration?, RosterItem.isScope]
  cases s with
  | function span name params body => exact hfunction span name params body
  | exportDecl span declaration =>
    cases declaration with
    | function span name params body =>
      simpa [Stmt.roster, Stmt.isFunction, Stmt.hoisted?] using hfunction span name params body
    | _ => simp [Stmt.roster, Stmt.isFunction, Stmt.hoisted?]
  | _ => simp [Stmt.roster, Stmt.hoisted?]

/-- A list of statements declares what the first one does and what the others do. -/
theorem Roster.perm_sequence (s : Stmt) (rest : List Stmt) (scope n : Nat) :
    ∃ m, ((Roster.sequence scope (s :: rest) (stmtsRoster fileExists scope (s :: rest))).declared
        n).Perm
      ((s.roster fileExists false scope).declared n ++
        (Roster.sequence scope rest (stmtsRoster fileExists scope rest)).declared m) := by
  refine ⟨n + (s.roster fileExists true scope n).countP RosterItem.isScope, ?_⟩
  rw [declared_sequence, declared_sequence, Stmt.filterMap_hoisted?, stmtsRoster, declared_andThen,
    s.declared_roster]
  simp only [append_assoc]
  refine List.Perm.append_left _ ?_
  simp only [← append_assoc]
  exact perm_append_comm.append_right _

/-! ### Statements and expressions -/

/-- The scopes and declarations of a node in a scope. -/
def Node.roster (scope : Nat) : Node → Roster
  | .stmt s => s.roster fileExists false scope
  | .case (.mk _ test body) => (exprOptionRoster fileExists scope test).andThen
    (.sequence scope body (stmtsRoster fileExists scope body))
  | .expr e => e.roster fileExists scope
  | .name x => .names scope [x]

/-- The names that a node declares are spread over its region. -/
def Node.Spreads (n : Node) : Prop :=
  ∀ scope k, Spread n.span.lo n.span.hi ((n.roster fileExists scope).declared k)

/-- A roster has names of some nodes in a row only: they are spread if those of each node are. -/
def Roster.Of (ns : List Node) (r : Roster) : Prop :=
  ∀ ⦃a b : Nat⦄, InOrder a b (ns.map Node.span) → (∀ n ∈ ns, n.Spreads fileExists) →
    ∀ k, Spread a b (r.declared k)

namespace Roster.Of

variable {fileExists} {r r' : Roster} {a b scope : Nat} {ns ms : List Node}
  {part part' : Nat → Roster}

theorem nothing : Of fileExists ns .nothing := fun _ _ ho _ _ => .nil ho.le

theorem node (n : Node) (scope : Nat) : Of fileExists [n] (n.roster fileExists scope) :=
  fun _ _ ⟨hlo, _, hhi⟩ h k => (h n mem_cons_self scope k).widen hlo hhi

theorem expr (e : Expr) (scope : Nat) : Of fileExists [.expr e] (e.roster fileExists scope) :=
  node (.expr e) scope

theorem stmt (s : Stmt) (scope : Nat) : Of fileExists [.stmt s] (s.roster fileExists false scope) :=
  node (.stmt s) scope

section

variable (h : Of fileExists ns r) (h' : Of fileExists ms r')
include h h'

/-- Of two rows of nodes, the names of either are spread over its own part of a region. -/
theorem split (ho : InOrder a b ((ns ++ ms).map Node.span))
    (hs : ∀ n ∈ ns ++ ms, n.Spreads fileExists) :
    ∃ c, (∀ k, Spread a c (r.declared k)) ∧ ∀ k, Spread c b (r'.declared k) := by
  rw [map_append] at ho
  obtain ⟨c, hns, hms⟩ := ho.split
  obtain ⟨hs, hs'⟩ := forall_mem_append.1 hs
  exact ⟨c, h hns hs, h' hms hs'⟩

theorem andThen : Of fileExists (ns ++ ms) (r.andThen r') := by
  intro a b ho hs k
  obtain ⟨c, hr, hr'⟩ := h.split h' ho hs
  rw [declared_andThen]
  exact (hr _).append (hr' _)

/-- A part may be visited before one that is in front of it. -/
theorem swap : Of fileExists (ms ++ ns) (r.andThen r') := by
  intro a b ho hs k
  obtain ⟨c, hr', hr⟩ := h'.split h ho hs
  rw [declared_andThen]
  exact ((hr' _).append (hr _)).perm perm_append_comm

end

/-- Nodes in front of a row may declare nothing. -/
theorem skip (ns : List Node) (h : Of fileExists ms r) : Of fileExists (ns ++ ms) r := by
  intro a b ho hs k
  have hnothing : Of fileExists ns .nothing := .nothing
  obtain ⟨c, hr, hr'⟩ := hnothing.split h ho hs
  exact (hr 0).append (hr' k)

theorem inBlock {span : Option Span} (h : ∀ inner, Of fileExists ns (part inner)) :
    Of fileExists ns (.inBlock scope span part) := by
  intro a b ho hs k
  obtain ⟨inner, m, heq⟩ := declared_inBlock scope span part k
  rw [heq]
  exact h inner ho hs m

theorem names (xs : List Ident) (scope : Nat) : Of fileExists (xs.map .name) (.names scope xs) := by
  intro a b ho _ k
  rw [declared_names]
  exact .of_inOrder (Walk.map_span_name xs ▸ ho)

theorem alone (name : Option Ident) (scope : Nat) :
    Of fileExists (name.toList.map .name) (.alone scope name) := by
  cases name with
  | some name => exact names [name] scope
  | none => exact nothing

theorem function {span : Span} {params : List Param} (h : ∀ inner, Of fileExists ns (part inner)) :
    Of fileExists (paramNodes params ++ ns) (.function scope span params part) := by
  have hparams : paramNodes params = (params.map Param.name).map .name := by
    rw [paramNodes, map_map]
    rfl
  rw [hparams]
  exact fun _ _ ho hs k => ((names _ k).andThen (h k)) ho hs (k + 1)

/-- A part is visited before the block that it stands in. -/
theorem swapBlock {ls : List Node} {span : Option Span} (h : Of fileExists ms r)
    (hfirst : ∀ inner, Of fileExists ns (part inner))
    (hlast : ∀ inner, Of fileExists ls (part' inner)) :
    Of fileExists (ns ++ (ms ++ ls)) (r.andThen (.inBlock scope span fun inner =>
      (part inner).andThen (part' inner))) := by
  intro a b ho hs k
  obtain ⟨inner, m, heq⟩ := declared_inBlock scope span
    (fun inner => (part inner).andThen (part' inner)) (k + (r k).countP RosterItem.isScope)
  rw [declared_andThen, heq, declared_andThen]
  rw [map_append] at ho
  obtain ⟨c, hns, ho⟩ := ho.split
  obtain ⟨hs, hs'⟩ := forall_mem_append.1 hs
  obtain ⟨d, hr, hr'⟩ := h.split (hlast inner) ho hs'
  exact (hr k).between (hfirst inner hns hs m) (hr' _)

end Roster.Of

section

variable {fileExists} (scope : Nat)

open Roster

theorem of_stmtOption (s : Option Stmt) :
    Of fileExists (s.toList.map .stmt) (stmtOptionRoster fileExists scope s) := by
  cases s with
  | some s => exact .stmt s scope
  | none => exact .nothing

theorem of_exprOption (e : Option Expr) :
    Of fileExists (e.toList.map .expr) (exprOptionRoster fileExists scope e) := by
  cases e with
  | some e => exact .expr e scope
  | none => exact .nothing

theorem of_stmts : (ss : List Stmt) →
    Of fileExists (ss.map .stmt) (.sequence scope ss (stmtsRoster fileExists scope ss))
  | [] => .nothing
  | s :: rest => by
    intro a b ho hs k
    -- functions are declared first, so the list has the order of the script up to a permutation
    obtain ⟨m, hperm⟩ := Roster.perm_sequence fileExists s rest scope k
    obtain ⟨c, hfirst, hothers⟩ := (Of.stmt s scope).split (of_stmts rest) ho hs
    exact ((hfirst k).append (hothers m)).perm hperm

theorem of_declarators (ds : List Declarator) :
    Of fileExists (ds.flatMap Declarator.parts) (declaratorsRoster fileExists scope ds) := by
  induction ds with
  | nil => exact .nothing
  | cons d rest ih =>
    obtain ⟨name, init⟩ := d
    rw [declaratorsRoster, ← andThen_assoc]
    exact ((of_exprOption scope init).swap (.names [name] scope)).andThen ih

theorem of_cases : (cs : List SwitchCase) →
    Of fileExists (cs.map .case) (casesRoster fileExists scope cs)
  | [] => .nothing
  | c :: rest => by
    obtain ⟨span, test, body⟩ := c
    rw [casesRoster, ← andThen_assoc]
    exact (Of.node (.case (.mk span test body)) scope).andThen (of_cases rest)

theorem of_exprs {p : Expr → Bool} : (es : List Expr) →
    (∀ e ∈ es, p e = false → e.roster fileExists scope = .nothing) →
    Of fileExists ((es.filter p).map .expr) (exprsRoster fileExists scope es)
  | [], _ => .nothing
  | e :: rest, h => by
    obtain ⟨he, h⟩ := forall_mem_cons.1 h
    cases hkeep : p e with
    | true =>
      rw [filter_cons_of_pos hkeep]
      exact (Of.expr e scope).andThen (of_exprs rest h)
    | false =>
      rw [filter_cons_of_neg (by simp [hkeep]), exprsRoster, he hkeep]
      exact of_exprs rest h

theorem of_allExprs (es : List Expr) :
    Of fileExists (es.map .expr) (exprsRoster fileExists scope es) := by
  simpa using of_exprs (p := fun _ => true) scope es fun _ _ h => absurd h nofun

theorem of_properties (ps : List Property) :
    Of fileExists (ps.flatMap Property.parts) (propertiesRoster fileExists scope ps) := by
  induction ps with
  | nil => exact .nothing
  | cons p rest ih =>
    cases p with
    | named key value =>
      rw [flatMap_cons, Property.parts, append_assoc]
      exact .skip _ ((Of.expr value scope).andThen ih)
    | computed key value => exact (Of.expr key scope).andThen ((Of.expr value scope).andThen ih)
    | shorthand name => exact .skip [.name name] ih
    | spread value => exact (Of.expr value scope).andThen ih

theorem of_stmt (s : Stmt) : Of fileExists s.parts (s.roster fileExists false scope) := by
  cases s with
  | expr span value | exportDefault span value => exact .expr value scope
  | decl span kind ds => exact of_declarators scope ds
  | function span name params body =>
    exact (Of.alone name scope).andThen (.function fun inner => of_stmts inner body)
  | ifElse span test yes no =>
    exact (Of.expr test scope).andThen ((Of.stmt yes scope).andThen (of_stmtOption scope no))
  | whileLoop span test body => exact (Of.expr test scope).andThen (.stmt body scope)
  | forLoop span init test update body =>
    refine .inBlock fun inner => (of_stmtOption inner init).andThen ?_
    exact (of_exprOption inner test).andThen ((Of.stmt body inner).swap (of_exprOption inner update))
  | forIn span kind key value iterable body =>
    have hparts : (Stmt.forIn span kind key value iterable body).parts =
        (key.toList ++ [value]).map .name ++ ([.expr iterable] ++ [.stmt body]) := by
      simp [Stmt.parts]
    rw [hparts]
    -- the values are visited before the names, which stand in front of them
    refine (Of.expr iterable scope).swapBlock (fun inner => ?_) fun inner => .stmt body inner
    split
    · exact .names _ inner
    · exact .nothing
  | switch span subject cs =>
    exact (Of.expr subject scope).andThen (.inBlock fun inner => of_cases inner cs)
  | tryCatch span body param handler =>
    exact (Of.inBlock fun inner => of_stmts inner body).andThen
      (.inBlock fun inner => (Of.names _ inner).andThen (of_stmts inner handler))
  | returns span value => exact of_exprOption scope value
  | block span body => exact .inBlock fun inner => of_stmts inner body
  | imports span specs script =>
    rw [Stmt.roster]
    split
    · exact .nothing
    · intro a b ho hs k
      have hnames := Of.names (specs.flatMap ImportSpec.names) scope ho hs k
      rw [declared_names] at hnames ⊢
      exact hnames.sublist (sublist_declared specs)
  | exportDecl span declaration => exact .stmt declaration scope
  | breaks | continues | exportNames | exportAll | empty => exact .nothing

theorem of_expr (e : Expr) (textEnd : Nat) :
    Of fileExists ((Node.expr e).standing textEnd) (e.roster fileExists scope) := by
  cases e with
  | template span parts =>
    refine of_exprs scope parts fun e _ he => ?_
    have hunread : e.isUnread textEnd := by simpa using he
    rw [Expr.eq_invalid_of_isUnread hunread, Expr.roster]
  | array span elements => exact of_allExprs scope elements
  | object span ps => exact of_properties scope ps
  | spread span inner | unary span _ inner | update span _ _ inner | paren span inner =>
    exact .expr inner scope
  | binary span _ lhs rhs | index span lhs rhs _ | assign span _ lhs rhs =>
    exact (Of.expr lhs scope).andThen (.expr rhs scope)
  | member span base property _ =>
    rw [Expr.roster, ← Roster.andThen_nothing (base.roster _ _)]
    exact (Of.expr base scope).andThen .nothing
  | conditional span test yes no =>
    exact (Of.expr test scope).andThen ((Of.expr yes scope).andThen (.expr no scope))
  | call span callee args _ => exact (Of.expr callee scope).andThen (of_allExprs scope args)
  | function span name params body => exact .skip _ (.function fun inner => of_stmts inner body)
  | arrowBlock span params body => exact .function fun inner => of_stmts inner body
  | arrowExpr span params body => exact .function fun inner => .expr body inner
  | _ => exact .nothing

end

/-- Each statement that is laid out has its names spread over its region. -/
theorem Stmt.spreads {source : List Char} (s : Stmt) :
    (Node.stmt s).All (Node.Laid source) → (Node.stmt s).Spreads fileExists := by
  refine Node.stmt_induction (P := fun n => n.All (Node.Laid source) → n.Spreads fileExists)
    (fun n ih h scope k => ?_) s
  have hof (r : Roster) (hr : r.Of fileExists (n.standing (bytes source))) :
      Spread n.span.lo n.span.hi (r.declared k) := by
    refine hr h.self.inOrder (fun m hm => ?_) k
    have hm := Node.mem_parts_of_standing hm
    exact ih m hm (h.of_holds (Node.holds_of_mem hm))
  cases n with
  | stmt s => exact hof _ (of_stmt scope s)
  | case c =>
    obtain ⟨span, test, body⟩ := c
    exact hof _ ((of_exprOption scope test).andThen (of_stmts scope body))
  | expr e => exact hof _ (of_expr scope e _)
  | name x => exact .of_inOrder ⟨le_rfl, (h.self.word x rfl).lo_lt_hi, le_rfl⟩

/-- No two names that a script declares stand at the same place. -/
theorem Program.nodup_places (mode : LexMode) (source : List Char) :
    (((parse mode source).program.declarations fileExists).map fun d => d.name.span).Nodup := by
  have hlaid := laid_parse mode source
  have hstmts : ∀ n ∈ (parse mode source).program.body.map Node.stmt, n.Spreads fileExists :=
    forall_mem_map.2 fun s hs =>
      s.spreads fileExists (hlaid.of_holds (Node.holds_of_mem (mem_map_of_mem hs)))
  have hnodup := (of_stmts SymbolTable.root _ hlaid.self.inOrder hstmts 1).nodup
  rw [Roster.declared, map_filterMap] at hnodup
  simp only [Option.map_map] at hnodup
  rw [declarations, map_filterMap]
  exact hnodup

end ScriptCheck
