import ScriptCheck.Proofs.Run
import ScriptCheck.Proofs.Slices
import ScriptCheck.Text.Class

/-!
# The nodes of a tree

The parts of a tree that have a region of their own are its *nodes*: statements, cases, expressions
and names. A function has the region of the statement or expression that it is. `Node.parts` lists
the nodes directly below a node, in the order of the script, and `Node.Holds` says that a node is
somewhere below another one.

A node is *laid out* in a script if its region is one of the script, between characters, and the
regions of its parts lie in it one after the other (`Node.Laid`). The only parts left out of this
are those that stand for interpolations which could not be read, as they have no region in the
template (`Node.standing`).

If all nodes of a tree are laid out, any two of them are apart or one of them holds the other
(`Node.apart_or_holds`).
-/

namespace ScriptCheck

open List

open Text

/-- A part of a tree with a region of its own. -/
inductive Node where
  | stmt (s : Stmt)
  | case (c : SwitchCase)
  | expr (e : Expr)
  | name (x : Ident)

/-! ### What stands directly below a node -/

/-- The region of a case. -/
def SwitchCase.span : SwitchCase → Span
  | .mk span _ _ => span

/-- The names in one item of an import, in order. -/
def ImportSpec.names : ImportSpec → List Ident
  | .named imported newName => imported :: newName.toList
  | .default name => [name]
  | .namespaceOf name => [name]

/-- The names in one item of an export, in order. -/
def ExportSpec.names (spec : ExportSpec) : List Ident := spec.name :: spec.exported.toList

/-- The nodes of a declared name and its initial value. -/
def Declarator.parts : Declarator → List Node
  | .mk name init => .name name :: init.toList.map .expr

/-- The name in a key of an object. -/
def PropertyName.names : PropertyName → List Ident
  | .word name => [name]
  | .text _ => []
  | .number _ => []

/-- The nodes of a property. -/
def Property.parts : Property → List Node
  | .named key value => key.names.map .name ++ [.expr value]
  | .computed key value => [.expr key, .expr value]
  | .shorthand name => [.name name]
  | .spread value => [.expr value]

/-- The nodes of parameters. -/
def paramNodes (ps : List Param) : List Node := ps.map fun p => .name p.name

/-- The nodes directly below a function. -/
def functionParts (name : Option Ident) (ps : List Param) (body : List Stmt) : List Node :=
  name.toList.map .name ++ (paramNodes ps ++ body.map .stmt)

/-- The nodes directly below a statement. -/
def Stmt.parts : Stmt → List Node
  | .expr _ value => [.expr value]
  | .decl _ _ declarators => declarators.flatMap Declarator.parts
  | .function _ name ps body => functionParts name ps body
  | .ifElse _ test yes no => .expr test :: .stmt yes :: no.toList.map .stmt
  | .whileLoop _ test body => [.expr test, .stmt body]
  | .forLoop _ init test update body =>
    init.toList.map .stmt ++ (test.toList.map .expr ++ (update.toList.map .expr ++ [.stmt body]))
  | .forIn _ _ key value iterable body =>
    key.toList.map .name ++ [.name value, .expr iterable, .stmt body]
  | .switch _ subject cases => .expr subject :: cases.map .case
  | .tryCatch _ body param handler =>
    body.map .stmt ++ (param.toList.map .name ++ handler.map .stmt)
  | .returns _ value => value.toList.map .expr
  | .breaks _ => []
  | .continues _ => []
  | .block _ body => body.map .stmt
  | .imports _ specs _ => (specs.flatMap ImportSpec.names).map .name
  | .exportDecl _ declaration => [.stmt declaration]
  | .exportDefault _ value => [.expr value]
  | .exportNames _ specs _ => (specs.flatMap ExportSpec.names).map .name
  | .exportAll _ newName _ => newName.toList.map .name
  | .empty _ => []

/-- The nodes directly below a case. -/
def SwitchCase.parts : SwitchCase → List Node
  | .mk _ test body => test.toList.map .expr ++ body.map .stmt

/-- The nodes directly below an expression. -/
def Expr.parts : Expr → List Node
  | .ident name => [.name name]
  | .template _ parts => parts.map .expr
  | .array _ elements => elements.map .expr
  | .object _ properties => properties.flatMap Property.parts
  | .spread _ value => [.expr value]
  | .unary _ _ operand => [.expr operand]
  | .update _ _ _ target => [.expr target]
  | .binary _ _ lhs rhs => [.expr lhs, .expr rhs]
  | .assign _ _ target value => [.expr target, .expr value]
  | .conditional _ test yes no => [.expr test, .expr yes, .expr no]
  | .call _ callee args _ => .expr callee :: args.map .expr
  | .member _ base property _ => [.expr base, .name property]
  | .index _ base key _ => [.expr base, .expr key]
  | .function _ name ps body => functionParts name ps body
  | .arrowExpr _ ps body => paramNodes ps ++ [.expr body]
  | .arrowBlock _ ps body => paramNodes ps ++ body.map .stmt
  | .paren _ inner => [.expr inner]
  | _ => []

/-- Whether an expression stands for an interpolation that could not be read, in a script that ends
at an offset. -/
def Expr.isUnread (textEnd : Nat) : Expr → Bool
  | .invalid span => span == ⟨textEnd, 0⟩
  | _ => false

theorem Expr.eq_invalid_of_isUnread {textEnd : Nat} {e : Expr} (h : e.isUnread textEnd = true) :
    e = .invalid ⟨textEnd, 0⟩ := by
  unfold isUnread at h
  split at h
  · rw [beq_iff_eq.1 h]
  · exact absurd h Bool.false_ne_true

namespace Node

/-- The region of a node. -/
def span : Node → Span
  | .stmt s => s.span
  | .case c => c.span
  | .expr e => e.span
  | .name x => x.span

/-- The nodes directly below a node, in the order of the script. -/
def parts : Node → List Node
  | .stmt s => s.parts
  | .case c => c.parts
  | .expr e => e.parts
  | .name _ => []

/-- The nodes directly below a node, without those that stand for interpolations of a template which
could not be read. -/
def standing (textEnd : Nat) : Node → List Node
  | .expr (.template _ parts) => (parts.filter fun e => !e.isUnread textEnd).map .expr
  | n => n.parts

/-- A node is another one or stands somewhere below it. -/
def Holds : Node → Node → Prop := Relation.ReflTransGen fun n m => m ∈ n.parts

theorem Holds.refl (n : Node) : n.Holds n := Relation.ReflTransGen.refl

theorem Holds.trans {n m l : Node} (h : n.Holds m) (h' : m.Holds l) : n.Holds l :=
  Relation.ReflTransGen.trans h h'

theorem holds_of_mem {n m : Node} (h : m ∈ n.parts) : n.Holds m := .single h

/-- What a node holds is the node itself, or held by one of its parts. -/
theorem holds_iff {n m : Node} : n.Holds m ↔ m = n ∨ ∃ c ∈ n.parts, c.Holds m := by
  constructor
  · intro h
    rcases Relation.ReflTransGen.cases_head h with rfl | ⟨c, hc, hm⟩
    · exact .inl rfl
    · exact .inr ⟨c, hc, hm⟩
  · rintro (rfl | ⟨c, hc, hm⟩)
    · exact .refl m
    · exact (holds_of_mem hc).trans hm

/-- All nodes that a node holds have a property. -/
def All (P : Node → Prop) (n : Node) : Prop := ∀ m, n.Holds m → P m

variable {P : Node → Prop} {textEnd : Nat}

theorem All.self {n : Node} (h : n.All P) : P n := h n (.refl n)

theorem All.of_holds {n m : Node} (h : n.All P) (hm : n.Holds m) : m.All P :=
  fun l hl => h l (hm.trans hl)

theorem all_iff {n : Node} : n.All P ↔ P n ∧ ∀ c ∈ n.parts, c.All P := by
  constructor
  · exact fun h => ⟨h.self, fun c hc => h.of_holds (holds_of_mem hc)⟩
  · rintro ⟨hn, hparts⟩ m hm
    rcases holds_iff.1 hm with rfl | ⟨c, hc, hm⟩
    · exact hn
    · exact hparts c hc m hm

theorem mem_parts_of_standing {n c : Node} (h : c ∈ n.standing textEnd) : c ∈ n.parts := by
  unfold standing at h
  split at h
  · next parts =>
    obtain ⟨e, he, rfl⟩ := mem_map.1 h
    exact mem_map_of_mem (mem_filter.1 he).1
  · exact h

/-- Whether a node is neither a name nor a template. -/
def isComposite : Node → Bool
  | .expr (.template _ _) => false
  | .name _ => false
  | _ => true

theorem standing_eq_parts {n : Node} (h : n.isComposite) (textEnd : Nat) :
    n.standing textEnd = n.parts := by
  unfold standing
  split
  · simp [isComposite] at h
  · rfl

/-- A part that does not stand in its node is an interpolation that could not be read. -/
theorem eq_unread_of_mem {n c : Node} (h : c ∈ n.parts) (hc : c ∉ n.standing textEnd) :
    c = .expr (.invalid ⟨textEnd, 0⟩) := by
  unfold standing at hc
  split at hc
  · next span parts =>
    obtain ⟨e, he, rfl⟩ := mem_map.1 h
    have hunread : e.isUnread textEnd = true := by
      by_contra hread
      exact hc (mem_map_of_mem (mem_filter.2 ⟨he, by simpa using hread⟩))
    rw [Expr.eq_invalid_of_isUnread hunread]
  · exact absurd h hc

/-- A part that holds a node with a region that is not empty stands in its node. -/
theorem mem_standing {n c m : Node} (hc : c ∈ n.parts) (hm : c.Holds m) (hpos : 0 < m.span.len) :
    c ∈ n.standing textEnd := by
  by_contra hnot
  rw [eq_unread_of_mem hc hnot] at hm
  rcases holds_iff.1 hm with rfl | ⟨z, hz, -⟩
  · exact absurd hpos (Nat.lt_irrefl 0)
  · simp [parts, Expr.parts] at hz

/-- What goes from the parts of each node to the node is true of all statements. -/
theorem stmt_induction (h : ∀ n : Node, (∀ m ∈ n.parts, P m) → P n) (s : Stmt) : P (.stmt s) := by
  have hname (x : Ident) : P (.name x) := h _ (by simp [parts])
  have hstmt {s : Stmt} : (∀ m ∈ s.parts, P m) → P (.stmt s) := h (.stmt s)
  have hexpr {e : Expr} : (∀ m ∈ e.parts, P m) → P (.expr e) := h (.expr e)
  have hcase {c : SwitchCase} : (∀ m ∈ c.parts, P m) → P (.case c) := h (.case c)
  refine hstmt ?_
  apply @Stmt.rec (fun s => ∀ m ∈ s.parts, P m) (fun d => ∀ m ∈ d.parts, P m)
    (fun c => ∀ m ∈ c.parts, P m) (fun e => ∀ m ∈ e.parts, P m) (fun p => ∀ m ∈ p.parts, P m)
    (fun ds => ∀ d ∈ ds, ∀ m ∈ d.parts, P m) (fun ss => ∀ s ∈ ss, P (.stmt s))
    (fun o => ∀ s ∈ o, P (.stmt s)) (fun o => ∀ e ∈ o, P (.expr e))
    (fun cs => ∀ c ∈ cs, P (.case c)) (fun es => ∀ e ∈ es, P (.expr e))
    (fun ps => ∀ p ∈ ps, ∀ m ∈ p.parts, P m)
  all_goals
    clear h
    grind [Stmt.parts, Expr.parts, SwitchCase.parts, Declarator.parts, Property.parts,
      functionParts, paramNodes]

end Node

/-- A node is somewhere in a program. -/
def Program.Holds (p : Program) (n : Node) : Prop := ∃ s ∈ p.body, (Node.stmt s).Holds n

/-! ### Regions in order -/

/-- Regions that lie between two offsets, one after the other, none of them empty. -/
def InOrder (lo hi : Nat) : List Span → Prop
  | [] => lo ≤ hi
  | s :: rest => lo ≤ s.lo ∧ s.lo < s.hi ∧ InOrder s.hi hi rest

namespace InOrder

variable {a b c : Nat} {ss ts : List Span}

theorem le (h : InOrder a b ss) : a ≤ b := by
  induction ss generalizing a with
  | nil => exact h
  | cons s rest ih =>
    obtain ⟨hlo, hlt, hrest⟩ := h
    have := ih hrest
    omega

theorem mono_left (h : InOrder b c ss) (hab : a ≤ b) : InOrder a c ss := by
  cases ss with
  | nil => exact hab.trans h
  | cons s rest => exact ⟨hab.trans h.1, h.2⟩

theorem append (h : InOrder a b ss) (h' : InOrder b c ts) : InOrder a c (ss ++ ts) := by
  induction ss generalizing a with
  | nil => exact h'.mono_left h
  | cons s rest ih => exact ⟨h.1, h.2.1, ih h.2.2⟩

/-- Of regions in order, the first ones are before an offset and the others behind it. -/
theorem split (h : InOrder a c (ss ++ ts)) : ∃ b, InOrder a b ss ∧ InOrder b c ts := by
  induction ss generalizing a with
  | nil => exact ⟨a, le_rfl, h⟩
  | cons s rest ih =>
    obtain ⟨hlo, hlt, hrest⟩ := h
    obtain ⟨b, hfirst, hsecond⟩ := ih hrest
    exact ⟨b, ⟨hlo, hlt, hfirst⟩, hsecond⟩

/-- Regions in order end where the last one does. -/
theorem upTo_last {s : Span} (h : InOrder a b (ss ++ [s])) :
    a ≤ s.lo ∧ s.lo < s.hi ∧ s.hi ≤ b ∧ InOrder a s.hi (ss ++ [s]) := by
  obtain ⟨c, hbefore, hlo, hlt, hhi⟩ := h.split
  exact ⟨hbefore.le.trans hlo, hlt, hhi, hbefore.append ⟨hlo, hlt, le_rfl⟩⟩

/-- A region in order lies between the two offsets. -/
theorem mem (h : InOrder a b ss) {s : Span} (hs : s ∈ ss) : a ≤ s.lo ∧ s.lo < s.hi ∧ s.hi ≤ b := by
  induction ss generalizing a with
  | nil => simp at hs
  | cons t rest ih =>
    obtain ⟨hlo, hlt, hrest⟩ := h
    rcases mem_cons.1 hs with rfl | hs
    · exact ⟨hlo, hlt, hrest.le⟩
    · obtain ⟨hlo', hlt', hhi'⟩ := ih hrest hs
      omega

/-- Regions in order end by any offset by which each of them ends. -/
theorem upTo (h : InOrder a b ss) (hac : a ≤ c) (hss : ∀ s ∈ ss, s.hi ≤ c) : InOrder a c ss := by
  induction ss generalizing a with
  | nil => exact hac
  | cons s rest ih =>
    obtain ⟨hs, hrest⟩ := forall_mem_cons.1 hss
    exact ⟨h.1, h.2.1, ih h.2.2 hs hrest⟩

theorem pairwise (h : InOrder a b ss) : ss.Pairwise fun s t => s.hi ≤ t.lo := by
  induction ss generalizing a with
  | nil => exact .nil
  | cons s rest ih => exact .cons (fun t ht => (h.2.2.mem ht).1) (ih h.2.2)

end InOrder

/-! ### Nodes that are laid out -/

/-- A name stands in a script as a whole word: the script has its text there, and no word goes on
behind it. -/
def Ident.IsWord (source : List Char) (x : Ident) : Prop :=
  ∃ before after, source = before ++ (x.name.toList ++ after) ∧ bytes before = x.span.lo ∧
    bytes x.name.toList = x.span.len ∧ startsWith isWordChar x.name.toList = true ∧
    startsWith isWordChar after = false

theorem Ident.IsWord.lo_lt_hi {source : List Char} {x : Ident} (h : x.IsWord source) :
    x.span.lo < x.span.hi := by
  obtain ⟨before, after, -, -, hlen, hstarts, -⟩ := h
  have hne : x.name.toList ≠ [] := by
    intro hnil
    rw [hnil] at hstarts
    exact absurd hstarts Bool.false_ne_true
  have hpos := mt bytes_eq_zero.1 hne
  rw [Span.hi]
  omega

/-- Where the literal ends that is the key of a property. -/
def Property.keyEnd : Property → Nat
  | .named (.text lit) _ => lit.span.hi
  | .named (.number lit) _ => lit.span.hi
  | _ => 0

/-- Between what a loop or a switch starts with and what comes first in it there is at least the
word for it, and before the body of a loop at least a parenthesis. The literals that are no
expressions end by an offset. -/
def Node.Proper (stop : Nat) : Node → Prop
  | .stmt (.forLoop _ _ _ update body) => ∀ e ∈ update, e.span.hi < body.span.lo
  | .stmt (.forIn span _ _ _ iterable _) => span.lo < iterable.span.lo
  | .stmt (.switch span subject _) => span.lo < subject.span.lo
  | .stmt (.imports _ _ source) => source.span.hi ≤ stop
  | .stmt (.exportNames _ _ source) => ∀ lit ∈ source, lit.span.hi ≤ stop
  | .stmt (.exportAll _ _ source) => source.span.hi ≤ stop
  | .expr (.object _ properties) => ∀ p ∈ properties, p.keyEnd ≤ stop
  | _ => True

/-- A node has its place in a script. -/
structure Node.Laid (source : List Char) (n : Node) : Prop where
  /-- Its region is in the script and between characters. -/
  text : (n.span.text? source).isSome
  /-- What stands directly below it lies in its region, one after the other. -/
  inOrder : InOrder n.span.lo n.span.hi ((n.standing (bytes source)).map Node.span)
  word : ∀ x, n = .name x → x.IsWord source
  head : n.Proper (bytes source)

namespace Node

variable {source : List Char} {n m l : Node}

/-- Two nodes do not overlap, the first one comes first. -/
def Before (n m : Node) : Prop := n.span.hi ≤ m.span.lo

/-- What a node holds lies in its region, or stands for an interpolation that could not be read. -/
theorem All.encloses_or_unread (h : n.All (Laid source)) (hm : n.Holds m) :
    n.span.Encloses m.span ∨ m = .expr (.invalid ⟨bytes source, 0⟩) := by
  induction hm with
  | refl => exact .inl ⟨le_rfl, le_rfl⟩
  | @tail c d hc hd ih =>
    have hlaid := h c hc
    rcases ih with ih | rfl
    · by_cases hstands : d ∈ c.standing (bytes source)
      · obtain ⟨hlo, -, hhi⟩ := hlaid.inOrder.mem (mem_map_of_mem hstands)
        exact .inl (ih.trans ⟨hlo, hhi⟩)
      · exact .inr (eq_unread_of_mem hd hstands)
    · simp [parts, Expr.parts] at hd

/-- A node with a region that is not empty lies in every node that holds it. -/
theorem All.encloses_of_pos (h : n.All (Laid source)) (hm : n.Holds m) (hpos : 0 < m.span.len) :
    n.span.Encloses m.span := by
  refine (h.encloses_or_unread hm).resolve_right ?_
  rintro rfl
  exact absurd hpos (Nat.lt_irrefl 0)

/-- Of two nodes in order, what the first holds is before what the second holds. -/
theorem Before.of_holds {n' m' : Node} (h : n.Before m) (hn : n.All (Laid source))
    (hm : m.All (Laid source)) (hn' : n.Holds n') (hm' : m.Holds m') (hpos : 0 < n'.span.len)
    (hpos' : 0 < m'.span.len) : n'.Before m' := by
  have hle := (hn.encloses_of_pos hn' hpos).2
  have hle' := (hm.encloses_of_pos hm' hpos').1
  exact (hle.trans h).trans hle'

/-- Two nodes below the same list of nodes in order are below the same one, or apart. -/
theorem same_or_apart {lo hi : Nat} {ns : List Node} (h : InOrder lo hi (ns.map span)) {c d : Node}
    (hc : c ∈ ns) (hd : d ∈ ns) : c = d ∨ c.Before d ∨ d.Before c := by
  induction ns generalizing lo with
  | nil => simp at hc
  | cons e rest ih =>
    obtain ⟨-, -, hrest⟩ := h
    have hbefore {f : Node} (hf : f ∈ rest) : e.Before f := (hrest.mem (mem_map_of_mem hf)).1
    rcases mem_cons.1 hc with rfl | hc' <;> rcases mem_cons.1 hd with rfl | hd'
    · exact .inl rfl
    · exact .inr (.inl (hbefore hd'))
    · exact .inr (.inr (hbefore hc'))
    · exact ih hrest hc' hd'

/-- Two nodes whose regions are not empty are apart, or one of them holds the other. -/
theorem apart_or_holds (h : n.All (Laid source)) (hm : n.Holds m) (hl : n.Holds l)
    (hpos : 0 < m.span.len) (hpos' : 0 < l.span.len) :
    m.Before l ∨ l.Before m ∨ m.Holds l ∨ l.Holds m := by
  -- downwards from the node that holds both, as long as both are below the same part
  induction hm using Relation.ReflTransGen.head_induction_on with
  | refl => exact .inr (.inr (.inl hl))
  | @head a c hc hcm ih =>
    rcases holds_iff.1 hl with rfl | ⟨d, hd, hdl⟩
    · exact .inr (.inr (.inr ((holds_of_mem hc).trans hcm)))
    · have hall := h.of_holds (holds_of_mem hc)
      have hall' := h.of_holds (holds_of_mem hd)
      rcases same_or_apart h.self.inOrder (mem_standing hc hcm hpos) (mem_standing hd hdl hpos') with
        rfl | hcd | hdc
      · exact ih hall hdl
      · exact .inl (hcd.of_holds hall hall' hcm hdl hpos hpos')
      · exact .inr (.inl (hdc.of_holds hall' hall hdl hcm hpos' hpos))

/-- A node of a tree with a region that is not empty. -/
def Stands (tree n : Node) : Prop := tree.Holds n ∧ n.span.lo < n.span.hi

end Node

/-! ### Nodes in a row -/

/-- Nodes of a tree that stand in a row between two offsets. -/
structure Row (tree : Node) (a b : Nat) (ns : List Node) : Prop where
  holds : ∀ n ∈ ns, tree.Holds n
  inOrder : InOrder a b (ns.map Node.span)

/-- A row of nodes in a region. -/
abbrev RowIn (tree : Node) (span : Span) (ns : List Node) : Prop := Row tree span.lo span.hi ns

namespace Row

variable {source : List Char} {tree n : Node} {a b c : Nat} {ns ms : List Node} {α : Type}

/-- What stands directly below a node is a row in its region. -/
theorem standing (hlaid : tree.All (Node.Laid source)) (hn : tree.Holds n) :
    RowIn tree n.span (n.standing (bytes source)) :=
  ⟨fun _ hm => hn.trans (Node.holds_of_mem (Node.mem_parts_of_standing hm)), (hlaid n hn).inOrder⟩

/-- The parts of a node are a row in its region. -/
theorem parts (hlaid : tree.All (Node.Laid source)) (hn : tree.Holds n)
    (hcomposite : n.isComposite) : RowIn tree n.span n.parts :=
  Node.standing_eq_parts hcomposite _ ▸ standing hlaid hn

theorem le (h : Row tree a b ns) : a ≤ b := h.inOrder.le

section

variable (h : Row tree a b (n :: ns))
include h

theorem head : tree.Stands n :=
  ⟨h.holds n mem_cons_self, h.inOrder.2.1⟩

theorem lo_le : a ≤ n.span.lo := h.inOrder.1

theorem hi_le : n.span.hi ≤ b := h.inOrder.2.2.le

theorem le_hi : a ≤ n.span.hi :=
  h.lo_le.trans h.head.2.le

theorem tail : Row tree n.span.hi b ns :=
  ⟨fun m hm => h.holds m (mem_cons_of_mem n hm), h.inOrder.2.2⟩

end

theorem split (h : Row tree a b (ns ++ ms)) : ∃ c, Row tree a c ns ∧ Row tree c b ms := by
  have ho := h.inOrder
  rw [map_append] at ho
  obtain ⟨c, hns, hms⟩ := ho.split
  exact ⟨c, ⟨fun n hn => h.holds n (mem_append_left ms hn), hns⟩,
    ⟨fun n hn => h.holds n (mem_append_right ns hn), hms⟩⟩

theorem mono_left (h : Row tree b c ns) (hab : a ≤ b) : Row tree a c ns :=
  ⟨h.holds, h.inOrder.mono_left hab⟩

theorem of_mem {xs : List α} {f : α → Node} (h : Row tree a b (xs.map f)) :
    ∀ x ∈ xs, tree.Holds (f x) :=
  fun _ hx => h.holds _ (mem_map_of_mem hx)

theorem of_mem_option {x : Option α} {f : α → Node} (h : Row tree a b (x.toList.map f)) :
    ∀ y ∈ x, tree.Holds (f y) :=
  fun y hy => h.of_mem y (Option.mem_toList.2 hy)

end Row

end ScriptCheck
