import ScriptCheck.Grammar.Program
import ScriptCheck.Proofs.Nodes

/-!
# How nodes and faults come about

Some nodes of a tree are made by a keyword (`Node.words`), and some faults name the kind of a token
that stands in the place of another one (`SyntaxError.found?`). Both come from the tokens that are
read, or from those of an interpolation in one of them (`Located.FoundIn`).

`Node.Grown source tokens k n` says how a node comes about: it has grown from its parts, a keyword
that makes it is one of the tokens, and on the way from its parts to the node, one of `k` levels is
used up if the node is a statement with branches or a body. Two kinds of nodes use no level of those
around them: a further test of an `if` with colons, and a template, whose interpolations have grown
from tokens of their own and with all levels left.
-/

namespace ScriptCheck

open Text

variable {ts us : List Token} {x : Located SyntaxError}

/-! ### Words and found tokens -/

/-- The kind of token that a fault names as found. -/
def SyntaxError.found? : SyntaxError → Option TokenKind
  | expected _ found => some found
  | expectedWord _ found => some found
  | expectedExpression found => some found
  | _ => none

/-- The keywords one of which makes a statement. -/
@[simp]
def Stmt.words : Stmt → List Keyword
  | .decl _ kind _ => [kind.keyword]
  | .function .. => [.functionKw]
  | .ifElse .. => [.ifKw, .elifKw]
  | .whileLoop .. => [.whileKw]
  | .forLoop .. => [.forKw]
  | .forIn .. => [.forKw]
  | .switch .. => [.switchKw]
  | .tryCatch .. => [.tryKw]
  | .returns .. => [.returnKw]
  | .breaks _ => [.breakKw]
  | .continues _ => [.continueKw]
  | .imports .. => [.importKw]
  | .exportDecl .. => [.exportKw]
  | .exportDefault .. => [.exportKw]
  | .exportNames .. => [.exportKw]
  | .exportAll .. => [.exportKw]
  | .expr .. => []
  | .block .. => []
  | .empty _ => []

/-- The keyword that makes an expression. -/
@[simp]
def Expr.words : Expr → List Keyword
  | .bool _ value => [if value then .trueKw else .falseKw]
  | .null _ => [.nullKw]
  | .this _ => [.thisKw]
  | .function .. => [.functionKw]
  | .unary _ .delete _ => [.deleteKw]
  | .binary _ .isIn _ _ => [.inKw]
  | _ => []

/-- A keyword is one of some tokens. -/
def Keyword.OccursIn (tokens : List Token) (w : Keyword) : Prop :=
  ∃ t ∈ tokens, t.kind = .keyword w

theorem Keyword.OccursIn.mono {w : Keyword} (h : w.OccursIn ts) (hsub : ts ⊆ us) :
    w.OccursIn us := by
  obtain ⟨t, ht, hkind⟩ := h
  exact ⟨t, hsub ht, hkind⟩

/-- If an operator is a keyword, it is one of some tokens. -/
def Infix.OccursIn (tokens : List Token) (op : Infix) : Prop :=
  op = .binary .isIn → Keyword.inKw.OccursIn tokens

/-- A token is one of some tokens, or one of an interpolation in them. -/
inductive Token.Among : List Token → Token → Prop
  | mem {tokens : List Token} {u : Token} (h : u ∈ tokens) : Among tokens u
  | interpolation {tokens : List Token} {t u : Token} {e : Excerpt} (ht : t ∈ tokens)
    (hkind : t.kind = .template) (he : e ∈ t.interpolations)
    (hu : Among (tokensFrom .normal .none e.lo e.text) u) : Among tokens u

/-- If a fault names the kind of a token, it is listed at such a token. -/
def Located.FoundIn (tokens : List Token) (x : Located SyntaxError) : Prop :=
  ∀ kind, x.value.found? = some kind → ∃ u : Token, u.Among tokens ∧ u.kind = kind ∧ u.span = x.span

theorem Located.FoundIn.mono (h : x.FoundIn ts) (hsub : ts ⊆ us) : x.FoundIn us := by
  intro kind hkind
  obtain ⟨u, hu, hx⟩ := h kind hkind
  refine ⟨u, ?_, hx⟩
  cases hu with
  | mem h => exact .mem (hsub h)
  | interpolation ht hkind he hu => exact .interpolation (hsub ht) hkind he hu

/-- A fault that names no token. -/
theorem Located.foundIn_of_eq_none {tokens : List Token} (h : x.value.found? = none) :
    x.FoundIn tokens :=
  fun kind hkind => absurd (h ▸ hkind) (by simp)

/-- A fault has its place at some tokens: that of a single token lies in one of them, and one that
names a token is listed at it. -/
structure Located.Accounted (tokens : List Token) (x : Located SyntaxError) : Prop where
  foundIn : x.FoundIn tokens
  lexical : x.value.isLexical → ∃ u ∈ tokens, u.span.Encloses x.span

theorem Located.Accounted.mono (h : x.Accounted ts) (hsub : ts ⊆ us) : x.Accounted us := by
  refine ⟨h.foundIn.mono hsub, fun hlex => ?_⟩
  obtain ⟨u, hu, hx⟩ := h.lexical hlex
  exact ⟨u, hsub hu, hx⟩

namespace Node

/-- The keywords one of which makes a node. A name has none, also where it is spelled like one. -/
@[simp]
def words : Node → List Keyword
  | .stmt s => s.words
  | .case _ => [.caseKw, .defaultKw]
  | .expr e => e.words
  | .name _ => []

/-! ### Nodes that are counted -/

/-- Whether a node is a statement with branches or a body: an `if`, a loop, a `switch` or a
`try`. -/
def nests : Node → Bool
  | .stmt (.ifElse ..) => true
  | .stmt (.whileLoop ..) => true
  | .stmt (.forLoop ..) => true
  | .stmt (.forIn ..) => true
  | .stmt (.switch ..) => true
  | .stmt (.tryCatch ..) => true
  | _ => false

/-- Whether a node is a template. -/
def isTemplate : Node → Bool
  | .expr (.template ..) => true
  | _ => false

/-- Whether a node is a further test of an `if` with colons: its region starts with the word
`elif`. -/
def isElif (source : List Char) : Node → Bool
  | .stmt (.ifElse span _ _ _) =>
    slice? source span.lo (span.lo + bytes "elif".toList) == some "elif".toList
  | _ => false

variable {source : List Char} {tokens : List Token} {k l : Nat} {n : Node} {w : Keyword}

/-! ### Growth -/

/-- How a node is made of parts with `k` levels, so that it has `l` levels: if a keyword makes it, one
is there, and a statement with branches or a body takes a level unless it is a further test. -/
structure Made (source : List Char) (tokens : List Token) (k l : Nat) (n : Node) : Prop where
  le : k ≤ l
  word : n.words = [] ∨ ∃ w ∈ n.words, w.OccursIn tokens
  level : n.nests = true → k < l ∨ n.isElif source = true

/-- No keyword makes a node. -/
theorem made_plain (h : n.words = []) : n.Made source tokens k k := by
  refine ⟨le_rfl, .inl h, fun hnests => ?_⟩
  unfold nests at hnests
  split at hnests <;> simp at h hnests

/-- A keyword makes a node that takes no level. -/
theorem made_word (hw : w.OccursIn tokens) (hmem : w ∈ n.words) (hnests : n.nests = false) :
    n.Made source tokens k k :=
  ⟨le_rfl, .inr ⟨w, hmem, hw⟩, fun h => absurd h (by simp [hnests])⟩

/-- A keyword makes a node, which may take a level. -/
theorem made_over (hw : w.OccursIn tokens) (hmem : w ∈ n.words) : n.Made source tokens k (k + 1) :=
  ⟨Nat.le_succ k, .inr ⟨w, hmem, hw⟩, fun _ => .inl (Nat.lt_succ_self k)⟩

/-- How a node has grown from some tokens, with `k` levels. -/
inductive Grown (source : List Char) : List Token → Nat → Node → Prop
  | node {tokens : List Token} {k l : Nat} {n : Node}
    (hparts : ∀ m ∈ n.parts, Grown source tokens k m) (hmade : n.Made source tokens k l) :
    Grown source tokens l n
  | template {tokens : List Token} {k : Nat} {t : Token} {span : Span}
    {read : List (Expr × Excerpt)} (ht : t ∈ tokens) (hkind : t.kind = .template)
    (hread : ∀ p ∈ read, p.2 ∈ t.interpolations ∧
      (p.1.isUnread (bytes source) ∨ p.2.span.Encloses p.1.span))
    (hparts : ∀ p ∈ read, Grown source (tokensFrom .normal .none p.2.lo p.2.text) maxNesting
      (.expr p.1)) :
    Grown source tokens k (.expr (.template span (read.map Prod.fst)))

/-- More tokens or levels may be there. -/
theorem Grown.mono {us : List Token} (h : n.Grown source tokens k) (hsub : tokens ⊆ us)
    (hkl : k ≤ l) : n.Grown source us l := by
  induction h generalizing l with
  | node hparts hmade ih =>
    obtain ⟨hle, hword, hlevel⟩ := hmade
    refine .node (fun m hm => ih m hm hsub le_rfl) ⟨hle.trans hkl, ?_, ?_⟩
    · exact hword.imp_right fun ⟨w, hmem, hw⟩ => ⟨w, hmem, hw.mono hsub⟩
    · exact fun hnests => (hlevel hnests).imp_left (Nat.lt_of_lt_of_le · hkl)
  | template ht hkind hread hparts => exact .template (hsub ht) hkind hread hparts

/-- A node without parts. -/
theorem grown_leaf (hparts : n.parts = []) (hmade : n.Made source tokens k l) :
    n.Grown source tokens l :=
  .node (k := k) (by simp [hparts]) hmade

end Node

end ScriptCheck
