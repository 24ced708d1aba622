import ScriptCheck.Analysis.Walk
import ScriptCheck.Proofs.Ancestors
import ScriptCheck.Proofs.Nodes

/-!
# What a part of a program does to the table

A part of a program is visited in a scope that is open there, and lies in a region of it. To the
table it adds scopes and uses in this region, and no scope of it encloses what was there before
(`Effect`). So parts that lie apart do not disturb each other (`Effect.trans`): the scope at a use,
and whether the symbol used is declared around it, stays the same when other parts are visited.

There is one exception. The subject of a `switch` and the values of a `for` loop are visited before
the scope is opened that spans the whole statement, so that this scope hides the scopes of functions
in them (`Effect.headed`). The regions of such expressions are the `heads` of a part.

New scopes lie apart, unless one of them is around the other one, with a second exception: the scope
for the body of a `try` spans the handler too (`Effect.openedThen`). What a statement visits outside
of a scope that spans all of it is what it *exposes*.
-/

namespace ScriptCheck

open List

variable {head : Span}

/-! ### What statements expose -/

/-- Two regions do not overlap. -/
def Span.Apart (s t : Span) : Prop := s.hi ≤ t.lo ∨ t.hi ≤ s.lo

theorem Span.Apart.symm {s t : Span} (h : s.Apart t) : t.Apart s := Or.symm h

/-- The region from what a handler gets to its last statement. -/
def Walk.handlerRegion (param : Option Ident) (handler : List Stmt) : Option Span :=
  match param, bodySpan handler with
  | some param, some body => some (param.span.through body)
  | some param, none => some param.span
  | none, body => body

/-- The region of the expression that a statement visits before it opens a scope for all of it. -/
def Node.head? : Node → Option Span
  | .stmt (.forIn _ (some _) _ _ iterable _) => some iterable.span
  | .stmt (.switch span subject cases) =>
    if (Walk.switchSpan span cases).isSome then some subject.span else none
  | _ => none

/-- The region of what a statement visits before it opens a scope for all of it, or after the scope
is closed. -/
def Node.exposed? : Node → Option Span
  | .stmt (.tryCatch span body param handler) =>
    if (Walk.blockSpan span body).isSome then Walk.handlerRegion param handler else none
  | n => n.head?

/-- A statement of a tree has a scope with some region and exposes another one. -/
def Node.Exposes (tree : Node) (outer inner : Span) : Prop :=
  ∃ n region, tree.Holds n ∧ n.span = outer ∧ n.exposed? = some region ∧ region.Encloses inner

theorem Node.exposed?_of_head? {n : Node} (h : n.head? = some head) : n.exposed? = some head := by
  unfold exposed?
  split
  · cases h
  · exact h

namespace SymbolTable

variable {tree : Node} {t t₁ t₂ t' : SymbolTable} {u v a b a₁ b₁ a₂ b₂ : Nat}
  {heads heads₁ heads₂ : Span → Prop} {r : Reference} {x : Ident}

/-! ### Regions of scopes -/

/-- The region of a scope. -/
def span? (t : SymbolTable) (id : Nat) : Option Span := t.scopes[id]?.map Scope.span

variable {id offset z : Nat} {span : Span} {symbol : Symbol}

theorem hasScope_of_span? (h : t.span? id = some span) : t.hasScope id := by
  obtain ⟨s, hs, -⟩ := Option.map_eq_some_iff.1 h
  exact hasScope_iff.2 ⟨s, hs⟩

theorem lt_length_of_span? (h : t.span? id = some span) : id < t.scopes.length := by
  simpa [hasScope] using hasScope_of_span? h

theorem exists_span? (h : t.hasScope id) : ∃ span, t.span? id = some span := by
  obtain ⟨s, hs⟩ := hasScope_iff.1 h
  exact ⟨s.span, by rw [span?, hs, Option.map_some]⟩

theorem Extends.span?_eq (hext : t'.Extends t) (hid : t.hasScope id) :
    t'.span? id = t.span? id := by
  obtain ⟨s, hs⟩ := hasScope_iff.1 hid
  obtain ⟨s', hs', hgrew⟩ := hext id s hs
  rw [span?, span?, hs, hs', Option.map_some, Option.map_some, hgrew.span_eq]

theorem touches_of_span? (h : t.span? id = some span) (hlo : span.lo ≤ offset)
    (hhi : offset ≤ span.hi) : t.touches offset id := by
  obtain ⟨s, hs, rfl⟩ := Option.map_eq_some_iff.1 h
  exact touches_iff.2 ⟨s, hs, hlo, hhi⟩

theorem span?_of_touches (h : t.touches offset id) :
    ∃ span, t.span? id = some span ∧ span.lo ≤ offset ∧ offset ≤ span.hi := by
  obtain ⟨s, hs, hlo, hhi⟩ := touches_iff.1 h
  exact ⟨s.span, by rw [span?, hs, Option.map_some], hlo, hhi⟩

theorem span?_push (kind : ScopeKind) (u : Nat) (span : Span) :
    (t.push kind u span).span? t.scopes.length = some span := by
  rw [span?, push, getElem?_concat_length, Option.map_some]

/-! ### Tables of a tree -/

/-- The scopes of a table lie in the scopes around them, its symbols are names of a tree, and its
uses are names for which their symbols stand. -/
structure Sourced (tree : Node) (t : SymbolTable) : Prop where
  wellFormed : t.WellFormed
  nested : ∀ (id p : Nat) (s : Scope), t.scopes[id]? = some s → s.parent = some p →
    ∃ outer, t.span? p = some outer ∧ outer.Encloses s.span
  symbols : ∀ symbol ∈ t.symbols, ∃ x : Ident, tree.Holds (.name x) ∧ symbol.name = x.name ∧
    symbol.span = x.span
  references : ∀ r ∈ t.references, ∃ (x : Ident) (symbol : Symbol), tree.Holds (.name x) ∧
    r.span = x.span ∧ t.symbol? r.symbol = some symbol ∧ symbol.name = x.name

/-- The scopes around a scope enclose it. -/
theorem Sourced.encloses (h : t.Sourced tree) (hid : t.span? id = some span)
    (hu : u ∈ t.ancestors id) : ∃ outer, t.span? u = some outer ∧ outer.Encloses span := by
  induction id using Nat.strongRecOn generalizing span with
  | ind id ih =>
    obtain ⟨s, hs, rfl⟩ := Option.map_eq_some_iff.1 hid
    rcases (h.wellFormed.mem_ancestors_iff hs).1 hu with rfl | ⟨p, hp, hmem⟩
    · exact ⟨s.span, hid, le_rfl, le_rfl⟩
    · obtain ⟨middle, hmiddle, henc⟩ := h.nested id p s hs hp
      obtain ⟨outer, houter, henc'⟩ := ih p (h.wellFormed.parent_lt hs hp) hmiddle hmem
      exact ⟨outer, houter, henc'.trans henc⟩

theorem Sourced.hasScope_of_mem (h : t.Sourced tree) (hr : r ∈ t.references) :
    t.hasScope r.symbol.scope := by
  obtain ⟨x, symbol, -, -, hsymbol, -⟩ := h.references r hr
  obtain ⟨s, hs, -⟩ := Option.bind_eq_some_iff.1 hsymbol
  exact hasScope_iff.2 ⟨s, hs⟩

/-- A part of a region is to be visited in a scope of a table. The scope is open: all later scopes
are inside of it. -/
structure Ready (tree : Node) (t : SymbolTable) (u a b : Nat) : Prop where
  sourced : t.Sourced tree
  hasScope : t.hasScope u
  inside : ∀ z, t.hasScope z → u ≤ z → u ∈ t.ancestors z
  region : ∃ span, t.span? u = some span ∧ span.lo ≤ a ∧ b ≤ span.hi

theorem Ready.mono (h : Ready tree t u a b) (ha : a ≤ a₁) (hb : b₁ ≤ b) : Ready tree t u a₁ b₁ := by
  obtain ⟨span, hspan, hlo, hhi⟩ := h.region
  exact ⟨h.sourced, h.hasScope, h.inside, span, hspan, by omega, by omega⟩

theorem Ready.lt_length (h : Ready tree t u a b) : u < t.scopes.length := by
  simpa [SymbolTable.hasScope] using h.hasScope

/-- The scopes around an open scope enclose what is visited. -/
theorem Ready.around (h : Ready tree t u a b) {d : Nat} (hd : d ∈ t.ancestors u) :
    ∃ span, t.span? d = some span ∧ span.lo ≤ a ∧ b ≤ span.hi := by
  obtain ⟨span, hspan, hlo, hhi⟩ := h.region
  obtain ⟨outer, houter, henc⟩ := h.sourced.encloses hspan hd
  exact ⟨outer, houter, henc.1.trans hlo, hhi.trans henc.2⟩

theorem Ready.touches (h : Ready tree t u a b) (hlo : a ≤ offset) (hhi : offset ≤ b) :
    t.touches offset u := by
  obtain ⟨span, hspan, hlo', hhi'⟩ := h.region
  exact touches_of_span? hspan (hlo'.trans hlo) (hhi.trans hhi')

/-! ### Uses -/

/-- The symbol used is declared in the scope at the use, or in one around it. -/
def Shows (t : SymbolTable) (r : Reference) : Prop :=
  r.symbol.scope ∈ t.ancestors (t.scopeAt r.span.lo)

/-- A region encloses the scope in which the symbol used is declared. -/
def Covers (t : SymbolTable) (region : Span) (r : Reference) : Prop :=
  ∃ span, t.span? r.symbol.scope = some span ∧ region.Encloses span

/-- What is known of a use after the part was visited in which it stands: its region is in that of
the part, and its symbol is declared around the part or in a scope of the part. The symbol is
declared around the scope at the use, except for one that is declared in a head. -/
structure Recorded (u a b : Nat) (heads : Span → Prop) (t t' : SymbolTable) (r : Reference) :
    Prop where
  region : a ≤ r.span.lo ∧ r.span.lo < r.span.hi ∧ r.span.hi ≤ b
  declared : r.symbol.scope ∈ t.ancestors u ∨ t.scopes.length ≤ r.symbol.scope
  shows : t'.Shows r ↔ ∀ head, heads head → ¬t'.Covers head r

/-- Of two scopes, the first one is around the second one, or they lie apart, or one of them is that
of a statement which exposes the other one. -/
def Separate (tree : Node) (t : SymbolTable) (z w : Nat) : Prop :=
  ∀ s s', t.span? z = some s → t.span? w = some s' →
    z ∈ t.ancestors w ∨ s.Apart s' ∨ tree.Exposes s s' ∨ tree.Exposes s' s

/-- The uses in a table that are not in an earlier one. -/
def newReferences (t t' : SymbolTable) : List Reference :=
  t'.references.drop t.references.length

/-- What a part of a program does to the table. -/
structure Effect (tree : Node) (u a b : Nat) (heads : Span → Prop) (t t' : SymbolTable) : Prop where
  grows : t'.Extends t
  sourced : t'.Sourced tree
  inside : ∀ z, t'.hasScope z → u ≤ z → u ∈ t'.ancestors z
  scopes : ∀ (z : Nat) (span : Span), t.scopes.length ≤ z → t'.span? z = some span →
    a ≤ span.lo ∧ span.lo < span.hi ∧ span.hi ≤ b
  separate : ∀ z w, t.scopes.length ≤ z → z < w → t'.Separate tree z w
  names : ∀ z, z < t.functionScope u → t'.namesIn z = t.namesIn z
  heads_within : ∀ head, heads head → a < head.lo ∧ head.hi ≤ b
  keeps : t.references <+: t'.references
  recorded : ∀ r ∈ newReferences t t', Recorded u a b heads t t' r
  unique : ∀ r ∈ newReferences t t', ∀ r' ∈ newReferences t t', r.span = r'.span → r = r'

/-! ### Scopes while the table grows -/

theorem Separate.later {w : Nat} (h : t.Separate tree z w) (hext : t'.Extends t)
    (hwf : t.WellFormed) (hwf' : t'.WellFormed) (hlt : z < w) (hw : t.hasScope w) :
    t'.Separate tree z w := by
  have hz : t.hasScope z := by
    simp only [hasScope, decide_eq_true_eq] at hw ⊢
    omega
  rw [Separate, hext.span?_eq hz, hext.span?_eq hw, hext.ancestors_eq hwf hwf' hw]
  exact h

theorem mem_newReferences_trans (h : t.references <+: t₁.references)
    (h' : t₁.references <+: t₂.references) :
    r ∈ newReferences t t₂ ↔ r ∈ newReferences t t₁ ∨ r ∈ newReferences t₁ t₂ := by
  obtain ⟨l, hl⟩ := h
  obtain ⟨l', hl'⟩ := h'
  simp [newReferences, ← hl, ← hl']

theorem not_mem_newReferences_self : r ∉ newReferences t t := by
  simp [newReferences]

theorem mem_of_mem_newReferences (h : r ∈ newReferences t t') : r ∈ t'.references :=
  mem_of_mem_drop h

/-! ### Regions that do not enclose -/

/-- A region in a part does not enclose a scope around it. -/
theorem Ready.not_covers (h : Ready tree t u a b) (hext : t'.Extends t)
    (hd : r.symbol.scope ∈ t.ancestors u) (hhead : a < head.lo) :
    ¬t'.Covers head r := by
  rintro ⟨span, hspan, henc⟩
  obtain ⟨outer, houter, hlo, -⟩ := h.around hd
  rw [hext.span?_eq (hasScope_of_span? houter), houter] at hspan
  obtain rfl := Option.some.inj hspan
  exact absurd (henc.1.trans hlo) (by omega)

/-- A region does not enclose a scope that lies apart from it. -/
theorem not_covers_of_apart (hhead : a₁ < head.lo ∧ head.hi ≤ b₁)
    (hscope : ∀ span, t'.span? r.symbol.scope = some span →
      a₂ ≤ span.lo ∧ span.lo < span.hi ∧ span.hi ≤ b₂) (hapart : b₁ ≤ a₂ ∨ b₂ ≤ a₁) :
    ¬t'.Covers head r := by
  rintro ⟨span, hspan, hlo, hhi⟩
  have hbound := hscope span hspan
  omega

theorem Extends.covers_iff (hext : t'.Extends t) (hr : t.hasScope r.symbol.scope) {region : Span} :
    t'.Covers region r ↔ t.Covers region r := by
  rw [Covers, Covers, hext.span?_eq hr]

/-! ### Uses while the table grows -/

theorem Extends.shows_iff (hext : t'.Extends t) (h : t.WellFormed) (h' : t'.WellFormed)
    (hu : t.touches r.span.lo u)
    (hnew : ∀ z, t.scopes.length ≤ z → ¬t'.touches r.span.lo z) : t'.Shows r ↔ t.Shows r := by
  obtain ⟨hat, -⟩ := scopeAt_spec hu
  obtain ⟨span, hspan, -⟩ := span?_of_touches hat
  rw [Shows, Shows, hext.scopeAt_eq hu hnew, hext.ancestors_eq h h' (hasScope_of_span? hspan)]

namespace Recorded

/-- A use after other parts were visited, which lie apart from it. -/
theorem later (h : Recorded u a₁ b₁ heads₁ t t₁ r) (hext : t₂.Extends t₁)
    (hshows : t₂.Shows r ↔ t₁.Shows r) (hr : t₁.hasScope r.symbol.scope)
    (hclear : ∀ head, heads₂ head → ¬t₂.Covers head r) (ha : a ≤ a₁) (hb : b₁ ≤ b) :
    Recorded u a b (fun head => heads₁ head ∨ heads₂ head) t t₂ r := by
  obtain ⟨hlo, hlt, hhi⟩ := h.region
  refine ⟨⟨by omega, hlt, by omega⟩, h.declared, ?_⟩
  rw [hshows, h.shows]
  constructor
  · rintro hnone head (hhead | hhead)
    · rw [hext.covers_iff hr]
      exact hnone head hhead
    · exact hclear head hhead
  · intro hnone head hhead
    rw [← hext.covers_iff hr]
    exact hnone head (.inl hhead)

/-- A use before which other parts were visited. -/
theorem earlier (h : Recorded u a₂ b₂ heads₂ t₁ t₂ r) (hancestors : t₁.ancestors u = t.ancestors u)
    (hlength : t.scopes.length ≤ t₁.scopes.length)
    (hclear : ∀ head, heads₁ head → ¬t₂.Covers head r) (ha : a ≤ a₂) (hb : b₂ ≤ b) :
    Recorded u a b (fun head => heads₁ head ∨ heads₂ head) t t₂ r := by
  obtain ⟨hlo, hlt, hhi⟩ := h.region
  refine ⟨⟨by omega, hlt, by omega⟩, ?_, ?_⟩
  · rw [← hancestors]
    exact h.declared.imp_right (Nat.le_trans hlength)
  · rw [h.shows]
    constructor
    · rintro hnone head (hhead | hhead)
      · exact hclear head hhead
      · exact hnone head hhead
    · exact fun hnone head hhead => hnone head (.inr hhead)

/-- A use in a scope that was opened. -/
theorem enclose {kind : ScopeKind}
    (h : Recorded t.scopes.length a b heads (t.push kind u span) t' r) (hwf : t.WellFormed)
    (hu : t.hasScope u) : Recorded u a b heads t t' r := by
  refine ⟨h.region, ?_, h.shows⟩
  have hdeclared := h.declared
  rw [hwf.ancestors_push hu, mem_cons] at hdeclared
  simp only [push, length_append, length_singleton] at hdeclared
  rcases hdeclared with (hself | haround) | hnew
  · exact .inr (Nat.le_of_eq hself.symm)
  · exact .inl haround
  · exact .inr (Nat.le_of_succ_le hnew)

end Recorded

/-! ### Parts one after the other -/

namespace Effect

/-- After a part was visited, the next one can be. -/
theorem ready (h : Effect tree u a₁ b₁ heads t t') (hready : Ready tree t u a b) :
    Ready tree t' u a b := by
  obtain ⟨span, hspan, hlo, hhi⟩ := hready.region
  refine ⟨h.sourced, h.grows.hasScope hready.hasScope, h.inside, span, ?_, hlo, hhi⟩
  rw [h.grows.span?_eq hready.hasScope, hspan]

theorem ancestors_eq (h : Effect tree u a₁ b₁ heads t t') (hready : Ready tree t u a b) :
    t'.ancestors u = t.ancestors u :=
  h.grows.ancestors_eq hready.sourced.wellFormed h.sourced.wellFormed hready.hasScope

/-- New scopes of a part do not touch an offset that is apart from it. -/
theorem not_touches (h : Effect tree u a b heads t t')
    (hapart : offset < a ∨ b < offset ∨ t'.scopes.length = t.scopes.length) (z : Nat)
    (hz : t.scopes.length ≤ z) : ¬t'.touches offset z := by
  intro htouches
  obtain ⟨span, hspan, hlo, hhi⟩ := span?_of_touches htouches
  have hbound := h.scopes z span hz hspan
  have hlt := lt_length_of_span? hspan
  omega

/-- Nothing is visited. -/
theorem refl (hready : Ready tree t u a b)
    (hheads : ∀ head, heads head → a < head.lo ∧ head.hi ≤ b) : Effect tree u a b heads t t where
  grows := .refl t
  sourced := hready.sourced
  inside := hready.inside
  scopes z span hz hspan := by
    have hlt := lt_length_of_span? hspan
    omega
  separate z w hz _ s _ hspan _ := by
    have hlt := lt_length_of_span? hspan
    omega
  names _ _ := rfl
  heads_within := hheads
  keeps := prefix_rfl
  recorded _ hr := absurd hr not_mem_newReferences_self
  unique _ hr := absurd hr not_mem_newReferences_self

theorem none (hready : Ready tree t u a b) : Effect tree u a b (fun _ => False) t t :=
  refl hready nofun

/-- A part lies in every region around it. -/
theorem mono (h : Effect tree u a₁ b₁ heads t t') (ha : a ≤ a₁) (hb : b₁ ≤ b) :
    Effect tree u a b heads t t' := by
  refine ⟨h.grows, h.sourced, h.inside, fun z span hz hspan => ?_, h.separate, h.names,
    fun head hhead => ?_, h.keeps, fun r hr => ?_, h.unique⟩
  · have := h.scopes z span hz hspan
    omega
  · have := h.heads_within head hhead
    omega
  · obtain ⟨hlo, hlt, hhi⟩ := (h.recorded r hr).region
    exact ⟨⟨by omega, hlt, by omega⟩, (h.recorded r hr).declared, (h.recorded r hr).shows⟩

/-- Uses that lie apart have different regions. -/
theorem ne_of_apart (h₁ : Effect tree u a₁ b₁ heads₁ t t₁) (h₂ : Effect tree v a₂ b₂ heads₂ t' t₂)
    (hapart : b₁ ≤ a₂ ∨ b₂ ≤ a₁) :
    ∀ r ∈ newReferences t t₁, ∀ r' ∈ newReferences t' t₂, r.span ≠ r'.span := by
  intro r hr r' hr' hspan
  have hregion := (h₁.recorded r hr).region
  have hregion' := (h₂.recorded r' hr').region
  rw [hspan] at hregion
  omega

/-- A region apart from a part, and within what the part lies in, does not enclose the scope of a
symbol that is used in the part. -/
theorem not_covers (hready : Ready tree t u a b) (h : Effect tree u a₁ b₁ heads t t₁)
    (hext : t₂.Extends t₁) (hr : r ∈ newReferences t t₁) (hlo : a < head.lo)
    (hhead : a₂ < head.lo ∧ head.hi ≤ b₂) (hapart : b₁ ≤ a₂ ∨ b₂ ≤ a₁) : ¬t₂.Covers head r := by
  rw [hext.covers_iff (h.sourced.hasScope_of_mem (mem_of_mem_newReferences hr))]
  rcases (h.recorded r hr).declared with haround | hinner
  · exact hready.not_covers h.grows haround hlo
  · exact not_covers_of_apart hhead (h.scopes _ · hinner) hapart.symm

/-- Scopes of parts that lie apart lie apart. -/
theorem separate_of_apart (h₁ : Effect tree u a₁ b₁ heads₁ t t₁)
    (h₂ : Effect tree v a₂ b₂ heads₂ t' t₂) (hext : t₂.Extends t₁) (hapart : b₁ ≤ a₂ ∨ b₂ ≤ a₁)
    {w : Nat} (hz : t.scopes.length ≤ z) (hz₁ : z < t₁.scopes.length) (hw : t'.scopes.length ≤ w) :
    t₂.Separate tree z w := by
  intro s s' hs hs'
  rw [hext.span?_eq (by simpa [hasScope] using hz₁)] at hs
  have hbound := h₁.scopes z s hz hs
  have hbound' := h₂.scopes w s' hw hs'
  have hsides : s.Apart s' := by
    unfold Span.Apart
    omega
  exact .inr (.inl hsides)

section

variable (hready : Ready tree t u a b) (h₁ : Effect tree u a₁ b₁ heads₁ t t₁)
  (h₂ : Effect tree u a₂ b₂ heads₂ t₁ t₂) (hin₁ : a ≤ a₁ ∧ b₁ ≤ b) (hin₂ : a ≤ a₂ ∧ b₂ ≤ b)
include hready h₁ h₂ hin₁ hin₂

/-- Two parts are visited. What is left to show is that their scopes and the uses in them are not
disturbed by each other. -/
theorem join (hscopes : ∀ z w, t.scopes.length ≤ z → z < t₁.scopes.length → t₁.scopes.length ≤ w →
      t₂.Separate tree z w)
    (hheads : ∀ head, heads head → a < head.lo ∧ head.hi ≤ b)
    (hlater : ∀ r ∈ newReferences t t₁, Recorded u a b heads t t₂ r)
    (hearlier : ∀ r ∈ newReferences t₁ t₂, Recorded u a b heads t t₂ r)
    (hne : ∀ r ∈ newReferences t t₁, ∀ r' ∈ newReferences t₁ t₂, r.span ≠ r'.span) :
    Effect tree u a b heads t t₂ := by
  have hnew {r : Reference} := @mem_newReferences_trans t t₁ t₂ r h₁.keeps h₂.keeps
  refine ⟨h₂.grows.trans h₁.grows, h₂.sourced, h₂.inside, ?_, ?_, ?_, hheads,
    h₁.keeps.trans h₂.keeps, ?_, ?_⟩
  · intro z span hz hspan
    by_cases hz₁ : z < t₁.scopes.length
    · rw [h₂.grows.span?_eq (by simpa [hasScope] using hz₁)] at hspan
      have := h₁.scopes z span hz hspan
      omega
    · have := h₂.scopes z span (by omega) hspan
      omega
  · intro z w hz hlt
    by_cases hz₁ : z < t₁.scopes.length
    · by_cases hw₁ : w < t₁.scopes.length
      · exact (h₁.separate z w hz hlt).later h₂.grows h₁.sourced.wellFormed h₂.sourced.wellFormed hlt
          (by simpa [hasScope] using hw₁)
      · exact hscopes z w hz hz₁ (by omega)
    · exact h₂.separate z w (by omega) hlt
  · intro z hz
    have hfunction := h₁.grows.functionScope_eq hready.sourced.wellFormed h₁.sourced.wellFormed
      hready.hasScope
    rw [h₂.names z (by omega), h₁.names z hz]
  · intro r hr
    rcases hnew.1 hr with hr₁ | hr₂
    · exact hlater r hr₁
    · exact hearlier r hr₂
  · intro r hr r' hr' hspan
    rcases hnew.1 hr with hr₁ | hr₂ <;> rcases hnew.1 hr' with hr₁' | hr₂'
    · exact h₁.unique r hr₁ r' hr₁' hspan
    · exact absurd hspan (hne r hr₁ r' hr₂')
    · exact absurd hspan.symm (hne r' hr₁' r hr₂)
    · exact h₂.unique r hr₂ r' hr₂' hspan

/-- Two parts are visited that lie apart. If the second one lies before the first, then a character
is between them or the second one has no scopes. -/
theorem trans (hapart : b₁ ≤ a₂ ∨ b₂ ≤ a₁)
    (hscopes : b₁ ≤ a₂ ∨ b₂ < a₁ ∨ t₂.scopes.length = t₁.scopes.length) :
    Effect tree u a b (fun head => heads₁ head ∨ heads₂ head) t t₂ := by
  have hready₁ := h₁.ready hready
  refine join hready h₁ h₂ hin₁ hin₂
    (fun z w hz hz₁ hw => h₁.separate_of_apart h₂ h₂.grows hapart hz hz₁ hw) ?_ ?_ ?_
    (h₁.ne_of_apart h₂ hapart)
  · rintro head (hhead | hhead)
    · have := h₁.heads_within head hhead
      omega
    · have := h₂.heads_within head hhead
      omega
  · intro r hr
    have hregion := (h₁.recorded r hr).region
    refine (h₁.recorded r hr).later h₂.grows ?_
      (h₁.sourced.hasScope_of_mem (mem_of_mem_newReferences hr)) (fun head hhead => ?_) hin₁.1 hin₁.2
    · exact h₂.grows.shows_iff h₁.sourced.wellFormed h₂.sourced.wellFormed
        (hready₁.touches (by omega) (by omega)) (h₂.not_touches (by omega))
    · have hwithin := h₂.heads_within head hhead
      exact h₁.not_covers hready h₂.grows hr (by omega) hwithin hapart
  · intro r hr
    refine (h₂.recorded r hr).earlier (h₁.ancestors_eq hready) h₁.grows.length_le
      (fun head hhead => ?_) hin₂.1 hin₂.2
    have hwithin := h₁.heads_within head hhead
    exact h₂.not_covers hready₁ (.refl t₂) hr (by omega) hwithin hapart.symm

end

/-- A part is visited, and then the table changes without new scopes and uses. -/
theorem thenPlain (hready : Ready tree t u a b) (h₁ : Effect tree u a b heads t t₁)
    (h₂ : Effect tree u b b (fun _ => False) t₁ t₂) (hab : a ≤ b) :
    Effect tree u a b heads t t₂ := by
  have h := h₁.trans hready h₂ ⟨le_rfl, le_rfl⟩ ⟨hab, le_rfl⟩
    (.inl le_rfl) (.inl le_rfl)
  simpa only [or_false] using h

end Effect

/-! ### Scopes that are opened -/

theorem symbols_push (kind : ScopeKind) (u : Nat) (span : Span) :
    (t.push kind u span).symbols = t.symbols := by
  simp [symbols, push]

theorem Sourced.push (h : t.Sourced tree) (kind : ScopeKind) {outer : Span}
    (hu : t.span? u = some outer) (henc : outer.Encloses span) :
    (t.push kind u span).Sourced tree := by
  have hhas := hasScope_of_span? hu
  refine ⟨h.wellFormed.push hhas kind span, ?_, ?_, ?_⟩
  · intro id p s hs hp
    by_cases hid : id < t.scopes.length
    · have hold : t.scopes[id]? = some s := by
        rwa [SymbolTable.push, getElem?_append_left hid] at hs
      obtain ⟨outer', houter, henc'⟩ := h.nested id p s hold hp
      exact ⟨outer', by rwa [extends_push.span?_eq (hasScope_of_span? houter)], henc'⟩
    · obtain ⟨hlt, -⟩ := List.getElem?_eq_some_iff.1 hs
      have hlast : id = t.scopes.length := by
        simp only [SymbolTable.push, length_append, length_singleton] at hlt
        omega
      rw [hlast, SymbolTable.push, getElem?_concat_length] at hs
      obtain rfl := Option.some.inj hs
      obtain rfl : u = p := Option.some.inj hp
      exact ⟨outer, by rwa [extends_push.span?_eq hhas], henc⟩
  · rw [symbols_push]
    exact h.symbols
  · intro r hr
    obtain ⟨x, symbol, hx, hspan, hsymbol, hname⟩ := h.references r hr
    obtain ⟨symbol', hsymbol', hname'⟩ := (extends_push (t := t)).symbol?_name hsymbol
    exact ⟨x, symbol', hx, hspan, hsymbol', hname'.trans hname⟩

theorem Ready.push (h : Ready tree t u a b) (kind : ScopeKind) (hlo : a ≤ span.lo)
    (hhi : span.hi ≤ b) : Ready tree (t.push kind u span) t.scopes.length span.lo span.hi := by
  obtain ⟨outer, houter, hlo', hhi'⟩ := h.region
  have hsourced := h.sourced.push kind houter ⟨hlo'.trans hlo, hhi.trans hhi'⟩
  have hspan := span?_push (t := t) kind u span
  refine ⟨hsourced, hasScope_of_span? hspan, fun z hz hle => ?_, span, hspan, le_rfl,
    le_rfl⟩
  obtain rfl : z = t.scopes.length := by
    simp only [SymbolTable.hasScope, SymbolTable.push, length_append, length_singleton,
      decide_eq_true_eq] at hz
    omega
  exact hsourced.wellFormed.mem_ancestors_self hz

namespace Effect

variable {kind : ScopeKind} {span : Span} (hready : Ready tree t u a b)

section

variable (hspan : a ≤ span.lo ∧ span.lo < span.hi ∧ span.hi ≤ b)
include hready hspan

/-- A part is visited in a scope of its own. -/
theorem opened (h : Effect tree t.scopes.length a₁ b₁ heads (t.push kind u span) t₁)
    (hin : span.lo ≤ a₁ ∧ b₁ ≤ span.hi) : Effect tree u a b heads t t₁ := by
  have hwf := hready.sourced.wellFormed
  have hready' := hready.push kind hspan.1 hspan.2.2
  have hgrows : t₁.Extends t := h.grows.trans extends_push
  have hinner := h.grows.span?_eq hready'.hasScope
  rw [span?_push] at hinner
  have hlength : (t.push kind u span).scopes.length = t.scopes.length + 1 := length_append
  refine ⟨hgrows, h.sourced, ?_, ?_, ?_, ?_, ?_, h.keeps, ?_, h.unique⟩
  · intro z hz hle
    have hself : u ∈ t₁.ancestors t.scopes.length := by
      rw [h.grows.ancestors_eq hready'.sourced.wellFormed h.sourced.wellFormed hready'.hasScope,
        hwf.ancestors_push hready.hasScope]
      exact mem_cons_of_mem _ (hwf.mem_ancestors_self hready.hasScope)
    by_cases hold : z < t.scopes.length
    · have hz' : t.hasScope z := by simpa [hasScope] using hold
      rw [hgrows.ancestors_eq hwf h.sourced.wellFormed hz']
      exact hready.inside z hz' hle
    · exact h.sourced.wellFormed.mem_ancestors_trans hz hself (h.inside z hz (by omega))
  · intro z span' hz hspan'
    by_cases hfirst : z = t.scopes.length
    · rw [hfirst, hinner] at hspan'
      obtain rfl := Option.some.inj hspan'
      exact hspan
    · have := h.scopes z span' (by omega) hspan'
      omega
  · intro z w hz hlt
    by_cases hfirst : z = t.scopes.length
    · intro s s' _ hs'
      rw [hfirst]
      exact .inl (h.inside w (hasScope_of_span? hs') (by omega))
    · exact h.separate z w (by omega) hlt
  · intro z hz
    have hle := hwf.functionScope_le_push hready.hasScope kind span
    rw [h.names z (by omega), namesIn_push]
  · intro head hhead
    have := h.heads_within head hhead
    omega
  · intro r hr
    have h' := (h.recorded r hr).enclose hwf hready.hasScope
    obtain ⟨hlo, hlt, hhi⟩ := h'.region
    exact ⟨⟨by omega, hlt, by omega⟩, h'.declared, h'.shows⟩

/-- A part is visited in a scope of its own, and then another one that lies in the region of that
scope but not in the scope. -/
theorem openedThen (h₁ : Effect tree t.scopes.length a₁ b₁ heads₁ (t.push kind u span) t₁)
    (h₂ : Effect tree u a₂ b₂ heads₂ t₁ t₂) (hin₁ : span.lo ≤ a₁ ∧ b₁ ≤ span.hi)
    (hin₂ : span.lo ≤ a₂ ∧ b₂ ≤ b) (hapart : b₁ ≤ a₂)
    (hexposes : ∀ s : Span, a₂ ≤ s.lo → s.lo < s.hi → s.hi ≤ b₂ → tree.Exposes span s) :
    Effect tree u a b (fun head => heads₁ head ∨ heads₂ head) t t₂ := by
  have h := opened hready hspan h₁ hin₁
  have hready₁ := h.ready hready
  have hready' := hready.push kind hspan.1 hspan.2.2
  refine join hready h h₂ ⟨le_rfl, le_rfl⟩ ⟨by omega, hin₂.2⟩ ?_ ?_ ?_ ?_
    (h₁.ne_of_apart h₂ (.inl hapart))
  · intro z w hz hz₁ hw
    by_cases hfirst : z = t.scopes.length
    · intro s s' hs hs'
      rw [hfirst, h₂.grows.span?_eq (h₁.grows.hasScope hready'.hasScope),
        h₁.grows.span?_eq hready'.hasScope, span?_push] at hs
      obtain rfl := Option.some.inj hs
      have hbound := h₂.scopes w s' hw hs'
      exact .inr (.inr (.inl (hexposes s' hbound.1 hbound.2.1 hbound.2.2)))
    · have hlength : (t.push kind u span).scopes.length = t.scopes.length + 1 := length_append
      exact h₁.separate_of_apart h₂ h₂.grows (.inl hapart) (by omega) hz₁ hw
  · rintro head (hhead | hhead)
    · exact h.heads_within head hhead
    · have := h₂.heads_within head hhead
      omega
  · intro r hr
    have hregion := (h₁.recorded r hr).region
    have hrecorded := (h₁.recorded r hr).enclose hready.sourced.wellFormed hready.hasScope
    refine hrecorded.later h₂.grows ?_
      (h.sourced.hasScope_of_mem (mem_of_mem_newReferences hr)) (fun head hhead => ?_)
      (by omega) (by omega)
    · exact h₂.grows.shows_iff h.sourced.wellFormed h₂.sourced.wellFormed
        (hready₁.touches (by omega) (by omega)) (h₂.not_touches (by omega))
    · have hwithin := h₂.heads_within head hhead
      exact h₁.not_covers hready' h₂.grows hr (by omega) hwithin (.inl hapart)
  · intro r hr
    refine (h₂.recorded r hr).earlier (h.ancestors_eq hready) h.grows.length_le
      (fun head hhead => ?_) (by omega) hin₂.2
    have hwithin := h₁.heads_within head hhead
    exact h₂.not_covers hready₁ (.refl t₂) hr (by omega) hwithin (.inr hapart)

variable (h₁ : Effect tree u head.lo head.hi heads₁ t t₁)
  (h₂ : Effect tree t₁.scopes.length a₂ b₂ heads₂ (t₁.push kind u span) t₂)
  (hhead : span.lo < head.lo ∧ head.hi ≤ a₂)
include h₁ h₂ hhead

/-- A use in a head, after the scope was opened that spans the head too: it is the scope at the use
now, and the symbol used is declared around it only if it is declared outside of the head. -/
theorem recorded_head (hin : a₂ ≤ span.hi) (hr : r ∈ newReferences t t₁) :
    Recorded u a b (fun region => (region = head ∨ heads₁ region) ∨ heads₂ region) t t₂ r := by
  have hready₁ := h₁.ready hready
  have hready' := hready₁.push kind hspan.1 hspan.2.2
  have hwf := hready.sourced.wellFormed
  have hgrows : t₂.Extends t₁ := h₂.grows.trans extends_push
  have hscope := h₁.sourced.hasScope_of_mem (mem_of_mem_newReferences hr)
  obtain ⟨⟨hlo, hlt, hhi⟩, hdeclared, -⟩ := h₁.recorded r hr
  have hinner : t₂.span? t₁.scopes.length = some span := by
    rw [h₂.grows.span?_eq hready'.hasScope, span?_push]
  have hat : t₂.scopeAt r.span.lo = t₁.scopes.length := by
    refine scopeAt_eq (touches_of_span? hinner (by omega) (by omega)) fun z hz => ?_
    by_contra hlater
    have hlength : (t₁.push kind u span).scopes.length = t₁.scopes.length + 1 := length_append
    exact h₂.not_touches (.inl (by omega)) z (by omega) hz
  have hshows : t₂.Shows r ↔ r.symbol.scope ∈ t.ancestors u := by
    have hne : r.symbol.scope ≠ t₁.scopes.length := by
      simp only [hasScope, decide_eq_true_eq] at hscope
      omega
    rw [Shows, hat, h₂.grows.ancestors_eq hready'.sourced.wellFormed h₂.sourced.wellFormed
      hready'.hasScope, h₁.sourced.wellFormed.ancestors_push hready₁.hasScope,
      h₁.ancestors_eq hready, mem_cons, or_iff_right hne]
  refine ⟨⟨by omega, hlt, by omega⟩, hdeclared, ?_⟩
  rw [hshows]
  constructor
  · intro haround region hregion
    refine hready.not_covers (hgrows.trans h₁.grows) haround ?_
    rcases hregion with (rfl | hregion) | hregion
    · omega
    · have := h₁.heads_within region hregion
      omega
    · have := h₂.heads_within region hregion
      omega
  · intro hnone
    refine hdeclared.resolve_right fun hnew => hnone head (.inl (.inl rfl)) ?_
    obtain ⟨inner, hinner⟩ := exists_span? hscope
    have hbound := h₁.scopes _ inner hnew hinner
    exact ⟨inner, by rw [hgrows.span?_eq hscope, hinner], hbound.1, hbound.2.2⟩

/-- A head is visited, and then a scope is opened that spans the head too. -/
theorem headed (hin : a₂ ≤ b₂ ∧ b₂ ≤ span.hi)
    (hexposes : ∀ s : Span, head.Encloses s → tree.Exposes span s) :
    Effect tree u a b (fun region => (region = head ∨ heads₁ region) ∨ heads₂ region) t t₂ := by
  have hready₁ := h₁.ready hready
  have hready' := hready₁.push kind hspan.1 hspan.2.2
  have hle := head.lo_le_hi
  have h := opened hready₁ hspan h₂ ⟨by omega, hin.2⟩
  have hne : ∀ r ∈ newReferences t t₁, ∀ r' ∈ newReferences t₁ t₂, r.span ≠ r'.span :=
    fun r hr r' hr' => h₁.ne_of_apart h₂ (.inl hhead.2) r hr r' hr'
  refine join hready h₁ h ⟨by omega, by omega⟩ ⟨le_rfl, le_rfl⟩ ?_ ?_ ?_ ?_ hne
  · intro z w hz hz₁ hw
    have hgrows : t₂.Extends t₁ := h₂.grows.trans extends_push
    by_cases hfirst : w = t₁.scopes.length
    · intro s s' hs hs'
      rw [hgrows.span?_eq (by simpa [hasScope] using hz₁)] at hs
      rw [hfirst, h₂.grows.span?_eq hready'.hasScope, span?_push] at hs'
      obtain rfl := Option.some.inj hs'
      have hbound := h₁.scopes z s hz hs
      exact .inr (.inr (.inr (hexposes s ⟨hbound.1, hbound.2.2⟩)))
    · have hlength : (t₁.push kind u span).scopes.length = t₁.scopes.length + 1 := length_append
      exact h₁.separate_of_apart h₂ hgrows (.inl hhead.2) hz hz₁ (by omega)
  · rintro region ((rfl | hregion) | hregion)
    · omega
    · have := h₁.heads_within region hregion
      omega
    · exact h.heads_within region hregion
  · exact fun r hr => recorded_head hready hspan h₁ h₂ hhead (by omega) hr
  · intro r hr
    have hrecorded := (h₂.recorded r hr).enclose h₁.sourced.wellFormed hready₁.hasScope
    refine hrecorded.earlier (h₁.ancestors_eq hready) h₁.grows.length_le (fun region hregion => ?_)
      (by omega) (by omega)
    have hwithin : span.lo < region.lo ∧ region.hi ≤ head.hi := by
      rcases hregion with rfl | hregion
      · omega
      · have := h₁.heads_within region hregion
        omega
    exact h₂.not_covers hready' (.refl t₂) hr hwithin.1 hwithin (.inr hhead.2)

end

include hready in
/-- Visiting a function leaves alone what names stand for outside of it. -/
theorem steadfast_opened
    (h : Effect tree t.scopes.length a₁ b₁ heads (t.push .function u span) t₁) :
    t.Steadfast t₁ u := by
  have hwf := hready.sourced.wellFormed
  have hgrows : t₁.Extends t := h.grows.trans extends_push
  refine steadfast_of_lookup_eq (lookup_congr
    (hgrows.ancestors_eq hwf h.sourced.wellFormed hready.hasScope) fun z hz => ?_)
  have hle := hwf.le_of_mem_ancestors hready.hasScope hz
  have hlt := hready.lt_length
  rw [h.names z (by rw [hwf.functionScope_push hready.hasScope]; omega), namesIn_push]

end Effect

/-! ### Changes of symbols -/

section

variable (hext : t'.Extends t) (hlength : t'.scopes.length = t.scopes.length)
  (hreferences : t'.references = t.references)
  (hsymbols : ∀ symbol ∈ t'.symbols, ∃ x : Ident, tree.Holds (.name x) ∧ symbol.name = x.name ∧
    symbol.span = x.span)
include hext hlength hreferences hsymbols

/-- A table that grows without new scopes or uses. -/
theorem Sourced.of_extends (h : t.Sourced tree) : t'.Sourced tree := by
  refine ⟨h.wellFormed.of_extends hext hlength, ?_, hsymbols, ?_⟩
  · intro id p s' hs' hp
    obtain ⟨hlt, -⟩ := List.getElem?_eq_some_iff.1 hs'
    obtain ⟨s, hs⟩ : ∃ s, t.scopes[id]? = some s := hasScope_iff.1 (by simp [hasScope]; omega)
    obtain ⟨s'', hs'', hgrew⟩ := hext id s hs
    obtain rfl := Option.some.inj (hs'.symm.trans hs'')
    rw [hgrew.parent_eq] at hp
    obtain ⟨outer, houter, henc⟩ := h.nested id p s hs hp
    rw [hgrew.span_eq]
    exact ⟨outer, by rw [hext.span?_eq (hasScope_of_span? houter), houter], henc⟩
  · rw [hreferences]
    intro r hr
    obtain ⟨x, symbol, hx, hspan, hsymbol, hname⟩ := h.references r hr
    obtain ⟨symbol', hsymbol', hname'⟩ := hext.symbol?_name hsymbol
    exact ⟨x, symbol', hx, hspan, hsymbol', hname'.trans hname⟩

theorem Effect.of_symbols (hready : Ready tree t u a b)
    (hnames : ∀ z, z < t.functionScope u → t'.namesIn z = t.namesIn z) :
    Effect tree u a b (fun _ => False) t t' := by
  have hsourced := hready.sourced.of_extends hext hlength hreferences hsymbols
  have hnone : newReferences t t' = [] := by
    rw [newReferences, hreferences, drop_length]
  refine ⟨hext, hsourced, ?_, ?_, ?_, hnames, nofun, ?_, ?_, ?_⟩
  · intro z hz hle
    have hz' : t.hasScope z := by simpa [hasScope, hlength] using hz
    rw [hext.ancestors_eq hready.sourced.wellFormed hsourced.wellFormed hz']
    exact hready.inside z hz' hle
  · intro z span hz hspan
    have hlt := lt_length_of_span? hspan
    omega
  · intro z w hz _ s _ hspan _
    have hlt := lt_length_of_span? hspan
    omega
  · exact ⟨[], by rw [append_nil, hreferences]⟩
  · simp [hnone]
  · simp [hnone]

end

/-- A symbol after one scope was changed is in that scope, or was there before. -/
theorem mem_symbols_modify {f : Scope → Scope}
    (h : symbol ∈ symbols { t with scopes := t.scopes.modify z f }) :
    symbol ∈ t.symbols ∨ ∃ s ∈ t.scopes, symbol ∈ (f s).symbols := by
  obtain ⟨s', hs', hmem⟩ := mem_flatMap.1 h
  obtain ⟨i, hi, rfl⟩ := mem_iff_getElem.1 hs'
  have hlt : i < t.scopes.length := by simpa using hi
  simp only [getElem_modify] at hmem
  split at hmem
  · exact .inr ⟨_, getElem_mem hlt, hmem⟩
  · exact .inl (mem_flatMap.2 ⟨_, getElem_mem hlt, hmem⟩)

section

variable (hready : Ready tree t u a b) (hx : tree.Holds (.name x)) (hname : symbol.name = x.name)
  (hspan : symbol.span = x.span) (hz : t.functionScope u ≤ z)
include hready hx hname hspan hz

/-- A name is declared, in the function around the place or inside of it. -/
theorem Effect.add : Effect tree u a b (fun _ => False) t (t.add z symbol) := by
  refine .of_symbols extends_add (length_modify ..) rfl ?_ hready ?_
  · intro symbol' hsymbol'
    rcases mem_symbols_modify hsymbol' with hold | ⟨s, hs, hmem⟩
    · exact hready.sourced.symbols symbol' hold
    · rcases mem_append.1 hmem with hmem | hmem
      · exact hready.sourced.symbols symbol' (mem_flatMap.2 ⟨s, hs, hmem⟩)
      · rw [mem_singleton.1 hmem]
        exact ⟨x, hx, hname, hspan⟩
  · exact fun y hy => namesIn_add z symbol (by omega)

theorem Effect.declare : Effect tree u a b (fun _ => False) t (t.declare z symbol).2.2 := by
  rw [SymbolTable.declare]
  split
  · exact .none hready
  · exact .add hready hx hname hspan hz

end

/-- A symbol is changed, other than its name and region. -/
theorem Effect.revise (hready : Ready tree t u a b) (id : SymbolId) {f : Symbol → Symbol}
    (hname : ∀ symbol, (f symbol).name = symbol.name)
    (hspan : ∀ symbol, (f symbol).span = symbol.span) :
    Effect tree u a b (fun _ => False) t (t.modifySymbol id f) := by
  refine .of_symbols (extends_modifySymbol hname) (length_modify ..) rfl ?_ hready ?_
  · intro symbol hsymbol
    rcases mem_symbols_modify hsymbol with hold | ⟨s, hs, hmem⟩
    · exact hready.sourced.symbols symbol hold
    · obtain ⟨i, hi, rfl⟩ := mem_iff_getElem.1 hmem
      have hlt : i < s.symbols.length := by simpa using hi
      obtain ⟨x, hx, hname', hspan'⟩ := hready.sourced.symbols _
        (mem_flatMap.2 ⟨s, hs, getElem_mem hlt⟩)
      refine ⟨x, hx, ?_, ?_⟩ <;> rw [getElem_modify] <;> split
      · rw [hname, hname']
      · exact hname'
      · rw [hspan, hspan']
      · exact hspan'
  · exact fun z _ => namesIn_modifySymbol hname id z

/-! ### Uses that are noted -/

theorem Sourced.addReference (h : t.Sourced tree) (hx : tree.Holds (.name x)) {id : SymbolId}
    (hid : t.lookup x.name u = some id) : (t.addReference x.span id).Sourced tree := by
  refine ⟨h.wellFormed.of_extends extends_addReference rfl, h.nested, h.symbols, ?_⟩
  intro r hr
  rcases mem_append.1 hr with hr | hr
  · exact h.references r hr
  · obtain ⟨-, symbol, hsymbol, hname⟩ := lookup_spec hid
    rw [mem_singleton.1 hr]
    exact ⟨x, symbol, hx, rfl, hsymbol, hname⟩

/-- What a name stands for where it is looked up is declared around the scope there. -/
theorem Ready.shows (h : Ready tree t u a b) (hlo : a ≤ offset) (hhi : offset ≤ b) {d : Nat}
    (hd : d ∈ t.ancestors u) : d ∈ t.ancestors (t.scopeAt offset) := by
  obtain ⟨hat, hlast⟩ := scopeAt_spec (h.touches hlo hhi)
  obtain ⟨span, hspan, -⟩ := span?_of_touches hat
  have hscope := hasScope_of_span? hspan
  have hinside := h.inside _ hscope (hlast u (h.touches hlo hhi))
  exact h.sourced.wellFormed.mem_ancestors_trans hscope hd hinside

/-- A part is visited, and then a name in its region is used. If the name was used before, it stands
for the same symbol. -/
theorem Effect.refer (hready : Ready tree t u a b) (h : Effect tree u a b heads t t₁)
    (hx : tree.Holds (.name x)) (hlo : a ≤ x.span.lo) (hlt : x.span.lo < x.span.hi)
    (hhi : x.span.hi ≤ b) {id : SymbolId} (hid : t₁.lookup x.name u = some id)
    (hsame : ∀ r ∈ newReferences t t₁, r.span = x.span → r.symbol = id) :
    Effect tree u a b heads t (t₁.addReference x.span id) := by
  have hready₁ := h.ready hready
  have hext : (t₁.addReference x.span id).Extends t₁ := extends_addReference
  have hsourced := h.sourced.addReference hx hid
  have hancestors {z : Nat} (hz : t₁.hasScope z) :
      (t₁.addReference x.span id).ancestors z = t₁.ancestors z :=
    hext.ancestors_eq h.sourced.wellFormed hsourced.wellFormed hz
  have hnew {r : Reference} : r ∈ newReferences t (t₁.addReference x.span id) ↔
      r ∈ newReferences t t₁ ∨ r = ⟨x.span, id⟩ := by
    rw [mem_newReferences_trans h.keeps (prefix_append _ _)]
    simp [newReferences, SymbolTable.addReference]
  refine ⟨hext.trans h.grows, hsourced, ?_, h.scopes, ?_, h.names, h.heads_within,
    h.keeps.trans (prefix_append _ _), ?_, ?_⟩
  · intro z hz hle
    rw [hancestors hz]
    exact h.inside z hz hle
  · intro z w hz hlt s s' hs hs'
    exact (h.separate z w hz hlt).later hext h.sourced.wellFormed hsourced.wellFormed hlt
      (hasScope_of_span? hs') s s' hs hs'
  · intro r hr
    -- a reference changes no scope, so the earlier ones stay as they are
    have hshows (hregion : a ≤ r.span.lo ∧ r.span.lo ≤ b) :
        (t₁.addReference x.span id).Shows r ↔ t₁.Shows r := by
      obtain ⟨hat, -⟩ := scopeAt_spec (hready₁.touches hregion.1 hregion.2)
      obtain ⟨span, hspan, -⟩ := span?_of_touches hat
      exact iff_of_eq (congrArg _ (hancestors (hasScope_of_span? hspan)))
    rcases hnew.1 hr with hr | rfl
    · have hrecorded := h.recorded r hr
      have hregion := hrecorded.region
      refine ⟨hregion, hrecorded.declared, ?_⟩
      rw [hshows (by omega)]
      exact hrecorded.shows
    · have hdeclared : id.scope ∈ t.ancestors u := by
        rw [← h.ancestors_eq hready]
        exact (lookup_spec hid).1
      have hle : x.span.lo ≤ b := by omega
      refine ⟨⟨hlo, hlt, hhi⟩, .inl hdeclared, iff_of_true ?_ fun head hhead => ?_⟩
      · rw [hshows ⟨hlo, hle⟩]
        exact hready₁.shows hlo hle (lookup_spec hid).1
      · exact hready.not_covers (hext.trans h.grows) hdeclared (h.heads_within head hhead).1
  · intro r hr r' hr' hspan
    rcases hnew.1 hr with hr | rfl <;> rcases hnew.1 hr' with hr' | rfl
    · exact h.unique r hr r' hr' hspan
    · cases r
      cases hspan
      rw [← hsame _ hr rfl]
    · cases r'
      cases hspan
      rw [← hsame _ hr' rfl]
    · rfl

end SymbolTable

end ScriptCheck
