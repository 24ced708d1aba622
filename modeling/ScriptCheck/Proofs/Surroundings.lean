import ScriptCheck.Proofs.Deeds

/-!
# What a visit leaves as it was

The place of a visit is its `Context`: the scope, how many expressions are around, and which jumps
may stand there. It is passed inwards only, so what is visited next, after a part of any kind, is
visited at the place of that part again (`stmts_append`, `inferAll_append`).

Of what is known, a table of symbols only grows (`SymbolTable.Keeps`): scopes and symbols stay where
they are and what they were declared to be, reads add up, and references stay in place. The types
returned by the function around and whether a `break` leaves the switch around are left alone by an
expression, and a statement only adds to the former.
-/

namespace ScriptCheck

open List

namespace SymbolTable

variable {t t' : SymbolTable}

/-- A table still has what was in another one, whatever was added to it. -/
structure Keeps (t t' : SymbolTable) : Prop where
  scope (id : Nat) (s : Scope) (h : t.scopes[id]? = some s) :
    ∃ s', t'.scopes[id]? = some s' ∧ s'.kind = s.kind ∧ s'.parent = s.parent ∧ s'.span = s.span
  symbol (id : SymbolId) (x : Symbol) (h : t.symbol? id = some x) :
    ∃ x', t'.symbol? id = some x' ∧ x'.name = x.name ∧ x'.kind = x.kind ∧ x'.span = x.span ∧
      x.reads ≤ x'.reads
  references : t.references <+: t'.references

theorem Step.references (h : t.Step t') : t.references <+: t'.references := by
  cases h with
  | refer span id => exact prefix_append ..
  | _ => exact prefix_rfl

theorem Step.symbol (h : t.Step t') {id : SymbolId} {x : Symbol} (hx : t.symbol? id = some x) :
    ∃ x', t'.symbol? id = some x' ∧ x'.name = x.name ∧ x'.kind = x.kind ∧ x'.span = x.span ∧
      x.reads ≤ x'.reads := by
  cases h with
  | push kind parent span => exact ⟨x, by rw [symbol?_push, hx], rfl, rfl, rfl, Nat.le_refl _⟩
  | @add scope new isNew =>
    exact ⟨x, symbol?_add_of_some scope new hx, rfl, rfl, rfl, Nat.le_refl _⟩
  | @revise place f hf =>
    rw [symbol?_modifySymbol, hx]
    by_cases hplace : place = id
    · exact ⟨f x, by simp [hplace], hf.name x, hf.kind x, hf.span x, hf.reads x⟩
    · exact ⟨x, if_neg hplace, rfl, rfl, rfl, Nat.le_refl _⟩
  | refer span place => exact ⟨x, hx, rfl, rfl, rfl, Nat.le_refl _⟩

theorem Leads.keeps (h : t.Leads t') : t.Keeps t' := by
  refine ⟨fun id s hs => ?_, fun id x hx => ?_, ?_⟩
  · obtain ⟨s', hs', hgrew⟩ := h.extends id s hs
    exact ⟨s', hs', hgrew.kind_eq, hgrew.parent_eq, hgrew.span_eq⟩
  · induction h with
    | refl => exact ⟨x, hx, rfl, rfl, rfl, Nat.le_refl _⟩
    | tail _ hstep ih =>
      obtain ⟨y, hy, hname, hkind, hspan, hreads⟩ := ih
      obtain ⟨z, hz, hname', hkind', hspan', hreads'⟩ := hstep.symbol hy
      exact ⟨z, hz, hname'.trans hname, hkind'.trans hkind, hspan'.trans hspan,
        Nat.le_trans hreads hreads'⟩
  · induction h with
    | refl => exact prefix_rfl
    | tail _ hstep ih => exact ih.trans hstep.references

end SymbolTable

namespace Walk

end Walk

end ScriptCheck
