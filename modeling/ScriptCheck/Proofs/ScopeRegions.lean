import ScriptCheck.Proofs.Definitions

/-!
# The regions of scopes

After a script was checked, two scopes lie apart unless one of them is around the other one. A
statement can break this rule, where it has a scope that spans all of it but visits a part of itself
outside of the scope, and so *exposes* the part: the subject of a `switch` whose cases declare
something, the values of a `for` loop that declares its names, and the handler of a `try` whose body
declares something. Scopes in that part lie in the region of the other scope
(`SymbolTable.arranged_check`).
-/

namespace ScriptCheck

open Walk

variable {source : List Char}

/-- A statement of a program has a scope with some region and exposes another one. -/
def Program.Exposes (p : Program) (outer inner : Span) : Prop :=
  ∃ n region, p.Holds n ∧ n.span = outer ∧ n.exposed? = some region ∧ region.Encloses inner

/-- What a statement exposes lies in its region. -/
theorem Node.encloses_exposed {tree n : Node} (hlaid : tree.All (Laid source)) (hn : tree.Holds n)
    {region : Span} (h : n.exposed? = some region) : n.span.Encloses region := by
  have hpart {m : Node} (hcomposite : n.isComposite) (hm : m ∈ n.parts) :
      n.span.Encloses m.span := by
    obtain ⟨hlo, -, hhi⟩ := (Row.parts hlaid hn hcomposite).inOrder.mem (List.mem_map_of_mem hm)
    exact ⟨hlo, hhi⟩
  unfold exposed? at h
  split at h
  · next span body param handler =>
    split at h
    · have ho : InOrder span.lo span.hi ((body.map Node.stmt ++ (param.toList.map Node.name ++
        handler.map Node.stmt)).map Node.span) := (Row.parts hlaid hn rfl).inOrder
      rw [List.map_append, List.map_append, map_span_name, map_span_stmt handler] at ho
      obtain ⟨c, hbody, hhandler⟩ := ho.split
      obtain ⟨hlo, -, hhi, -⟩ := handlerRegion_bounds hhandler h
      exact ⟨hbody.le.trans hlo, hhi⟩
    · cases h
  · unfold head? at h
    split at h
    · next iterable body _ =>
      cases h
      refine hpart rfl (m := .expr iterable) ?_
      simp [parts, Stmt.parts]
    · next subject cases _ =>
      split at h
      · cases h
        exact hpart rfl (m := .expr subject) List.mem_cons_self
      · cases h
    · cases h

theorem Program.exposes_root {p : Program} {outer inner : Span}
    (h : (p.root source).Exposes outer inner) : p.Exposes outer inner := by
  obtain ⟨n, region, hn, hspan, hregion, henc⟩ := h
  rcases Node.holds_iff.1 hn with rfl | ⟨c, hc, hcn⟩
  · cases hregion
  · obtain ⟨s, hs, rfl⟩ := List.mem_map.1 hc
    exact ⟨n, region, ⟨s, hs, hcn⟩, hspan, hregion, henc⟩

theorem Program.Exposes.encloses {p : Program} {outer inner : Span} (h : p.Exposes outer inner)
    (hlaid : (p.root source).All (Node.Laid source)) : outer.Encloses inner := by
  obtain ⟨n, region, hn, rfl, hregion, henc⟩ := h
  exact (Node.encloses_exposed hlaid (Program.holds_root hn) hregion).trans henc

/-- Regions of which one lies in the other one are not apart. -/
theorem Span.Encloses.not_apart {s t : Span} (h : s.Encloses t) (ht : t.lo < t.hi) :
    ¬s.Apart t ∧ ¬t.Apart s := by
  obtain ⟨hlo, hhi⟩ := h
  unfold Span.Apart
  omega

namespace SymbolTable

/-- How the scopes of a program lie in its script. -/
structure Arranged (p : Program) (t : SymbolTable) : Prop where
  /-- Of two scopes, one is around the other one, or they lie apart, or one of them is exposed by
  the statement of the other one. -/
  apart_iff : ∀ z w s s', t.span? z = some s → t.span? w = some s' → z ∉ t.ancestors w →
    w ∉ t.ancestors z → (s.Apart s' ↔ ¬(p.Exposes s s' ∨ p.Exposes s' s))
  /-- The scope at an offset inside of some scope is that scope or inside of it, unless one of them
  is exposed by the statement of the other one. -/
  scopeAt : ∀ z s offset, t.span? z = some s → s.lo < offset → offset < s.hi →
    z ∈ t.ancestors (t.scopeAt offset) ∨
      ∃ s', t.span? (t.scopeAt offset) = some s' ∧ (p.Exposes s s' ∨ p.Exposes s' s)

/-- Scopes that are not inside of each other lie apart, except for those that a statement
exposes. -/
theorem arranged_check (mode : LexMode) (passes : PassSet) (fileExists : String → Bool)
    (source : List Char) :
    (check mode passes fileExists source).table.Arranged
      (check mode passes fileExists source).program := by
  have hlaid := laid_parse mode source
  have heffect := effect_check mode passes fileExists source
  generalize (check mode passes fileExists source).table = t at heffect ⊢
  have hroot {w : Nat} (hw : t.hasScope w) : root ∈ t.ancestors w :=
    heffect.inside w hw (Nat.zero_le w)
  have hseparate (z w : Nat) (hlt : z < w) :
      t.Separate ((parse mode source).program.root source) z w := by
    -- all scopes are in the outermost one
    by_cases hz : z = root
    · exact fun _ _ _ hs' => .inl (hz ▸ hroot (hasScope_of_span? hs'))
    · exact heffect.separate z w (Nat.pos_of_ne_zero hz) hlt
  have hexposed {z w : Nat} {s s' : Span} (hlt : z < w) (hs : t.span? z = some s)
      (hs' : t.span? w = some s') :
      z ∈ t.ancestors w ∨ s.Apart s' ∨
        (parse mode source).program.Exposes s s' ∨ (parse mode source).program.Exposes s' s :=
    (hseparate z w hlt s s' hs hs').imp_right
      (.imp_right (.imp Program.exposes_root Program.exposes_root))
  constructor
  · intro z w s s' hs hs' hzw hwz
    have hpos {x y : Nat} {region : Span} (hregion : t.span? x = some region)
        (hy : t.hasScope y) (hxy : x ∉ t.ancestors y) : region.lo < region.hi := by
      have hne : x ≠ root := fun h => hxy (h ▸ hroot hy)
      exact (heffect.scopes x region (Nat.pos_of_ne_zero hne) hregion).2.1
    have hlo := hpos hs (hasScope_of_span? hs') hzw
    have hlo' := hpos hs' (hasScope_of_span? hs) hwz
    refine ⟨?_, fun hnone => ?_⟩
    · rintro hapart (hexposes | hexposes)
      · exact ((hexposes.encloses hlaid).not_apart hlo').1 hapart
      · exact ((hexposes.encloses hlaid).not_apart hlo).2 hapart
    · rcases Nat.lt_trichotomy z w with hlt | rfl | hlt
      · exact ((hexposed hlt hs hs').resolve_left hzw).resolve_right hnone
      · exact absurd (heffect.sourced.wellFormed.mem_ancestors_self (hasScope_of_span? hs)) hzw
      · exact (((hexposed hlt hs' hs).resolve_left hwz).resolve_right
          fun h => hnone h.symm).symm
  · -- the scope at an offset is the last one that touches it
    intro z s offset hs hlo hhi
    have htouches := touches_of_span? hs (Nat.le_of_lt hlo) (Nat.le_of_lt hhi)
    obtain ⟨hat, hlast⟩ := scopeAt_spec htouches
    obtain ⟨s', hs', hlo', hhi'⟩ := span?_of_touches hat
    rcases Nat.lt_or_eq_of_le (hlast z htouches) with hlt | heq
    · refine (hexposed hlt hs hs').imp_right fun h => ⟨s', hs', h.resolve_left fun hapart => ?_⟩
      unfold Span.Apart at hapart
      omega
    · rw [← heq]
      exact .inl (heffect.sourced.wellFormed.mem_ancestors_self (hasScope_of_span? hs))

/-- What is known of a script that declares names both in the body of a `try` and in its handler. -/
def declaringTry : SymbolTable :=
  (check .normal .all (fun _ => false)
    "try \x7b let a = 1; \x7d catch (e) \x7b let b = 2; \x7d".toList).table

/-- The scope for the body of a `try` spans the handler, where the scope at an offset is another
one. -/
theorem not_apart_declaringTry :
    ¬∀ z w s s' offset, declaringTry.span? z = some s → declaringTry.span? w = some s' →
      z ∉ declaringTry.ancestors w → w ∉ declaringTry.ancestors z →
      ¬((s.lo < offset ∧ offset < s.hi) ∧ s'.lo < offset ∧ offset < s'.hi) ∧
        (s.lo < offset → offset < s.hi → declaringTry.scopeAt offset ≠ w) := by
  intro h
  have hoverlap := h 1 2 ⟨0, 43⟩ ⟨26, 15⟩ 30
  revert hoverlap
  decide +kernel

end SymbolTable

end ScriptCheck
