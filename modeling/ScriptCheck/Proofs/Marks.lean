import ScriptCheck.Token.Kind

/-!
# The longest mark

A mark is read by its first character and then on to longer marks, one choice at a time. That this
finds the longest mark at the start of a text (`Punct.read?_eq_some_iff`) rests on three facts about
the table of choices: a choice leads to the mark that it spells (`lexeme_of_mem_longer`), every
longer mark lies behind a choice (`eq_or_longer`), and no text allows two of them
(`eq_of_mem_longer`).
-/

namespace ScriptCheck.Punct

open List

/-! ### The table of choices -/

variable {p q : Punct} {cs : List Char}

theorem lexeme_of_ofChar? {c : Char} (h : ofChar? c = some p) : p.lexeme.toList = [c] := by
  unfold ofChar? at h
  split at h <;> cases h <;> rfl

/-- The first character of a mark is a mark. -/
theorem exists_ofChar? (q : Punct) :
    ∃ c cs p, q.lexeme.toList = c :: cs ∧ ofChar? c = some p := by
  cases q <;> exact ⟨_, _, _, rfl, rfl⟩

theorem length_lexeme_le (q : Punct) : q.lexeme.toList.length ≤ 3 := by
  cases q <;> decide

/-- A choice leads to the mark that it spells. -/
theorem lexeme_of_mem_longer {e : String × Punct} (h : e ∈ p.longer) :
    e.2.lexeme.toList = p.lexeme.toList ++ e.1.toList ∧ e.1.toList ≠ [] := by
  have hall : ∀ p ∈ all, ∀ e ∈ p.longer,
      e.2.lexeme.toList = p.lexeme.toList ++ e.1.toList ∧ e.1.toList ≠ [] := by
    decide +kernel
  exact hall p (mem_all p) e h

/-- A mark that starts with another one is that one, or lies behind one of its choices. -/
theorem eq_or_longer (h : p.lexeme.toList <+: q.lexeme.toList) :
    q = p ∨ ∃ e ∈ p.longer, e.2.lexeme.toList <+: q.lexeme.toList := by
  have hall : ∀ p ∈ all, ∀ q ∈ all, p.lexeme.toList <+: q.lexeme.toList →
      q = p ∨ ∃ e ∈ p.longer, e.2.lexeme.toList <+: q.lexeme.toList := by
    decide +kernel
  exact hall p (mem_all p) q (mem_all q) h

/-- Marks that are written alike are the same. -/
theorem eq_of_lexeme_eq (h : p.lexeme.toList = q.lexeme.toList) : q = p := by
  refine (eq_or_longer (h ▸ prefix_refl _)).resolve_right ?_
  rintro ⟨e, he, hle⟩
  obtain ⟨hlexeme, hne⟩ := lexeme_of_mem_longer he
  have hlength := hle.length_le
  have hpos := length_pos_iff.2 hne
  rw [hlexeme, ← h, length_append] at hlength
  omega

/-- No text allows two choices. -/
theorem eq_of_mem_longer {e e' : String × Punct} (he : e ∈ p.longer) (he' : e' ∈ p.longer)
    (h : e.1.toList <+: cs) (h' : e'.1.toList <+: cs) : e = e' := by
  have hall : ∀ p ∈ all, ∀ e ∈ p.longer, ∀ e' ∈ p.longer, e.1.toList <+: e'.1.toList → e = e' := by
    decide +kernel
  rcases prefix_or_prefix_of_prefix h h' with hle | hle
  · exact hall p (mem_all p) e he e' he' hle
  · exact (hall p (mem_all p) e' he' e he hle).symm

/-! ### Reading on -/

/-- A mark is read on by the one choice that the text allows, or stays if there is none. -/
theorem extend_cases (p : Punct) (cs : List Char) :
    (∃ e ∈ p.longer, e.1.toList <+: cs ∧ p.extend cs = (e.2, cs.drop e.1.toList.length)) ∨
      p.extend cs = (p, cs) ∧ ∀ e ∈ p.longer, ¬ e.1.toList <+: cs := by
  cases hfind : p.longer.find? fun e => e.1.toList.isPrefixOf cs with
  | some e =>
    have hprefix := find?_some hfind
    exact .inl ⟨e, mem_of_find?_eq_some hfind, isPrefixOf_iff_prefix.1 hprefix,
      by simp [extend, hfind]⟩
  | none =>
    refine .inr ⟨by simp [extend, hfind], fun e he hprefix => ?_⟩
    exact find?_eq_none.1 hfind e he ( isPrefixOf_iff_prefix.2 hprefix)

/-- Reading on takes nothing away from the text. -/
theorem lexeme_extend (p : Punct) (cs : List Char) :
    (p.extend cs).1.lexeme.toList ++ (p.extend cs).2 = p.lexeme.toList ++ cs := by
  rcases extend_cases p cs with ⟨e, he, ⟨rest, rfl⟩, heq⟩ | ⟨heq, -⟩
  · rw [heq, (lexeme_of_mem_longer he).1]
    simp
  · rw [heq]

theorem length_le_extend (p : Punct) (cs : List Char) :
    p.lexeme.toList.length ≤ (p.extend cs).1.lexeme.toList.length := by
  rcases extend_cases p cs with ⟨e, he, -, heq⟩ | ⟨heq, -⟩
  · rw [heq, (lexeme_of_mem_longer he).1, length_append]
    exact Nat.le_add_right _ _
  · exact Nat.le_of_eq (by rw [heq])

/-- Where a longer mark stands, reading on comes closer to it. -/
theorem extend_of_isPrefix (hp : p.lexeme.toList <+: q.lexeme.toList)
    (hq : q.lexeme.toList <+: p.lexeme.toList ++ cs) :
    q = p ∨ p.lexeme.toList.length < (p.extend cs).1.lexeme.toList.length ∧
      (p.extend cs).1.lexeme.toList <+: q.lexeme.toList := by
  refine (eq_or_longer hp).imp_right fun ⟨e, he, hle⟩ => ?_
  obtain ⟨hlexeme, hne⟩ := lexeme_of_mem_longer he
  have hallowed : e.1.toList <+: cs := by
    rw [hlexeme] at hle
    exact (prefix_append_right_inj _).1 (hle.trans hq)
  rcases extend_cases p cs with ⟨e', he', hprefix, heq⟩ | ⟨-, hnone⟩
  · obtain rfl := eq_of_mem_longer he he' hallowed hprefix
    rw [heq]
    refine ⟨?_, hle⟩
    have hpos := length_pos_iff.2 hne
    rw [hlexeme, length_append]
    omega
  · exact absurd hallowed (hnone e he)

/-! ### Reading a mark -/

theorem read?_cons (c : Char) (cs : List Char) :
    read? (c :: cs) =
      (ofChar? c).map fun p => ((p.extend cs).1.extend (p.extend cs).2).1 :=
  rfl

theorem isPrefix_of_read? (h : read? cs = some p) : p.lexeme.toList <+: cs := by
  cases cs with
  | nil => cases h
  | cons c cs =>
    rw [read?_cons] at h
    obtain ⟨first, hfirst, rfl⟩ := Option.map_eq_some_iff.1 h
    have hsplit := lexeme_extend (first.extend cs).1 (first.extend cs).2
    rw [lexeme_extend first, lexeme_of_ofChar? hfirst, singleton_append] at hsplit
    exact ⟨_, hsplit⟩

/-- A text that starts with a mark is read as one that is not shorter. -/
theorem exists_read? (h : q.lexeme.toList <+: cs) :
    ∃ p, read? cs = some p ∧ q.lexeme.toList.length ≤ p.lexeme.toList.length := by
  obtain ⟨c, more, first, hq, hfirst⟩ := q.exists_ofChar?
  obtain ⟨rest, rfl⟩ := h
  have hlexeme := lexeme_of_ofChar? hfirst
  rw [hq, cons_append, read?_cons, hfirst, ← hq]
  refine ⟨((first.extend (more ++ rest)).1.extend (first.extend (more ++ rest)).2).1, rfl, ?_⟩
  -- two choices lead to a mark of three characters, and no mark is longer
  have hstart : first.lexeme.toList <+: q.lexeme.toList := ⟨more, by rw [hlexeme, hq]; rfl⟩
  have hwhole : q.lexeme.toList <+: first.lexeme.toList ++ (more ++ rest) :=
    ⟨rest, by rw [hlexeme, hq]; rfl⟩
  generalize more ++ rest = cs at hwhole ⊢
  have hgrows := length_le_extend (first.extend cs).1 (first.extend cs).2
  rcases extend_of_isPrefix hstart hwhole with rfl | ⟨hlonger, hcloser⟩
  · exact Nat.le_trans (length_le_extend q cs) hgrows
  · rw [← lexeme_extend] at hwhole
    rcases extend_of_isPrefix hcloser hwhole with heq | ⟨hlongest, -⟩
    · rw [heq]
      exact hgrows
    · have hbound := q.length_lexeme_le
      rw [hlexeme, length_singleton] at hlonger
      omega

/-- A text is read as the longest mark that it starts with. -/
theorem read?_eq_some_iff :
    read? cs = some p ↔ p.lexeme.toList <+: cs ∧
      ∀ q : Punct, q.lexeme.toList <+: cs → q.lexeme.toList.length ≤ p.lexeme.toList.length := by
  constructor
  · intro h
    refine ⟨isPrefix_of_read? h, fun q hq => ?_⟩
    obtain ⟨p', hp', hle⟩ := exists_read? hq
    obtain rfl : p = p' := Option.some.inj (h.symm.trans hp')
    exact hle
  · rintro ⟨ hprefix, hlongest⟩
    obtain ⟨p', hread, hle⟩ := exists_read? hprefix
    have hprefix' := isPrefix_of_read? hread
    -- both are the part of the text of one and the same length
    have hsub := prefix_of_prefix_length_le hprefix hprefix' hle
    have hlexeme := hsub.eq_of_length (Nat.le_antisymm hle (hlongest p' hprefix'))
    rw [hread, eq_of_lexeme_eq hlexeme]

/-- A text is read as the first mark of the table that it starts with. -/
theorem read?_eq_find? (cs : List Char) :
    read? cs = all.find? fun p => p.lexeme.toList.isPrefixOf cs := by
  cases hfind : all.find? fun p => p.lexeme.toList.isPrefixOf cs with
  | none =>
    refine Option.eq_none_iff_forall_ne_some.2 fun p hp => ?_
    exact find?_eq_none.1 hfind p (mem_all p)
      ( isPrefixOf_iff_prefix.2 (isPrefix_of_read? hp))
  | some p =>
    obtain ⟨hp, before, after, hall, hbefore⟩ := find?_eq_some_iff_append.1 hfind
    refine read?_eq_some_iff.2 ⟨ isPrefixOf_iff_prefix.1 hp, fun q hq => ?_⟩
    have hsorted := all_sorted
    have hmem := mem_all q
    rw [hall] at hsorted hmem
    rcases mem_append.1 hmem with hmem | hmem
    · have hnot := hbefore q hmem
      rw [ isPrefixOf_iff_prefix.2 hq] at hnot
      cases hnot
    · rcases mem_cons.1 hmem with rfl | hmem
      · exact Nat.le_refl _
      · exact (pairwise_cons.1 (pairwise_append.1 hsorted).2.1).1 q hmem

end ScriptCheck.Punct
