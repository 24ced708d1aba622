import ScriptCheck.Proofs.Safety

/-!
# Keywords in programs

A node that a keyword makes lies in a part of the script with such a keyword, where a part is the
script itself or an interpolation, and a fault that names a token is listed at it (`worded_parse`).

In raw mode the script itself has no keyword. Its interpolations are still read with keywords, so
these are the only place where nodes and faults can come from one (`interpolated_words`).
-/

namespace ScriptCheck

open List

open Text

/-! ### Parts that are read on their own -/

variable {mode m : LexMode} {source : List Char} {e : Excerpt}

/-- If a keyword makes a node, the node lies in a part of the script that is read on its own and has
such a keyword among its tokens. -/
def Node.Worded (mode : LexMode) (source : List Char) (n : Node) : Prop :=
  n.words ≠ [] → ∃ m e, ReadAlone mode source m e ∧ e.span.Encloses n.span ∧
    ∃ w ∈ n.words, w.OccursIn (tokensFrom m .none e.lo e.text)

/-- If a fault names the kind of a token, it is listed at such a token of a part of the script that
is read on its own. -/
def Located.AtToken (mode : LexMode) (source : List Char) (x : Located SyntaxError) : Prop :=
  ∀ kind, x.value.found? = some kind → ∃ m e, ReadAlone mode source m e ∧
    ∃ t ∈ tokensFrom m .none e.lo e.text, t.kind = kind ∧ t.span = x.span

/-- No keyword makes what could not be read. -/
theorem all_worded_invalid {span : Span} :
    (Node.expr (.invalid span)).All (Node.Worded mode source) :=
  Node.all_iff.2 ⟨fun hne => absurd rfl hne, by simp [Node.parts, Expr.parts]⟩

namespace ReadAlone

/-- A token of a part or of an interpolation in it is one of a part. -/
theorem exists_of_among (h : ReadAlone mode source m e) {u : Token}
    (hu : u.Among (tokensFrom m .none e.lo e.text)) :
    ∃ m' e', ReadAlone mode source m' e' ∧ u ∈ tokensFrom m' .none e'.lo e'.text := by
  generalize htokens : tokensFrom m .none e.lo e.text = tokens at hu
  induction hu generalizing m e with
  | mem hu => exact ⟨m, e, h, htokens ▸ hu⟩
  | interpolation ht hkind he _ ih => exact ih (h.interpolation (htokens ▸ ht) hkind he) rfl

theorem atToken (h : ReadAlone mode source m e) {x : Located SyntaxError}
    (hx : x.FoundIn (tokensFrom m .none e.lo e.text)) : x.AtToken mode source := by
  intro kind hkind
  obtain ⟨u, hu, heq⟩ := hx kind hkind
  obtain ⟨m', e', he, hmem⟩ := h.exists_of_among hu
  exact ⟨m', e', he, u, hmem, heq⟩

/-- What has grown from the tokens of a part is in a part with its keyword. -/
theorem worded (h : ReadAlone mode source m e) {tokens : List Token}
    (htokens : tokens ⊆ tokensFrom m .none e.lo e.text) {k : Nat} {n : Node}
    (hgrown : n.Grown source tokens k) (hlaid : n.All (Node.Laid source))
    (hspan : e.span.Encloses n.span) : n.All (Node.Worded mode source) := by
  induction hgrown generalizing m e with
  | @node tokens k l n hparts hmade ih =>
    refine Node.all_iff.2 ⟨fun hne => ⟨m, e, h, hspan, ?_⟩, fun c hc => ?_⟩
    · obtain ⟨w, hmem, hw⟩ := hmade.word.resolve_left hne
      exact ⟨w, hmem, hw.mono htokens⟩
    · have hholds := Node.holds_of_mem hc
      rcases hlaid.encloses_or_unread hholds with hencloses | rfl
      · exact ih c hc h htokens (hlaid.of_holds hholds) (hspan.trans hencloses)
      · exact all_worded_invalid
  | @template tokens k t span read ht hkind hread hparts ih =>
    refine Node.all_iff.2 ⟨fun hne => absurd rfl hne, fun c hc => ?_⟩
    have hholds := Node.holds_of_mem hc
    obtain ⟨part, hpart, rfl⟩ := mem_map.1 hc
    obtain ⟨p, hp, rfl⟩ := mem_map.1 hpart
    obtain ⟨hexcerpt, hunread | hencloses⟩ := hread p hp
    · rw [Expr.eq_invalid_of_isUnread hunread]
      exact all_worded_invalid
    · exact ih p hp (h.interpolation (htokens ht) hkind hexcerpt) (List.Subset.refl _)
        (hlaid.of_holds hholds) hencloses

end ReadAlone

/-! ### Whole scripts -/

/-- In the program of every script, a node that a keyword makes is in a part with such a keyword, and
a fault that names a token is listed at it. -/
theorem worded_parse (mode : LexMode) (source : List Char) :
    (∀ n, (parse mode source).program.Holds n → n.Worded mode source) ∧
      ∀ x ∈ (parse mode source).errors, x.AtToken mode source := by
  have hscript : ReadAlone mode source mode ⟨0, source⟩ := .script
  have hpasses := Parser.passes_readScript mode source
  constructor
  · rintro n ⟨s, hs, hn⟩
    have hmem := mem_map_of_mem (f := Node.stmt) hs
    have hlaid := hpasses.laid _ hmem
    obtain ⟨text, htext⟩ := Option.isSome_iff_exists.1 hlaid.self.text
    refine hscript.worded (dropLast_subset _) (hpasses.grown _ hmem) hlaid ?_ n hn
    exact ⟨Nat.zero_le _, by simpa [Excerpt.span, Span.hi] using (le_of_slice? htext).2⟩
  · intro x hx
    refine hscript.atToken ?_
    have hfound := ((hpasses.onward.accounted (Parser.sound_sheet _ _) x hx).resolve_left
      (by simp [Parser.State.ofTokens])).foundIn
    have htokens : (Parser.State.ofTokens (tokenize mode source)).tokens =
        tokensFrom mode .none 0 source := Parser.tokens_ofTokens mode ⟨0, source⟩
    rwa [htokens] at hfound

/-- In raw mode no token is a keyword. -/
theorem isKeyword_of_mem_raw {before : Preceding} {lo : Nat} {cs : List Char} {t : Token}
    (ht : t ∈ tokensFrom .raw before lo cs) : t.kind.isKeyword = false := by
  by_contra hne
  have hkeyword : t.kind.isKeyword = true := by simpa using hne
  obtain ⟨divides, front, c, rest, hat, -, hscan⟩ :=
    found_of_mem ht (TokenKind.sort?_of_isKeyword (.inr hkeyword))
  rw [hat.kind, hscan] at hkeyword
  exact Bool.false_ne_true hkeyword

/-- A part that has a keyword is not read in raw mode. -/
theorem Keyword.OccursIn.eq_normal {w : Keyword}
    (hw : w.OccursIn (tokensFrom m .none e.lo e.text)) : m = .normal := by
  obtain ⟨t, ht, hkind⟩ := hw
  cases m with
  | normal => rfl
  | raw =>
    have hnot := isKeyword_of_mem_raw ht
    simp [hkind, TokenKind.isKeyword] at hnot

/-- In raw mode, a node that a keyword makes lies in an interpolation with such a keyword. -/
theorem Node.Worded.exists_interpolation {n : Node} (h : n.Worded .raw source)
    (hne : n.words ≠ []) :
    ∃ e, ReadAlone .raw source .normal e ∧ e.span.Encloses n.span ∧
      ∃ w ∈ n.words, w.OccursIn (tokensFrom .normal .none e.lo e.text) := by
  obtain ⟨m, e, he, hspan, w, hw, hoccurs⟩ := h hne
  obtain rfl := hoccurs.eq_normal
  exact ⟨e, he, hspan, w, hw, hoccurs⟩

/-- In raw mode, a fault that names a keyword is listed at that keyword in an interpolation. -/
theorem Located.AtToken.exists_interpolation {x : Located SyntaxError} (h : x.AtToken .raw source)
    {w : Keyword} (hfound : x.value.found? = some (.keyword w)) :
    ∃ e, ReadAlone .raw source .normal e ∧
      ∃ t ∈ tokensFrom .normal .none e.lo e.text, t.kind = .keyword w ∧ t.span = x.span := by
  obtain ⟨m, e, he, t, ht, hkind, hspan⟩ := h _ hfound
  obtain rfl := Keyword.OccursIn.eq_normal ⟨t, ht, hkind⟩
  exact ⟨e, he, t, ht, hkind, hspan⟩

/-- No keyword makes a node of the program, and no fault names one as found. -/
def Parsed.Wordless (p : Parsed) : Prop :=
  (∀ n, p.program.Holds n → n.words = []) ∧
    ∀ x ∈ p.errors, ∀ w, x.value.found? ≠ some (.keyword w)

/-- In raw mode, keywords are left in interpolations only: no token of the script itself is one,
each node that a keyword makes lies in an interpolation with such a keyword, and each fault that
names a keyword is listed at that keyword in an interpolation. Without keywords in interpolations,
at any depth, the program and the faults are free of them. -/
theorem interpolated_words (source : List Char) :
    (∀ t ∈ tokenize .raw source, t.kind.isKeyword = false) ∧
      (∀ n, (parse .raw source).program.Holds n → n.words ≠ [] →
        ∃ e, ReadAlone .raw source .normal e ∧ e.span.Encloses n.span ∧
          ∃ w ∈ n.words, w.OccursIn (tokensFrom .normal .none e.lo e.text)) ∧
      (∀ x ∈ (parse .raw source).errors, ∀ w, x.value.found? = some (.keyword w) →
        ∃ e, ReadAlone .raw source .normal e ∧
          ∃ t ∈ tokensFrom .normal .none e.lo e.text, t.kind = .keyword w ∧ t.span = x.span) ∧
      ((∀ e, ReadAlone .raw source .normal e →
          ∀ w : Keyword, ¬w.OccursIn (tokensFrom .normal .none e.lo e.text)) →
        (parse .raw source).Wordless) := by
  obtain ⟨hnodes, hfaults⟩ := worded_parse .raw source
  refine ⟨fun t ht => isKeyword_of_mem_raw ht, fun n hn => (hnodes n hn).exists_interpolation,
    fun x hx w => (hfaults x hx).exists_interpolation,
    fun hnone => ⟨fun n hn => ?_, fun x hx w hfound => ?_⟩⟩
  · by_contra hne
    obtain ⟨e, he, -, w, -, hoccurs⟩ := (hnodes n hn).exists_interpolation hne
    exact hnone e he w hoccurs
  · obtain ⟨e, he, t, ht, hkind, -⟩ := (hfaults x hx).exists_interpolation hfound
    exact hnone e he w ⟨t, ht, hkind⟩

/-- A keyword in an interpolation is read as one even in raw mode. -/
theorem not_wordless_interpolation : ¬(parse .raw "`$\x7btrue\x7d`".toList).Wordless := by
  have hfound : (parse .raw "`$\x7btrue\x7d`".toList).program.body.any (fun s =>
      s.parts.any fun m => m.parts.any fun n => n.words == [.trueKw]) = true := by
    decide +kernel
  obtain ⟨s, hs, hm⟩ := List.any_eq_true.1 hfound
  obtain ⟨m, hm, hn⟩ := List.any_eq_true.1 hm
  obtain ⟨n, hn, hwords⟩ := List.any_eq_true.1 hn
  have hholds : (Node.stmt s).Holds n := (Node.holds_of_mem hm).trans (Node.holds_of_mem hn)
  intro hwordless
  have hnil := hwordless.1 n ⟨s, hs, hholds⟩
  rw [beq_iff_eq.1 hwords] at hnil
  exact List.cons_ne_nil _ _ hnil

end ScriptCheck
