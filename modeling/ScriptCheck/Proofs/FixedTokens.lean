import ScriptCheck.Proofs.Lexemes
import ScriptCheck.Proofs.Words

/-!
# Tokens with a fixed text

Keywords and marks are written in one way only. Which mark is read where several of them match is
settled by their length alone, once a point that starts a number and a slash that does not divide
are left out (`Punct.IsLongest`); in this sense marks are read as far as they go, and so are names.
-/

namespace ScriptCheck

open List

open Text

namespace Punct

/-- A mark may be read at the start of a text: it stands there, no number starts with its point, and
its slash divides. -/
structure Competes (divides : Bool) (cs : List Char) (p : Punct) : Prop where
  stands : p.lexeme.toList <+: cs
  point : p = .dot ∨ p = .questionDot →
    startsWith isDigit (cs.drop p.lexeme.toList.length) = false
  slash : p = .slash ∨ p = .slashAssign → divides = true

/-- The longest mark that may be read at the start of a text. -/
structure IsLongest (divides : Bool) (cs : List Char) (p : Punct) : Prop where
  competes : p.Competes divides cs
  longest : ∀ q : Punct, q.Competes divides cs →
    q.lexeme.toList.length ≤ p.lexeme.toList.length

variable {p q : Punct} {mode : LexMode} {divides : Bool} {c : Char} {cs : List Char}

theorem IsLongest.eq (hp : p.IsLongest divides cs) (hq : q.IsLongest divides cs) : p = q := by
  have hle := hq.longest p hp.competes
  have hsub := prefix_of_prefix_length_le hp.competes.stands hq.competes.stands hle
  exact (eq_of_lexeme_eq (hsub.eq_of_length (Nat.le_antisymm hle (hp.longest q hq.competes)))).symm

/-- The marks that match where a digit stands behind a question mark and a point. -/
theorem eq_question_or {d : Char} (hd : isDigit d) (h : q.lexeme.toList <+: '?' :: '.' :: d :: cs) :
    q = .question ∨ q = .questionDot := by
  obtain ⟨c, tail, htext, -, htail, -⟩ := q.exists_lexeme
  rw [htext] at h
  obtain ⟨rfl, hrest⟩ := cons_prefix_cons.1 h
  rcases tail with _ | ⟨x, _ | ⟨y, tail⟩⟩
  · exact .inl (eq_of_lexeme_eq htext.symm)
  · obtain ⟨rfl, -⟩ := cons_prefix_cons.1 hrest
    exact .inr (eq_of_lexeme_eq htext.symm)
  · obtain ⟨rfl, hlast⟩ := cons_prefix_cons.1 hrest
    obtain ⟨rfl, -⟩ := cons_prefix_cons.1 hlast
    simp [hd] at htail

/-- The longest mark is scanned, or a malformed token where no mark may be read. -/
def ScansLongest (divides : Bool) (cs : List Char) (scanned : TokenKind × Nat) : Prop :=
  (∃ p : Punct, scanned = (.punct p, p.lexeme.toList.length - 1) ∧ p.IsLongest divides cs) ∨
    scanned.1.isError = true ∧ ∀ p : Punct, ¬ p.Competes divides cs

theorem scansLongest_scanPunct (hpoint : c = '.' → startsWith isDigit cs = false)
    (hslash : c = '/' → divides = true) : ScansLongest divides (c :: cs) (scanPunct c cs) := by
  have hcompetes {p : Punct} (hp : p.lexeme.toList <+: c :: cs)
      (hdot : p = .questionDot → startsWith isDigit (cs.drop 1) = false) :
      p.Competes divides (c :: cs) := by
    refine ⟨hp, ?_, ?_⟩
    · rintro (rfl | rfl)
      · exact hpoint (cons_prefix_cons.1 hp).1.symm
      · exact hdot rfl
    · rintro (rfl | rfl) <;> exact hslash (cons_prefix_cons.1 hp).1.symm
  -- all marks compete that match, unless a digit stands behind a question mark and a point
  have hlongest (hdot : Punct.questionDot.lexeme.toList <+: c :: cs →
      startsWith isDigit (cs.drop 1) = false) :
      ScansLongest divides (c :: cs) (scanPunct.longest c cs) := by
    unfold scanPunct.longest
    split
    · next p hread =>
      obtain ⟨hp, hmax⟩ := read?_eq_some_iff.1 hread
      exact .inl ⟨p, rfl, hcompetes hp fun hq => hdot (hq ▸ hp), fun q hq => hmax q hq.stands⟩
    · next hread =>
      refine .inr ⟨rfl, fun p hp => ?_⟩
      obtain ⟨q, hq, -⟩ := exists_read? hp.stands
      rw [hread] at hq
      cases hq
  unfold scanPunct
  split
  · next d rest =>
    split
    · next hd =>
      refine .inl ⟨.question, rfl, hcompetes ⟨_, rfl⟩ nofun, fun q hq => ?_⟩
      rcases eq_question_or hd hq.stands with rfl | rfl
      · exact le_rfl
      · have hnot : isDigit d = false := hq.point (.inr rfl)
        rw [hd] at hnot
        cases hnot
    · next hd => exact hlongest fun _ => by simpa [startsWith] using hd
  · next hnot =>
    refine hlongest fun hdot => ?_
    have hdot : ['?', '.'] <+: c :: cs := hdot
    obtain ⟨rest, hrest⟩ := hdot
    obtain ⟨rfl, rfl⟩ := List.cons.inj hrest
    cases rest with
    | nil => rfl
    | cons d rest => exact (hnot d rest rfl rfl).elim

/-- A mark that is scanned is the longest one, and does not open a comment. -/
theorem isLongest_of_scan (h : (scan mode divides c cs).1 = .punct p) :
    p.IsLongest divides (c :: cs) ∧ ¬ ['/', '*'] <+: c :: cs ∧
      c :: cs.take (scan mode divides c cs).2 = p.lexeme.toList := by
  obtain ⟨hpoint, hslash, hscan⟩ : TokenSort.mark.Found mode divides c cs :=
    found_scan (by rw [h]; rfl)
  rw [hscan] at h ⊢
  rcases scansLongest_scanPunct hpoint fun hc => (hslash hc).1 with ⟨q, hq, hp⟩ | ⟨herror, -⟩
  · obtain rfl : q = p := by simpa [hq] using h
    refine ⟨hp, fun hcomment => ?_, ?_⟩
    · obtain ⟨rest, hrest⟩ := hcomment
      obtain ⟨rfl, rfl⟩ := List.cons.inj hrest
      exact (hslash rfl).2 rfl
    · obtain ⟨c', tail, htext, -⟩ := q.exists_lexeme
      have hstands := prefix_iff_eq_take.1 hp.competes.stands
      rw [hq, htext, length_cons, Nat.add_sub_cancel]
      rw [htext, length_cons, take_succ_cons] at hstands
      exact hstands.symm
  · rw [h] at herror
    cases herror

/-- The longest mark is scanned where no comment opens. -/
theorem scan_of_isLongest (hp : p.IsLongest divides (c :: cs))
    (hcomment : ¬ ['/', '*'] <+: c :: cs) : (scan mode divides c cs).1 = .punct p := by
  obtain ⟨c', tail, htext, -, htail, -, hslashes⟩ := p.exists_lexeme
  have hprefix := hp.competes.stands
  rw [htext] at hprefix
  obtain ⟨rfl, hbehind⟩ := cons_prefix_cons.1 hprefix
  have hpoint : c' = '.' → startsWith isDigit cs = false := by
    rintro rfl
    rcases tail with _ | ⟨x, tail⟩
    · obtain rfl : p = .dot := (eq_of_lexeme_eq htext).symm
      exact hp.competes.point (.inl rfl)
    · obtain ⟨rest, rfl⟩ := hbehind
      rw [all_cons, Bool.and_eq_true, Bool.not_eq_true'] at htail
      exact htail.1
  have hslash : c' = '/' → divides = true ∧ cs.head? ≠ some '*' := by
    rintro rfl
    refine ⟨hp.competes.slash (hslashes rfl), fun hstar => hcomment ?_⟩
    obtain ⟨rest, rfl⟩ := head?_eq_some_iff.1 hstar
    exact ⟨rest, rfl⟩
  rw [p.scan_eq htext hpoint hslash]
  rcases scansLongest_scanPunct hpoint fun hc => (hslash hc).1 with ⟨q, hq, hlongest⟩ | ⟨-, hnone⟩
  · rw [hq, hlongest.eq hp]
  · exact absurd hp.competes (hnone p)

end Punct

/-! ### Names -/

theorem ne_keyword_of_wordKind {word : List Char} (h : wordKind .normal word = .label)
    (w : Keyword) : word ≠ w.lexeme.toList := by
  rintro rfl
  simp [wordKind, Keyword.ofWord?_eq_some_iff.2 rfl] at h

theorem isDigit_of_isWordStart {c : Char} (h : isWordStart c) : isDigit c = false := by
  refine Bool.eq_false_iff.2 fun hdigit => ?_
  rw [isWordStart_iff, isLetter_iff] at h
  rw [isDigit_iff] at hdigit
  omega

/-! ### Tokens of a script -/

/-- A token with a fixed text is written so. It is a mark if and only if that is the longest one
that may be read at its start, by the tokens before it and the text behind it. A name is a word that
is read as far as it goes, starts with no digit and, in normal mode, is no keyword. -/
theorem fixed_of_eq_append {mode : LexMode} {before : Preceding} {lo : Nat} {cs : List Char}
    {t : Token} {ts us : List Token} (h : tokensFrom mode before lo cs = ts ++ t :: us)
    (hkind : t.kind ≠ .eof) :
    ∃ front after, cs = front ++ (t.text ++ after) ∧ t.lo = lo + bytes front ∧
      (∀ lexeme, t.kind.lexeme? = some lexeme → t.text = lexeme.toList) ∧
      (∀ p, t.kind = .punct p ↔ p.IsLongest (before.past ts).divides (t.text ++ after) ∧
        ¬ ['/', '*'] <+: t.text ++ after) ∧
      (t.kind = .label → (∀ c ∈ t.text, isWordChar c) ∧ startsWith isWordChar after = false ∧
        (∃ c, t.text.head? = some c ∧ isDigit c = false) ∧
        (mode = .normal → ∀ w : Keyword, t.text ≠ w.lexeme.toList)) := by
  obtain ⟨front, c, rest, hat⟩ := exists_scannedAt hkind ts h
  refine ⟨front, _, by rw [hat.eq, hat.text_append], hat.lo, ?_, ?_, ?_⟩
  · intro lexeme hlexeme
    have ht : t ∈ tokensFrom mode before lo cs := by simp [h]
    cases hkind' : t.kind with
    | keyword w =>
      rw [hkind'] at hlexeme
      rw [← Option.some.inj hlexeme]
      exact text_of_keyword ht hkind'
    | punct p =>
      rw [hkind'] at hlexeme
      rw [← Option.some.inj hlexeme, hat.text]
      exact (Punct.isLongest_of_scan (hat.kind.symm.trans hkind')).2.2
    | _ =>
      rw [hkind'] at hlexeme
      cases hlexeme
  · intro p
    rw [← hat.text_append, hat.kind]
    exact ⟨fun hp => ⟨(Punct.isLongest_of_scan hp).1, (Punct.isLongest_of_scan hp).2.1⟩,
      fun hp => Punct.scan_of_isLongest hp.1 hp.2⟩
  · intro hlabel
    have hsort : (scan mode (before.past ts).divides c rest).1.sort? = some .word := by
      rw [← hat.kind, hlabel]
      rfl
    obtain ⟨hstart, hscan⟩ := found_scan hsort
    have hword := hat.kind.symm.trans hlabel
    have htext := hat.text
    rw [hscan] at hword htext ⊢
    refine ⟨?_, startsWith_drop_runLength _ _, ⟨c, by rw [htext]; rfl,
      isDigit_of_isWordStart hstart⟩, ?_⟩
    · rw [htext, take_runLength, List.forall_mem_cons]
      exact ⟨isWordChar_of_isWordStart hstart, List.all_eq_true.1 List.all_takeWhile⟩
    · rintro rfl
      exact htext ▸ ne_keyword_of_wordKind hword

/-- Before a number, a question mark is read without the point behind it. -/
theorem fixed_of_eq_append_question : ∃ front after,
    "iff?.5:c".toList = front ++ ("?".toList ++ after) ∧ bytes front = 3 ∧
      Punct.question.IsLongest true ("?".toList ++ after) := by
  obtain ⟨front, after, hsplit, hlo, -, hmark, -⟩ :=
    @fixed_of_eq_append .normal .none 0 "iff?.5:c".toList ⟨.punct .question, 3, [], "?".toList⟩
      [⟨.label, 0, [], "iff".toList⟩] [⟨.double, 4, [], ".5".toList⟩,
        ⟨.punct .colon, 6, [], ":".toList⟩, ⟨.label, 7, [], "c".toList⟩, ⟨.eof, 8, [], []⟩]
      (by decide +kernel) nofun
  exact ⟨front, after, hsplit, (hlo.trans (Nat.zero_add _)).symm, ((hmark .question).1 rfl).1⟩

end ScriptCheck
