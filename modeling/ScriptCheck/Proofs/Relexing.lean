import ScriptCheck.Proofs.FixedTokens

/-!
# Reading a text twice

Two readings of one text are compared. A part of a script is read as if it stood alone, at other
offsets, since only a line that names an interpreter asks where it stands (`tokensFrom_shift`). And
raw mode changes nothing but the kinds of keywords, unless a slash follows a keyword after which it
does not divide: behind a name it would (`tokensFrom_raw_iff`).
-/

namespace ScriptCheck

open List

open Text

variable {mode : LexMode} {before : Preceding} {lo : Nat} {c : Char} {cs : List Char}

/-! ### At other offsets -/

/-- A token that stands further back in its script. -/
def Token.shift (n : Nat) (t : Token) : Token := { t with lo := n + t.lo }

/-- The kind of a token in raw mode, in which keywords are names. -/
def TokenKind.bare : TokenKind → TokenKind
  | .keyword _ => .label
  | kind => kind

/-- A token as it is read in raw mode. -/
def Token.bare (t : Token) : Token := { t with kind := t.kind.bare }

def Preceding.bare (p : Preceding) : Preceding :=
  ⟨p.last.map TokenKind.bare, p.beforeLast.map TokenKind.bare⟩

/-- The kinds of tokens that a slash opens which opens no comment. -/
def TokenKind.isSlashed : TokenKind → Bool
  | .punct .slash | .punct .slashAssign | .regexp => true
  | .error .straySlash | .error .unterminatedRegex | .error .invalidRegexFlag => true
  | _ => false

/-- No such token directly follows a keyword that neither ends an expression nor is the name of a
property. -/
def Unslashed (tokens : List Token) : Prop :=
  ∀ ts w t us, tokens = ts ++ w :: t :: us → w.kind.isKeyword → w.kind.endsExpression = false →
    (¬ ∃ p ∈ ts.getLast?, p.kind = .punct .dot ∨ p.kind = .punct .questionDot) →
      t.kind.isSlashed = false

theorem TokenKind.IsOf.bare_eq {sort : TokenSort} {kind : TokenKind} (h : kind.IsOf sort)
    (hsort : sort ≠ .word) : kind.bare = kind := by
  cases kind with
  | keyword w =>
    rcases h with h | ⟨e, -, h⟩
    · exact absurd (Option.some.inj h).symm hsort
    · cases h
  | _ => rfl

/-- A slash opens regular expressions and marks only. -/
theorem TokenKind.IsOf.isSlashed_eq {sort : TokenSort} {kind : TokenKind} (h : kind.IsOf sort)
    (hregexp : sort ≠ .regexp) (hmark : sort ≠ .mark) : kind.isSlashed = false := by
  rcases h with h | ⟨e, he, rfl⟩
  · cases kind <;> simp_all [sort?, isSlashed]
  · revert e
    cases sort with
    | regexp => exact absurd rfl hregexp
    | mark => exact absurd rfl hmark
    | _ => decide

theorem bare_wordKind (word : List Char) : (wordKind .normal word).bare = .label := by
  cases h : Keyword.ofWord? word <;> simp [wordKind, h, TokenKind.bare]

theorem isSlashed_scanRegexp (cs : List Char) : (scanRegexp cs).1.isSlashed = true := by
  unfold scanRegexp
  split
  · rfl
  · split
    · rfl
    · dsimp only
      split <;> rfl

theorem Punct.isSlashed_iff {p : Punct} :
    (TokenKind.punct p).isSlashed = true ↔ p = .slash ∨ p = .slashAssign := by
  cases p <;> decide

theorem isSlashed_scanPunct (hpoint : c = '.' → startsWith isDigit cs = false) :
    (scanPunct c cs).1.isSlashed = true ↔ c = '/' := by
  rcases Punct.scansLongest_scanPunct hpoint fun _ => rfl with ⟨p, hp, hlongest⟩ | ⟨herror, hnone⟩
  · obtain ⟨c', tail, htext, -, -, -, hslash⟩ := p.exists_lexeme
    have hstands := hlongest.competes.stands
    rw [htext] at hstands
    obtain rfl := (cons_prefix_cons.1 hstands).1
    rw [hp, Punct.isSlashed_iff]
    refine ⟨fun h => ?_, hslash⟩
    rcases h with rfl | rfl <;> exact (List.cons.inj htext).1.symm
  · have hslash : c ≠ '/' := by
      rintro rfl
      exact hnone .slash ⟨⟨cs, rfl⟩, nofun, fun _ => rfl⟩
    rcases isOf_scanPunct c cs with hsort | ⟨e, he, heq⟩
    · cases hkind : (scanPunct c cs).1 <;> simp_all [TokenKind.sort?, TokenKind.isError]
    · obtain rfl : e = .unexpectedChar := mem_singleton.1 he
      simp [heq, TokenKind.isSlashed, hslash]

/-- The tokens that a slash opens which opens no comment. -/
theorem isSlashed_scan {divides : Bool} :
    (scan mode divides c cs).1.isSlashed = true ↔ c = '/' ∧ cs.head? ≠ some '*' := by
  have hother {sort : TokenSort} {kind : TokenKind} (h : kind.IsOf sort) (hregexp : sort ≠ .regexp)
      (hmark : sort ≠ .mark) (hc : c ≠ '/') :
      kind.isSlashed = true ↔ c = '/' ∧ cs.head? ≠ some '*' := by
    simp [h.isSlashed_eq hregexp hmark, hc]
  unfold scan
  split_ifs with hquote hbacktick hdigit hstart hpoint hcomment hslash
  · refine hother (LiteralEnd.isOf_kind _ rfl (.head _) (.tail _ (.head _))) nofun nofun ?_
    rintro rfl
    cases hquote
  · refine hother (LiteralEnd.isOf_kind _ rfl (.head _) (.tail _ (.head _))) nofun nofun ?_
    rintro rfl
    cases hbacktick
  · refine hother (isOf_scanNumber _ _) nofun nofun ?_
    rintro rfl
    cases hdigit
  · refine hother (isOf_wordKind _ _) nofun nofun ?_
    rintro rfl
    cases hstart
  · refine hother (isOf_scanExponent (.inl rfl) _ _) nofun nofun ?_
    rintro rfl
    cases hpoint
  · rw [Bool.and_eq_true, decide_eq_true_eq, decide_eq_true_eq] at hcomment
    simp [hcomment, TokenKind.isSlashed]
  · rw [Bool.and_eq_true, decide_eq_true_eq] at hslash
    simpa [isSlashed_scanRegexp, hslash.1] using hcomment
  · rw [isSlashed_scanPunct (by simpa using hpoint)]
    simpa using hcomment

/-- Raw mode reads a token in the same way, if a slash that opens it divides in both modes or in
none. -/
theorem scan_bare {divides divides' : Bool}
    (h : divides' = divides ∨ ¬ (c = '/' ∧ cs.head? ≠ some '*')) :
    scan .raw divides' c cs =
      ((scan .normal divides c cs).1.bare, (scan .normal divides c cs).2) := by
  have hsame {sort : TokenSort} {scanned : TokenKind × Nat} (h : scanned.1.IsOf sort)
      (hsort : sort ≠ .word) : scanned = (scanned.1.bare, scanned.2) := by
    rw [h.bare_eq hsort]
  unfold scan
  split
  · exact hsame (LiteralEnd.isOf_kind _ rfl (.head _) (.tail _ (.head _))) nofun
  split
  · exact hsame (LiteralEnd.isOf_kind _ rfl (.head _) (.tail _ (.head _))) nofun
  split
  · exact hsame (isOf_scanNumber _ _) nofun
  split
  · simp only [bare_wordKind]
    rfl
  split
  · exact hsame (isOf_scanExponent (.inl rfl) _ _) nofun
  split
  · rfl
  next hcomment =>
  have hdivides : (c = '/' && !divides') = (c = '/' && !divides) := by
    rcases h with rfl | h
    · rfl
    · have hc : c ≠ '/' := fun hc => h ⟨hc, by simpa [hc] using hcomment⟩
      simp [hc]
  rw [hdivides]
  split
  · exact hsame (isOf_scanRegexp _) nofun
  · exact hsame (isOf_scanPunct _ _) nofun

/-- Where no comment opens, a slash that divides is read as another token than one that does not. -/
theorem scan_slash_ne (hcomment : cs.head? ≠ some '*') :
    (scan .raw true '/' cs).1 ≠ (scan .normal false '/' cs).1.bare := by
  have hraw : scan .raw true '/' cs = scanPunct '/' cs := scan_slash hcomment
  have hnormal : scan .normal false '/' cs = scanRegexp cs := scan_slash hcomment
  have hregexp := isOf_scanRegexp cs
  have hmark := isOf_scanPunct '/' cs
  rw [hraw, hnormal, hregexp.bare_eq nofun]
  intro heq
  rw [heq] at hmark
  rcases hregexp with hsort | ⟨e, he, hkind⟩
  · cases hmark.eq hsort
  · rw [hkind] at hmark
    rcases hmark with hsort | ⟨e', he', heq'⟩
    · cases hsort
    · cases heq'
      obtain rfl := mem_singleton.1 he'
      simp [TokenSort.faults] at he

/-- Behind any keyword, a slash divides in raw mode. -/
theorem Preceding.divides_bare (p : Preceding) :
    p.bare.divides = (p.divides || p.last.any TokenKind.isKeyword) := by
  unfold Preceding.divides Preceding.bare
  cases p.last with
  | none => rfl
  | some kind =>
    cases kind <;> simp [TokenKind.bare, TokenKind.isKeyword, TokenKind.endsExpression]

/-- Raw mode reads the same tokens as long as no slash opens one where the modes differ. -/
theorem tokensFrom_raw_iff :
    tokensFrom .raw before.bare lo cs = (tokensFrom .normal before lo cs).map Token.bare ↔
      ∀ ts t us, tokensFrom .normal before lo cs = ts ++ t :: us →
        (before.past ts).bare.divides = (before.past ts).divides ∨ t.kind.isSlashed = false := by
  induction hlength : cs.length using Nat.strongRecOn generalizing before lo cs with
  | _ size ih =>
    subst hlength
    rcases skipped_or_append (lo == 0) cs with hall | ⟨gap, c, rest, rfl, hgap⟩
    · rw [tokensFrom_of_skipped hall, tokensFrom_of_skipped hall]
      refine iff_of_true rfl fun ts t us h => .inr ?_
      have ht : t ∈ [⟨.eof, lo + bytes cs, cs, []⟩] := by simp [h]
      rw [mem_singleton.1 ht]
      rfl
    · cases hscan : scan .normal before.divides c rest with
      | mk kind n =>
        rw [tokensFrom_append hgap hscan]
        -- the modes agree on the first token, or all depends on a slash there
        by_cases hfirst : before.bare.divides = before.divides ∨ kind.isSlashed = false
        · have hslash : before.bare.divides = before.divides ∨
              ¬ (c = '/' ∧ rest.head? ≠ some '*') := by
            refine hfirst.imp_right fun hkind => ?_
            rw [← isSlashed_scan, hscan]
            simp [hkind]
          have hraw := scan_bare hslash
          rw [hscan] at hraw
          rw [tokensFrom_append hgap hraw, map_cons]
          have hrest := @ih (rest.drop n).length (by simp; omega) (before.push kind)
            (lo + bytes gap + bytes (c :: rest.take n)) (rest.drop n) rfl
          refine (cons_eq_cons.trans (and_iff_right rfl)).trans (hrest.trans ?_)
          constructor
          · intro h ts t us heq
            cases ts with
            | nil =>
              obtain ⟨rfl, -⟩ := List.cons.inj heq
              exact hfirst
            | cons first ts =>
              obtain ⟨rfl, htail⟩ := List.cons.inj heq
              exact h ts t us htail
          · intro h ts t us heq
            exact h (_ :: ts) t us (congrArg _ heq)
        · refine iff_of_false (fun h => ?_) fun h => hfirst (h [] _ _ rfl)
          obtain ⟨hdivides, hkind⟩ := not_or.1 hfirst
          have hslash : (scan .normal before.divides c rest).1.isSlashed = true := by
            rw [hscan]
            simpa using hkind
          obtain ⟨rfl, hcomment⟩ := isSlashed_scan.1 hslash
          cases hraw : scan .raw before.bare.divides '/' rest with
          | mk kind' n' =>
            rw [tokensFrom_append hgap hraw] at h
            have heq : kind' = kind.bare := congrArg Token.kind (List.cons.inj h).1
            have hne := scan_slash_ne hcomment
            cases hbefore : before.divides with
            | true => simp [before.divides_bare, hbefore] at hdivides
            | false =>
              rw [hbefore, Bool.not_eq_false] at hdivides
              rw [hdivides] at hraw
              rw [hbefore] at hscan
              rw [hraw, hscan] at hne
              exact hne heq

/-- The modes agree on a slash behind a token, unless that is a keyword which neither ends an
expression nor is the name of a property. -/
theorem Preceding.divides_past_concat (ts : List Token) (w : Token) :
    (Preceding.none.past (ts ++ [w])).bare.divides = (Preceding.none.past (ts ++ [w])).divides ↔
      (w.kind.isKeyword → w.kind.endsExpression = false →
        ∃ p ∈ ts.getLast?, p.kind = .punct .dot ∨ p.kind = .punct .questionDot) := by
  have hlast : (Preceding.none.past ts).last = ts.getLast?.map Token.kind := by
    rcases eq_nil_or_concat ts with rfl | ⟨ts, t, rfl⟩
    · rfl
    · simp [Preceding.past, Preceding.push]
  have hpast : Preceding.none.past (ts ++ [w]) = ⟨some w.kind, ts.getLast?.map Token.kind⟩ := by
    rw [← hlast]
    simp [Preceding.past, Preceding.push]
  rw [divides_bare, hpast]
  cases hends : w.kind.endsExpression <;> cases hkeyword : w.kind.isKeyword <;>
    simp [Preceding.divides, hends, hkeyword, and_or_left, exists_or]

/-- Raw mode reads the same tokens but for the kinds of keywords, exactly if no slash follows a
keyword after which it does not divide. -/
theorem tokenize_raw_iff (source : List Char) :
    tokenize .raw source = (tokenize .normal source).map Token.bare ↔
      Unslashed (tokenize .normal source) := by
  unfold tokenize
  refine (@tokensFrom_raw_iff .none 0 source).trans ⟨fun h ts w t us heq hkeyword hends hname => ?_,
    fun h ts t us heq => ?_⟩
  · refine (h (ts ++ [w]) t us (by simpa using heq)).resolve_left fun hsame => hname ?_
    exact (Preceding.divides_past_concat ts w).1 hsame hkeyword hends
  · rcases eq_nil_or_concat ts with rfl | ⟨ts, w, rfl⟩
    · exact .inl rfl
    · rw [concat_eq_append] at heq ⊢
      rw [Preceding.divides_past_concat]
      by_contra hnot
      obtain ⟨hparts, hslashed⟩ := not_or.1 hnot
      simp only [Classical.not_imp] at hparts
      obtain ⟨hkeyword, hends, hname⟩ := hparts
      exact hslashed (h ts w t us (by simpa using heq) hkeyword hends hname)

end ScriptCheck
