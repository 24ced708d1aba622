import Mathlib.Tactic.SplitIfs
import ScriptCheck.Token.Lexer

/-!
# What is scanned

The first character of a token decides in which way it is scanned, and so of which sort it is: a
string, a template, a number, a word, a regular expression or a mark. A malformed token is of no
sort. `TokenSort.Found` says what is known of a text with a token of some sort at its start
(`found_scan`), and `ScannedAt` where in a text a token was scanned (`exists_scannedAt`).
-/

namespace ScriptCheck

open List

open Text

variable {rest : List Char} {divides : Bool}

/-! ### Sorts of tokens -/

/-- The sorts of tokens, by the way in which they are scanned. -/
inductive TokenSort where
  | string
  | template
  | number
  | word
  | regexp
  | mark
  deriving DecidableEq, Repr

/-- The sort of a kind. Malformed tokens have none, and neither has the end. -/
def TokenKind.sort? : TokenKind → Option TokenSort
  | .string => some .string
  | .template => some .template
  | .number | .double => some .number
  | .label | .keyword _ => some .word
  | .regexp => some .regexp
  | .punct _ => some .mark
  | .error _ | .eof => none

/-- The faults of tokens that are scanned as ones of some sort. -/
def TokenSort.faults : TokenSort → List LexError
  | .string => [.unterminatedString, .invalidEscape]
  | .template => [.unterminatedTemplate, .invalidEscape]
  | .number => [.invalidNumber]
  | .word => []
  | .regexp => [.straySlash, .unterminatedRegex, .invalidRegexFlag]
  | .mark => [.unexpectedChar]

/-- The kind of a token that is scanned as one of some sort. -/
def TokenKind.IsOf (sort : TokenSort) (kind : TokenKind) : Prop :=
  kind.sort? = some sort ∨ ∃ e ∈ sort.faults, kind = .error e

variable {sort : TokenSort} {kind : TokenKind} {mode : LexMode} {c : Char} {cs : List Char}
  {lo : Nat} {t : Token}

theorem TokenKind.IsOf.eq {sort' : TokenSort} (h : kind.IsOf sort) (h' : kind.sort? = some sort') :
    sort = sort' := by
  rcases h with h | ⟨e, -, rfl⟩
  · exact Option.some.inj (h.symm.trans h')
  · cases h'

theorem isOf_endNumber (h : kind.IsOf .number) (n : Nat) (cs : List Char) :
    (endNumber kind n cs).1.IsOf .number := by
  unfold endNumber
  split
  · exact .inr ⟨_, by decide, rfl⟩
  · exact h

theorem isOf_scanExponent (h : kind.IsOf .number) (n : Nat) (cs : List Char) :
    (scanExponent kind n cs).1.IsOf .number := by
  unfold scanExponent
  split
  · exact isOf_endNumber h _ _
  · exact .inr ⟨_, by decide, rfl⟩
  · exact isOf_endNumber (.inl rfl) _ _

theorem isOf_scanNumber (first : Char) (cs : List Char) :
    (scanNumber first cs).1.IsOf .number := by
  have hdecimal (cs : List Char) : (scanDecimal cs).1.IsOf .number := by
    unfold scanDecimal
    dsimp only
    split
    · split <;> exact isOf_scanExponent (.inl rfl) _ _
    · exact isOf_scanExponent (.inl rfl) _ _
  unfold scanNumber
  split
  · split
    · dsimp only [scanRadix]
      split
      · exact .inr ⟨_, by decide, rfl⟩
      · exact isOf_endNumber (.inl rfl) _ _
    · exact hdecimal _
  · exact .inl rfl

theorem isOf_wordKind (mode : LexMode) (word : List Char) : (wordKind mode word).IsOf .word := by
  cases mode with
  | raw => exact .inl rfl
  | normal => cases h : Keyword.ofWord? word <;> exact .inl (by simp [wordKind, h, TokenKind.sort?])

theorem isOf_scanRegexp (cs : List Char) : (scanRegexp cs).1.IsOf .regexp := by
  unfold scanRegexp
  split
  · exact .inr ⟨_, by decide, rfl⟩
  · split
    · exact .inr ⟨_, by decide, rfl⟩
    · dsimp only
      split
      · exact .inl rfl
      · exact .inr ⟨_, by decide, rfl⟩

theorem isOf_scanPunct (c : Char) (cs : List Char) : (scanPunct c cs).1.IsOf .mark := by
  have hlongest : (scanPunct.longest c cs).1.IsOf .mark := by
    unfold scanPunct.longest
    split
    · exact .inl rfl
    · exact .inr ⟨_, by decide, rfl⟩
  unfold scanPunct
  split
  · split
    · exact .inl rfl
    · exact hlongest
  · exact hlongest

theorem LiteralEnd.isOf_kind {closed : TokenKind} {unclosed : LexError} (e : LiteralEnd)
    (hclosed : closed.sort? = some sort) (hunclosed : unclosed ∈ sort.faults)
    (hescape : .invalidEscape ∈ sort.faults) : (e.kind closed unclosed).IsOf sort := by
  unfold kind
  split
  · exact .inr ⟨_, hunclosed, rfl⟩
  · exact .inr ⟨_, hescape, rfl⟩
  · exact .inl hclosed

/-! ### The token at the start of a text -/

theorem Text.ne_of_class {p : Char → Bool} {d : Char} (hc : p c) (hd : p d = false) : c ≠ d := by
  rintro rfl
  exact absurd hc (by simp [hd])

/-- What a scan takes for a character of its own is not a backslash. -/
theorem ne_backslash (hlast : c = '\\' → rest = [] → False)
    (hescape : ∀ c' rest', c = '\\' → rest = c' :: rest' → False) : c ≠ '\\' := by
  rintro rfl
  cases rest with
  | nil => exact hlast rfl rfl
  | cons c' rest' => exact hescape c' rest' rfl rfl

theorem take_runLength (p : Char → Bool) (cs : List Char) :
    cs.take (runLength p cs) = cs.takeWhile p :=
  (prefix_iff_eq_take.1 ( takeWhile_prefix p)).symm

theorem startsWith_drop_runLength (p : Char → Bool) (cs : List Char) :
    startsWith p (cs.drop (runLength p cs)) = false := by
  induction cs with
  | nil => rfl
  | cons c cs ih =>
    cases hc : p c with
    | true => simpa [runLength, hc] using ih
    | false => simp [runLength, hc, startsWith]

/-- What is known of a text `c :: cs` with a token of some sort at its start. -/
def TokenSort.Found (mode : LexMode) (divides : Bool) (c : Char) (cs : List Char) :
    TokenSort → Prop
  | .string => (c = '"' ∨ c = '\'') ∧ (stringEnd c cs).malformed = some false ∧
      scan mode divides c cs = (.string, (stringEnd c cs).length)
  | .template => c = '`' ∧ (templateEnd [.text] cs).malformed = some false ∧
      scan mode divides c cs = (.template, (templateEnd [.text] cs).length)
  | .number => isDigit c ∧ scan mode divides c cs = scanNumber c cs ∨
      c = '.' ∧ startsWith isDigit cs ∧ scan mode divides c cs = scanFraction cs
  | .word => isWordStart c ∧ scan mode divides c cs =
      (wordKind mode (c :: cs.take (runLength isWordChar cs)), runLength isWordChar cs)
  | .regexp => c = '/' ∧ cs.head? ≠ some '*' ∧ scan mode divides c cs = scanRegexp cs
  | .mark => (c = '.' → startsWith isDigit cs = false) ∧
      (c = '/' → divides = true ∧ cs.head? ≠ some '*') ∧
      scan mode divides c cs = scanPunct c cs

theorem found_scan (h : (scan mode divides c cs).1.sort? = some sort) :
    sort.Found mode divides c cs := by
  have hliteral {closed : TokenKind} {unclosed : LexError} {e : LiteralEnd} {closedSort : TokenSort}
      (hclosed : closed.sort? = some closedSort) (h : (e.kind closed unclosed).sort? = some sort) :
      closedSort = sort ∧ e.malformed = some false ∧ e.kind closed unclosed = closed := by
    unfold LiteralEnd.kind at h ⊢
    split at h
    · cases h
    · cases h
    · next hmalformed =>
      rw [hmalformed]
      exact ⟨Option.some.inj (hclosed.symm.trans h), rfl, rfl⟩
  generalize hscan : scan mode divides c cs = result at h
  have hresult := hscan
  unfold scan at hscan
  dsimp only at hscan
  -- the cases in the order in which `scan` tries them
  split_ifs at hscan with hquote hbacktick hdigit hstart hpoint hcomment hslash <;> subst hscan
  · obtain ⟨rfl, hclosed, hkind⟩ := hliteral rfl h
    exact ⟨by simpa using hquote, hclosed, by rw [hresult, hkind]⟩
  · obtain ⟨rfl, hclosed, hkind⟩ := hliteral rfl h
    exact ⟨hbacktick, hclosed, by rw [hresult, hkind]⟩
  · obtain rfl := (isOf_scanNumber c cs).eq h
    exact .inl ⟨hdigit, hresult⟩
  · obtain rfl := (isOf_wordKind _ _).eq h
    exact ⟨hstart, hresult⟩
  · obtain rfl := (isOf_scanExponent (.inl rfl) _ _).eq h
    rw [Bool.and_eq_true, decide_eq_true_eq] at hpoint
    exact .inr ⟨hpoint.1, hpoint.2, hresult⟩
  · cases h
  · obtain rfl := (isOf_scanRegexp cs).eq h
    rw [Bool.and_eq_true, decide_eq_true_eq] at hslash
    exact ⟨hslash.1, by simpa [hslash.1] using hcomment, hresult⟩
  · obtain rfl := (isOf_scanPunct c cs).eq h
    refine ⟨fun hc => ?_, fun hc => ⟨?_, ?_⟩, hresult⟩
    · simpa [hc] using hpoint
    · simpa [hc] using hslash
    · simpa [hc] using hcomment

/-- A slash that opens no comment divides or opens a regular expression. -/
theorem scan_slash (h : cs.head? ≠ some '*') :
    scan mode divides '/' cs = if divides then scanPunct '/' cs else scanRegexp cs := by
  have hclass : isDigit '/' = false ∧ isWordStart '/' = false := ⟨rfl, rfl⟩
  cases divides <;> simp [scan, hclass, h]

/-- What is scanned is never the end. -/
theorem scan_ne_eof (mode : LexMode) (divides : Bool) (c : Char) (cs : List Char) :
    (scan mode divides c cs).1 ≠ .eof := by
  have hne {sort : TokenSort} {kind : TokenKind} (h : kind.IsOf sort) : kind ≠ .eof := by
    rintro rfl
    rcases h with h | ⟨e, -, h⟩ <;> cases h
  unfold scan
  split_ifs
  · exact hne (LiteralEnd.isOf_kind _ rfl (.head _) (.tail _ (.head _)))
  · exact hne (LiteralEnd.isOf_kind _ rfl (.head _) (.tail _ (.head _)))
  · exact hne (isOf_scanNumber _ _)
  · exact hne (isOf_wordKind _ _)
  · exact hne (isOf_scanExponent (.inl rfl) _ _)
  · exact nofun
  · exact hne (isOf_scanRegexp _)
  · exact hne (isOf_scanPunct _ _)

/-! ### Tokens in their text -/

/-- The last two tokens once some tokens are read. -/
def Preceding.past (before : Preceding) (ts : List Token) : Preceding :=
  ts.foldl (fun p t => p.push t.kind) before

/-- A token of a text at offset `lo` was scanned at its start `c :: rest`, behind `front`. No skipped
text stands there. -/
structure ScannedAt (mode : LexMode) (divides : Bool) (lo : Nat) (cs front : List Char) (c : Char)
    (rest : List Char) (t : Token) : Prop where
  eq : cs = front ++ c :: rest
  lo : t.lo = lo + bytes front
  kind : t.kind = (scan mode divides c rest).1
  text : t.text = c :: rest.take (scan mode divides c rest).2
  bare : ∃ atStart, pieceLength atStart (c :: rest) = 0

theorem ScannedAt.text_append {front : List Char}
    (h : ScannedAt mode divides lo cs front c rest t) :
    c :: rest = t.text ++ rest.drop (scan mode divides c rest).2 := by
  rw [h.text, cons_append, take_append_drop]

/-- Skipping ends where no piece of skipped text follows. -/
theorem pieceLength_of_drop {atStart : Bool} (h : cs.drop (triviaLength atStart cs) = c :: rest) :
    ∃ atStart, pieceLength atStart (c :: rest) = 0 := by
  fun_induction triviaLength atStart cs with
  | case1 => cases h
  | case2 atStart d ds hpiece => exact ⟨atStart, h ▸ hpiece⟩
  | case3 atStart d ds n hpiece ih =>
    rw [← drop_drop, drop_succ_cons] at h
    exact ih h

/-- Every token but the last one was scanned, after those before it. -/
theorem exists_scannedAt {before : Preceding} {us : List Token} (hkind : t.kind ≠ .eof)
    (ts : List Token) (h : tokensFrom mode before lo cs = ts ++ t :: us) :
    ∃ front c rest, ScannedAt mode (before.past ts).divides lo cs front c rest t := by
  fun_induction tokensFrom mode before lo cs generalizing ts with
  | case1 before lo cs skipped gap start hrest =>
    have ht : t ∈ [⟨.eof, start, gap, []⟩] := by simp [h]
    rw [mem_singleton.1 ht] at hkind
    exact absurd rfl hkind
  | case2 before lo cs skipped gap start c rest hrest kind n hscan text ih =>
    have hsplit : cs = gap ++ c :: rest := by
      rw [← hrest]
      exact (take_append_drop skipped cs).symm
    cases ts with
    | nil =>
      obtain ⟨rfl, -⟩ := List.cons.inj h
      refine ⟨gap, c, rest, hsplit, rfl, ?_, ?_, pieceLength_of_drop hrest⟩
      · simp [Preceding.past, hscan]
      · simp [Preceding.past, hscan, text]
    | cons first ts =>
      obtain ⟨rfl, htail⟩ := List.cons.inj h
      obtain ⟨front, c', rest', hat⟩ := ih ts htail
      refine ⟨gap ++ (text ++ front), c', rest', ?_, ?_, hat.kind, hat.text, hat.bare⟩
      · calc cs = gap ++ (text ++ rest.drop n) := by
              rw [hsplit, cons_append, take_append_drop]
          _ = gap ++ (text ++ front) ++ c' :: rest' := by rw [hat.eq]; simp
      · rw [hat.lo]
        simp only [bytes_append, start]
        omega

/-- Where a token of some sort was scanned, and what stands there. -/
theorem found_of_mem {before : Preceding} (ht : t ∈ tokensFrom mode before lo cs)
    (hsort : t.kind.sort? = some sort) :
    ∃ divides front c rest, ScannedAt mode divides lo cs front c rest t ∧
      sort.Found mode divides c rest := by
  have hkind : t.kind ≠ .eof := by
    intro heof
    rw [heof] at hsort
    cases hsort
  obtain ⟨ts, us, h⟩ := append_of_mem ht
  obtain ⟨front, c, rest, hat⟩ := exists_scannedAt hkind ts h
  exact ⟨_, front, c, rest, hat, found_scan (hat.kind ▸ hsort)⟩

end ScriptCheck
