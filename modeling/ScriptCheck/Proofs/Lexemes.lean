import ScriptCheck.Proofs.Marks
import ScriptCheck.Proofs.Numerals

/-!
# Lexemes and how they are written

A `Lexeme` is a token without its place: its kind and its text. Lexemes are written on one line,
with one blank between any two of them (`Lexeme.line`), and tokens read from such a line are those
lexemes again (`lexemes_tokensFrom`).

A blank ends every mark, word and number, so a lexeme of these kinds is scanned from its own text
whatever follows the blank (`Lexeme.Scans`). Only a slash depends on the tokens before it: it must
stand where it divides, which `Lexable` asks of a list of lexemes.
-/

namespace ScriptCheck

open List

open Text

variable {kind : TokenKind} {exponent digits : List Char}

/-- A token without its place. -/
structure Lexeme where
  kind : TokenKind
  text : List Char
  deriving DecidableEq, Repr

/-- The lexeme that a token stands for. -/
def Token.lexeme (t : Token) : Lexeme := ⟨t.kind, t.text⟩

namespace Lexeme

/-- A kind that has only one written form. -/
def fixed (kind : TokenKind) : Lexeme := ⟨kind, (kind.lexeme?.getD "").toList⟩

/-- A word, which may be a keyword. -/
def word (name : String) : Lexeme := ⟨wordKind .normal name.toList, name.toList⟩

/-- An integer in decimal notation. -/
def decimal (n : Nat) : Lexeme := ⟨.number, Nat.toDigits 10 n⟩

/-- Lexemes on one line, with a blank between any two of them. -/
def line (ls : List Lexeme) : List Char := [' '].intercalate (ls.map Lexeme.text)

end Lexeme

/-! ### Classes of characters -/

namespace Text

variable {c : Char} {cs more : List Char} {p : Char → Bool}

theorem isDigit_iff : isDigit c ↔ 48 ≤ c.toNat ∧ c.toNat ≤ 57 := by
  simp [isDigit, Char.le_def, UInt32.le_iff_toNat_le]

theorem isLetter_iff :
    isLetter c ↔ (97 ≤ c.toNat ∧ c.toNat ≤ 122) ∨ (65 ≤ c.toNat ∧ c.toNat ≤ 90) := by
  simp [isLetter, Char.le_def, UInt32.le_iff_toNat_le]

theorem isWordStart_iff : isWordStart c ↔ isLetter c ∨ c.toNat = 95 := by
  simp [isWordStart, Char.ext_iff, ← UInt32.toNat_inj]

theorem isWordChar_iff : isWordChar c ↔ isWordStart c ∨ isDigit c := by
  simp only [isWordChar, isWordStart, Bool.or_eq_true]
  exact or_right_comm

/-- No character of a word is blank. -/
theorem isBlank_of_isWordChar (h : isWordChar c) : isBlank c = false := by
  rw [isWordChar_iff, isWordStart_iff, isLetter_iff, isDigit_iff] at h
  simp only [isBlank, Bool.or_eq_false_iff, Bool.and_eq_false_iff, decide_eq_false_iff_not,
    beq_eq_false_iff_ne]
  omega

theorem isDigit_of_mem_toDigits {n : Nat} (h : c ∈ Nat.toDigits 10 n) :
    isDigit c := by
  have hdigit := Nat.isDigit_of_mem_toDigits (by decide) (by decide) h
  simpa [Char.isDigit, isDigit, Char.le_def] using hdigit

/-- Decimal digits stand for a number in the way the core library reads them. -/
theorem positional_eq_ofDigitChars (h : ∀ c ∈ cs, isDigit c) :
    positional 10 cs = Nat.ofDigitChars 10 cs 0 := by
  suffices hfold : ∀ n, cs.foldl (fun n c => n * 10 + (digitValue? c).getD 0) n =
      Nat.ofDigitChars 10 cs n from hfold 0
  intro n
  induction cs generalizing n with
  | nil => rfl
  | cons c cs ih =>
    obtain ⟨hc, hcs⟩ := forall_mem_cons.1 h
    rw [foldl_cons, Nat.ofDigitChars_cons, ih hcs]
    simp [digitValue?, hc, Nat.mul_comm]

/-- Whether a text is a word. -/
def isWord : List Char → Bool
  | [] => false
  | c :: cs => isWordStart c && cs.all isWordChar

/-! ### What stands behind a lexeme -/

/-- A text that may stand behind a lexeme: it is empty or starts with a blank. -/
def Parted (more : List Char) : Prop := ∀ c ∈ more.head?, c = ' '

theorem parted_nil : Parted [] := by simp [Parted]

theorem parted_cons (more : List Char) : Parted (' ' :: more) := by simp [Parted]

/-- A text without characters of some class does not start with one, whatever stands behind the
blank. -/
theorem Parted.startsWith_append (h : Parted more) (hp : p ' ' = false)
    (hcs : ∀ c ∈ cs, p c = false) : startsWith p (cs ++ more) = false := by
  cases cs with
  | nil =>
    cases more with
    | nil => rfl
    | cons c more =>
      obtain rfl : c = ' ' := h c rfl
      simpa [startsWith] using hp
  | cons d cs => simpa [startsWith] using hcs d (by simp)

/-- A run of characters of some class ends where none of them stands. -/
theorem runLength_append (hcs : ∀ c ∈ cs, p c) (hmore : startsWith p more = false) :
    runLength p (cs ++ more) = cs.length := by
  have hend : more.takeWhile p = [] := by
    cases more with
    | nil => rfl
    | cons c more =>
      have hc : p c = false := hmore
      simp [hc]
  rw [runLength, takeWhile_append_of_pos hcs, hend, append_nil]

theorem Parted.runLength_append (h : Parted more) (hp : p ' ' = false) (hcs : ∀ c ∈ cs, p c) :
    runLength p (cs ++ more) = cs.length :=
  have hmore : startsWith p ([] ++ more) = false := h.startsWith_append hp (by simp)
  Text.runLength_append hcs hmore

/-- A blank is no part of a text without blanks, so what stands behind it does not matter for what
the text before it starts with. -/
theorem Parted.isPrefixOf_append (h : Parted more) {part : List Char} (hpart : ' ' ∉ part)
    (cs : List Char) : part.isPrefixOf (cs ++ more) = part.isPrefixOf cs := by
  induction part generalizing cs with
  | nil => simp
  | cons c part ih =>
    obtain ⟨hc, hpart⟩ : ¬ ' ' = c ∧ ' ' ∉ part := by simpa using hpart
    cases cs with
    | nil =>
      cases more with
      | nil => rfl
      | cons d more =>
        obtain rfl : d = ' ' := h d rfl
        simp [List.isPrefixOf, Ne.symm hc]
    | cons d cs => simp [List.isPrefixOf, ih hpart]

end Text

/-! ### Scanning one lexeme -/

variable {c : Char} {rest cs more gap : List Char} {mode : LexMode} {before : Preceding}

/-- No skipped text starts with a character that is neither blank nor opens a comment. -/
theorem pieceLength_eq_zero (hblank : isBlank c = false) (hsharp : c ≠ '#')
    (hslash : c = '/' → startsWith (fun d => d == '/' || d == '*') rest = false) (atStart : Bool) :
    pieceLength atStart (c :: rest) = 0 := by
  unfold pieceLength
  split
  · next h =>
    obtain ⟨rfl, rfl⟩ := List.cons.inj h
    exact absurd (hslash rfl) (by simp [startsWith])
  · next h =>
    obtain ⟨rfl, rfl⟩ := List.cons.inj h
    exact absurd (hslash rfl) (by simp [startsWith])
  · next h => exact absurd (List.cons.inj h).1 hsharp
  · next h =>
    obtain ⟨rfl, rfl⟩ := List.cons.inj h
    simp [hblank]
  · next h => exact absurd h (by simp)

theorem pieceLength_of_isWordChar (h : isWordChar c) (rest : List Char) (atStart : Bool) :
    pieceLength atStart (c :: rest) = 0 :=
  pieceLength_eq_zero (isBlank_of_isWordChar h) (ne_of_class h (by decide))
    (fun hslash => absurd hslash (ne_of_class h (by decide))) atStart

/-! ### Scanning a number -/

/-- An exponent that is missing or well formed. -/
def EndsNumber (exponent : List Char) : Prop := exponent = [] ∨ ExponentText exponent

theorem EndsNumber.head? (h : EndsNumber exponent) (hmore : Parted more) :
    ∀ c ∈ (exponent ++ more).head?, c = ' ' ∨ c = 'e' ∨ c = 'E' := by
  rcases h with rfl | ⟨hletter, -, -⟩
  · exact fun c hc => .inl (hmore c hc)
  · rintro c ⟨⟩
    exact .inr hletter

/-- No digit stands before an exponent or a blank. -/
theorem EndsNumber.runLength_append (h : EndsNumber exponent) (hmore : Parted more)
    (hdigits : ∀ c ∈ digits, isDigit c) :
    runLength isDigit (digits ++ (exponent ++ more)) = digits.length := by
  refine Text.runLength_append hdigits ?_
  have hhead := h.head? hmore
  cases hrest : exponent ++ more with
  | nil => rfl
  | cons c rest =>
    rw [hrest] at hhead
    rcases hhead c rfl with rfl | rfl | rfl <;> rfl

theorem exponentLength?_append (h : ExponentText exponent) (hmore : Parted more) :
    exponentLength? (exponent ++ more) = some exponent.length := by
  obtain @⟨letter, sign, digits, hletter, hsign, hdigits⟩ := h
  obtain ⟨hne, hall⟩ := isRun_iff.1 hdigits
  have hrun := hmore.runLength_append (p := isDigit) rfl hall
  have hpos : digits.length ≠ 0 := fun hzero => hne (length_eq_zero_iff.1 hzero)
  have hletter : (letter == 'e' || letter == 'E') = true := by simpa using hletter
  have hplain : startsWith (fun c => c == '+' || c == '-') (digits ++ more) = false := by
    cases digits with
    | nil => exact absurd rfl hne
    | cons d digits =>
      have hd : isWordChar d := isWordChar_iff.2 (.inr (hall d (by simp)))
      have hplus : d ≠ '+' := ne_of_class hd (by decide)
      have hminus : d ≠ '-' := ne_of_class hd (by decide)
      simp [startsWith, hplus, hminus]
  rw [cons_append, append_assoc, exponentLength?, if_pos hletter]
  rcases hsign with rfl | rfl | rfl
  · simp [hplain, hrun, hpos, Nat.add_comm]
  · simp [startsWith, hrun, hpos, Nat.add_comm, Nat.add_left_comm]
  · simp [startsWith, hrun, hpos, Nat.add_comm, Nat.add_left_comm]

theorem scanExponent_append {front : List Char} (h : EndsNumber exponent) (hmore : Parted more)
    (kind : TokenKind) :
    scanExponent kind front.length (front ++ (exponent ++ more)) =
      (if exponent.isEmpty then kind else .double, front.length + exponent.length) := by
  have hend (kind : TokenKind) (read : List Char) :
      endNumber kind read.length (read ++ more) = (kind, read.length) := by
    have hword : startsWith isWordChar ([] ++ more) = false :=
      hmore.startsWith_append rfl (by simp)
    rw [nil_append] at hword
    simp [endNumber, hword]
  have hdrop : (front ++ (exponent ++ more)).drop front.length = exponent ++ more := drop_left
  rw [scanExponent, hdrop]
  rcases h with rfl | h
  · have hnone : exponentLength? ([] ++ more) = none := by
      cases more with
      | nil => rfl
      | cons c more =>
        obtain rfl : c = ' ' := hmore c rfl
        rfl
    rw [hnone]
    exact hend kind front
  · have hlength := exponentLength?_append h hmore
    obtain ⟨letter, tail, rfl⟩ : ∃ letter tail, exponent = letter :: tail := by
      cases h
      exact ⟨_, _, rfl⟩
    rw [hlength, ← append_assoc]
    simpa using hend .double (front ++ letter :: tail)

/-- A number that starts with a point. -/
theorem scanFraction_append (hdigits : ∀ c ∈ digits, isDigit c) (hexponent : EndsNumber exponent)
    (hmore : Parted more) :
    scanFraction (digits ++ (exponent ++ more)) = (.double, digits.length + exponent.length) := by
  rw [scanFraction, hexponent.runLength_append hmore hdigits, scanExponent_append hexponent hmore,
    ite_self]

/-- A decimal number without a fraction. -/
theorem scanDecimal_append (hdigits : ∀ c ∈ digits, isDigit c) (hexponent : EndsNumber exponent)
    (hmore : Parted more) :
    scanDecimal (digits ++ (exponent ++ more)) =
      (if exponent.isEmpty then .number else .double, digits.length + exponent.length) := by
  unfold scanDecimal
  dsimp only
  rw [hexponent.runLength_append hmore hdigits, drop_left]
  split
  · next d rest heq =>
    have hpoint := hexponent.head? hmore '.' (by rw [heq]; rfl)
    exact absurd hpoint (by decide)
  · exact scanExponent_append hexponent hmore .number

/-- A decimal number with a fraction. -/
theorem scanDecimal_fraction {whole : List Char} (hwhole : ∀ c ∈ whole, isDigit c)
    (hdigits : isRun isDigit digits) (hexponent : EndsNumber exponent) (hmore : Parted more) :
    scanDecimal (whole ++ '.' :: (digits ++ (exponent ++ more))) =
      (.double, whole.length + 1 + digits.length + exponent.length) := by
  obtain ⟨hne, hdigits⟩ := isRun_iff.1 hdigits
  have hrun : runLength isDigit (whole ++ '.' :: (digits ++ (exponent ++ more))) = whole.length :=
    Text.runLength_append hwhole rfl
  have hscan : scanExponent .double (whole ++ '.' :: digits).length
      ((whole ++ '.' :: digits) ++ (exponent ++ more)) = _ :=
    scanExponent_append hexponent hmore .double
  have hlength := hexponent.runLength_append hmore hdigits
  unfold scanDecimal
  dsimp only
  rw [hrun, drop_left]
  cases digits with
  | nil => exact absurd rfl hne
  | cons d digits =>
    have hd : isDigit d = true := hdigits d (by simp)
    rw [cons_append] at hlength
    simpa [hd, hlength, Nat.add_assoc, Nat.add_comm, Nat.add_left_comm] using hscan

/-- Only a letter behind a zero announces a radix. -/
theorem scanNumber_of_head? (first : Char)
    (h : ∀ c ∈ cs.head?, isDigit c ∨ c = '.' ∨ c = ' ' ∨ c = 'e' ∨ c = 'E') :
    scanNumber first cs = scanDecimal cs := by
  cases cs with
  | nil => rfl
  | cons letter rest =>
    have hradix : radixOf? letter = none := by
      have hletter := h letter rfl
      unfold radixOf?
      split <;> first | rfl | exact absurd hletter (by decide)
    simp [scanNumber, hradix]

/-- A number with a radix. -/
theorem scanNumber_announced {radix : Nat} {letters : List Char} {letter : Char}
    (hradix : (radix, letters) ∈ announcedRadices) (hletter : letter ∈ letters)
    (hdigits : isRun (isDigitOf radix) digits) (hmore : Parted more) :
    scanNumber '0' (letter :: (digits ++ more)) = (.number, digits.length + 1) := by
  obtain ⟨hof, hblank⟩ : radixOf? letter = some radix ∧ isDigitOf radix ' ' = false := by
    simp only [announcedRadices, mem_cons, Prod.mk.injEq, not_mem_nil, or_false] at hradix
    rcases hradix with ⟨rfl, rfl⟩ | ⟨rfl, rfl⟩ | ⟨rfl, rfl⟩ <;>
      simp only [mem_cons, not_mem_nil, or_false] at hletter <;>
      rcases hletter with rfl | rfl <;> exact ⟨rfl, rfl⟩
  obtain ⟨hne, hdigits⟩ := isRun_iff.1 hdigits
  have hrun := hmore.runLength_append hblank hdigits
  have hword : startsWith isWordChar ([] ++ more) = false := hmore.startsWith_append rfl (by simp)
  have hscan : scanRadix radix (digits ++ more) = (.number, digits.length) := by
    unfold scanRadix
    rw [hrun]
    cases digits with
    | nil => exact absurd rfl hne
    | cons d digits => simpa [endNumber] using hword
  simp [scanNumber, hof, hscan]

/-! ### Scanning a mark -/

/-- A mark is read from its own text if a blank or nothing follows. -/
theorem Punct.read?_append (p : Punct) (hmore : Parted more) :
    read? (p.lexeme.toList ++ more) = some p := by
  have hclosed : read? p.lexeme.toList = some p := by cases p <;> decide
  rw [← hclosed, read?_eq_find?, read?_eq_find?]
  refine congrArg (all.find? ·) (funext fun q => hmore.isPrefixOf_append ?_ _)
  cases q <;> decide

/-- What a mark starts with: nothing that starts another token, except that a slash may open a
regular expression. -/
theorem Punct.exists_lexeme (p : Punct) : ∃ c cs, p.lexeme.toList = c :: cs ∧
    (isBlank c = false ∧ c ≠ '#' ∧ c ≠ '"' ∧ c ≠ '\'' ∧ c ≠ '`' ∧ isDigit c = false ∧
      isWordStart c = false) ∧
    cs.all (fun d => !isDigit d) ∧ (c = '/' → cs.all fun d => d != '/' && d != '*') ∧
    (c = '/' → p = .slash ∨ p = .slashAssign) := by
  cases p <;> exact ⟨_, _, rfl, by decide, by decide, by decide, by decide⟩

/-- Where a mark stands, a mark is scanned, unless a point starts a number or a slash something
else. -/
theorem Punct.scan_eq {p : Punct} {divides : Bool} {tail : List Char}
    (htext : p.lexeme.toList = c :: tail) (hpoint : c = '.' → startsWith isDigit cs = false)
    (hslash : c = '/' → divides = true ∧ cs.head? ≠ some '*') :
    scan mode divides c cs = scanPunct c cs := by
  obtain ⟨c', tail', htext', ⟨-, -, hq, hq', hb, hdigit, hword⟩, -⟩ := p.exists_lexeme
  obtain ⟨rfl, rfl⟩ := List.cons.inj (htext.symm.trans htext')
  unfold scan
  rw [if_neg (by simp [hq, hq']), if_neg hb, if_neg (by simp [hdigit]), if_neg (by simp [hword]),
    if_neg (by simpa using hpoint), if_neg (by simpa using fun hc => (hslash hc).2),
    if_neg (by simpa using fun hc => (hslash hc).1)]

theorem scanPunct_append {p : Punct} (htext : p.lexeme.toList = c :: cs)
    (hcs : ∀ d ∈ cs, isDigit d = false) (hmore : Parted more) :
    scanPunct c (cs ++ more) = (.punct p, cs.length) := by
  have hlongest : scanPunct.longest c (cs ++ more) = (.punct p, cs.length) := by
    have hread := p.read?_append hmore
    rw [htext] at hread
    simp only [scanPunct.longest, ← cons_append, hread, htext, length_cons,
      Nat.add_sub_cancel]
  unfold scanPunct
  split
  · next d rest heq =>
    -- no digit stands behind a question mark and a point
    have hd : isDigit d = false := by
      rcases cs with _ | ⟨point, _ | ⟨e, cs⟩⟩
      · exact absurd (hmore '.' (by simp_all)) (by decide)
      · obtain rfl : d = ' ' := hmore d (by simp_all)
        decide
      · obtain ⟨-, rfl, -⟩ : _ ∧ e = d ∧ _ := by simpa using heq
        exact hcs e (by simp)
    simp [hd, hlongest]
  · exact hlongest

namespace Lexeme

/-- A lexeme is scanned from its own text if a blank or nothing follows; `divides` says whether a
slash would divide. -/
def Scans (mode : LexMode) (divides : Bool) (l : Lexeme) : Prop :=
  ∃ c cs, l.text = c :: cs ∧ ∀ more, Parted more →
    (∀ atStart, pieceLength atStart (c :: (cs ++ more)) = 0) ∧
    scan mode divides c (cs ++ more) = (l.kind, cs.length)

theorem scans_word {text : List Char} (h : isWord text) (mode : LexMode) (divides : Bool) :
    Scans mode divides ⟨wordKind mode text, text⟩ := by
  cases text with
  | nil => cases h
  | cons c cs =>
    obtain ⟨hc, hcs⟩ : isWordStart c = true ∧ ∀ d ∈ cs, isWordChar d = true := by
      simpa [isWord] using h
    have hne : ∀ d, isWordChar d = false → c ≠ d := fun _ =>
      ne_of_class (isWordChar_iff.2 (.inl hc))
    have hdigit : isDigit c = false := by
      rw [← Bool.not_eq_true, isDigit_iff]
      rw [isWordStart_iff, isLetter_iff] at hc
      omega
    refine ⟨c, cs, rfl, fun more hmore => ⟨?_, ?_⟩⟩
    · exact pieceLength_of_isWordChar (isWordChar_iff.2 (.inl hc)) _
    · have hrun := hmore.runLength_append (p := isWordChar) rfl hcs
      simp [scan, hne '"' (by decide), hne '\'' (by decide), hne '`' (by decide), hdigit, hc, hrun]

/-- A keyword is scanned as a word. -/
theorem scans_keyword (k : Keyword) (divides : Bool) :
    (fixed (.keyword k)).Scans .normal divides := by
  have hword : fixed (.keyword k) = word k.lexeme := by
    have hkind : Keyword.ofWord? k.lexeme.toList = some k := Keyword.ofWord?_eq_some_iff.2 rfl
    simp [fixed, word, TokenKind.lexeme?, wordKind, hkind]
  rw [hword]
  refine scans_word ?_ .normal divides
  cases k <;> decide

/-- A number that starts with a digit is scanned as `scanNumber` does. -/
theorem scans_of_scanNumber (hc : isDigit c)
    (h : ∀ more, Parted more → scanNumber c (cs ++ more) = (kind, cs.length)) (divides : Bool) :
    Scans mode divides ⟨kind, c :: cs⟩ := by
  have hne : ∀ d, isWordChar d = false → c ≠ d := fun _ =>
    ne_of_class (isWordChar_iff.2 (.inr hc))
  refine ⟨c, cs, rfl, fun more hmore => ⟨?_, ?_⟩⟩
  · exact pieceLength_of_isWordChar (isWordChar_iff.2 (.inr hc)) _
  · simp [scan, hne '"' (by decide), hne '\'' (by decide), hne '`' (by decide), hc, h more hmore]

/-- A decimal number without a fraction is scanned from its own text. -/
theorem scans_whole {digits exponent : List Char} (hdigits : isRun isDigit digits)
    (hexponent : EndsNumber exponent) (mode : LexMode) (divides : Bool) :
    Scans mode divides ⟨if exponent.isEmpty then .number else .double, digits ++ exponent⟩ := by
  obtain ⟨hne, hall⟩ := isRun_iff.1 hdigits
  cases digits with
  | nil => exact absurd rfl hne
  | cons d digits =>
    obtain ⟨hd, hall⟩ := forall_mem_cons.1 hall
    refine scans_of_scanNumber hd (fun more hmore => ?_) divides
    change scanNumber d (digits ++ exponent ++ more) = (_, (digits ++ exponent).length)
    rw [append_assoc, scanNumber_of_head?, scanDecimal_append hall hexponent hmore,
      length_append]
    cases digits with
    | nil => exact fun c hc => .inr (.inr (hexponent.head? hmore c hc))
    | cons e digits => exact fun c hc => .inl (Option.some.inj hc ▸ hall e (by simp))

/-- A decimal number with a fraction is scanned from its own text. -/
theorem scans_fraction {whole digits exponent : List Char} (hwhole : whole.all isDigit)
    (hdigits : isRun isDigit digits) (hexponent : EndsNumber exponent) (mode : LexMode)
    (divides : Bool) :
    Scans mode divides ⟨.double, whole ++ '.' :: (digits ++ exponent)⟩ := by
  cases whole with
  | nil =>
    obtain ⟨hne, hall⟩ := isRun_iff.1 hdigits
    refine ⟨'.', digits ++ exponent, rfl, fun more hmore => ⟨pieceLength_eq_zero rfl nofun nofun, ?_⟩⟩
    have hstart : startsWith isDigit (digits ++ (exponent ++ more)) = true := by
      cases digits with
      | nil => exact absurd rfl hne
      | cons d digits => exact hall d (by simp)
    rw [append_assoc, length_append, ← scanFraction_append hall hexponent hmore]
    have hclass : isDigit '.' = false ∧ isWordStart '.' = false := ⟨rfl, rfl⟩
    simp [scan, hclass, hstart]
  | cons d whole =>
    obtain ⟨hd, hwhole⟩ := forall_mem_cons.1 (all_eq_true.1 hwhole)
    refine scans_of_scanNumber hd (fun more hmore => ?_) divides
    have hscan := scanDecimal_fraction hwhole hdigits hexponent hmore
    change scanNumber d (whole ++ '.' :: (digits ++ exponent) ++ more) =
      (_, (whole ++ '.' :: (digits ++ exponent)).length)
    rw [append_assoc, cons_append, append_assoc, scanNumber_of_head?, hscan]
    · simp [Nat.add_assoc, Nat.add_comm, Nat.add_left_comm]
    · cases whole with
      | nil => exact fun c hc => .inr (.inl (Option.some.inj hc).symm)
      | cons e whole => exact fun c hc => .inl (Option.some.inj hc ▸ hwhole e (by simp))

/-- A number is scanned from its own text. -/
theorem scans_number {text : List Char} (hsort : kind.sort? = some .number)
    (h : kind.NumberText text) (mode : LexMode) (divides : Bool) :
    Scans mode divides ⟨kind, text⟩ := by
  cases kind with
  | number =>
    obtain ⟨radix, digits, h⟩ := h
    cases h with
    | decimal hdigits =>
      have hscans := scans_whole hdigits (.inl rfl) mode divides
      rwa [append_nil] at hscans
    | announced hradix hletter hdigits =>
      exact scans_of_scanNumber rfl
        (fun more hmore => scanNumber_announced hradix hletter hdigits hmore) divides
  | double =>
    cases h with
    | fraction hwhole hdigits hexponent =>
      exact scans_fraction hwhole hdigits hexponent mode divides
    | @exponent digits exponent hdigits hexponent =>
      have hscans := scans_whole hdigits (.inr hexponent) mode divides
      cases hexponent
      exact hscans
  | _ => cases hsort

theorem scans_decimal (n : Nat) (mode : LexMode) (divides : Bool) :
    (decimal n).Scans mode divides := by
  have hdigits : isRun isDigit (Nat.toDigits 10 n) :=
    isRun_iff.2 ⟨Nat.toDigits_ne_nil, fun _ => isDigit_of_mem_toDigits⟩
  have htext : TokenKind.number.NumberText (Nat.toDigits 10 n) := ⟨10, _, .decimal hdigits⟩
  exact scans_number rfl htext mode divides

/-- The digits of an integer stand for it. -/
theorem integerValue?_decimal {n : Nat} (h : n < integerBound) :
    integerValue? (decimal n).text = some n := by
  have hdigits : ∀ c ∈ Nat.toDigits 10 n, isDigit c := fun _ => isDigit_of_mem_toDigits
  have hradix : radixDigits (Nat.toDigits 10 n) = (10, Nat.toDigits 10 n) := by
    unfold radixDigits
    split <;> first
      | rfl
      | next heq => exact absurd (heq ▸ hdigits) (by simp [isDigit])
  have hvalue : positional 10 (Nat.toDigits 10 n) = n := by
    rw [positional_eq_ofDigitChars hdigits, Nat.ofDigitChars_toDigits (by decide) (by decide)]
  have hread : integerValue (Nat.toDigits 10 n) = .ok n := by
    rw [integerValue, hradix]
    dsimp only
    rw [readInteger_eq Nat.toDigits_ne_nil fun c hc => isDigitOf_ten c ▸ hdigits c hc, hvalue,
      within64, if_pos h]
  rw [integerValue?, decimal, hread]
  rfl

/-- A mark is scanned from its own text, a slash only where it divides. -/
theorem scans_mark {p : Punct} {divides : Bool}
    (h : p = .slash ∨ p = .slashAssign → divides = true) :
    (fixed (.punct p)).Scans mode divides := by
  obtain ⟨c, cs, htext, ⟨hblank, hsharp, -⟩, hcs, hcomment, hslash⟩ := p.exists_lexeme
  simp only [all_eq_true, Bool.not_eq_true', Bool.and_eq_true, bne_iff_ne] at hcs hcomment
  refine ⟨c, cs, htext, fun more hmore => ⟨?_, ?_⟩⟩
  · refine pieceLength_eq_zero hblank hsharp fun hc => hmore.startsWith_append (by decide) ?_
    exact fun d hd => by simpa using hcomment hc d hd
  · have hpoint : startsWith isDigit (cs ++ more) = false :=
      hmore.startsWith_append (by decide) hcs
    have hstar : c = '/' → (cs ++ more).head? ≠ some '*' := by
      intro hc heq
      have hstarts : startsWith (· == '*') (cs ++ more) = false :=
        hmore.startsWith_append (by decide) fun d hd => by simpa using (hcomment hc d hd).2
      simp [startsWith, heq] at hstarts
    rw [p.scan_eq htext (fun _ => hpoint) fun hc => ⟨h (hslash hc), hstar hc⟩]
    exact scanPunct_append htext hcs hmore

theorem scans_fixed {divides : Bool} (hkind : kind.lexeme?.isSome)
    (h : kind = .punct .slash ∨ kind = .punct .slashAssign → divides = true) :
    (fixed kind).Scans .normal divides := by
  cases kind with
  | keyword k => exact scans_keyword k divides
  | punct p => exact scans_mark fun hp => h (hp.imp (congrArg _) (congrArg _))
  | _ => cases hkind

/-- What stands behind the first lexeme of a line. -/
theorem exists_line_cons (l : Lexeme) (ls : List Lexeme) {tail : List Char} (htail : Parted tail) :
    ∃ gap, (gap = [] ∨ gap = [' ']) ∧ Parted (gap ++ (line ls ++ tail)) ∧
      line (l :: ls) ++ tail = l.text ++ (gap ++ (line ls ++ tail)) := by
  cases ls with
  | nil => exact ⟨[], .inl rfl, htail, by simp [line]⟩
  | cons l' ls => exact ⟨[' '], .inr rfl, parted_cons _, by simp [line]⟩

end Lexeme

/-! ### Reading a line of lexemes -/

/-- The last two tokens once some lexemes are read. -/
def Preceding.pushAll (before : Preceding) (ls : List Lexeme) : Preceding :=
  ls.foldl (fun p l => p.push l.kind) before

/-- Each lexeme is scanned from its own text after those before it. -/
def Lexable (mode : LexMode) (before : Preceding) : List Lexeme → Prop
  | [] => True
  | l :: ls => l.Scans mode before.divides ∧ Lexable mode (before.push l.kind) ls

@[simp]
theorem Preceding.pushAll_nil (before : Preceding) : before.pushAll [] = before := rfl

@[simp]
theorem Preceding.pushAll_cons (before : Preceding) (l : Lexeme) (ls : List Lexeme) :
    before.pushAll (l :: ls) = (before.push l.kind).pushAll ls :=
  rfl

@[simp]
theorem Preceding.pushAll_append (before : Preceding) (ls ls' : List Lexeme) :
    before.pushAll (ls ++ ls') = (before.pushAll ls).pushAll ls' :=
  foldl_append

theorem lexable_append {ls ls' : List Lexeme} :
    Lexable mode before (ls ++ ls') ↔
      Lexable mode before ls ∧ Lexable mode (before.pushAll ls) ls' := by
  induction ls generalizing before with
  | nil => simp [Lexable]
  | cons l ls ih => simp [Lexable, ih, and_assoc]

theorem triviaLength_eq_zero {atStart : Bool} (h : pieceLength atStart (c :: rest) = 0) :
    triviaLength atStart (c :: rest) = 0 := by
  rw [triviaLength, h]

theorem triviaLength_blank (atStart : Bool) (cs : List Char) :
    triviaLength atStart (' ' :: cs) = 1 + triviaLength false cs := by
  have hpiece : pieceLength atStart (' ' :: cs) = 1 := rfl
  rw [triviaLength, hpiece]
  rfl

/-- The first token of a text, and the tokens of what follows it. -/
theorem tokensFrom_append {lo n : Nat}
    (hgap : triviaLength (lo == 0) (gap ++ c :: rest) = gap.length)
    (hscan : scan mode before.divides c rest = (kind, n)) :
    tokensFrom mode before lo (gap ++ c :: rest) =
      ⟨kind, lo + bytes gap, gap, c :: rest.take n⟩ ::
        tokensFrom mode (before.push kind) (lo + bytes gap + bytes (c :: rest.take n))
          (rest.drop n) := by
  rw [tokensFrom]
  simp only [hgap, take_left]
  split
  · next h =>
    rw [hgap, drop_left] at h
    cases h
  · next h =>
    rw [hgap, drop_left] at h
    cases h
    rw [hscan]

/-- Only the end is left of a text that is skipped as a whole. -/
theorem tokensFrom_of_skipped {lo : Nat} (h : cs.length ≤ triviaLength (lo == 0) cs)
    (mode : LexMode) (before : Preceding) :
    tokensFrom mode before lo cs = [⟨.eof, lo + bytes cs, cs, []⟩] := by
  rw [tokensFrom, take_of_length_le h]
  split
  · rfl
  · next hrest =>
    rw [drop_of_length_le h] at hrest
    cases hrest

/-- A text is skipped as a whole, or a token stands behind what is skipped. -/
theorem skipped_or_append (atStart : Bool) (cs : List Char) :
    cs.length ≤ triviaLength atStart cs ∨
      ∃ gap c rest, cs = gap ++ c :: rest ∧ triviaLength atStart cs = gap.length := by
  cases hrest : cs.drop (triviaLength atStart cs) with
  | nil => exact .inl (drop_eq_nil_iff.1 hrest)
  | cons c rest =>
    have hlt : triviaLength atStart cs < cs.length := by
      refine Nat.lt_of_not_le fun hle => ?_
      rw [drop_of_length_le hle] at hrest
      cases hrest
    refine .inr ⟨cs.take (triviaLength atStart cs), c, rest, ?_, ?_⟩
    · rw [← hrest, take_append_drop]
    · rw [length_take_of_le (Nat.le_of_lt hlt)]

/-- Lexemes on one line are read as themselves; one more blank may stand behind them. -/
theorem lexemes_tokensFrom {ls : List Lexeme} (h : Lexable mode before ls) (lo : Nat)
    (hgap : gap = [] ∨ gap = [' ']) {tail : List Char} (htail : tail = [] ∨ tail = [' ']) :
    ∃ ts eof, tokensFrom mode before lo (gap ++ (Lexeme.line ls ++ tail)) = ts ++ [eof] ∧
      ts.map Token.lexeme = ls ∧ (∀ t ∈ ts, t.onNewLine = false) ∧ eof.lexeme = ⟨.eof, []⟩ := by
  induction ls generalizing before lo gap with
  | nil =>
    have hblank (n : Nat) : ∀ atStart, (List.replicate n ' ').length ≤
        triviaLength atStart (List.replicate n ' ') := by
      induction n with
      | zero => exact fun _ => Nat.zero_le _
      | succ n ih =>
        intro atStart
        rw [replicate_succ, triviaLength_blank, length_cons, Nat.add_comm]
        exact Nat.add_le_add_left (ih false) 1
    obtain ⟨n, hline⟩ : ∃ n, gap ++ (Lexeme.line [] ++ tail) = List.replicate n ' ' := by
      rcases hgap with rfl | rfl <;> rcases htail with rfl | rfl
      · exact ⟨0, rfl⟩
      · exact ⟨1, rfl⟩
      · exact ⟨1, rfl⟩
      · exact ⟨2, rfl⟩
    rw [hline, tokensFrom_of_skipped (hblank n _)]
    exact ⟨[], _, rfl, rfl, by simp, rfl⟩
  | cons l ls ih =>
    obtain ⟨⟨c, cs, htext, hscans⟩, hls⟩ := h
    have hparted : Parted tail := by
      rcases htail with rfl | rfl
      · exact parted_nil
      · exact parted_cons []
    -- the first lexeme is scanned before a blank or the end
    obtain ⟨gap', hgap', hparted, hline⟩ := Lexeme.exists_line_cons l ls hparted
    obtain ⟨hpiece, hscan⟩ := hscans _ hparted
    have hskip : triviaLength (lo == 0) (gap ++ c :: (cs ++ (gap' ++ (Lexeme.line ls ++ tail)))) =
        gap.length := by
      rcases hgap with rfl | rfl
      · exact triviaLength_eq_zero (hpiece _)
      · rw [cons_append, nil_append, triviaLength_blank, triviaLength_eq_zero (hpiece _)]
        rfl
    obtain ⟨ts, eof, htokens, hlexemes, hline', heof⟩ := ih hls _ hgap'
    have hfirst := tokensFrom_append hskip hscan
    rw [take_left, drop_left, htokens] at hfirst
    refine ⟨⟨l.kind, lo + bytes gap, gap, c :: cs⟩ :: ts, eof, ?_, ?_, ?_, heof⟩
    · rw [hline, htext]
      exact hfirst
    · rw [map_cons, hlexemes]
      exact congrArg (· :: ls) (by rw [Token.lexeme, ← htext])
    · refine forall_mem_cons.2 ⟨?_, hline'⟩
      rcases hgap with rfl | rfl <;> simp [Token.onNewLine]

end ScriptCheck
