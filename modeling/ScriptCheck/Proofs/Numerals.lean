import ScriptCheck.Proofs.Integers
import ScriptCheck.Proofs.Scanned

/-!
# Numerals

The texts that numbers are written in: integers in four radices, and decimal numbers with a
fraction, an exponent or both. `Numeral` is what scanning a number guarantees of its text and of
the text behind it, and each function that scans a part of a number has a lemma that says so. The
main result, `numeral_of_mem`, adds what an integer stands for: it is out of range or has the value
of its digits, and no other fault can occur.
-/

namespace ScriptCheck

open List

open Text

variable {cs : List Char}

/-! ### The forms of numerals -/

/-- Whether a text consists of one or more characters of a class. -/
def Text.isRun (p : Char → Bool) (cs : List Char) : Bool := !cs.isEmpty && cs.all p

/-- The radices that are announced after a leading zero, with the letters that announce them. -/
def announcedRadices : List (Nat × List Char) :=
  [(16, ['x', 'X']), (8, ['o', 'O']), (2, ['b', 'B'])]

/-- The texts of integers, by radix and digits. -/
inductive IntegerText : Nat → List Char → List Char → Prop
  | decimal {digits : List Char} (hdigits : isRun isDigit digits) : IntegerText 10 digits digits
  | announced {radix : Nat} {letters digits : List Char} {letter : Char}
      (hradix : (radix, letters) ∈ announcedRadices) (hletter : letter ∈ letters)
      (hdigits : isRun (isDigitOf radix) digits) :
      IntegerText radix digits ('0' :: letter :: digits)

/-- The texts of exponents. -/
inductive ExponentText : List Char → Prop
  | mk {letter : Char} {sign digits : List Char} (hletter : letter = 'e' ∨ letter = 'E')
      (hsign : sign = [] ∨ sign = ['+'] ∨ sign = ['-']) (hdigits : isRun isDigit digits) :
      ExponentText (letter :: (sign ++ digits))

/-- The texts of numbers with a fraction or an exponent. -/
inductive DoubleText : List Char → Prop
  | fraction {whole digits exponent : List Char} (hwhole : whole.all isDigit)
      (hdigits : isRun isDigit digits) (hexponent : exponent = [] ∨ ExponentText exponent) :
      DoubleText (whole ++ '.' :: (digits ++ exponent))
  | exponent {digits exponent : List Char} (hdigits : isRun isDigit digits)
      (hexponent : ExponentText exponent) : DoubleText (digits ++ exponent)

/-- The texts of numbers, by their kind. -/
def TokenKind.NumberText : TokenKind → List Char → Prop
  | .number, text => ∃ radix digits, IntegerText radix digits text
  | .double, text => DoubleText text
  | _, _ => True

/-- A number of which `front` stands before the text `cs` is scanned as some kind, with some of the
characters of `cs`: its text is of that kind, and no word goes on behind it. -/
def Numeral (front cs : List Char) (scanned : TokenKind × Nat) : Prop :=
  scanned.1.sort? = some .number →
    scanned.1.NumberText (front ++ cs.take scanned.2) ∧
      startsWith isWordChar (cs.drop scanned.2) = false

/-! ### Runs of digits -/

/-- A run that has any character is one. -/
theorem Text.isRun_takeWhile {p : Char → Bool} (h : runLength p cs ≠ 0) :
    isRun p (cs.takeWhile p) := by
  rw [isRun, all_takeWhile, Bool.and_true, Bool.not_eq_true', isEmpty_eq_false_iff]
  exact fun hnil => h (by rw [runLength, hnil]; rfl)

theorem Text.isRun_iff {p : Char → Bool} :
    isRun p cs ↔ cs ≠ [] ∧ ∀ c ∈ cs, p c := by
  simp [isRun]

theorem Text.isRun_cons {p : Char → Bool} {c : Char} (hc : p c)
    (hcs : cs.all p) : isRun p (c :: cs) := by
  simp [isRun, hc, hcs]

/-! ### What is scanned as a number -/

theorem numeral_endNumber {kind : TokenKind} {front cs : List Char} {n : Nat}
    (h : kind.NumberText (front ++ cs.take n)) : Numeral front cs (endNumber kind n cs) := by
  intro hsort
  unfold endNumber at hsort ⊢
  split at hsort
  · cases hsort
  · next hword =>
    rw [if_neg hword]
    exact ⟨h, Bool.eq_false_iff.2 hword⟩

theorem exponentText_take {n : Nat} (h : exponentLength? cs = some (n + 1)) :
    ExponentText (cs.take (n + 1)) := by
  unfold exponentLength? at h
  split at h
  case h_2 => cases h
  next letter rest =>
  split at h
  case isFalse => cases h
  next hletter =>
  rw [Bool.or_eq_true, beq_iff_eq, beq_iff_eq] at hletter
  dsimp only at h
  generalize hsign : (if startsWith (fun c => c == '+' || c == '-') rest then 1 else 0) = sign at h
  -- the sign is what stands before the digits
  have hfront : rest.take sign = [] ∨ rest.take sign = ['+'] ∨ rest.take sign = ['-'] := by
    subst hsign
    cases rest with
    | nil => exact .inl (by simp)
    | cons c rest =>
      split
      · next hc =>
        have hc : c = '+' ∨ c = '-' := by simpa [startsWith] using hc
        exact .inr (by simpa using hc)
      · exact .inl rfl
  split at h
  · cases h
  · next hdigits =>
    have hn : n = sign + runLength isDigit (rest.drop sign) := by
      have := Option.some.inj h
      omega
    have htake : rest.take n = rest.take sign ++ (rest.drop sign).takeWhile isDigit := by
      rw [hn, take_add, take_runLength]
    rw [take_succ_cons, htake]
    exact .mk hletter hfront (isRun_takeWhile hdigits)

/-- Behind a text that is a number of the given kind, and a number with any exponent. -/
theorem numeral_scanExponent {kind : TokenKind} {front cs : List Char} {n : Nat}
    (h : kind.NumberText (front ++ cs.take n))
    (hexponent : ∀ exponent, ExponentText exponent → DoubleText (front ++ cs.take n ++ exponent)) :
    Numeral front cs (scanExponent kind n cs) := by
  unfold scanExponent
  split
  · exact numeral_endNumber h
  · exact nofun
  · next m hm =>
    refine numeral_endNumber ?_
    have hdouble := hexponent _ (exponentText_take hm)
    rwa [append_assoc, ← take_add] at hdouble

theorem numeral_scanFraction {whole cs : List Char} (hwhole : whole.all isDigit)
    {front rest : List Char} {n : Nat} (hfront : front ++ cs.take n = whole ++ ['.'])
    (hrest : cs.drop n = rest) (hdigits : startsWith isDigit rest) :
    Numeral front cs (scanExponent .double (n + runLength isDigit rest) cs) := by
  have htext : front ++ cs.take (n + runLength isDigit rest) =
      whole ++ '.' :: rest.takeWhile isDigit := by
    rw [take_add, ← append_assoc, hfront, hrest, take_runLength, append_assoc]
    rfl
  have hrun : isRun isDigit (rest.takeWhile isDigit) := by
    refine isRun_takeWhile fun hzero => ?_
    cases rest with
    | nil => cases hdigits
    | cons d rest =>
      have hd : isDigit d := hdigits
      simp [runLength, hd] at hzero
  refine numeral_scanExponent ?_ fun exponent hexponent => ?_
  · rw [htext, ← append_nil (rest.takeWhile isDigit)]
    exact .fraction hwhole hrun (.inl rfl)
  · rw [htext]
    simpa using DoubleText.fraction hwhole hrun (.inr hexponent)

theorem numeral_scanDecimal {c : Char} (hc : isDigit c) (cs : List Char) :
    Numeral [c] cs (scanDecimal cs) := by
  have htake := take_runLength isDigit cs
  have hrun : isRun isDigit ([c] ++ cs.take (runLength isDigit cs)) :=
    htake ▸ isRun_cons hc all_takeWhile
  have hwhole : Numeral [c] cs (scanExponent .number (runLength isDigit cs) cs) :=
    numeral_scanExponent ⟨10, _, .decimal hrun⟩ fun _ => .exponent hrun
  unfold scanDecimal
  dsimp only
  split
  · next d rest hdrop =>
    split
    · next hd =>
      refine @numeral_scanFraction (c :: cs.takeWhile isDigit) _ ?_ _ _ _ ?_ ?_ hd
      · simp [hc]
      · rw [take_add, hdrop, htake]
        rfl
      · rw [← drop_drop, hdrop]
        rfl
    · exact hwhole
  · exact hwhole

theorem numeral_scanNumber {c : Char} (hc : isDigit c) (cs : List Char) :
    Numeral [c] cs (scanNumber c cs) := by
  unfold scanNumber
  split
  · next letter rest =>
    split
    · next radix hradix =>
      split at hradix
      case isFalse => cases hradix
      next hzero =>
      obtain ⟨letters, hletters, hletter⟩ :
          ∃ letters, (radix, letters) ∈ announcedRadices ∧ letter ∈ letters := by
        unfold radixOf? at hradix
        split at hradix <;> cases hradix <;> simp [announcedRadices]
      have hscanned : Numeral ['0', letter] rest (scanRadix radix rest) := by
        unfold scanRadix
        split
        · exact fun h => by cases h
        · next n hn =>
          have hrun := @isRun_takeWhile rest (isDigitOf radix) (by omega)
          rw [← take_runLength, hn] at hrun
          exact numeral_endNumber ⟨radix, _, .announced hletters hletter hrun⟩
      subst hzero
      simpa [Numeral] using hscanned
    · exact numeral_scanDecimal hc _
  · exact fun _ => ⟨⟨10, _, .decimal (isRun_cons hc rfl)⟩, rfl⟩

theorem numeral_scan {mode : LexMode} {divides : Bool} {c : Char}
    (h : TokenSort.number.Found mode divides c cs) : Numeral [c] cs (scan mode divides c cs) := by
  rcases h with ⟨hdigit, hscan⟩ | ⟨rfl, hdigits, hscan⟩
  · exact hscan ▸ numeral_scanNumber hdigit cs
  · rw [hscan, scanFraction]
    simpa using @numeral_scanFraction [] cs rfl ['.'] cs 0 rfl rfl hdigits

/-! ### What integers stand for -/

/-- An integer is read as its digits in its radix. -/
theorem IntegerText.integerValue_eq {radix : Nat} {digits text : List Char}
    (h : IntegerText radix digits text) :
    integerValue text = within64 (positional radix digits) := by
  have hread {radix : Nat} {digits : List Char} (h : isRun (isDigitOf radix) digits) :
      readInteger radix digits = within64 (positional radix digits) := by
    exact readInteger_eq (isRun_iff.1 h).1 (isRun_iff.1 h).2
  cases h with
  | decimal hdigits =>
    -- a decimal number has no letter, so no other radix is announced
    have hradix : radixDigits digits = (10, digits) := by
      unfold radixDigits
      split
      case h_7 => rfl
      all_goals simp [isRun, isDigit] at hdigits
    rw [integerValue, hradix]
    exact hread (by simpa [isRun, isDigitOf_ten] using hdigits)
  | announced hradix hletter hdigits =>
    rw [← hread hdigits]
    simp only [announcedRadices, mem_cons, Prod.mk.injEq, not_mem_nil, or_false] at hradix
    rcases hradix with ⟨rfl, rfl⟩ | ⟨rfl, rfl⟩ | ⟨rfl, rfl⟩ <;>
      simp only [mem_cons, not_mem_nil, or_false] at hletter <;>
      rcases hletter with rfl | rfl <;> rfl

/-! ### Numbers of a script -/

/-- The text of a number is one of its kind, and no word goes on behind it. An integer has the value
of its digits in its radix, if 64 bits hold it. -/
theorem numeral_of_mem {mode : LexMode} {before : Preceding} {lo : Nat} {cs : List Char}
    {t : Token} (ht : t ∈ tokensFrom mode before lo cs) :
    (t.kind = .number → ∃ radix digits, IntegerText radix digits t.text ∧
      integerValue t.text = within64 (positional radix digits)) ∧
    (t.kind = .double → DoubleText t.text) ∧
    (t.kind = .number ∨ t.kind = .double → ∃ front after, cs = front ++ (t.text ++ after) ∧
      t.lo = lo + bytes front ∧ startsWith isWordChar after = false) := by
  have hnumeral (hsort : t.kind.sort? = some .number) :
      t.kind.NumberText t.text ∧ ∃ front after, cs = front ++ (t.text ++ after) ∧
        t.lo = lo + bytes front ∧ startsWith isWordChar after = false := by
    obtain ⟨divides, front, c, rest, hat, hfound⟩ := found_of_mem ht hsort
    obtain ⟨htext, hafter⟩ := numeral_scan hfound (hat.kind ▸ hsort)
    rw [← hat.kind, List.singleton_append, ← hat.text] at htext
    exact ⟨htext, front, _, by rw [hat.eq, hat.text_append], hat.lo, hafter⟩
  refine ⟨fun hkind => ?_, fun hkind => ?_, fun hkind => ?_⟩
  · have htext := (hnumeral (congrArg TokenKind.sort? hkind)).1
    rw [hkind] at htext
    obtain ⟨radix, digits, htext⟩ := htext
    exact ⟨radix, digits, htext, htext.integerValue_eq⟩
  · have htext := (hnumeral (congrArg TokenKind.sort? hkind)).1
    rwa [hkind] at htext
  · rcases hkind with hkind | hkind <;> exact (hnumeral (congrArg TokenKind.sort? hkind)).2

/-- The largest integer of 64 bits, in hexadecimal digits. -/
theorem numeral_of_mem_hexadecimal :
    let t : Token := ⟨.number, 0, [], "0X7fffffffffffffff".toList⟩
    t ∈ tokensFrom .normal .none 0 (t.text ++ [';']) ∧
      ∃ radix digits, IntegerText radix digits t.text ∧
        integerValue t.text = within64 (positional radix digits) := by
  intro t
  have ht : t ∈ tokensFrom .normal .none 0 (t.text ++ [';']) := by decide +kernel
  exact ⟨ht, (numeral_of_mem ht).1 rfl⟩

end ScriptCheck
