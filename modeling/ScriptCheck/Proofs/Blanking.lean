import ScriptCheck.Proofs.Cover
import ScriptCheck.Proofs.Lexemes
import ScriptCheck.Proofs.Words

/-!
# Blanks in place of semicolons

A text is *blanked* if blanks stand in the place of some of its semicolons. Neither of the two
characters means anything inside of a token or of a comment, so the pieces of the text have the same
lengths and kinds as before, except where a blank starts a piece (`Blanked.scan_eq`,
`Blanked.triviaLength_eq`).
-/

namespace ScriptCheck

open List

open Text

/-- Texts that differ only in blanks in the place of semicolons. -/
inductive Blanked : List Char → List Char → Prop
  | nil : Blanked [] []
  | same (c : Char) {cs cs' : List Char} (h : Blanked cs cs') : Blanked (c :: cs) (c :: cs')
  | semicolon {cs cs' : List Char} (h : Blanked cs cs') : Blanked (';' :: cs) (' ' :: cs')

namespace Blanked

variable {cs cs' ds ds' : List Char} {p : Char → Bool}

theorem refl (cs : List Char) : Blanked cs cs := by
  induction cs with
  | nil => exact .nil
  | cons c cs ih => exact .same c ih

variable (h : Blanked cs cs')

include h

theorem append (h' : Blanked ds ds') : Blanked (cs ++ ds) (cs' ++ ds') := by
  induction h with
  | nil => exact h'
  | same c _ ih => exact .same c ih
  | semicolon _ ih => exact .semicolon ih

omit h in
/-- One semicolon is blanked. -/
theorem place (front back : List Char) : Blanked (front ++ ';' :: back) (front ++ ' ' :: back) :=
  (refl front).append (.semicolon (refl back))

theorem length_eq : cs'.length = cs.length := by
  induction h with
  | nil => rfl
  | same _ _ ih | semicolon _ ih => exact congrArg (· + 1) ih

theorem take (n : Nat) : Blanked (cs.take n) (cs'.take n) := by
  induction h generalizing n with
  | nil => simpa using nil
  | same c _ ih =>
    cases n with
    | zero => exact .nil
    | succ n => exact .same c (ih n)
  | semicolon _ ih =>
    cases n with
    | zero => exact .nil
    | succ n => exact .semicolon (ih n)

theorem drop (n : Nat) : Blanked (cs.drop n) (cs'.drop n) := by
  induction h generalizing n with
  | nil => simpa using nil
  | same c h ih =>
    cases n with
    | zero => exact .same c h
    | succ n => exact ih n
  | semicolon h ih =>
    cases n with
    | zero => exact .semicolon h
    | succ n => exact ih n

theorem bytes_eq : bytes cs' = bytes cs := by
  induction h with
  | nil => rfl
  | same _ _ ih => rw [bytes_cons, bytes_cons, ih]
  | semicolon _ ih =>
    rw [bytes_cons, bytes_cons, ih]
    rfl

/-- Characters of a class to which both or none of the two belong. -/
theorem all_eq (hp : p ';' = p ' ') : cs'.all p = cs.all p := by
  induction h with
  | nil => rfl
  | same _ _ ih => rw [all_cons, all_cons, ih]
  | semicolon _ ih => rw [all_cons, all_cons, ih, hp]

/-- A test for a first character that is neither of the two. -/
theorem head?_beq {x : Char} (hx : x ≠ ';') (hx' : x ≠ ' ') :
    (cs'.head? == some x) = (cs.head? == some x) := by
  cases h with
  | nil | same => rfl
  | semicolon => simp [hx.symm, hx'.symm]

theorem startsWith_eq (hp : p ';' = p ' ') :
    startsWith p cs' = startsWith p cs := by
  cases h with
  | nil | same => rfl
  | semicolon => exact hp.symm

theorem takeWhile (hp : p ';' = p ' ') :
    Blanked (cs.takeWhile p) (cs'.takeWhile p) := by
  induction h with
  | nil => exact .nil
  | same c _ ih =>
    rw [takeWhile_cons, takeWhile_cons]
    split
    · exact .same c ih
    · exact .nil
  | semicolon _ ih =>
    rw [takeWhile_cons, takeWhile_cons, hp]
    split
    · exact .semicolon ih
    · exact .nil

theorem runLength_eq (hp : p ';' = p ' ') :
    runLength p cs' = runLength p cs :=
  (h.takeWhile hp).length_eq

variable {c : Char} {stack : List Enclosure} {gap : List Char} {atStart : Bool}

omit h in
/-- What starts with a character other than a blank did so before. -/
theorem eq_cons (h : Blanked cs (c :: cs')) (hc : c ≠ ' ') : ∃ rest, cs = c :: rest := by
  cases h with
  | same _ _ => exact ⟨_, rfl⟩
  | semicolon => exact absurd rfl hc

/-- A text without semicolons stays as it is. -/
theorem eq_of_not_mem (hcs : ';' ∉ cs) : cs' = cs := by
  induction h with
  | nil => rfl
  | same _ _ ih => rw [ih (not_mem_of_not_mem_cons hcs)]
  | semicolon => exact absurd (mem_cons_self ..) hcs

/-! ### Literals -/

theorem isValid_eq : Escape.isValid cs' = Escape.isValid cs := by
  have hdigits {rest rest' : List Char} (h : Blanked rest rest') (n : Nat) :
      ((rest'.take n).length == n && (rest'.take n).all isHexDigit) =
        ((rest.take n).length == n && (rest.take n).all isHexDigit) := by
    rw [(h.take n).length_eq, (h.take n).all_eq rfl]
  cases h with
  | nil => rfl
  | @same c rest rest' h =>
    by_cases hx : c = 'x'
    · subst hx
      exact hdigits h 2
    · by_cases hu : c = 'u'
      · subst hu
        cases h with
        | nil => rfl
        | @same b rest rest' h =>
          by_cases hbrace : b = '\x7b'
          · subst hbrace
            have hlength := (h.takeWhile (p := isHexDigit) rfl).length_eq
            have hclosed := (h.drop (rest.takeWhile isHexDigit).length).head?_beq (x := '\x7d')
              (by decide) (by decide)
            simp only [Escape.isValid, hlength, hclosed]
          · rw [Escape.isValid, Escape.isValid]
            · exact hdigits (.same b h) 4
            · simp [hbrace]
            · simp [hbrace]
        | semicolon h => exact hdigits (.semicolon h) 4
      · simp [Escape.isValid, hx, hu]
  | semicolon => rfl

theorem stringEnd_eq {quote : Char} (hquote : quote ≠ ';' ∧ quote ≠ ' ') :
    stringEnd quote cs' = stringEnd quote cs := by
  fun_induction stringEnd quote cs generalizing cs' with
  | case1 =>
    cases h
    rfl
  | case2 =>
    cases h
    rfl
  | case3 =>
    cases h with
    | same _ h =>
      cases h
      rfl
  | case4 c rest ih =>
    cases h with
    | same _ h =>
      have hvalid := h.isValid_eq
      cases h with
      | same _ h => rw [stringEnd, ih h, hvalid]
      | semicolon h => rw [stringEnd, ih h, hvalid]
  | case5 rest hnewline hlast hescape =>
    have hne : quote ≠ '\\' := ne_backslash hlast hescape
    cases h with
    | same _ h =>
      rw [stringEnd]
      · rw [if_pos rfl]
      · exact hnewline
      · exact fun h => absurd h hne
      · exact fun _ _ h => absurd h hne
    | semicolon => exact absurd rfl hquote.1
  | case6 c rest hnewline hlast hescape hother ih =>
    have hne : c ≠ '\\' := ne_backslash hlast hescape
    cases h with
    | same _ h =>
      rw [stringEnd]
      · rw [if_neg hother, ih h]
      · exact hnewline
      · exact fun h => absurd h hne
      · exact fun _ _ h => absurd h hne
    | semicolon h =>
      rw [stringEnd]
      · rw [if_neg hquote.2.symm, ih h]
      all_goals simp

/-- None of the two characters closes a string that a position stands in. -/
def Quotes (stack : List Enclosure) : Prop :=
  ∀ quote, Enclosure.quoted quote ∈ stack → quote ≠ ';' ∧ quote ≠ ' '

omit h in
theorem Quotes.cons (h : Quotes stack) {e : Enclosure}
    (he : ∀ quote, e = .quoted quote → quote ≠ ';' ∧ quote ≠ ' ') : Quotes (e :: stack) := by
  intro quote hquote
  rcases mem_cons.1 hquote with heq | hquote
  · exact he quote heq.symm
  · exact h quote hquote

omit h in
theorem Quotes.of_cons {e : Enclosure} (h : Quotes (e :: stack)) : Quotes stack :=
  fun quote hquote => h quote (mem_cons_of_mem _ hquote)

omit h in
theorem quotes_bodyStep {outer : List Enclosure} (h : Quotes outer) (braces : Nat) (c : Char) :
    Quotes (bodyStep braces outer c) := by
  have hbody (n : Nat) : Quotes (.body n :: outer) := h.cons nofun
  unfold bodyStep
  split
  · exact hbody _
  · split
    · exact h
    · exact hbody _
  · exact (hbody _).cons fun quote heq => by
      cases heq
      decide
  · exact (hbody _).cons fun quote heq => by
      cases heq
      decide
  · exact (hbody _).cons nofun
  · exact hbody _

theorem templateEnd_eq (hstack : Quotes stack) :
    templateEnd stack cs' = templateEnd stack cs := by
  fun_induction templateEnd stack cs generalizing cs' with
  | case1 => simp [templateEnd]
  | case2 =>
    cases h
    rfl
  | case3 braces outer c rest ih =>
    have hnext := quotes_bodyStep hstack.of_cons braces c
    cases h with
    | same _ h => rw [templateEnd, ih h hnext]
    | semicolon h => exact congrArg (LiteralEnd.shift 1) (ih h hnext)
  | case4 =>
    cases h with
    | same _ h =>
      cases h
      rfl
  | case5 quote outer c rest ih =>
    cases h with
    | same _ h =>
      cases h with
      | same _ h | semicolon h => rw [templateEnd, ih h hstack]
  | case6 quote outer c rest hlast hescape ih =>
    have hne : c ≠ '\\' := ne_backslash hlast hescape
    have hquote := hstack quote (mem_cons_self ..)
    cases h with
    | same _ h =>
      rw [templateEnd, ih h]
      · split
        · exact hstack.of_cons
        · exact hstack
      · exact fun h => absurd h hne
      · exact fun _ _ h => absurd h hne
    | semicolon h =>
      -- neither the semicolon nor the blank ends the quoted part
      have hinside (d : Char) (hd : d ≠ quote) (hd' : d ≠ '\n') :
          (if (decide (d = quote) || decide (d = '\n')) = true then outer
            else Enclosure.quoted quote :: outer) = .quoted quote :: outer := by
        simp [hd, hd']
      rw [hinside ';' hquote.1.symm (by decide)] at ih ⊢
      rw [templateEnd, hinside ' ' hquote.2.symm (by decide), ih h hstack]
      all_goals simp
  | case7 =>
    cases h
    rfl
  | case8 rest e outer ih =>
    cases h with
    | same _ h => rw [templateEnd, ih h hstack.of_cons]
  | case9 =>
    cases h with
    | same _ h =>
      cases h
      rfl
  | case10 outer c rest ih =>
    cases h with
    | same _ h =>
      have hvalid := h.isValid_eq
      cases h with
      | same _ h | semicolon h => rw [templateEnd, ih h hstack, hvalid]
  | case11 outer rest ih =>
    cases h with
    | same _ h =>
      cases h with
      | same _ h => rw [templateEnd, ih h (hstack.cons fun _ heq => Enclosure.noConfusion heq)]
  | case12 outer c rest hbacktick hlast hescape hdollar ih =>
    have hne : c ≠ '\\' := ne_backslash hlast hescape
    cases h with
    | same _ h =>
      rw [templateEnd, ih h hstack]
      · exact hbacktick
      · exact fun h => absurd h hne
      · exact fun _ _ h => absurd h hne
      · rintro rest' hc rfl
        obtain ⟨_, hrest⟩ := h.eq_cons (by decide)
        exact hdollar _ hc hrest
    | semicolon h =>
      rw [templateEnd, ih h hstack]
      all_goals simp

/-! ### Regular expressions -/

theorem regexpLength?_eq (inClass : Bool) :
    regexpLength? inClass cs' = regexpLength? inClass cs := by
  fun_induction regexpLength? inClass cs generalizing cs' with
  | case1 =>
    cases h
    rfl
  | case2 =>
    cases h
    rfl
  | case3 =>
    cases h with
    | same _ h =>
      cases h
      rfl
  | case4 =>
    cases h with
    | same _ h =>
      cases h
      rfl
  | case5 inClass c rest hnewline ih =>
    cases h with
    | same _ h =>
      cases h with
      | same _ h =>
        rw [regexpLength?, ih h]
        exact hnewline
      | semicolon h =>
        rw [regexpLength?, ih h]
        simp
  | case6 inClass rest ih | case7 inClass rest ih =>
    cases h with
    | same _ h => rw [regexpLength?, ih h]
  | case8 rest ih =>
    cases h with
    | same _ h => rw [regexpLength?, ih h, if_pos rfl]
  | case9 inClass rest hclass =>
    cases h with
    | same _ h => rw [regexpLength?, if_neg hclass]
  | case10 inClass c rest hnewline hlast _ hescape hopen hclose hslash ih =>
    have hne : c ≠ '\\' := ne_backslash hlast hescape
    cases h with
    | same _ h =>
      rw [regexpLength?, ih h]
      · exact hnewline
      · exact fun h => absurd h hne
      · exact fun _ h => absurd h hne
      · exact fun _ _ h => absurd h hne
      · exact hopen
      · exact hclose
      · exact hslash
    | semicolon h =>
      rw [regexpLength?, ih h]
      all_goals simp

/-- A regular expression whose first character stays. -/
theorem scanRegexp_eq (hhead : cs'.head? = cs.head?) :
    scanRegexp cs' = scanRegexp cs := by
  have hempty : cs'.isEmpty = cs.isEmpty := by cases h <;> rfl
  have hblank : startsWith isBlank cs' = startsWith isBlank cs := by
    unfold startsWith
    rw [hhead]
  have hline := (h.takeWhile (p := (· != '\n')) rfl).length_eq
  unfold scanRegexp
  rw [hempty, hblank, h.regexpLength?_eq, hline]
  split
  · rfl
  · split
    · rfl
    · next n _ =>
      have hflags := (h.drop n).takeWhile (p := isLetter) rfl
      simp only [hflags.length_eq, hflags.all_eq (p := isRegexpFlag) rfl]

/-! ### Numbers, words and marks -/

theorem endNumber_eq (kind : TokenKind) (n : Nat) :
    endNumber kind n cs' = endNumber kind n cs := by
  unfold endNumber
  rw [(h.drop n).startsWith_eq rfl, (h.drop n).runLength_eq rfl]

theorem exponentLength?_eq : exponentLength? cs' = exponentLength? cs := by
  cases h with
  | nil => rfl
  | same c h =>
    unfold exponentLength?
    have hsign := h.startsWith_eq (p := fun c => c == '+' || c == '-') rfl
    simp only [hsign, (h.drop _).runLength_eq (p := isDigit) rfl]
  | semicolon => rfl

theorem scanExponent_eq (kind : TokenKind) (n : Nat) :
    scanExponent kind n cs' = scanExponent kind n cs := by
  unfold scanExponent
  rw [(h.drop n).exponentLength?_eq]
  split
  · exact h.endNumber_eq kind n
  · rw [(h.drop n).runLength_eq rfl]
  · exact h.endNumber_eq _ _

theorem scanDecimal_eq : scanDecimal cs' = scanDecimal cs := by
  have hdigits := h.runLength_eq (p := isDigit) rfl
  unfold scanDecimal
  simp only [hdigits]
  have hdrop := h.drop (runLength isDigit cs)
  generalize cs.drop (runLength isDigit cs) = rest at hdrop ⊢
  generalize cs'.drop (runLength isDigit cs) = rest' at hdrop ⊢
  cases hdrop with
  | nil => exact h.scanExponent_eq _ _
  | same c hrest =>
    by_cases hc : c = '.'
    · subst hc
      cases hrest with
      | nil => exact h.scanExponent_eq _ _
      | same d hrest =>
        change (if isDigit d then _ else _) = if isDigit d then _ else _
        rw [h.scanExponent_eq, h.scanExponent_eq, (same d hrest).runLength_eq rfl]
      | semicolon => exact h.scanExponent_eq _ _
    · split
      · next heq => exact absurd (List.cons.inj heq).1 hc
      · split
        · next heq => exact absurd (List.cons.inj heq).1 hc
        · exact h.scanExponent_eq _ _
  | semicolon => exact h.scanExponent_eq _ _

theorem scanRadix_eq (radix : Nat) : scanRadix radix cs' = scanRadix radix cs := by
  unfold scanRadix
  rw [h.runLength_eq (p := isDigitOf radix) rfl]
  split
  · rw [h.runLength_eq rfl]
  · exact h.endNumber_eq _ _

theorem scanNumber_eq (first : Char) :
    scanNumber first cs' = scanNumber first cs := by
  cases h with
  | nil => rfl
  | same c h =>
    simp only [scanNumber, h.scanRadix_eq, (same c h).scanDecimal_eq]
  | semicolon h =>
    have hnone (d : Char) (hd : radixOf? d = none) :
        (if first = '0' then radixOf? d else none) = none := by
      rw [hd, ite_self]
    simp only [scanNumber, hnone ';' rfl, hnone ' ' rfl, (semicolon h).scanDecimal_eq]

/-- No mark goes on with one of the two characters. -/
theorem read?_eq (c : Char) : Punct.read? (c :: cs') = Punct.read? (c :: cs) := by
  have hprefix (part : List Char) (hpart : ';' ∉ part ∧ ' ' ∉ part) {ds ds' : List Char}
      (h : Blanked ds ds') : part.isPrefixOf ds' = part.isPrefixOf ds := by
    induction part generalizing ds ds' with
    | nil => simp
    | cons x part ih =>
      obtain ⟨hx, hx'⟩ := hpart
      rw [mem_cons, not_or] at hx hx'
      cases h with
      | nil => rfl
      | same d h => rw [List.isPrefixOf, List.isPrefixOf, ih ⟨hx.2, hx'.2⟩ h]
      | semicolon =>
        rw [List.isPrefixOf, List.isPrefixOf, beq_eq_false_iff_ne.2 (Ne.symm hx.1),
          beq_eq_false_iff_ne.2 (Ne.symm hx'.1), Bool.false_and, Bool.false_and]
  have htail (p : Punct) : ';' ∉ p.lexeme.toList.tail ∧ ' ' ∉ p.lexeme.toList.tail := by
    cases p <;> decide
  rw [Punct.read?_eq_find?, Punct.read?_eq_find?]
  congr 1
  funext p
  have hp := htail p
  cases hlexeme : p.lexeme.toList with
  | nil => rfl
  | cons x part =>
    rw [hlexeme] at hp
    rw [List.isPrefixOf, List.isPrefixOf, hprefix part hp h]

theorem scanPunct_eq (c : Char) : scanPunct c cs' = scanPunct c cs := by
  have hlongest : scanPunct.longest c cs' = scanPunct.longest c cs := by
    unfold scanPunct.longest
    rw [h.read?_eq]
  by_cases hnumber : c = '?' ∧ cs.head? = some '.'
  · obtain ⟨rfl, hpoint⟩ := hnumber
    cases h with
    | nil => exact hlongest
    | same d h =>
      obtain rfl : d = '.' := by simpa using hpoint
      cases h with
      | nil => exact hlongest
      | same d h =>
        change (if isDigit d then _ else _) = if isDigit d then _ else _
        rw [hlongest]
      | semicolon => exact hlongest
    | semicolon => exact hlongest
  · have hother {ds : List Char} (hds : ¬(c = '?' ∧ ds.head? = some '.')) :
        scanPunct c ds = scanPunct.longest c ds := by
      unfold scanPunct
      split
      · exact absurd ⟨rfl, rfl⟩ hds
      · rfl
    rw [hother hnumber, hother, hlongest]
    rintro ⟨hc, hpoint⟩
    have hbeq := h.head?_beq (x := '.') (by decide) (by decide)
    rw [hpoint, beq_self_eq_true, eq_comm, beq_iff_eq] at hbeq
    exact hnumber ⟨hc, hbeq⟩

theorem takeRun_eq (hp : p ';' = false) (hp' : p ' ' = false) :
    cs'.takeWhile p = cs.takeWhile p := by
  refine (h.takeWhile (hp.trans hp'.symm)).eq_of_not_mem fun hmem => ?_
  rw [all_eq_true.1 all_takeWhile _ hmem] at hp
  contradiction

/-! ### Tokens -/

/-- The token at the start of a text, if its first character and the one behind a slash that does
not divide stay. -/
theorem scan_eq (mode : LexMode) (divides : Bool)
    (hhead : c = '/' → divides = false → cs'.head? = cs.head?) :
    scan mode divides c cs' = scan mode divides c cs := by
  have hstart : (cs'.head? = some '*') = (cs.head? = some '*') := by
    have hbeq := h.head?_beq (x := '*') (by decide) (by decide)
    rw [Bool.eq_iff_iff, beq_iff_eq, beq_iff_eq] at hbeq
    exact propext hbeq
  have hword : cs'.take (runLength isWordChar cs) = cs.take (runLength isWordChar cs) := by
    have hrun (ds : List Char) : ds.takeWhile isWordChar = ds.take (runLength isWordChar ds) :=
      prefix_iff_eq_take.1 ( takeWhile_prefix _)
    have heq := h.takeRun_eq (p := isWordChar) rfl rfl
    rwa [hrun cs, hrun cs', h.runLength_eq rfl] at heq
  unfold scan
  split
  · next hquote =>
    have hquote : c ≠ ';' ∧ c ≠ ' ' := by
      rw [Bool.or_eq_true, decide_eq_true_eq, decide_eq_true_eq] at hquote
      rcases hquote with rfl | rfl <;> decide
    rw [h.stringEnd_eq hquote]
  · split
    · have hstack : Quotes [.text] := fun quote hmem => by simp at hmem
      rw [h.templateEnd_eq hstack]
    · split
      · exact h.scanNumber_eq c
      · split
        · simp only [h.runLength_eq (p := isWordChar) rfl, hword]
        · rw [h.startsWith_eq rfl]
          split
          · exact (h.scanExponent_eq _ _).trans (by rw [h.runLength_eq rfl]; rfl)
          · simp only [hstart, h.length_eq]
            split
            · rfl
            · split
              · next hslash =>
                rw [Bool.and_eq_true, decide_eq_true_eq, Bool.not_eq_true'] at hslash
                exact h.scanRegexp_eq (hhead hslash.1 hslash.2)
              · exact h.scanPunct_eq c

/-! ### Skipped text -/

theorem lineLength_eq : lineLength cs' = lineLength cs :=
  (h.takeWhile rfl).length_eq

theorem commentLength?_eq : commentLength? cs' = commentLength? cs := by
  fun_induction commentLength? cs generalizing cs' with
  | case1 =>
    cases h
    rfl
  | case2 =>
    cases h with
    | same _ h =>
      cases h
      rfl
  | case3 c rest hclose ih =>
    cases h with
    | same _ h =>
      rw [commentLength?, ih h]
      rintro rest' hc rfl
      obtain ⟨_, hrest⟩ := h.eq_cons (by decide)
      exact hclose _ hc hrest
    | semicolon h =>
      rw [commentLength?, ih h]
      simp

/-- A piece of skipped text whose first character stays. -/
theorem pieceLength_eq (c : Char) (atStart : Bool) :
    pieceLength atStart (c :: cs') = pieceLength atStart (c :: cs) := by
  have hother {d : Char} {ds : List Char} (hline : ¬(c = '/' ∧ d = '/'))
      (hcomment : ¬(c = '/' ∧ d = '*')) (hscript : ¬(c = '#' ∧ d = '!')) :
      pieceLength atStart (c :: d :: ds) = if isBlank c then 1 else 0 := by
    unfold pieceLength
    split
    · next heq => exact absurd ⟨(List.cons.inj heq).1, by simp_all⟩ hline
    · next heq => exact absurd ⟨(List.cons.inj heq).1, by simp_all⟩ hcomment
    · next heq => exact absurd ⟨(List.cons.inj heq).1, by simp_all⟩ hscript
    · next heq => rw [(List.cons.inj heq).1]
    · next heq => cases heq
  cases h with
  | nil => rfl
  | same d h =>
    by_cases hline : c = '/' ∧ d = '/'
    · obtain ⟨rfl, rfl⟩ := hline
      exact congrArg (2 + ·) h.lineLength_eq
    · by_cases hcomment : c = '/' ∧ d = '*'
      · obtain ⟨rfl, rfl⟩ := hcomment
        exact congrArg (fun n => (n.map (· + 2)).getD 0) h.commentLength?_eq
      · by_cases hscript : c = '#' ∧ d = '!'
        · obtain ⟨rfl, rfl⟩ := hscript
          exact congrArg (fun n => if atStart then 2 + n else 0) h.lineLength_eq
        · rw [hother hline hcomment hscript, hother hline hcomment hscript]
  | semicolon => rw [hother (by simp) (by simp) (by simp), hother (by simp) (by simp) (by simp)]

/-- Skipped text before the first blank: it stays, and is measured on from there. -/
theorem triviaLength_append
    (hgap : triviaLength atStart (gap ++ cs) = gap.length) :
    triviaLength atStart (gap ++ cs') =
        gap.length + triviaLength (atStart && gap.isEmpty) cs' ∧
      triviaLength (atStart && gap.isEmpty) cs = 0 := by
  -- each piece of the gap has the same length before both texts
  induction hn : gap.length using Nat.strongRecOn generalizing gap atStart with
  | _ n ih =>
    subst hn
    cases gap with
    | nil => simpa using hgap
    | cons g gs =>
      have hpiece := ((refl gs).append h).pieceLength_eq g atStart
      rw [cons_append, triviaLength] at hgap
      rw [cons_append, triviaLength, hpiece]
      cases hlen : pieceLength atStart (g :: (gs ++ cs)) with
      | zero => simp [hlen] at hgap
      | succ m =>
        simp only [hlen, length_cons] at hgap ⊢
        have hm : m ≤ gs.length := by omega
        rw [drop_append_of_le_length hm] at hgap ⊢
        have hrest : triviaLength false (gs.drop m ++ cs) = (gs.drop m).length := by
          rw [length_drop]
          omega
        obtain ⟨hblanked, hnone⟩ := ih _ (by simp only [length_drop, length_cons]; omega)
          hrest rfl
        simp only [Bool.false_and, isEmpty_cons, Bool.and_false] at hblanked hnone ⊢
        refine ⟨?_, hnone⟩
        rw [hblanked, length_drop]
        omega

/-- Skipped text before a character that stays. -/
theorem triviaLength_eq
    (hgap : triviaLength atStart (gap ++ c :: cs) = gap.length) :
    triviaLength atStart (gap ++ c :: cs') = gap.length := by
  obtain ⟨hblanked, hnone⟩ := (same c h).triviaLength_append hgap
  have hpiece := h.pieceLength_eq c (atStart && gap.isEmpty)
  rw [triviaLength] at hnone
  rw [hblanked, triviaLength, hpiece]
  cases hlen : pieceLength (atStart && gap.isEmpty) (c :: cs) with
  | zero => rfl
  | succ => simp [hlen] at hnone

omit h in
/-- Skipped text before a semicolon goes on behind the blank in its place. -/
theorem triviaLength_place {rest : List Char}
    (hgap : triviaLength atStart (gap ++ ';' :: rest) = gap.length) :
    triviaLength atStart (gap ++ ' ' :: rest) = gap.length + (1 + triviaLength false rest) := by
  rw [((refl rest).semicolon.triviaLength_append hgap).1, triviaLength_blank]

/-! ### Interpolations -/

/-- Where an interpolation ends. -/
theorem bodyLength_eq (braces : Nat) {quote : Option Char}
    (hquote : ∀ q ∈ quote, q ≠ ';' ∧ q ≠ ' ') :
    bodyLength braces quote cs' = bodyLength braces quote cs := by
  fun_induction bodyLength braces quote cs generalizing cs' with
  | case1 =>
    cases h
    rfl
  | case2 braces rest ih =>
    cases h with
    | same _ h => rw [bodyLength, if_pos rfl, ih h hquote]
  | case3 rest =>
    cases h with
    | same _ h => rfl
  | case4 braces rest hbraces _ ih =>
    cases h with
    | same _ h =>
      rw [bodyLength, if_neg (by decide), if_pos rfl, if_neg hbraces, ih h hquote]
  | case5 braces c rest hopen hclose hc ih =>
    have hc' : c ≠ ';' ∧ c ≠ ' ' := by
      simp only [Bool.or_eq_true, decide_eq_true_eq] at hc
      rcases hc with (rfl | rfl) | rfl <;> decide
    cases h with
    | same _ h =>
      rw [bodyLength, if_neg hopen, if_neg hclose, if_pos hc]
      exact congrArg (· + 1) (ih h fun q hq => Option.some.inj hq ▸ hc')
    | semicolon => exact absurd rfl hc'.1
  | case6 braces c rest hopen hclose hc ih =>
    cases h with
    | same _ h =>
      rw [bodyLength, if_neg hopen, if_neg hclose, if_neg hc, ih h hquote]
    | semicolon h => exact congrArg (· + 1) (ih h hquote)
  | case7 =>
    cases h with
    | same _ h =>
      cases h
      rfl
  | case8 braces quote c rest ih =>
    cases h with
    | same _ h =>
      cases h with
      | same _ h | semicolon h => rw [bodyLength, ih h hquote]
  | case9 braces quote c rest hlast hescape ih =>
    have hne : c ≠ '\\' := ne_backslash hlast hescape
    obtain ⟨hsemicolon, hblank⟩ := hquote quote rfl
    cases h with
    | same _ h =>
      rw [bodyLength, ih h]
      · split
        · exact fun q hq => absurd hq (Option.not_mem_none q)
        · exact hquote
      · exact fun h => absurd h hne
      · exact fun _ _ h => absurd h hne
    | semicolon h =>
      rw [if_neg hsemicolon.symm] at ih ⊢
      rw [bodyLength, if_neg hblank.symm, ih h hquote]
      all_goals simp

end Blanked

end ScriptCheck
