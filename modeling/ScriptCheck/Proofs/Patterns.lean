import ScriptCheck.Proofs.Literals

/-!
# Patterns of regular expressions

A slash in a pattern is guarded by a backslash before it or by the brackets of a class. The scanner
closes a regular expression at the first slash that nothing guards (`closes_of_regexpLength?`). The
flags have no slash, so this is the last slash of the text, where the literal is later taken apart.
-/

namespace ScriptCheck

open Text

variable {cs : List Char} {n : Nat}

/-- What guards the next character of a pattern. -/
structure Guard where
  escaped : Bool
  inClass : Bool
  deriving DecidableEq, Repr

namespace Guard

/-- Nothing guards the start of a pattern. -/
def start : Guard := ⟨false, false⟩

/-- What guards the character behind one that is guarded so. -/
def next (g : Guard) (c : Char) : Guard :=
  if g.escaped then { g with escaped := false }
  else if c = '\\' then { g with escaped := true }
  else if c = '[' then { g with inClass := true }
  else if c = ']' then { g with inClass := false }
  else g

/-- Whether a slash that is guarded so belongs to the pattern. -/
def holds (g : Guard) : Bool := g.escaped || g.inClass

/-- Of the slashes in a pattern and the one behind it, that last one alone is not guarded. -/
def Closes (g : Guard) (pattern : List Char) : Prop :=
  ∀ front back, pattern ++ ['/'] = front ++ '/' :: back →
    ((front.foldl next g).holds = false ↔ back = [])

theorem closes_nil {g : Guard} (h : g.holds = false) : g.Closes [] := by
  intro front back heq
  cases front with
  | nil =>
    obtain rfl : back = [] := by simpa using heq.symm
    simp [h]
  | cons d front => simp at heq

theorem closes_cons {g : Guard} {c : Char} {pattern : List Char} (hc : c = '/' → g.holds)
    (h : (g.next c).Closes pattern) : g.Closes (c :: pattern) := by
  intro front back heq
  cases front with
  | nil =>
    obtain ⟨rfl, hback⟩ := List.cons.inj heq
    have hback : back ≠ [] := by
      rw [← hback]
      simp
    simp [hc rfl, hback]
  | cons d front =>
    obtain ⟨rfl, htail⟩ := List.cons.inj heq
    exact h front back htail

end Guard

/-- A text starts with a pattern, guarded as given, and the slash that closes it after `n`
characters. -/
def ClosedPattern (g : Guard) (cs : List Char) (n : Nat) : Prop :=
  ∃ pattern rest, cs = pattern ++ '/' :: rest ∧ n = pattern.length + 1 ∧ '\n' ∉ pattern ∧
    g.Closes pattern

theorem ClosedPattern.cons {g : Guard} {c : Char} (hline : c ≠ '\n') (hc : c = '/' → g.holds)
    (h : ClosedPattern (g.next c) cs n) :
    ClosedPattern g (c :: cs) (n + 1) := by
  obtain ⟨pattern, rest, rfl, rfl, hlines, hcloses⟩ := h
  exact ⟨c :: pattern, rest, rfl, rfl, by simp [hline.symm, hlines], Guard.closes_cons hc hcloses⟩

/-- The scanner closes a regular expression at the first slash that nothing guards. -/
theorem closedPattern_of_regexpLength? {inClass : Bool} (h : regexpLength? inClass cs = some n) :
    ClosedPattern ⟨false, inClass⟩ cs n := by
  fun_induction regexpLength? inClass cs generalizing n with
  | case1 | case2 | case3 | case4 => cases h
  | case5 inClass c rest hline ih =>
    obtain ⟨m, hm, rfl⟩ := Option.map_eq_some_iff.1 h
    exact .cons (by decide) nofun (.cons hline (fun _ => rfl) (ih hm))
  | case6 inClass rest ih | case7 inClass rest ih =>
    obtain ⟨m, hm, rfl⟩ := Option.map_eq_some_iff.1 h
    exact .cons (by decide) nofun (ih hm)
  | case8 rest ih =>
    obtain ⟨m, hm, rfl⟩ := Option.map_eq_some_iff.1 h
    exact .cons (by decide) (fun _ => rfl) (ih hm)
  | case9 inClass rest hclass =>
    obtain rfl := Option.some.inj h
    exact ⟨[], rest, rfl, rfl, by simp, Guard.closes_nil (by simpa [Guard.holds] using hclass)⟩
  | case10 inClass c rest hline hlast _ hescape hopen hclose hslash ih =>
    obtain ⟨m, hm, rfl⟩ := Option.map_eq_some_iff.1 h
    have hback : c ≠ '\\' := ne_backslash hlast hescape
    have hnext : Guard.next ⟨false, inClass⟩ c = ⟨false, inClass⟩ := by
      simp only [Guard.next, if_neg hback, if_neg hopen, if_neg hclose, Bool.false_eq_true,
        if_false]
    exact .cons hline (fun hc => absurd hc hslash) (hnext.symm ▸ ih hm)

/-- A regular expression is taken apart at its last slash. -/
theorem regexpValue_eq {pattern flags : List Char} (hflags : '/' ∉ flags) :
    regexpValue ('/' :: (pattern ++ '/' :: flags)) = (pattern, flags) := by
  have hall : ∀ c ∈ flags.reverse, (c != '/') = true := by
    intro c hc
    simpa using fun heq : c = '/' => hflags (heq ▸ List.mem_reverse.1 hc)
  have hvalue : (('/' :: (pattern ++ '/' :: flags)).reverse.takeWhile (· != '/')).reverse =
      flags := by
    simp [List.takeWhile_append_of_pos hall]
  have hlength : ('/' :: (pattern ++ '/' :: flags)).length - flags.length - 1 =
      pattern.length + 1 := by
    simp only [List.length_cons, List.length_append]
    omega
  simp only [regexpValue, hvalue, hlength, List.take_succ_cons, List.take_left, List.tail_cons]

theorem scanRegexp_eq_regexp (h : (scanRegexp cs).1 = .regexp) :
    startsWith isBlank cs = false ∧ ∃ n, regexpLength? false cs = some n ∧
      (scanRegexp cs).2 = n + runLength isLetter (cs.drop n) ∧
      ((cs.drop n).takeWhile isLetter).all isRegexpFlag := by
  unfold scanRegexp at h ⊢
  split at h
  case isTrue => cases h
  next hstart =>
  split at h
  case h_1 => cases h
  next n hn =>
  dsimp only at h
  split at h
  case isFalse => cases h
  next hflags =>
  have hblank := (Bool.or_eq_false_iff.1 (Bool.eq_false_iff.2 hstart)).2
  simp only [hstart, hn, Bool.false_eq_true, if_false]
  exact ⟨hblank, n, rfl, rfl, hflags⟩

/-- What stands behind the slash that closes a pattern does not matter. -/
theorem regexpLength?_take {inClass : Bool} (h : regexpLength? inClass cs = some n)
    (more : List Char) :
    regexpLength? inClass (cs.take n ++ more) = some n := by
  fun_induction regexpLength? inClass cs generalizing n with
  | case1 | case2 | case3 | case4 => cases h
  | case5 inClass c rest hline ih =>
    obtain ⟨m, hm, rfl⟩ := Option.map_eq_some_iff.1 h
    change regexpLength? inClass ('\\' :: c :: (rest.take m ++ more)) = _
    rw [regexpLength?, ih hm]
    · rfl
    · exact hline
  | case6 inClass rest ih | case7 inClass rest ih | case8 rest ih =>
    obtain ⟨m, hm, rfl⟩ := Option.map_eq_some_iff.1 h
    exact congrArg (Option.map (· + 1)) (ih hm)
  | case9 inClass rest hclass =>
    obtain rfl := Option.some.inj h
    exact if_neg hclass
  | case10 inClass c rest hline hlast _ hescape hopen hclose hslash ih =>
    obtain ⟨m, hm, rfl⟩ := Option.map_eq_some_iff.1 h
    have hback : c ≠ '\\' := ne_backslash hlast hescape
    change regexpLength? inClass (c :: (rest.take m ++ more)) = _
    rw [regexpLength?, ih hm] <;> simp_all

/-- No token starts with two slashes. -/
theorem head?_ne_slash {atStart : Bool} (h : pieceLength atStart ('/' :: cs) = 0) :
    cs.head? ≠ some '/' := by
  intro hslash
  obtain ⟨rest, rfl⟩ := List.head?_eq_some_iff.1 hslash
  exact absurd h (Nat.ne_of_gt (Nat.add_pos_left Nat.two_pos _))

/-- What a regular expression is scanned from: a pattern, the slash that closes it, and flags. -/
theorem exists_pattern (h : (scanRegexp cs).1 = .regexp) :
    ∃ pattern rest, cs = pattern ++ '/' :: rest ∧ startsWith isBlank cs = false ∧
      ('\n' ∉ pattern ∧ Guard.start.Closes pattern) ∧
      (∀ more, regexpLength? false (pattern ++ '/' :: more) = some (pattern.length + 1)) ∧
      cs.take (scanRegexp cs).2 = pattern ++ '/' :: rest.takeWhile isLetter ∧
      (rest.takeWhile isLetter).all isRegexpFlag := by
  obtain ⟨hblank, n, hn, hlength, hflags⟩ := scanRegexp_eq_regexp h
  obtain ⟨pattern, rest, rfl, rfl, hpattern⟩ := closedPattern_of_regexpLength? hn
  have hfront : pattern ++ '/' :: rest = (pattern ++ ['/']) ++ rest := by simp
  have hcount : pattern.length + 1 = (pattern ++ ['/']).length := by simp
  have hmore := regexpLength?_take hn
  rw [hlength, List.take_add, take_runLength]
  rw [hfront, hcount, List.take_left] at hmore
  rw [hfront, hcount, List.drop_left] at hflags ⊢
  rw [List.take_left]
  refine ⟨pattern, rest, hfront.symm, hfront ▸ hblank, hpattern, fun more => ?_, by simp, hflags⟩
  simpa using hmore more

/-- A regular expression is a pattern between two slashes and its flags. The pattern has no line
break and does not start like a comment or with a blank, and the slash behind it, where the scanner
closed the literal, is the only one that nothing guards. -/
theorem regexpValue_of_mem {mode : LexMode} {before : Preceding} {lo : Nat} {cs : List Char}
    {t : Token} (ht : t ∈ tokensFrom mode before lo cs) (hkind : t.kind = .regexp) :
    ∃ pattern flags, regexpValue t.text = (pattern, flags) ∧
      t.text = '/' :: (pattern ++ '/' :: flags) ∧
      (∀ c ∈ flags, c = 'g' ∨ c = 'i' ∨ c = 's') ∧
      (∃ c, pattern.head? = some c ∧ isBlank c = false ∧ c ≠ '/' ∧ c ≠ '*') ∧
      '\n' ∉ pattern ∧ Guard.start.Closes pattern ∧
      ∃ front after, cs = front ++ (t.text ++ after) ∧ t.lo = lo + bytes front ∧
        regexpLength? false (pattern ++ '/' :: (flags ++ after)) = some (pattern.length + 1) := by
  obtain ⟨divides, front, c, rest, hat, rfl, hstar, hscan⟩ :=
    found_of_mem ht (congrArg TokenKind.sort? hkind)
  have hscanned : (scanRegexp rest).1 = .regexp := by
    rw [← hscan, ← hat.kind, hkind]
  obtain ⟨pattern, tail, rfl, hblank, ⟨hline, hcloses⟩, hlength, htake, hflags⟩ :=
    exists_pattern hscanned
  have htext : t.text = '/' :: (pattern ++ '/' :: tail.takeWhile isLetter) := by
    rw [hat.text, hscan, htake]
  have hflag (c : Char) (hc : c ∈ tail.takeWhile isLetter) : c = 'g' ∨ c = 'i' ∨ c = 's' := by
    simpa [isRegexpFlag, or_assoc] using List.all_eq_true.1 hflags c hc
  refine ⟨pattern, tail.takeWhile isLetter, ?_, htext, hflag, ?_, hline, hcloses, front,
    tail.dropWhile isLetter, ?_, hat.lo, hlength _⟩
  · rw [htext]
    exact regexpValue_eq fun hmem => absurd (hflag _ hmem) (by decide)
  · -- a slash behind the first one would have been skipped with the rest of its line
    obtain ⟨atStart, hbare⟩ := hat.bare
    have hslash := head?_ne_slash hbare
    cases pattern with
    | nil => exact absurd rfl hslash
    | cons c pattern =>
      refine ⟨c, rfl, hblank, ?_, ?_⟩
      · exact fun hc => hslash (congrArg some hc)
      · exact fun hc => hstar (congrArg some hc)
  · rw [hat.eq, htext]
    simp

/-- A slash may be escaped or stand in a class. -/
theorem regexpValue_of_mem_guarded :
    let t : Token := ⟨.regexp, 0, [], "/a\\/[/]b/gi".toList⟩
    t ∈ tokensFrom .normal .none 0 (t.text ++ [';']) ∧
      ∃ pattern flags, regexpValue t.text = (pattern, flags) ∧ Guard.start.Closes pattern := by
  intro t
  have ht : t ∈ tokensFrom .normal .none 0 (t.text ++ [';']) := by decide +kernel
  obtain ⟨pattern, flags, hvalue, -, -, -, -, hcloses, -⟩ := regexpValue_of_mem ht rfl
  exact ⟨ht, pattern, flags, hvalue, hcloses⟩

end ScriptCheck
