import ScriptCheck.Proofs.Integers
import ScriptCheck.Proofs.Literals

/-!
# Units of strings

The body of a string is a list of *units*: characters that stand for themselves, and escape
sequences. It is taken apart twice, when the string is scanned and checked (`checkString`) and when
its value is decoded (`Escape.units`), by rules of their own for how far an escape sequence goes. In
a string without malformed escape sequences both find the same units (`units_of_mem`), and its value
is made up of the values of the units.
-/

namespace ScriptCheck

open List

open Text

variable {cs : List Char}

namespace Escape

/-! ### Escape sequences -/

/-- The ways to write a code point: two or four digits, digits in braces, and octal digits. -/
inductive Form where
  | hex
  | unicode
  | braced
  | octal
  deriving DecidableEq, Repr

/-- What stands before the digits. -/
@[simp] def Form.opening : Form → List Char
  | hex => ['x']
  | unicode => ['u']
  | braced => ['u', '\x7b']
  | octal => []

/-- What stands behind the digits. -/
@[simp] def Form.closing : Form → List Char
  | braced => ['\x7d']
  | _ => []

def Form.radix : Form → Nat
  | octal => 8
  | _ => 16

/-- The least and the greatest number of digits. -/
def Form.counts : Form → Nat × Nat
  | hex => (2, 2)
  | unicode => (4, 4)
  | braced => (1, 6)
  | octal => (1, 3)

/-- The character for a code point. Surrogates and numbers that are too large can only be named
after a `u`, and are replaced. -/
def Form.character (form : Form) (code : Nat) : Char :=
  if (form = .unicode ∨ form = .braced) ∧ (0xD800 ≤ code ∧ code ≤ 0xDFFF ∨ 0x10FFFF < code) then
    replacement
  else Char.ofNat code

/-- An escape sequence, without its backslash: one character, a code point, or a line break, which
continues the line. -/
inductive Sequence where
  | single (c : Char)
  | code (form : Form) (digits : List Char)
  | continuation
  deriving DecidableEq, Repr

namespace Sequence

def text : Sequence → List Char
  | single c => [c]
  | code form digits => form.opening ++ (digits ++ form.closing)
  | continuation => ['\n']

def value : Sequence → Option Char
  | single c => some (letter c)
  | code form digits => some (form.character (positional form.radix digits))
  | continuation => none

def WellFormed : Sequence → Prop
  | single c => c ≠ 'x' ∧ c ≠ 'u' ∧ c ≠ '\n' ∧ isOctalDigit c = false
  | code form digits => form.counts.1 ≤ digits.length ∧ digits.length ≤ form.counts.2 ∧
      digits.all (isDigitOf form.radix)
  | continuation => True

/-- Octal digits are taken as long as there are any, up to three. -/
def Longest : Sequence → List Char → Prop
  | code .octal digits, rest => digits.length = 3 ∨ startsWith isOctalDigit rest = false
  | _, _ => True

end Sequence

/-- The number of characters that are looked at to check the escape sequence at the start of a text
that follows a backslash. -/
def seenLength (cs : List Char) : Nat :=
  match cs with
  | [] => 0
  | 'x' :: rest => 1 + runLength isHexDigit (rest.take 2)
  | 'u' :: '\x7b' :: rest => 2 + runLength isHexDigit rest + if isValid cs then 1 else 0
  | 'u' :: rest => 1 + runLength isHexDigit (rest.take 4)
  | c :: rest => 1 + if isOctalDigit c then runLength isOctalDigit (rest.take 2) else 0

end Escape

/-- A unit of a string. -/
inductive StringUnit where
  | plain (c : Char)
  | escaped (e : Escape.Sequence)
  deriving DecidableEq, Repr

namespace StringUnit

def text : StringUnit → List Char
  | plain c => [c]
  | escaped e => '\\' :: e.text

def value : StringUnit → Option Char
  | plain c => some c
  | escaped e => e.value

/-- Well formed units of a string with some quote, before a text. -/
def AllValid (quote : Char) (tail : List Char) : List StringUnit → Prop
  | [] => True
  | plain c :: us => (c ≠ '\\' ∧ c ≠ '\n' ∧ c ≠ quote) ∧ AllValid quote tail us
  | escaped e :: us => (e.WellFormed ∧ e.Longest (us.flatMap text ++ tail)) ∧
      AllValid quote tail us

end StringUnit

/-- Checks a string in the text after its opening quote, unit by unit: how it ends, and its
units. -/
def checkString (quote : Char) (cs : List Char) : LiteralEnd × List (List Char) :=
  match cs with
  | [] => (⟨none, 0⟩, [])
  | '\n' :: _ => (⟨none, 0⟩, [])
  | '\\' :: rest =>
    let n := Escape.seenLength rest
    let (e, units) := checkString quote (rest.drop n)
    ((e.note !Escape.isValid rest).shift (n + 1), ('\\' :: rest.take n) :: units)
  | c :: rest =>
    if c = quote then (⟨some false, 1⟩, [])
    else
      let (e, units) := checkString quote rest
      (e.shift 1, [c] :: units)
termination_by cs.length
decreasing_by all_goals simp only [length_drop, length_cons]; omega

/-! ### Decoding a sequence -/

namespace Escape

variable {c : Char}

/-- Decoding replaces exactly what a well formed escape sequence cannot name. -/
theorem charOf_positional {form : Form} {digits : List Char}
    (h : (Sequence.code form digits).WellFormed) :
    charOf (some (positional form.radix digits)) =
      form.character (positional form.radix digits) := by
  obtain ⟨-, hmax, hdigits⟩ := h
  have hlt : positional form.radix digits < Nat.pow form.radix form.counts.2 := by
    refine (positionalFrom_lt (all_eq_true.1 hdigits) 0).trans_le ?_
    rw [Nat.zero_add, Nat.one_mul]
    exact Nat.pow_le_pow_right (by cases form <;> decide) hmax
  have hvalid (n : Nat) : n.isValidChar ↔ ¬ (0xD800 ≤ n ∧ n ≤ 0xDFFF ∨ 0x10FFFF < n) := by
    simp only [Nat.isValidChar]
    omega
  generalize positional form.radix digits = n at hlt
  have hsmall (h : n < 0xD800) : n.isValidChar := .inl h
  cases form with
  | hex =>
    have : n < 0xD800 := Nat.lt_trans hlt (by decide)
    simp [charOf, Form.character, hsmall this]
  | octal =>
    have : n < 0xD800 := Nat.lt_trans hlt (by decide)
    simp [charOf, Form.character, hsmall this]
  | unicode | braced => simp only [charOf, Form.character, hvalid, ite_not]; simp

theorem hexValue?_digits {digits : List Char} (hne : digits ≠ []) (h : digits.all isHexDigit) :
    hexValue? digits = some (positional 16 digits) := by
  have hplus : ∀ rest, digits ≠ '+' :: rest := by
    rintro rest rfl
    simp [isHexDigit, isDigitOf, digitValue?, isDigit] at h
  unfold hexValue?
  split
  · next rest => exact absurd rfl (hplus rest)
  · simp [hne, h]

variable {cs rest : List Char}

theorem Sequence.Longest.left {e : Sequence} (h : e.Longest (cs ++ rest)) : e.Longest cs := by
  cases e with
  | single | continuation => trivial
  | code form digits =>
    cases form with
    | octal => exact h.imp_right fun hstart => by cases cs with
      | nil => rfl
      | cons => exact hstart
    | _ => trivial

/-- Octal digits end where the escape sequence does. -/
theorem takeWhile_octal {more : List Char} (hlength : more.length ≤ 2)
    (hmore : more.all isOctalDigit)
    (hlongest : more.length = 2 ∨ startsWith isOctalDigit rest = false) :
    ((more ++ rest).take 2).takeWhile isOctalDigit = more := by
  rcases more with _ | ⟨a, _ | ⟨b, _ | ⟨c, more⟩⟩⟩
  · cases rest <;> simp_all [startsWith]
  · cases rest <;> simp_all [startsWith]
  · simp_all
  · simp at hlength

theorem value_cons (hx : c ≠ 'x') (hu : c ≠ 'u') (hline : c ≠ '\n') (rest : List Char) :
    value (c :: rest) =
      if isOctalDigit c then
        (some (charOf (some (positional 8 (c :: (rest.take 2).takeWhile isOctalDigit)))),
          1 + ((rest.take 2).takeWhile isOctalDigit).length)
      else (some (letter c), 1) := by
  unfold value
  split <;> simp_all

/-- Decoding takes an escape sequence as a whole. -/
theorem value_text {e : Sequence} (he : e.WellFormed) (hlongest : e.Longest rest) :
    value (e.text ++ rest) = (e.value, e.text.length) := by
  cases e with
  | single c =>
    obtain ⟨hx, hu, hline, hoctal⟩ := he
    exact (value_cons hx hu hline rest).trans (if_neg (by simp [hoctal]))
  | continuation => rfl
  | code form digits =>
    have hchar := charOf_positional he
    obtain ⟨hmin, hmax, hdigits⟩ := he
    have hne : digits ≠ [] := by
      rintro rfl
      cases form <;> simp [Form.counts] at hmin
    have hhex (h : form.radix = 16) : hexValue? digits = some (positional form.radix digits) := by
      rw [h] at hdigits ⊢
      exact hexValue?_digits hne hdigits
    have htake (n : Nat) (hle : n ≤ digits.length) (hge : digits.length ≤ n) :
        (digits ++ rest).take n = digits := by
      rw [Nat.le_antisymm hle hge, take_left]
    cases form with
    | hex =>
      change value ('x' :: (digits ++ [] ++ rest)) = (some _, (digits ++ []).length + 1)
      rw [append_nil, value, htake 2 hmin hmax, hhex rfl, hchar, Nat.add_comm]
    | unicode =>
      change value ('u' :: (digits ++ [] ++ rest)) = (some _, (digits ++ []).length + 1)
      rw [append_nil, value, htake 4 hmin hmax, hhex rfl, hchar, Nat.add_comm]
      intro tail heq
      obtain ⟨d, ds, rfl⟩ := exists_cons_of_ne_nil hne
      exact ne_of_class (all_eq_true.1 hdigits d (by simp)) rfl (List.cons.inj heq).1
    | braced =>
      have hbody : (digits ++ '\x7d' :: rest).takeWhile (· != '\x7d') = digits := by
        rw [takeWhile_append_of_pos]
        · simp
        · intro d hd
          simpa using ne_of_class (all_eq_true.1 hdigits d hd) rfl
      change value ('u' :: '\x7b' :: (digits ++ ['\x7d'] ++ rest)) =
        (some _, (digits ++ ['\x7d']).length + 2)
      rw [append_assoc, singleton_append, value]
      simp [hbody, hhex rfl, hchar]
      omega
    | octal =>
      obtain ⟨c, more, rfl⟩ := exists_cons_of_ne_nil hne
      obtain ⟨hoctal, hdigits⟩ : isOctalDigit c ∧ more.all isOctalDigit :=
        Bool.and_eq_true_iff.1 hdigits
      have hmore := takeWhile_octal (Nat.le_of_succ_le_succ hmax) hdigits
        (hlongest.imp_left Nat.succ.inj)
      have hc (d : Char) (hd : isOctalDigit d = false) : c ≠ d := ne_of_class hoctal hd
      change value (c :: (more ++ [] ++ rest)) = (some _, (more ++ []).length + 1)
      rw [append_nil, value_cons (hc 'x' rfl) (hc 'u' rfl) (hc '\n' rfl), if_pos hoctal,
        hmore, Nat.add_comm]
      exact congrArg (fun c => (some c, _)) hchar

/-! ### Checking a sequence -/

theorem take_runLength_take (p : Char → Bool) (n : Nat) (cs : List Char) :
    cs.take (runLength p (cs.take n)) = (cs.take n).takeWhile p := by
  rw [← take_runLength, take_take, Nat.min_eq_left]
  exact Nat.le_trans ( takeWhile_prefix p).length_le (length_take_le n cs)

theorem braced_of_isValid (h : isValid ('u' :: '\x7b' :: cs)) :
    1 ≤ runLength isHexDigit cs ∧ runLength isHexDigit cs ≤ 6 ∧
      ∃ tail, cs.drop (runLength isHexDigit cs) = '\x7d' :: tail := by
  obtain ⟨⟨hmin, hmax⟩, hclosed⟩ := by simpa only [isValid, Bool.and_eq_true] using h
  exact ⟨of_decide_eq_true hmin, of_decide_eq_true hmax,
    head?_eq_some_iff.1 (eq_of_beq hclosed)⟩

/-- What a check looks at behind its first character: hexadecimal digits and braces. -/
def isSeen (d : Char) : Bool := isHexDigit d || d == '\x7b' || d == '\x7d'

theorem exists_seen (hne : cs ≠ []) :
    ∃ c seen rest, cs = c :: (seen ++ rest) ∧ seenLength cs = seen.length + 1 ∧
      ∀ d ∈ seen, isSeen d := by
  have hrun {p : Char → Bool} {c : Char} {cs : List Char} (n : Nat)
      (hp : ∀ d, p d → isHexDigit d) : ∃ c' seen rest, c :: cs = c' :: (seen ++ rest) ∧
        1 + runLength p (cs.take n) = seen.length + 1 ∧ ∀ d ∈ seen, isSeen d := by
    refine ⟨c, (cs.take n).takeWhile p, cs.drop (runLength p (cs.take n)), ?_, Nat.add_comm _ _,
      fun d hd => by simp [isSeen, hp d (mem_takeWhile_imp hd)]⟩
    rw [← take_runLength_take, take_append_drop]
  unfold seenLength
  split
  · exact absurd rfl hne
  · exact hrun 2 fun _ => id
  · next rest =>
    have hdigits (d : Char) (hd : d ∈ rest.takeWhile isHexDigit) := mem_takeWhile_imp hd
    have hsplit := take_append_drop (runLength isHexDigit rest) rest
    rw [take_runLength] at hsplit
    split
    · next hvalid =>
      obtain ⟨-, -, tail, htail⟩ := braced_of_isValid hvalid
      refine ⟨'u', '\x7b' :: (rest.takeWhile isHexDigit ++ ['\x7d']), tail, ?_, ?_, ?_⟩
      · simp [← htail, hsplit]
      · simp [runLength]
        omega
      · simp [isSeen]
        grind
    · refine ⟨'u', '\x7b' :: rest.takeWhile isHexDigit, _,
        congrArg ('u' :: '\x7b' :: ·) hsplit.symm, ?_, ?_⟩
      · simp [runLength]
        omega
      · simp [isSeen]
        grind
  · exact hrun 4 fun _ => id
  · split
    · refine hrun 2 fun d hd => ?_
      obtain ⟨n, hn, hlt⟩ := isDigitOf_iff.1 hd
      exact isDigitOf_iff.2 ⟨n, hn, by omega⟩
    · exact ⟨_, [], _, rfl, rfl, fun _ hd => absurd hd not_mem_nil⟩

/-- The digits that a check asks for. -/
theorem digits_of_isValid {n : Nat} (h : (cs.take n).length == n && (cs.take n).all isHexDigit) :
    n ≤ (cs.take n).length ∧ (cs.take n).length ≤ n ∧ (cs.take n).all isHexDigit ∧
      runLength isHexDigit (cs.take n) = (cs.take n).length := by
  obtain ⟨hlength, hall⟩ := Bool.and_eq_true_iff.1 h
  rw [beq_iff_eq] at hlength
  refine ⟨hlength.ge, hlength.le, hall, ?_⟩
  rw [runLength, takeWhile_eq_self_iff.2 (all_eq_true.1 hall)]

/-- A check that succeeds does so whatever stands behind what it looks at. -/
theorem exists_valid (h : isValid (c :: cs)) :
    ∃ seen after, cs = seen ++ after ∧ (∀ d ∈ seen, isSeen d) ∧
      ∀ more, isValid (c :: (seen ++ more)) := by
  have hdigits (n : Nat) (h : (cs.take n).length == n && (cs.take n).all isHexDigit) :
      (∀ d ∈ cs.take n, isSeen d) ∧ ∀ more, (cs.take n ++ more).take n = cs.take n := by
    obtain ⟨hmin, hmax, hall, -⟩ := digits_of_isValid h
    refine ⟨fun d hd => by simp [isSeen, all_eq_true.1 hall d hd], fun more => ?_⟩
    rw [take_append_of_le_length hmin, take_take, Nat.min_self]
  unfold isValid at h
  split at h
  · next rest heq =>
    obtain ⟨rfl, rfl⟩ := List.cons.inj heq
    obtain ⟨hseen, htake⟩ := hdigits 2 h
    exact ⟨cs.take 2, cs.drop 2, (take_append_drop 2 cs).symm, hseen,
      fun more => by rwa [isValid, htake]⟩
  · next rest heq =>
    obtain ⟨rfl, rfl⟩ := List.cons.inj heq
    obtain ⟨hmin, hmax, tail, htail⟩ := braced_of_isValid h
    have hall : ∀ d ∈ rest.takeWhile isHexDigit, isHexDigit d :=
      all_eq_true.1 all_takeWhile
    refine ⟨'\x7b' :: (rest.takeWhile isHexDigit ++ ['\x7d']), tail, ?_, ?_, fun more => ?_⟩
    · rw [← take_runLength]
      simp [← htail]
    · simp [isSeen]
      grind
    · have hrun : ((rest.takeWhile isHexDigit ++ '\x7d' :: more).takeWhile isHexDigit) =
          rest.takeWhile isHexDigit := by
        rw [takeWhile_append_of_pos hall]
        simp [show isHexDigit '\x7d' = false from rfl]
      simpa [isValid, hrun] using ⟨hmin, hmax⟩
  · next rest hbrace heq =>
    obtain ⟨rfl, rfl⟩ := List.cons.inj heq
    obtain ⟨hseen, htake⟩ := hdigits 4 h
    refine ⟨cs.take 4, cs.drop 4, (take_append_drop 4 cs).symm, hseen, fun more => ?_⟩
    rwa [isValid, htake]
    -- the digits are not in braces, since there are any
    cases cs with
    | nil => cases h
    | cons d ds => exact fun rest heq => hbrace ds (by rw [(List.cons.inj heq).1])
  · next hx _ hu =>
    have hother : c ≠ 'x' ∧ c ≠ 'u' := ⟨fun hc => hx cs (by rw [hc]), fun hc => hu cs (by rw [hc])⟩
    exact ⟨[], cs, rfl, nofun, fun more => by simp [isValid, hother]⟩

/-- A check does not look past a character that it does not ask for. -/
theorem isValid_append {d : Char} {body after : List Char} (h : isValid (c :: (body ++ d :: after)))
    (hd : isSeen d = false) (more : List Char) :
    isValid (c :: (body ++ d :: more)) := by
  obtain ⟨seen, rest, heq, hseen, hvalid⟩ := exists_valid h
  obtain ⟨tail, rfl⟩ : seen <+: body := by
    rcases prefix_or_prefix_of_prefix ⟨rest, heq.symm⟩ (prefix_append body (d :: after))
      with hle | ⟨tail, rfl⟩
    · exact hle
    · cases tail with
      | nil => simp
      | cons e tail =>
        obtain ⟨rfl, -⟩ : d = e ∧ _ := by simpa using heq
        exact absurd rfl (ne_of_class (hseen d (by simp)) hd)
  rw [append_assoc]
  exact hvalid _

theorem longest_octal (cs : List Char) : runLength isOctalDigit (cs.take 2) = 2 ∨
    startsWith isOctalDigit (cs.drop (runLength isOctalDigit (cs.take 2))) = false := by
  rcases cs with _ | ⟨a, _ | ⟨b, cs⟩⟩
  · simp [runLength, startsWith]
  · cases ha : isOctalDigit a <;> simp [runLength, startsWith, ha]
  · cases ha : isOctalDigit a <;> cases hb : isOctalDigit b <;>
      simp [runLength, startsWith, ha, hb]

/-- A well formed escape sequence is checked as a whole. -/
theorem exists_sequence (hne : cs ≠ []) (h : isValid cs) :
    ∃ (e : Sequence) (rest : List Char), cs = e.text ++ rest ∧ e.WellFormed ∧ e.Longest rest ∧
      seenLength cs = e.text.length := by
  unfold seenLength
  split
  · exact absurd rfl hne
  · next rest =>
    obtain ⟨hmin, hmax, hall, hrun⟩ := digits_of_isValid h
    refine ⟨.code .hex (rest.take 2), rest.drop 2, ?_, ⟨hmin, hmax, hall⟩, trivial, ?_⟩
    · simp [Sequence.text]
    · simp [Sequence.text, hrun, Nat.add_comm]
  · next rest =>
    obtain ⟨hmin, hmax, tail, htail⟩ := braced_of_isValid h
    refine ⟨.code .braced (rest.takeWhile isHexDigit), tail, ?_, ⟨hmin, hmax, ?_⟩, trivial, ?_⟩
    · rw [← take_runLength]
      simp [Sequence.text, ← htail]
    · exact all_takeWhile
    · simp [Sequence.text, h, runLength]
      omega
  · next rest hbrace =>
    have h : (rest.take 4).length == 4 && (rest.take 4).all isHexDigit := by
      rwa [isValid] at h
      exact hbrace
    obtain ⟨hmin, hmax, hall, hrun⟩ := digits_of_isValid h
    refine ⟨.code .unicode (rest.take 4), rest.drop 4, ?_, ⟨hmin, hmax, hall⟩, trivial, ?_⟩
    · simp [Sequence.text]
    · simp [Sequence.text, hrun, Nat.add_comm]
  · next c rest hx hbrace hu =>
    cases hc : isOctalDigit c with
    | false =>
      cases hline : decide (c = '\n') with
      | true => exact ⟨.continuation, rest, by simp_all [Sequence.text], trivial, trivial, rfl⟩
      | false => exact ⟨.single c, rest, rfl, ⟨hx, hu, of_decide_eq_false hline, hc⟩, trivial, rfl⟩
    | true =>
      refine ⟨.code .octal (c :: (rest.take 2).takeWhile isOctalDigit),
        rest.drop (runLength isOctalDigit (rest.take 2)), ?_, ⟨?_, ?_, ?_⟩, ?_, ?_⟩
      · rw [← take_runLength_take]
        simp [Sequence.text]
      · exact Nat.succ_pos _
      · exact Nat.succ_le_succ (Nat.le_trans ( takeWhile_prefix _).length_le
          (length_take_le 2 rest))
      · exact Bool.and_eq_true_iff.2 ⟨hc, all_takeWhile⟩
      · exact (longest_octal rest).imp_left (congrArg Nat.succ)
      · simp [Sequence.text, runLength, Nat.add_comm]

end Escape

/-! ### Units of a text -/

variable {quote : Char}

/-- Characters that a string goes on over. -/
theorem stringEnd_append (hcs : ∀ c ∈ cs, c ≠ '\\' ∧ c ≠ '\n' ∧ c ≠ quote) (rest : List Char) :
    stringEnd quote (cs ++ rest) = (stringEnd quote rest).shift cs.length := by
  induction cs with
  | nil => rfl
  | cons c cs ih =>
    obtain ⟨⟨hslash, hline, hquote⟩, hcs⟩ := forall_mem_cons.1 hcs
    rw [cons_append, stringEnd, if_neg hquote, ih hcs]
    · rfl
    all_goals simp_all

theorem isSeen_quote (hquote : quote = '"' ∨ quote = '\'') : Escape.isSeen quote = false := by
  rcases hquote with rfl | rfl <;> rfl

/-- A string that is closed is so whatever stands behind its quote. -/
theorem exists_stringEnd (hquote : quote = '"' ∨ quote = '\'')
    (h : (stringEnd quote cs).malformed = some false) :
    ∃ body after, cs = body ++ quote :: after ∧
      ∀ more, stringEnd quote (body ++ quote :: more) = ⟨some false, body.length + 1⟩ := by
  fun_induction stringEnd quote cs with
  | case1 | case2 | case3 => cases h
  | case4 c rest ih =>
    obtain ⟨hrest, hvalid⟩ : (stringEnd quote rest).malformed = some false ∧
        Escape.isValid (c :: rest) := by
      simpa [LiteralEnd.note, LiteralEnd.shift] using h
    obtain ⟨body, after, rfl, hend⟩ := ih hrest
    have hvalid := Escape.isValid_append hvalid (isSeen_quote hquote)
    refine ⟨'\\' :: c :: body, after, rfl, fun more => ?_⟩
    simp [stringEnd, hend, hvalid, LiteralEnd.note, LiteralEnd.shift]
  | case5 rest => exact ⟨[], rest, rfl, fun more => by rcases hquote with rfl | rfl <;> rfl⟩
  | case6 c rest hline hlast hescape hne ih =>
    obtain ⟨body, after, rfl, hend⟩ := ih h
    have hc : ∀ d ∈ [c], d ≠ '\\' ∧ d ≠ '\n' ∧ d ≠ quote := by
      simpa using ⟨ne_backslash hlast hescape, hline, hne⟩
    exact ⟨c :: body, after, rfl, fun more =>
      (stringEnd_append hc _).trans (congrArg (LiteralEnd.shift 1) (hend more))⟩

/-- Checking a string unit by unit finds its end. -/
theorem fst_checkString (hquote : quote = '"' ∨ quote = '\'') (cs : List Char) :
    (checkString quote cs).1 = stringEnd quote cs := by
  fun_induction checkString quote cs with
  | case1 => rfl
  | case2 => rfl
  | case3 rest n e units hrec ih =>
    rw [hrec] at ih
    dsimp only at ih ⊢
    cases hne : rest with
    | nil =>
      subst hne
      rw [ih]
      rfl
    | cons =>
      obtain ⟨c, seen, rest, rfl, hn, hseen⟩ := Escape.exists_seen (hne ▸ cons_ne_nil _ _)
      rw [← hne]
      -- none of the characters that were seen ends the string
      have hplain (d : Char) (hd : d ∈ seen) : d ≠ '\\' ∧ d ≠ '\n' ∧ d ≠ quote :=
        ⟨ne_of_class (hseen d hd) rfl, ne_of_class (hseen d hd) rfl,
          ne_of_class (hseen d hd) (isSeen_quote hquote)⟩
      rw [ih, show n = seen.length + 1 from hn, stringEnd, stringEnd_append hplain]
      simp [LiteralEnd.note, LiteralEnd.shift, Nat.add_assoc]
  | case4 rest hslash => rcases hquote with rfl | rfl <;> rfl
  | case5 c rest hline hslash hne e units hrec ih =>
    rw [hrec] at ih
    have hplain (d : Char) (hd : d ∈ [c]) : d ≠ '\\' ∧ d ≠ '\n' ∧ d ≠ quote := by
      rw [mem_singleton.1 hd]
      exact ⟨hslash, hline, hne⟩
    exact (congrArg (LiteralEnd.shift 1) ih).trans (stringEnd_append hplain rest).symm

/-- A string without malformed escape sequences is made up of units. -/
theorem exists_units (h : (checkString quote cs).1.malformed = some false) :
    ∃ us after, cs = us.flatMap StringUnit.text ++ quote :: after ∧
      (checkString quote cs).1.length = (us.flatMap StringUnit.text).length + 1 ∧
      (checkString quote cs).2 = us.map StringUnit.text ∧
      StringUnit.AllValid quote (quote :: after) us := by
  fun_induction checkString quote cs with
  | case1 => cases h
  | case2 => cases h
  | case3 rest n e units hrec ih =>
    rw [hrec] at ih
    dsimp only at ih
    obtain ⟨he, hrest⟩ : e.malformed = some false ∧ Escape.isValid rest := by
      simpa [LiteralEnd.note, LiteralEnd.shift] using h
    obtain ⟨us, after, hdrop, hlength, hunits, hus⟩ := ih he
    have hne : rest ≠ [] := by
      rintro rfl
      simp at hdrop
    obtain ⟨sequence, tail, rfl, hwell, hlongest, hn⟩ := Escape.exists_sequence hne hrest
    have hn : n = sequence.text.length := hn
    rw [hn, drop_left] at hdrop
    refine ⟨.escaped sequence :: us, after, ?_, ?_, ?_, ⟨hwell, ?_⟩, hus⟩
    · simp [StringUnit.text, hdrop]
    · simp [LiteralEnd.note, LiteralEnd.shift, hlength, hn, StringUnit.text]
      omega
    · simp [hunits, hn, StringUnit.text]
    · rwa [← hdrop]
  | case4 rest hslash => exact ⟨[], rest, rfl, rfl, rfl, trivial⟩
  | case5 c rest hline hslash hne e units hrec ih =>
    rw [hrec] at ih
    dsimp only at ih
    obtain ⟨us, after, rfl, hlength, hunits, hvalid⟩ := ih h
    refine ⟨.plain c :: us, after, rfl, ?_, ?_, ⟨hslash, hline, hne⟩, hvalid⟩
    · simp [LiteralEnd.shift, hlength, StringUnit.text]
    · simp [hunits, StringUnit.text]

/-- Decoding finds the units. -/
theorem units_flatMap {tail : List Char} {us : List StringUnit}
    (h : StringUnit.AllValid quote tail us) :
    Escape.units (us.flatMap StringUnit.text) = us.map fun u => (u.text, u.value) := by
  induction us with
  | nil => rw [flatMap_nil, Escape.units, map_nil]
  | cons u us ih =>
    cases u with
    | plain c =>
      obtain ⟨⟨hslash, -⟩, hus⟩ := h
      rw [flatMap_cons, StringUnit.text, singleton_append, Escape.units, ih hus]
      · rfl
      · exact hslash
    | escaped e =>
      obtain ⟨⟨he, hlongest⟩, hus⟩ := h
      rw [flatMap_cons, StringUnit.text, cons_append, Escape.units]
      simp [Escape.value_text he hlongest.left, ih hus, StringUnit.text, StringUnit.value]

/-- A string is a list of units between two quotes. Checking it, which finds the end of every string
where scanning does, and decoding it both take it apart into these units, and its value is made up
of theirs. -/
theorem units_of_mem {mode : LexMode} {before : Preceding} {lo : Nat} {cs : List Char} {t : Token}
    (ht : t ∈ tokensFrom mode before lo cs) (hkind : t.kind = .string) :
    ∃ quote us front after, (quote = '"' ∨ quote = '\'') ∧
      t.text = quote :: (us.flatMap StringUnit.text ++ [quote]) ∧
      cs = front ++ (t.text ++ after) ∧ t.lo = lo + bytes front ∧
      StringUnit.AllValid quote (quote :: after) us ∧
      (∀ text, (checkString quote text).1 = stringEnd quote text) ∧
      checkString quote (us.flatMap StringUnit.text ++ quote :: after) =
        (⟨some false, (us.flatMap StringUnit.text).length + 1⟩, us.map StringUnit.text) ∧
      Escape.units (unquoted t.text) = us.map (fun u => (u.text, u.value)) ∧
      stringValue t.text = us.flatMap (·.value.toList) := by
  obtain ⟨divides, front, quote, rest, hat, hquote, hclosed, hscan⟩ :=
    found_of_mem ht (congrArg TokenKind.sort? hkind)
  have hend := fst_checkString hquote
  rw [← hend] at hclosed hscan
  obtain ⟨us, after, rfl, hlength, hunits, hus⟩ := exists_units hclosed
  have htext : t.text = quote :: (us.flatMap StringUnit.text ++ [quote]) := by
    rw [hat.text, hscan, hlength, List.take_length_add_append]
    rfl
  have hbody : Escape.units (unquoted t.text) = us.map (fun u => (u.text, u.value)) := by
    rw [htext, unquoted, List.tail_cons, List.dropLast_concat]
    exact units_flatMap hus
  refine ⟨quote, us, front, after, hquote, htext, ?_, hat.lo, hus, hend, ?_, hbody, ?_⟩
  · rw [hat.eq, htext]
    simp
  · rw [← hunits, ← hlength, ← hclosed]
  · rw [stringValue, Escape.decode, hbody, List.flatMap_map]

/-- An octal escape sequence ends before a digit of another radix, and a surrogate is replaced. -/
theorem units_of_mem_replaced :
    let t : Token := ⟨.string, 0, [], "'\\1018\\uD800\\\n\\q'".toList⟩
    t ∈ tokensFrom .normal .none 0 (t.text ++ [';']) ∧ ∃ us : List StringUnit,
      stringValue t.text = us.flatMap (·.value.toList) ∧ us.map (fun u => (u.text, u.value)) =
        [("\\101".toList, some 'A'), (['8'], some '8'), ("\\uD800".toList, some Escape.replacement),
          ("\\\n".toList, none), ("\\q".toList, some 'q')] := by
  intro t
  have ht : t ∈ tokensFrom .normal .none 0 (t.text ++ [';']) := by decide +kernel
  obtain ⟨quote, us, front, after, -, -, -, -, -, -, -, hunits, hvalue⟩ := units_of_mem ht rfl
  exact ⟨ht, us, hvalue, hunits.symm.trans (by decide +kernel)⟩

end ScriptCheck
