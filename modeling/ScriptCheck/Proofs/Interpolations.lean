import Mathlib.Data.List.Infix
import ScriptCheck.Proofs.StringUnits

/-!
# Two readings of an interpolation

When a template is scanned, the bodies of its interpolations are skipped with all that is nested in
them (`skip?`). When the template is taken apart later, the bodies are found in a simpler way: what
stands between two quotes of one kind is left out, whatever it is, and the first brace that was not
opened closes the body. The two agree on a template if and only if all skipped bodies *read flat*:
without their quoted parts, their braces are balanced (`interpolationsFrom_eq_iff`).

Not all bodies do. In the simpler reading a template in a body ends at the next backtick, also if
that one opens a template in an interpolation of its own.
-/

namespace ScriptCheck

open List

open Text

variable {next : List Enclosure} {lo : Nat}

/-! ### What the scan of a template skips -/

/-- The text at which a scan that stands in some enclosures within the text of a template is back in
that text. Nothing, if all is read before. -/
def skip? : List Enclosure → List Char → Option (List Char)
  | [], cs => some cs
  | _ :: _, [] => none
  | .body braces :: outer, c :: rest => skip? (bodyStep braces outer c) rest
  | .quoted _ :: _, ['\\'] => none
  | .quoted quote :: outer, '\\' :: _ :: rest => skip? (.quoted quote :: outer) rest
  | .quoted quote :: outer, c :: rest =>
    skip? (if c = quote || c = '\n' then outer else .quoted quote :: outer) rest
  | .text :: outer, '`' :: rest => skip? outer rest
  | .text :: _, ['\\'] => none
  | .text :: outer, '\\' :: _ :: rest => skip? (.text :: outer) rest
  | .text :: outer, '$' :: '\x7b' :: rest => skip? (.body 0 :: .text :: outer) rest
  | .text :: outer, _ :: rest => skip? (.text :: outer) rest

theorem bodyStep_append (braces : Nat) (outer outer' : List Enclosure) (c : Char) :
    bodyStep braces (outer ++ outer') c = bodyStep braces outer c ++ outer' := by
  unfold bodyStep
  split <;> try rfl
  split <;> rfl

theorem LiteralEnd.note_false (e : LiteralEnd) : e.note false = e := by
  simp [LiteralEnd.note]

/-- A scan within the text of a template skips what the result says, or does not end. -/
def Skips (inner : List Enclosure) (cs : List Char) (result : Option (List Char)) : Prop :=
  (templateEnd (inner ++ [.text]) cs).malformed = none ∨
    ∃ rest n, result = some rest ∧ cs.length = n + rest.length ∧
      templateEnd (inner ++ [.text]) cs = (templateEnd [.text] rest).shift n

theorem Skips.step {inner : List Enclosure} {cs cs' : List Char} {result : Option (List Char)}
    {k : Nat} (h : Skips next cs' result) (hlength : cs.length = k + cs'.length)
    (hend : templateEnd (inner ++ [.text]) cs = (templateEnd (next ++ [.text]) cs').shift k) :
    Skips inner cs result := by
  obtain hnone | ⟨rest, n, hresult, hn, hnext⟩ := h
  · left
    rw [hend]
    exact hnone
  · refine .inr ⟨rest, k + n, hresult, by omega, ?_⟩
    rw [hend, hnext]
    simp only [LiteralEnd.shift, Nat.add_assoc, Nat.add_comm]

/-- The scan of a template passes over what `skip?` does, and then goes on in the template's
text. -/
theorem skips_skip? (inner : List Enclosure) (cs : List Char) :
    Skips inner cs (skip? inner cs) := by
  fun_induction skip? inner cs with
  | case1 cs => exact .inr ⟨cs, 0, rfl, (Nat.zero_add _).symm, rfl⟩
  | case2 | case4 | case8 => exact .inl rfl
  | case3 braces outer c rest ih =>
    refine ih.step (Nat.add_comm ..) ?_
    rw [cons_append, templateEnd, bodyStep_append]
  | case5 quote outer c rest ih => exact ih.step (Nat.add_comm rest.length 2) rfl
  | case6 quote outer c rest hlast hescape ih =>
    refine ih.step (Nat.add_comm ..) ?_
    rw [cons_append, templateEnd]
    · split <;> rfl
    · exact hlast
    · exact hescape
  | case7 outer rest ih =>
    refine ih.step (Nat.add_comm ..) ?_
    cases outer <;> rfl
  | case9 outer c rest ih =>
    refine ih.step (Nat.add_comm rest.length 2) ?_
    rw [cons_append, templateEnd]
    have hinner : (outer ++ [Enclosure.text]).isEmpty = false := by simp
    rw [hinner, Bool.false_and, LiteralEnd.note_false]
  | case10 outer rest ih => exact ih.step (Nat.add_comm rest.length 2) rfl
  | case11 outer c rest hquote hlast hescape hbody ih =>
    refine ih.step (Nat.add_comm ..) ?_
    rw [cons_append, templateEnd]
    · exact hquote
    · exact hlast
    · exact hescape
    · exact hbody

/-- The outermost enclosure, if there is one, is the body of an interpolation. -/
def InBody (inner : List Enclosure) : Prop :=
  ∀ outermost, inner.getLast? = some outermost → ∃ braces, outermost = .body braces

variable {e : Enclosure} {outer : List Enclosure} {braces : Nat}

theorem InBody.of_cons (h : InBody (e :: outer)) : InBody outer := by
  intro outermost hlast
  refine h outermost ?_
  rw [getLast?_cons, hlast]
  rfl

theorem InBody.cons (h : InBody outer) (hne : outer ≠ []) : InBody (e :: outer) := by
  intro outermost hlast
  refine h outermost ?_
  obtain ⟨e', outer', rfl⟩ := exists_cons_of_ne_nil hne
  rwa [getLast?_cons_cons] at hlast

theorem InBody.body (h : InBody outer) : InBody (.body braces :: outer) := by
  by_cases hne : outer = []
  · subst hne
    rintro _ ⟨⟩
    exact ⟨braces, rfl⟩
  · exact h.cons hne

/-- In a body, a string or a template is never all that is left. -/
theorem InBody.ne_nil (h : InBody (e :: outer)) (he : ∀ braces, e ≠ .body braces) : outer ≠ [] := by
  rintro rfl
  obtain ⟨braces, hbraces⟩ := h e rfl
  exact he braces hbraces

theorem inBody_bodyStep (h : InBody outer) (c : Char) : InBody (bodyStep braces outer c) := by
  unfold bodyStep
  split
  · exact h.body
  · split
    · exact h
    · exact h.body
  · exact h.body.cons (cons_ne_nil _ _)
  · exact h.body.cons (cons_ne_nil _ _)
  · exact h.body.cons (cons_ne_nil _ _)
  · exact h.body

theorem eq_brace_of_bodyStep {c : Char} (h : bodyStep braces outer c = []) : c = '\x7d' := by
  unfold bodyStep at h
  split at h <;> first | rfl | cases h

/-- The text at which a scan is back comes after the brace that closes the body. -/
theorem exists_of_skip? {inner : List Enclosure} {cs rest : List Char} (hinner : InBody inner)
    (hne : inner ≠ []) (h : skip? inner cs = some rest) : ∃ body, cs = body ++ '\x7d' :: rest := by
  fun_induction skip? inner cs with
  | case1 => exact absurd rfl hne
  | case2 | case4 | case8 => cases h
  | case3 braces outer c rest' ih =>
    by_cases hnext : bodyStep braces outer c = []
    · rw [hnext, skip?] at h
      cases h
      exact ⟨[], by rw [eq_brace_of_bodyStep hnext]; rfl⟩
    · obtain ⟨body, rfl⟩ := ih (inBody_bodyStep hinner.of_cons c) hnext h
      exact ⟨c :: body, rfl⟩
  | case5 quote outer c rest' ih =>
    obtain ⟨body, rfl⟩ := ih hinner hne h
    exact ⟨'\\' :: c :: body, rfl⟩
  | case6 quote outer c rest' _ _ ih =>
    have hnext := hinner.ne_nil (by simp)
    obtain ⟨body, rfl⟩ := ih (by split; exacts [hinner.of_cons, hinner])
      (by split; exacts [hnext, hne]) h
    exact ⟨c :: body, rfl⟩
  | case7 outer rest' ih =>
    obtain ⟨body, rfl⟩ := ih hinner.of_cons (hinner.ne_nil (by simp)) h
    exact ⟨'`' :: body, rfl⟩
  | case9 outer c rest' ih =>
    obtain ⟨body, rfl⟩ := ih hinner hne h
    exact ⟨'\\' :: c :: body, rfl⟩
  | case10 outer rest' ih =>
    obtain ⟨body, rfl⟩ := ih (hinner.cons hne) (cons_ne_nil _ _) h
    exact ⟨'$' :: '\x7b' :: body, rfl⟩
  | case11 outer c rest' _ _ _ _ ih =>
    obtain ⟨body, rfl⟩ := ih hinner hne h
    exact ⟨c :: body, rfl⟩

/-! ### Bodies that read flat -/

/-- A text without its quoted parts, each of which goes from a quote to the next one of its kind
that is not escaped; at the start of the text one may be open. Nothing, if one is open at the
end. -/
def withoutQuoted : Option Char → List Char → Option (List Char)
  | none, [] => some []
  | none, c :: rest =>
    if c = '"' || c = '\'' || c = '`' then withoutQuoted (some c) rest
    else (withoutQuoted none rest).map (c :: ·)
  | some _, [] => none
  | some _, ['\\'] => none
  | some quote, '\\' :: _ :: rest => withoutQuoted (some quote) rest
  | some quote, c :: rest => withoutQuoted (if c = quote then none else some quote) rest

/-- The braces of a text close those in it and as many before it: none is closed before it is open,
and none is left open. -/
structure Closes (braces : Nat) (cs : List Char) : Prop where
  opened : ∀ start, start <+: cs → start.count '\x7d' ≤ braces + start.count '\x7b'
  closed : cs.count '\x7d' = braces + cs.count '\x7b'

/-- Without their quoted parts, the braces of a body are balanced. -/
def ReadsFlat (body : List Char) : Prop :=
  ∃ plain, withoutQuoted none body = some plain ∧ Closes 0 plain

variable {braces : Nat} {cs rest : List Char} {stack : List Enclosure}

theorem closes_nil_iff : Closes braces [] ↔ braces = 0 := by
  refine ⟨fun h => by simpa using h.closed.symm, fun h => ⟨fun start hstart => ?_, by simp [h]⟩⟩
  rw [prefix_nil.mp hstart]
  exact Nat.zero_le _

theorem closes_cons_iff {c : Char} :
    Closes braces (c :: cs) ↔ [c].count '\x7d' ≤ braces + [c].count '\x7b' ∧
      Closes (braces + [c].count '\x7b' - [c].count '\x7d') cs := by
  have hcount (x : Char) (start : List Char) :
      (c :: start).count x = [c].count x + start.count x := by
    rw [← count_append, singleton_append]
  constructor
  · intro h
    have hfirst := h.opened [c] ⟨cs, rfl⟩
    refine ⟨hfirst, fun start hstart => ?_, ?_⟩
    · have hopened := h.opened (c :: start) (cons_prefix_cons.mpr ⟨rfl, hstart⟩)
      rw [hcount _ start, hcount _ start] at hopened
      omega
    · have hclosed := h.closed
      rw [hcount _ cs, hcount _ cs] at hclosed
      omega
  · rintro ⟨hfirst, h⟩
    refine ⟨fun start hstart => ?_, ?_⟩
    · obtain rfl | ⟨start', rfl, hstart'⟩ := prefix_cons_iff.mp hstart
      · exact Nat.zero_le _
      · have hopened := h.opened start' hstart'
        rw [hcount _ start', hcount _ start']
        omega
    · have hclosed := h.closed
      rw [hcount _ cs, hcount _ cs]
      omega

/-- The simple reading takes a body for what it is if and only if it reads flat. -/
theorem bodyLength_eq_iff {quote : Option Char} {body : List Char} (rest : List Char) :
    bodyLength braces quote (body ++ '\x7d' :: rest) = body.length ↔
      ∃ plain, withoutQuoted quote body = some plain ∧ Closes braces plain := by
  fun_induction withoutQuoted quote body generalizing braces with
  | case1 =>
    rw [nil_append, bodyLength]
    simp [closes_nil_iff]
  | case2 c body hquote ih =>
    have hopen : c ≠ '\x7b' := by rintro rfl; simp at hquote
    have hclose : c ≠ '\x7d' := by rintro rfl; simp at hquote
    rw [← ih, cons_append, bodyLength]
    simp [hopen, hclose, hquote]
  | case3 c body hquote ih =>
    -- a character that is not quoted closes at most what is open before it
    have hcons : (∃ plain, (withoutQuoted none body).map (c :: ·) = some plain ∧
          Closes braces plain) ↔
        [c].count '\x7d' ≤ braces + [c].count '\x7b' ∧
          bodyLength (braces + [c].count '\x7b' - [c].count '\x7d') none
            (body ++ '\x7d' :: rest) = body.length := by
      rw [ih]
      simp only [Option.map_eq_some_iff, exists_exists_and_eq_and, closes_cons_iff]
      exact exists_congr (fun _ => and_left_comm) |>.trans exists_and_left
    rw [hcons, cons_append, bodyLength]
    by_cases hopen : c = '\x7b'
    · subst hopen
      simp
    · by_cases hclose : c = '\x7d'
      · subst hclose
        by_cases hbraces : braces = 0
        · simp [hbraces]
        · simp [hbraces, Nat.one_le_iff_ne_zero]
      · simp [hopen, hclose, hquote]
  | case4 quote =>
    rw [nil_append, bodyLength]
    · simp
    all_goals simp
  | case5 quote => simp [bodyLength]
  | case6 quote c body ih =>
    rw [← ih]
    simp [bodyLength]
  | case7 quote c body hlast hescape ih =>
    have hc := ne_backslash hlast hescape
    rw [← ih, cons_append, bodyLength] <;> simp [hc]

/-! ### The bodies of a template -/

theorem inBody_singleton (braces : Nat) : InBody [.body braces] :=
  InBody.body (fun _ h => nomatch h)

/-- A skipped body, the brace that closes it and the rest make up the text. -/
theorem eq_append_of_skip? (h : skip? [.body 0] cs = some rest) :
    cs = cs.take (cs.length - rest.length - 1) ++ '\x7d' :: rest := by
  obtain ⟨body, rfl⟩ := exists_of_skip? (inBody_singleton 0) (cons_ne_nil _ _) h
  have hlength : (body ++ '\x7d' :: rest).length - rest.length - 1 = body.length := by
    rw [length_append, length_cons]
    omega
  rw [hlength, take_left]

theorem length_lt_of_skip? (h : skip? [.body 0] cs = some rest) : rest.length < cs.length := by
  have hlength := congrArg List.length (eq_append_of_skip? h)
  rw [length_append, length_cons] at hlength
  omega

/-- The bodies that the scan of a template skips, in a text that starts inside the template at
offset `lo`. Nothing, if the template is not closed. -/
def skippedFrom? (lo : Nat) (cs : List Char) : Option (List Excerpt) :=
  match cs with
  | [] => none
  | '`' :: _ => some []
  | ['\\'] => none
  | '\\' :: c :: rest => skippedFrom? (lo + bytes ['\\', c]) rest
  | '$' :: '\x7b' :: cs =>
    match _h : skip? [.body 0] cs with
    | none => none
    | some rest =>
      let body := cs.take (cs.length - rest.length - 1)
      (skippedFrom? (lo + 2 + bytes body + 1) rest).map (⟨lo + 2, body⟩ :: ·)
  | c :: rest => skippedFrom? (lo + bytes [c]) rest
termination_by cs.length
decreasing_by
  · simp only [length_cons]
    omega
  · have hlength := length_lt_of_skip? _h
    simp only [length_cons]
    omega
  · simp

/-- A template is closed at the end of a text that starts inside of it. -/
structure EndsTemplate (stack : List Enclosure) (cs : List Char) : Prop where
  closed : (templateEnd stack cs).malformed.isSome
  length : (templateEnd stack cs).length = cs.length

theorem EndsTemplate.later {k : Nat} (h : EndsTemplate stack cs)
    (hclosed : (templateEnd stack cs).malformed.isSome = (templateEnd next rest).malformed.isSome)
    (hend : (templateEnd stack cs).length = (templateEnd next rest).length + k)
    (hlength : cs.length = rest.length + k) : EndsTemplate next rest := by
  have hcs := h.length
  exact ⟨hclosed ▸ h.closed, by omega⟩

theorem templateEnd_quoted {quote c : Char} (hc : c ≠ '\\') (rest : List Char) :
    templateEnd (.quoted quote :: outer) (c :: rest) =
      (templateEnd (if c = quote || c = '\n' then outer else .quoted quote :: outer)
        rest).shift 1 := by
  rw [templateEnd] <;> simp [hc]

theorem templateEnd_text {c : Char} (hquote : c ≠ '`') (hescape : c ≠ '\\')
    (hbody : c = '$' → rest.head? ≠ some '\x7b') :
    templateEnd (.text :: outer) (c :: rest) = (templateEnd (.text :: outer) rest).shift 1 := by
  rw [templateEnd]
  · exact hquote
  · exact fun h => absurd h hescape
  · exact fun _ _ h => absurd h hescape
  · rintro rest hc rfl
    exact hbody hc rfl

/-- A template is closed by a backtick in a text, whatever stands behind that one. -/
def ClosesTemplate (stack : List Enclosure) (cs : List Char) : Prop :=
  ∃ body after, cs = body ++ '`' :: after ∧
    ∀ more, templateEnd stack (body ++ '`' :: more) = ⟨some false, body.length + 1⟩

theorem ClosesTemplate.prepend (h : ClosesTemplate next rest) (front : List Char)
    (hend : ∀ cs, templateEnd stack (front ++ cs) = (templateEnd next cs).shift front.length) :
    ClosesTemplate stack (front ++ rest) := by
  obtain ⟨body, after, rfl, hbody⟩ := h
  refine ⟨front ++ body, after, (append_assoc ..).symm, fun more => ?_⟩
  rw [append_assoc, hend, hbody, length_append, Nat.add_comm front.length,
    Nat.add_right_comm]
  rfl

theorem closesTemplate (h : (templateEnd stack cs).malformed = some false) :
    ClosesTemplate stack cs := by
  fun_induction templateEnd stack cs with
  | case1 | case2 | case4 | case9 => cases h
  | case7 rest => exact ⟨[], rest, rfl, fun _ => rfl⟩
  | case3 braces outer c rest ih => exact (ih h).prepend [c] fun _ => rfl
  | case5 quote outer c rest ih => exact (ih h).prepend ['\\', c] fun _ => rfl
  | case6 quote outer c rest hlast hescape ih =>
    exact (ih h).prepend [c] (templateEnd_quoted (ne_backslash hlast hescape))
  | case8 rest e outer ih => exact (ih h).prepend ['`'] fun _ => rfl
  | case10 outer c rest ih =>
    obtain ⟨hrest, hvalid⟩ : (templateEnd (.text :: outer) rest).malformed = some false ∧
        (outer.isEmpty && !Escape.isValid (c :: rest)) = false := by
      simpa [LiteralEnd.note, LiteralEnd.shift] using h
    obtain ⟨body, after, rfl, hend⟩ := ih hrest
    refine ⟨'\\' :: c :: body, after, rfl, fun more => ?_⟩
    have hnote : (outer.isEmpty && !Escape.isValid (c :: (body ++ '`' :: more))) = false := by
      rcases Bool.and_eq_false_iff.1 hvalid with hnone | hvalid
      · rw [hnone, Bool.false_and]
      · rw [Escape.isValid_append (by simpa using hvalid) rfl, Bool.not_true, Bool.and_false]
    simp [templateEnd, hend, hnote, LiteralEnd.note, LiteralEnd.shift]
  | case11 outer rest ih => exact (ih h).prepend ['$', '\x7b'] fun _ => rfl
  | case12 outer c rest hquote hlast hescape hbody ih =>
    obtain ⟨body, after, rfl, hend⟩ := ih h
    refine ⟨c :: body, after, rfl, fun more => ?_⟩
    have hopen : c = '$' → (body ++ '`' :: more).head? ≠ some '\x7b' := by
      cases body with
      | nil => simp
      | cons d body => exact fun hc hd => hbody (body ++ '`' :: after) hc (by simpa using hd)
    rw [cons_append, templateEnd_text hquote (ne_backslash hlast hescape) hopen, hend]
    rfl

/-- After a skipped body the template goes on to the same end. -/
theorem EndsTemplate.after_skip (h : EndsTemplate [.text] ('$' :: '\x7b' :: cs))
    (hskip : skip? [.body 0] cs = some rest) : EndsTemplate [.text] rest := by
  have hcs : EndsTemplate [.body 0, .text] cs := h.later rfl rfl rfl
  obtain hnone | ⟨_, n, hrest, hlength, hend⟩ := skips_skip? [.body 0] cs
  · have hclosed := hcs.closed
    rw [show (templateEnd [.body 0, .text] cs).malformed = none from hnone] at hclosed
    cases hclosed
  · rw [hskip] at hrest
    cases hrest
    refine hcs.later (congrArg (·.malformed.isSome) hend) (congrArg (·.length) hend) ?_
    omega

theorem interpolationsFrom_eq_iff (h : EndsTemplate [.text] cs) :
    ∃ bodies, skippedFrom? lo cs = some bodies ∧
      (interpolationsFrom lo cs = bodies ↔ ∀ e ∈ bodies, ReadsFlat e.text) := by
  fun_induction skippedFrom? lo cs with
  | case1 => exact absurd h.closed (by simp [templateEnd])
  | case2 lo rest =>
    have hrest : rest = [] := by simpa [templateEnd] using h.length
    subst hrest
    exact ⟨[], rfl, by simp [interpolationsFrom]⟩
  | case3 => exact absurd h.closed (by simp [templateEnd])
  | case4 lo c rest ih =>
    obtain ⟨bodies, hbodies, hiff⟩ := ih (h.later Option.isSome_map rfl rfl)
    refine ⟨bodies, hbodies, ?_⟩
    rw [interpolationsFrom, hiff]
  | case5 lo cs hskip =>
    obtain hnone | ⟨rest, _, hrest, -⟩ := skips_skip? [.body 0] cs
    · exact absurd h.closed (by simpa [templateEnd, LiteralEnd.shift] using hnone)
    · rw [hskip] at hrest
      cases hrest
  | case6 lo cs rest hskip body ih =>
    obtain ⟨bodies, hbodies, hiff⟩ := ih (h.after_skip hskip)
    refine ⟨⟨lo + 2, body⟩ :: bodies, by rw [hbodies]; rfl, ?_⟩
    have hcs : cs = body ++ '\x7d' :: rest := eq_append_of_skip? hskip
    have hflat : ReadsFlat body ↔ bodyLength 0 none cs = body.length := by
      rw [hcs]
      exact (bodyLength_eq_iff rest).symm
    rw [forall_mem_cons, ← hiff, hflat, interpolationsFrom]
    by_cases hlength : bodyLength 0 none cs = body.length
    · have htake : cs.take body.length = body := by rw [hcs, take_left]
      have hdrop : cs.drop (body.length + 1) = rest := by
        rw [hcs, ← drop_drop, drop_left]
        rfl
      simp only [hlength, htake, hdrop, List.cons.injEq, true_and]
    · refine iff_of_false (fun heq => hlength ?_) fun heq => hlength heq.1
      have htake : cs.take (bodyLength 0 none cs) = body :=
        congrArg Excerpt.text (List.cons.inj heq).1
      have hshort := congrArg List.length hcs
      have hmin := congrArg List.length htake
      rw [length_append, length_cons] at hshort
      rw [length_take] at hmin
      omega
  | case7 lo c rest hquote hlast hescape hbody ih =>
    have hend : templateEnd [.text] (c :: rest) = (templateEnd [.text] rest).shift 1 := by
      rw [templateEnd] <;> assumption
    obtain ⟨bodies, hbodies, hiff⟩ := ih (h.later (by rw [hend]; rfl) (by rw [hend]; rfl) rfl)
    refine ⟨bodies, hbodies, ?_⟩
    rw [interpolationsFrom, hiff] <;> assumption

/-! ### Templates of a script -/

/-- A template stands between two backticks, and ends at the second one. -/
theorem closedTemplate_of_mem {mode : LexMode} {before : Preceding} {t : Token}
    (ht : t ∈ tokensFrom mode before lo cs) (hkind : t.kind = .template) :
    ∃ body, t.text = '`' :: (body ++ ['`']) ∧ EndsTemplate [.text] (body ++ ['`']) := by
  obtain ⟨divides, front, c, rest, hat, rfl, hclosed, hscan⟩ :=
    found_of_mem ht (congrArg TokenKind.sort? hkind)
  obtain ⟨body, after, rfl, hend⟩ := closesTemplate hclosed
  refine ⟨body, ?_, by rw [hend]; rfl, by rw [hend, length_append]; rfl⟩
  rw [hat.text, hscan, hend, take_length_add_append]
  rfl

theorem endsTemplate_of_mem {mode : LexMode} {before : Preceding} {t : Token}
    (ht : t ∈ tokensFrom mode before lo cs) (hkind : t.kind = .template) :
    ∃ text, t.text = '`' :: text ∧ EndsTemplate [.text] text := by
  obtain ⟨body, htext, hends⟩ := closedTemplate_of_mem ht hkind
  exact ⟨_, htext, hends⟩

/-- The bodies that were skipped when a template was scanned. -/
def Token.skipped? (t : Token) : Option (List Excerpt) :=
  skippedFrom? (t.lo + bytes (t.text.take 1)) (t.text.drop 1)

/-- A template is taken apart into the bodies that were skipped when it was scanned if and only if
all of them read flat. -/
theorem interpolations_eq_skipped_iff {mode : LexMode} {before : Preceding} {lo : Nat}
    {cs : List Char} {t : Token} (ht : t ∈ tokensFrom mode before lo cs)
    (hkind : t.kind = .template) :
    ∃ bodies, t.skipped? = some bodies ∧
      (t.interpolations = bodies ↔ ∀ e ∈ bodies, ReadsFlat e.text) := by
  obtain ⟨text, htext, hends⟩ := endsTemplate_of_mem ht hkind
  have hdrop : t.text.drop 1 = text := by
    rw [htext]
    rfl
  rw [Token.skipped?, Token.interpolations, hdrop]
  exact interpolationsFrom_eq_iff hends

/-- Braces, strings and templates may be nested in a body. -/
theorem interpolations_eq_skipped_iff_nested :
    let source := "`$\x7b \x7b a: '\x7d' \x7d \x7d$\x7b `b$\x7bc\x7d` \x7d`".toList
    let t : Token := ⟨.template, 0, [], source⟩
    t ∈ tokenize .normal source ∧ t.kind = .template ∧
      ∃ bodies, t.skipped? = some bodies ∧
        (t.interpolations = bodies ↔ ∀ e ∈ bodies, ReadsFlat e.text) := by
  intro source t
  have ht : t ∈ tokenize .normal source := by decide +kernel
  exact ⟨ht, rfl, interpolations_eq_skipped_iff ht rfl⟩

/-- A template in an interpolation of a template in a body makes the two readings differ: the scan
skips the whole body, and the simpler reading ends it at the brace that closes nothing but the
interpolation inside. -/
theorem interpolations_ne_skipped_nested_templates :
    let source := "`$\x7b`$\x7b`\x7d`\x7d`\x7d`".toList
    let t : Token := ⟨.template, 0, [], source⟩
    t ∈ tokenize .normal source ∧
      t.skipped? = some [⟨3, "`$\x7b`\x7d`\x7d`".toList⟩] ∧
      t.interpolations = [⟨3, "`$\x7b`".toList⟩] := by
  decide +kernel

end ScriptCheck
