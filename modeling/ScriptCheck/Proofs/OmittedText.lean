import ScriptCheck.Proofs.Blanking
import ScriptCheck.Proofs.Dots
import ScriptCheck.Proofs.Omission

/-!
# Texts without a semicolon

The tokens of a text, and those of the text with a blank in the place of a semicolon, are related by
`Omission.Omits` (`Omission.omits_tokensFrom`). The semicolon and the token behind it stand next to
each other among the tokens or in an interpolation of a template (`Adjacent`).

The semicolon may decide how a slash further on is read: behind a dot, a keyword is a name, and a
slash behind it divides. So it must not follow a dot directly, as in no script without faults.
-/

namespace ScriptCheck

open List

open Text

variable {front back gap cs : List Char} {c : Char} {a b : Token} {mode : LexMode}
  {before : Preceding} {lo : Nat} {e : Excerpt}

/-! ### Interpolations -/

/-- An interpolation before the place of a semicolon ends before it. -/
theorem bodyLength_lt
    (h : bytes ((front ++ ';' :: back).take (bodyLength 0 none (front ++ ';' :: back))) <
      bytes front) :
    ∃ x y, front = x ++ '\x7d' :: y ∧ x.length = bodyLength 0 none (front ++ ';' :: back) := by
  have hclosed := drop_bodyLength 0 none (front ++ ';' :: back)
  generalize bodyLength 0 none (front ++ ';' :: back) = n at h hclosed ⊢
  have hlt : n < front.length := by
    by_contra hle
    rw [take_append, take_of_length_le (Nat.le_of_not_lt hle), bytes_append] at h
    omega
  rw [drop_append_of_le_length hlt.le, drop_eq_getElem_cons hlt] at hclosed
  obtain hnil | ⟨rest, hrest⟩ := hclosed
  · cases hnil
  · refine ⟨front.take n, front.drop (n + 1), ?_, length_take_of_le hlt.le⟩
    rw [← (List.cons.inj hrest).1, ← drop_eq_getElem_cons hlt, take_append_drop]

/-- The first interpolation, if it ends behind a certain character. -/
theorem interpolationsFrom_around (lo : Nat) {k : Nat}
    (h : bodyLength 0 none (front ++ c :: back) = front.length + k + 1) :
    interpolationsFrom lo ('$' :: '\x7b' :: (front ++ c :: back)) =
      ⟨lo + 2, front ++ c :: back.take k⟩ ::
        interpolationsFrom (lo + 2 + bytes (front ++ c :: back.take k) + 1) (back.drop (k + 1)) := by
  have htake : (front ++ c :: back).take (front.length + k + 1) = front ++ c :: back.take k := by
    rw [Nat.add_assoc, take_length_add_append, take_succ_cons]
  have hdrop : (front ++ c :: back).drop (front.length + k + 1 + 1) = back.drop (k + 1) := by
    rw [Nat.add_assoc, Nat.add_assoc, drop_length_add_append]
    rfl
  rw [interpolationsFrom]
  simp only [h, htake, hdrop]

/-- The first interpolation, if it ends before a certain brace. -/
theorem interpolationsFrom_before (lo : Nat)
    (h : bodyLength 0 none (front ++ '\x7d' :: back) = front.length) :
    interpolationsFrom lo ('$' :: '\x7b' :: (front ++ '\x7d' :: back)) =
      ⟨lo + 2, front⟩ :: interpolationsFrom (lo + 2 + bytes front + 1) back := by
  rw [interpolationsFrom]
  simp only [h, take_left, drop_length_add_append, drop_one, tail_cons]

/-- The interpolations of a template with a semicolon in one of them: the blank in its place stands
in that one too, and the others stay. -/
def PlacedIn (lo : Nat) (front back : List Char) (e : Excerpt) : Prop :=
  ∃ es fs x y, interpolationsFrom lo (front ++ ';' :: back) = es ++ e :: fs ∧
    e.text = x ++ ';' :: y ∧ e.lo + bytes x = lo + bytes front ∧
    interpolationsFrom lo (front ++ ' ' :: back) = es ++ ⟨e.lo, x ++ ' ' :: y⟩ :: fs

theorem le_of_mem_interpolationsFrom (he : e ∈ interpolationsFrom lo cs) : lo ≤ e.lo := by
  obtain ⟨before, -, -, hlo, -⟩ := mem_interpolationsFrom he
  omega

theorem add_bytes_append (lo : Nat) (start front : List Char) :
    lo + bytes (start ++ front) = lo + bytes start + bytes front := by
  rw [bytes_append, Nat.add_assoc]

theorem add_bytes_open (lo : Nat) (front : List Char) :
    lo + bytes ('$' :: '\x7b' :: front) = lo + 2 + bytes front :=
  add_bytes_append lo ['$', '\x7b'] front

theorem bodyLength_place (front back : List Char) :
    bodyLength 0 none (front ++ ' ' :: back) = bodyLength 0 none (front ++ ';' :: back) :=
  (Blanked.place front back).bodyLength_eq 0 fun q hq => absurd hq (Option.not_mem_none q)

/-- The semicolon is in the first interpolation. -/
theorem placedIn_first (lo : Nat) {body : List Char}
    (hbody : (front ++ ';' :: back).take (bodyLength 0 none (front ++ ';' :: back)) = body)
    (h : bytes front < bytes body) : PlacedIn lo ('$' :: '\x7b' :: front) back ⟨lo + 2, body⟩ := by
  have hlt : front.length < bodyLength 0 none (front ++ ';' :: back) := by
    by_contra hle
    have hsplit := congrArg bytes (take_append_drop
      (bodyLength 0 none (front ++ ';' :: back)) front)
    rw [bytes_append] at hsplit
    rw [← hbody, take_append_of_le_length (Nat.le_of_not_lt hle)] at h
    omega
  obtain ⟨k, hk⟩ := Nat.exists_eq_add_of_lt hlt
  have hplace : body = front ++ ';' :: back.take k := by
    rw [← hbody, hk, Nat.add_assoc, take_length_add_append, take_succ_cons]
  have hblank := interpolationsFrom_around lo ((bodyLength_place front back).trans hk)
  rw [(Blanked.place front (back.take k)).bytes_eq] at hblank
  exact ⟨[], _, front, back.take k, hplace ▸ interpolationsFrom_around lo hk, hplace,
    (add_bytes_open lo front).symm, hblank⟩

/-- The semicolon is behind the brace that closes the first interpolation. -/
theorem PlacedIn.behind {x y : List Char}
    (hx : bodyLength 0 none (x ++ '\x7d' :: (y ++ ';' :: back)) = x.length)
    (h : PlacedIn (lo + 2 + bytes x + 1) y back e) :
    PlacedIn lo ('$' :: '\x7b' :: (x ++ '\x7d' :: y)) back e := by
  obtain ⟨es, fs, x', y', heq, htext, hplace, heq'⟩ := h
  have hblank : bodyLength 0 none (x ++ '\x7d' :: (y ++ ' ' :: back)) = x.length := by
    have hlength := bodyLength_place (x ++ '\x7d' :: y) back
    rw [append_assoc, append_assoc, cons_append, cons_append] at hlength
    exact hlength.trans hx
  refine ⟨⟨lo + 2, x⟩ :: es, fs, x', y', ?_, htext, ?_, ?_⟩
  · rw [cons_append, cons_append, append_assoc, cons_append, interpolationsFrom_before lo hx, heq]
    rfl
  · have hbrace : ('\x7d' : Char).utf8Size = 1 := by decide
    rw [hplace, add_bytes_open, bytes_append, bytes_cons, hbrace]
    omega
  · rw [cons_append, cons_append, append_assoc, cons_append, interpolationsFrom_before lo hblank,
      heq']
    rfl

/-- The semicolon is behind some text that opens no interpolation. -/
theorem PlacedIn.after (start : List Char)
    (hstep : ∀ cs ∈ [front ++ ';' :: back, front ++ ' ' :: back],
      interpolationsFrom lo (start ++ cs) = interpolationsFrom (lo + bytes start) cs)
    (h : PlacedIn (lo + bytes start) front back e) : PlacedIn lo (start ++ front) back e := by
  obtain ⟨es, fs, x, y, heq, htext, hplace, heq'⟩ := h
  refine ⟨es, fs, x, y, ?_, htext, ?_, ?_⟩
  · rw [append_assoc, hstep _ (by simp), heq]
  · rw [hplace, add_bytes_append]
  · rw [append_assoc, hstep _ (by simp), heq']

theorem placedIn_of_mem (he : e ∈ interpolationsFrom lo (front ++ ';' :: back))
    (hlo : e.lo ≤ lo + bytes front) (hhi : lo + bytes front < e.lo + bytes e.text) :
    PlacedIn lo front back e := by
  generalize hcs : front ++ ';' :: back = cs at he
  fun_induction interpolationsFrom lo cs generalizing front with
  | case1 | case2 => simp at he
  | case3 lo c rest ih =>
    rcases front with _ | ⟨_, _ | ⟨_, front⟩⟩
    · cases hcs
    · cases hcs
      have hle := (le_of_mem_interpolationsFrom he).trans hlo
      exact absurd hle (Nat.not_le.2 (Nat.add_lt_add_left (by decide) lo))
    · cases hcs
      have hstart := add_bytes_append lo ['\\', c] front
      have hplaced := ih (hlo.trans_eq hstart) (hstart.ge.trans_lt hhi) rfl he
      refine hplaced.after ['\\', c] fun cs _ => ?_
      rw [cons_append, cons_append, nil_append, interpolationsFrom]
  | case4 lo rest body =>
    rename_i ih
    rcases front with _ | ⟨_, _ | ⟨_, front⟩⟩
    · cases hcs
    · cases hcs
    · simp only [cons_append, List.cons.injEq] at hcs
      obtain ⟨rfl, rfl, rfl⟩ := hcs
      rw [add_bytes_open] at hlo hhi
      rcases mem_cons.1 he with rfl | he
      · exact placedIn_first lo rfl (Nat.lt_of_add_lt_add_left hhi)
      · have hle := le_of_mem_interpolationsFrom he
        have hlt : bytes body < bytes front := by omega
        obtain ⟨x, y, rfl, hx⟩ := bodyLength_lt hlt
        have hbody : body = x := by
          simp only [body, ← hx]
          rw [append_assoc, take_left]
        have hdrop : (x ++ '\x7d' :: y ++ ';' :: back).drop
            (bodyLength 0 none (x ++ '\x7d' :: y ++ ';' :: back) + 1) = y ++ ';' :: back := by
          rw [← hx, append_assoc, drop_length_add_append]
          rfl
        have hbehind : lo + 2 + bytes (x ++ '\x7d' :: y) = lo + 2 + bytes x + 1 + bytes y := by
          simp only [bytes_append, bytes_cons, show ('\x7d' : Char).utf8Size = 1 by decide]
          omega
        rw [hbehind] at hlo hhi
        rw [hdrop, hbody] at ih he
        rw [append_assoc, cons_append] at hx
        exact (ih hlo hhi rfl he).behind hx.symm
  | case5 lo c rest hlast hescape hdollar ih =>
    cases front with
    | nil =>
      cases hcs
      have hle := (le_of_mem_interpolationsFrom he).trans hlo
      exact absurd hle (Nat.not_le.2 (Nat.add_lt_add_left (by decide) lo))
    | cons _ front =>
      cases hcs
      have hne : c ≠ '\\' := ne_backslash hlast hescape
      have hstart := add_bytes_append lo [c] front
      have hplaced := ih (hlo.trans_eq hstart) (hstart.ge.trans_lt hhi) rfl he
      refine hplaced.after [c] fun cs hcs => ?_
      rw [singleton_append, interpolationsFrom]
      · exact fun h => absurd h hne
      · exact fun _ _ h => absurd h hne
      · -- no brace is put in the place of the semicolon
        rintro rest hc rfl
        rcases mem_pair.1 hcs with hrest | hrest
        · exact hdollar _ hc hrest.symm
        · obtain ⟨_, hbrace⟩ := (hrest ▸ Blanked.place front back).eq_cons (by decide)
          exact hdollar _ hc hbrace

/-! ### Tokens next to each other -/

/-- The end is the only empty token of a text. -/
theorem eof_or_ne_nil_of_mem {t : Token} (ht : t ∈ tokensFrom mode before lo cs) :
    t.kind = .eof ∨ t.text ≠ [] := by
  obtain ⟨body, gap, heq, hbody⟩ := tokensFrom_eq_append mode before lo cs
  rw [heq, mem_append, mem_singleton] at ht
  rcases ht with ht | rfl
  · exact .inr (hbody t ht).2
  · exact .inl rfl

/-- Two tokens stand next to each other, among some tokens or in an interpolation of one of them. -/
inductive Adjacent (a b : Token) : List Token → Prop
  | here (ts : List Token) : Adjacent a b (a :: b :: ts)
  | inside {t : Token} {e : Excerpt} (ts : List Token) (hkind : t.kind = .template)
    (he : e ∈ t.interpolations) (h : Adjacent a b (tokensFrom .normal .none e.lo e.text)) :
    Adjacent a b (t :: ts)
  | later (t : Token) {ts : List Token} (h : Adjacent a b ts) : Adjacent a b (t :: ts)

theorem adjacent_cons_iff {t : Token} {ts : List Token} :
    Adjacent a b (t :: ts) ↔ (a = t ∧ ∃ us, ts = b :: us) ∨
      (t.kind = .template ∧ ∃ e ∈ t.interpolations,
        Adjacent a b (tokensFrom .normal .none e.lo e.text)) ∨ Adjacent a b ts := by
  constructor
  · rintro (us | ⟨_, hkind, he, h⟩ | ⟨_, h⟩)
    · exact .inl ⟨rfl, us, rfl⟩
    · exact .inr (.inl ⟨hkind, _, he, h⟩)
    · exact .inr (.inr h)
  · rintro (⟨rfl, us, rfl⟩ | ⟨hkind, e, he, h⟩ | h)
    · exact .here us
    · exact .inside ts hkind he h
    · exact .later t h

/-- The first of two such tokens lies where the tokens do, and is empty only if it is the end. -/
theorem Adjacent.within {ts : List Token} {lo hi : Nat} (h : Adjacent a b ts)
    (hts : ∀ t ∈ ts, lo ≤ t.lo ∧ t.span.hi ≤ hi ∧ (t.kind = .eof ∨ t.text ≠ [])) :
    lo ≤ a.lo ∧ a.span.hi ≤ hi ∧ (a.kind = .eof ∨ a.text ≠ []) := by
  induction h generalizing lo hi with
  | here => exact hts _ (mem_cons_self ..)
  | @inside t e ts hkind he _ ih =>
    have ht := hts t (mem_cons_self ..)
    obtain ⟨hstart, hend⟩ : t.lo ≤ e.lo ∧ e.lo + bytes e.text ≤ t.span.hi :=
      (Parser.inside_of_mem_interpolations he).1
    obtain ⟨hlo, hhi, hempty⟩ := ih fun u hu =>
      ⟨(mem_tokensFrom hu).1, (mem_tokensFrom hu).2.1, eof_or_ne_nil_of_mem hu⟩
    exact ⟨by omega, by omega, hempty⟩
  | later t _ ih => exact ih fun u hu => hts u (mem_cons_of_mem t hu)

theorem Adjacent.bounds (h : Adjacent a b (tokensFrom mode before lo cs)) :
    lo ≤ a.lo ∧ a.span.hi ≤ lo + bytes cs ∧ (a.kind = .eof ∨ a.text ≠ []) :=
  h.within fun _ ht => ⟨(mem_tokensFrom ht).1, (mem_tokensFrom ht).2.1, eof_or_ne_nil_of_mem ht⟩

/-! ### The first token of a text -/

/-- Only the latest token and whether a slash divides decide how a text is read. -/
theorem tokensFrom_congr {before' : Preceding} (hlast : before'.last = before.last)
    (hdivides : before'.divides = before.divides) :
    tokensFrom mode before' lo cs = tokensFrom mode before lo cs := by
  have hpush (kind : TokenKind) : before'.push kind = before.push kind := by
    rw [Preceding.push, hlast]
    rfl
  rcases skipped_or_append (lo == 0) cs with hskipped | ⟨gap, c, rest, rfl, hgap⟩
  · rw [tokensFrom_of_skipped hskipped, tokensFrom_of_skipped hskipped]
  · rw [tokensFrom_append hgap rfl, tokensFrom_append hgap rfl, hdivides, hpush]

theorem scan_semicolon (mode : LexMode) (divides : Bool) (cs : List Char) :
    scan mode divides ';' cs = (.punct .semicolon, 0) := by
  have hread : Punct.read? (';' :: cs) = some .semicolon := rfl
  change scanPunct.longest ';' cs = _
  rw [scanPunct.longest, hread]
  rfl

/-- No token that a semicolon may be left out before starts with a slash. -/
theorem delimits_scan_slash (mode : LexMode) (divides : Bool) (cs : List Char) :
    (scan mode divides '/' cs).1.delimits = false := by
  have hregexp : (scanRegexp cs).1.delimits = false := by
    unfold scanRegexp
    split
    · rfl
    · split
      · rfl
      · simp only
        split <;> rfl
  have hlongest : (scanPunct.longest '/' cs).1.delimits = false := by
    unfold scanPunct.longest
    split
    · next p hread =>
      -- the mark is no brace, since its text starts with a slash
      have hmatch := Punct.isPrefix_of_read? hread
      cases p with
      | rbrace => simp [Punct.lexeme] at hmatch
      | _ => rfl
    · rfl
  change (if _ then _ else if _ then scanRegexp cs else scanPunct.longest '/' cs).1.delimits = _
  split_ifs
  · rfl
  · exact hregexp
  · exact hlongest

/-- Such a token is read in the same way, whether or not a slash divides. -/
theorem scan_of_delimits {divides : Bool} (h : (scan mode divides c cs).1.delimits = true)
    (divides' : Bool) :
    scan mode divides' c cs = scan mode divides c cs := by
  have hne : c ≠ '/' := by
    rintro rfl
    rw [delimits_scan_slash] at h
    cases h
  unfold scan
  simp only [hne, decide_false, Bool.false_and]

/-! ### A blank in the place of a semicolon -/

/-- Whether the latest token is a dot. -/
def Preceding.afterDot (p : Preceding) : Bool := p.last.any TokenKind.isDot

/-- A slash behind a word is read in the same way, whether or not a semicolon stands before the
word. The exception is a word behind a dot, which names a property. -/
theorem Preceding.divides_push {p : Preceding} (hdot : p.afterDot = false) (k : TokenKind) :
    (p.push k).divides = ((p.push (.punct .semicolon)).push k).divides := by
  rcases p with ⟨_ | last, beforeLast⟩
  · rfl
  · have hne : (some last == some (.punct .dot)) = false ∧
        (some last == some (.punct .questionDot)) = false := by
      constructor <;> (rw [beq_eq_false_iff_ne]; rintro ⟨⟩; cases hdot)
    simp only [divides, push, hne]
    rfl

variable {o : Omission}

/-- A text from some offset on, with the semicolon and without it. -/
def Omission.OmitsText (o : Omission) (mode : LexMode) (before : Preceding) (lo : Nat)
    (cs cs' : List Char) : Prop :=
  ∃ ts ts' eof eof', tokensFrom mode before lo cs = ts ++ [eof] ∧
    tokensFrom mode before lo cs' = ts' ++ [eof'] ∧ eof.Alike eof' ∧ o.Omits ts ts'

/-- The semicolon is the first token of a text. -/
theorem Omission.omits_first {rest : List Token}
    (hgap : triviaLength (lo == 0) (gap ++ ';' :: back) = gap.length)
    (hdot : before.afterDot = false)
    (hsemi : o.semi = ⟨.punct .semicolon, lo + bytes gap, gap, [';']⟩)
    (hnext : tokensFrom mode (before.push (.punct .semicolon)) (lo + bytes gap + bytes [';']) back =
      o.next :: rest) :
    o.OmitsText mode before lo (gap ++ ';' :: back) (gap ++ ' ' :: back) := by
  have hfirst := tokensFrom_append hgap (scan_semicolon mode before.divides back)
  rw [take_zero, drop_zero, ← hsemi, hnext] at hfirst
  -- the gaps on both sides of the semicolon are one gap now
  have hskip : triviaLength (lo == 0) (gap ++ ' ' :: back) =
      gap.length + 1 + triviaLength (lo + bytes gap + bytes [';'] == 0) back := by
    have hfalse : (lo + bytes gap + bytes [';'] == 0) = false := by
      rw [beq_eq_false_iff_ne]
      exact Nat.succ_ne_zero _
    rw [hfalse, Blanked.triviaLength_place hgap, Nat.add_assoc]
  have hlo (cs : List Char) :
      lo + bytes (gap ++ ' ' :: cs) = lo + bytes gap + bytes [';'] + bytes cs := by
    have : (' ' : Char).utf8Size = 1 ∧ (';' : Char).utf8Size = 1 := by decide
    simp only [bytes_append, bytes_cons, bytes_nil]
    omega
  rcases skipped_or_append (lo + bytes gap + bytes [';'] == 0) back with
    hskipped | ⟨gap', c, cs, rfl, hgap'⟩
  · -- only the end is left
    obtain ⟨heof, hrest⟩ := List.cons.inj (hnext.symm.trans (tokensFrom_of_skipped hskipped mode _))
    have hskipped' : (gap ++ ' ' :: back).length ≤ triviaLength (lo == 0) (gap ++ ' ' :: back) := by
      rw [hskip, length_append, length_cons]
      omega
    refine ⟨[o.semi], [], o.next, _, by rw [hfirst, hrest]; rfl,
      tokensFrom_of_skipped hskipped' mode before, ?_, .here (.inr ⟨rfl, ?_⟩) .nil⟩
    · rw [heof]
      exact ⟨rfl, hlo back, rfl, fun hcloses => by cases hcloses⟩
    · rw [heof]
  · obtain ⟨hhead, hrest⟩ := List.cons.inj (hnext.symm.trans (tokensFrom_append hgap' rfl))
    have hdelimits :
        (scan mode (before.push (.punct .semicolon)).divides c cs).1.delimits = true := by
      have hdelimits := o.delimits
      rw [hhead] at hdelimits
      exact hdelimits
    have hskip' : triviaLength (lo == 0) (gap ++ ' ' :: gap' ++ c :: cs) =
        (gap ++ ' ' :: gap').length := by
      rw [append_assoc, cons_append, hskip, hgap', length_append, length_cons]
      omega
    have htail {k : TokenKind} {start : Nat} {ds : List Char} :
        tokensFrom mode (before.push k) start ds =
          tokensFrom mode ((before.push (.punct .semicolon)).push k) start ds :=
      tokensFrom_congr rfl (Preceding.divides_push hdot k)
    have hscan := scan_of_delimits hdelimits before.divides
    have hblank := tokensFrom_append hskip' hscan
    rw [hlo, htail, ← hrest, append_assoc, cons_append] at hblank
    obtain ⟨body, eofGap, hbody, -⟩ := tokensFrom_eq_append mode
      ((before.push (.punct .semicolon)).push _) _ (cs.drop _)
    rw [← hrest] at hbody
    refine ⟨o.semi :: o.next :: body, _ :: body, _, _, by rw [hfirst, hbody]; rfl,
      by rw [hblank, hbody]; rfl, .refl _,
      .here (.inl rfl) (.cons ?_ (forall₂_same.2 fun t _ => .refl t))⟩
    have hstarts := o.starts
    rw [hhead] at hstarts ⊢
    refine ⟨rfl, rfl, rfl, fun hcloses => ?_⟩
    have hline := (hstarts hcloses).2
    rw [hline]
    exact contains_iff_mem.2 (mem_append_right _
      (mem_cons_of_mem _ (contains_iff_mem.1 hline)))

/-- A slash that does not divide takes a semicolon behind it into a regular expression. -/
theorem scan_slash_pos (mode : LexMode) (cs : List Char) :
    0 < (scan mode false '/' (';' :: cs)).2 := by
  have hlength : regexpLength? false (';' :: cs) = (regexpLength? false cs).map (· + 1) := rfl
  change 0 < (scanRegexp (';' :: cs)).2
  unfold scanRegexp
  rw [if_neg (by simp [startsWith, isBlank]), hlength]
  cases regexpLength? false cs with
  | none => exact Nat.succ_pos _
  | some n => exact Nat.add_pos_left n.succ_pos _

/-- The semicolon stands behind the first token of a text. -/
theorem Omission.omits_behind {text : List Char} {kind : TokenKind}
    (hgap : triviaLength (lo == 0) (gap ++ c :: (text ++ (front ++ ';' :: back))) = gap.length)
    (hscan : scan mode before.divides c (text ++ (front ++ ';' :: back)) = (kind, text.length))
    (hrest : o.OmitsText mode (before.push kind) (lo + bytes gap + bytes (c :: text))
      (front ++ ';' :: back) (front ++ ' ' :: back)) :
    o.OmitsText mode before lo (gap ++ c :: (text ++ (front ++ ';' :: back)))
      (gap ++ c :: (text ++ (front ++ ' ' :: back))) := by
  have hblanked := (Blanked.refl text).append (.place front back)
  obtain ⟨ts, ts', eof, eof', htokens, htokens', heof, homits⟩ := hrest
  have hfirst := tokensFrom_append hgap hscan
  have hfirst' := tokensFrom_append (hblanked.triviaLength_eq hgap)
    ((hblanked.scan_eq mode before.divides ?_).trans hscan)
  · rw [take_left, drop_left, htokens] at hfirst
    rw [take_left, drop_left, htokens'] at hfirst'
    exact ⟨_ :: ts, _ :: ts', eof, eof', hfirst, hfirst', heof, .later (.refl _) homits⟩
  · rintro rfl hdivides
    cases text with
    | cons => rfl
    | nil =>
      cases front with
      | cons => rfl
      | nil =>
        -- a regular expression would start here
        have hpos := scan_slash_pos mode back
        rw [hdivides] at hscan
        simp only [nil_append] at hscan
        rw [hscan] at hpos
        cases hpos

/-- The semicolon stands in an interpolation of the first token of a text. -/
theorem Omission.omits_inside {rest : List Char} {n : Nat}
    (hgap : triviaLength (lo == 0) (gap ++ '`' :: (front ++ ';' :: (back ++ rest))) = gap.length)
    (hscan : scan mode before.divides '`' (front ++ ';' :: (back ++ rest)) = (.template, n))
    (htext : (front ++ ';' :: (back ++ rest)).take n = front ++ ';' :: back)
    (he : e ∈ interpolationsFrom (lo + bytes gap + bytes ['`']) (front ++ ';' :: back))
    (hlo : e.lo ≤ lo + bytes gap + bytes ['`'] + bytes front)
    (hhi : lo + bytes gap + bytes ['`'] + bytes front < e.lo + bytes e.text)
    (hinner : ∀ x y, e.text = x ++ ';' :: y →
      e.lo + bytes x = lo + bytes gap + bytes ['`'] + bytes front →
      o.OmitsText .normal .none e.lo (x ++ ';' :: y) (x ++ ' ' :: y)) :
    o.OmitsText mode before lo (gap ++ '`' :: (front ++ ';' :: (back ++ rest)))
      (gap ++ '`' :: (front ++ ' ' :: (back ++ rest))) := by
  have hblanked := Blanked.place front (back ++ rest)
  obtain ⟨es, fs, x, y, hes, hbody, hplace, hes'⟩ := placedIn_of_mem he hlo hhi
  obtain ⟨inner, inner', eof, eof', hinner, hinner', heof, homits⟩ := hinner x y hbody hplace
  have hfirst := tokensFrom_append hgap hscan
  have hfirst' := tokensFrom_append (hblanked.triviaLength_eq hgap)
    ((hblanked.scan_eq mode before.divides fun h => absurd h (by decide)).trans hscan)
  -- nothing is left behind the token, or it is as long as its text
  have hlength : n = (front ++ ';' :: back).length ∨
      rest = [] ∧ (front ++ ';' :: back).length ≤ n := by
    have hmin := congrArg List.length htext
    rw [← length_eq_zero_iff]
    simp only [length_take, length_append, length_cons] at hmin ⊢
    omega
  have htake (c : Char) : (front ++ c :: (back ++ rest)).take n = front ++ c :: back ∧
      (front ++ c :: (back ++ rest)).drop n = rest := by
    have hlen : (front ++ c :: back).length = (front ++ ';' :: back).length := by simp
    rw [← cons_append, ← append_assoc]
    rcases hlength with rfl | ⟨rfl, hle⟩
    · rw [← hlen, take_left, drop_left]
      exact ⟨rfl, rfl⟩
    · rw [append_nil, take_of_length_le (hlen ▸ hle), drop_of_length_le (hlen ▸ hle)]
      exact ⟨rfl, rfl⟩
  -- both tokens end at the same offset, so all tokens behind them are the same
  have hbytes : bytes ('`' :: (front ++ ' ' :: back)) = bytes ('`' :: (front ++ ';' :: back)) := by
    rw [bytes_cons, bytes_cons, (Blanked.place front back).bytes_eq]
  obtain ⟨body, eofGap, hrest, -⟩ := tokensFrom_eq_append mode (before.push .template)
    (lo + bytes gap + bytes ('`' :: (front ++ ';' :: back))) rest
  rw [(htake _).1, (htake _).2, hrest] at hfirst
  rw [(htake _).1, (htake _).2, hbytes, hrest] at hfirst'
  refine ⟨_ :: body, _ :: body, _, _, hfirst, hfirst', .refl _, .template rfl rfl rfl hes hes' ?_
    hinner' heof homits (forall₂_same.2 fun t _ => .refl t)⟩
  rw [hbody]
  exact hinner

theorem eq_backtick_of_scan {divides : Bool} {n : Nat}
    (h : scan mode divides c cs = (.template, n)) : c = '`' := by
  have hsort : (scan mode divides c cs).1.sort? = some .template := by
    rw [h]
    rfl
  exact (found_scan hsort).1

/-- The place of a semicolon behind the first token of a text, which has `n` characters more than
its first one. -/
theorem exists_place_behind {n : Nat} (heq : front ++ ';' :: back = gap ++ c :: cs)
    (hle : bytes (gap ++ c :: cs.take n) ≤ bytes front) :
    ∃ text part, front = gap ++ c :: (text ++ part) ∧ cs = text ++ (part ++ ';' :: back) ∧
      n = text.length := by
  have hparts : gap ++ c :: cs.take n ++ cs.drop n = front ++ ';' :: back := by
    rw [heq, append_assoc, cons_append, take_append_drop]
  obtain ⟨part, hfront, hpart⟩ := exists_eq_append hparts hle
  refine ⟨cs.take n, part, by rw [hfront, append_assoc, cons_append], ?_, ?_⟩
  · rw [← hpart, take_append_drop]
  · have hlength := congrArg List.length hpart
    simp only [length_drop, length_append, length_cons, length_take] at hlength ⊢
    omega

/-- The place of a semicolon in the first token of a text, between its first character and its
end. -/
theorem exists_place_inside {n : Nat} (heq : front ++ ';' :: back = gap ++ c :: cs)
    (hle : bytes (gap ++ [c]) ≤ bytes front)
    (hlt : bytes front < bytes (gap ++ [c]) + bytes (cs.take n)) :
    ∃ part text rest, front = gap ++ c :: part ∧ back = text ++ rest ∧
      cs = part ++ ';' :: (text ++ rest) ∧ cs.take n = part ++ ';' :: text := by
  have hparts : gap ++ [c] ++ cs = front ++ ';' :: back := by
    rw [heq, append_assoc, singleton_append]
  obtain ⟨part, rfl, rfl⟩ := exists_eq_append hparts hle
  rw [bytes_append, Nat.add_lt_add_iff_left] at hlt
  obtain ⟨text, htext, hrest⟩ := exists_eq_append
    (take_append_drop n (part ++ ';' :: back)).symm hlt.le
  cases text with
  | nil =>
    rw [htext, append_nil] at hlt
    exact absurd hlt (Nat.lt_irrefl _)
  | cons d text =>
    rw [cons_append] at hrest
    obtain ⟨rfl, hback⟩ := List.cons.inj hrest
    exact ⟨part, text, _, by rw [append_assoc, singleton_append], hback, by rw [← hback], htext⟩

/-- The tokens of a text with a semicolon, and those of the text with a blank in its place. -/
theorem Omission.omits_tokensFrom
    (h : Adjacent o.semi o.next (tokensFrom mode before lo (front ++ ';' :: back)))
    (hlo : o.semi.lo = lo + bytes front)
    (hdots : DotsNamed before.afterDot (tokensFrom mode before lo (front ++ ';' :: back))) :
    o.OmitsText mode before lo (front ++ ';' :: back) (front ++ ' ' :: back) := by
  induction hn : (front ++ ';' :: back).length using Nat.strongRecOn
    generalizing mode before lo front back with
  | _ n ih =>
    subst hn
    rcases skipped_or_append (lo == 0) (front ++ ';' :: back) with
      hskipped | ⟨gap, c, cs, heq, hgap⟩
    · rw [tokensFrom_of_skipped hskipped, adjacent_cons_iff] at h
      rcases h with ⟨-, us, ⟨⟩⟩ | ⟨⟨⟩, -⟩ | ⟨⟨⟩⟩
    · obtain ⟨kind, n, hscan⟩ : ∃ kind n, scan mode before.divides c cs = (kind, n) := ⟨_, _, rfl⟩
      have hsplit := tokensFrom_append (heq ▸ hgap) hscan
      rw [← heq] at hsplit
      rw [hsplit, adjacent_cons_iff] at h
      rw [hsplit, dotsNamed_cons_iff] at hdots
      obtain ⟨hname, hinner, hdots⟩ := hdots
      rcases h with ⟨hfirst, ts, hnext⟩ | ⟨hkind, e, he, h⟩ | h
      · -- the first token is the semicolon
        have hbytes : bytes gap = bytes front := by
          rw [hfirst] at hlo
          exact Nat.add_left_cancel hlo
        obtain ⟨part, rfl, hpart⟩ := exists_eq_append heq.symm hbytes.le
        obtain rfl : part = [] := by
          rw [bytes_append] at hbytes
          exact bytes_eq_zero.1 (by omega)
        obtain ⟨rfl, rfl⟩ := List.cons.inj hpart
        obtain ⟨rfl, rfl⟩ := Prod.mk.inj (hscan.symm.trans (scan_semicolon mode _ _))
        rw [append_nil] at hgap ⊢
        have hdot : before.afterDot = false := by
          refine Bool.eq_false_iff.2 fun hdot => ?_
          rcases hname hdot with hlabel | hword
          · cases hlabel
          · cases hword
        exact omits_first hgap hdot hfirst hnext
      · -- it is in an interpolation of the first token
        obtain rfl : kind = .template := hkind
        obtain rfl : c = '`' := eq_backtick_of_scan hscan
        have hnamed := hinner rfl e he
        replace he : e ∈ interpolationsFrom (lo + bytes gap + bytes ['`']) (cs.take n) := he
        obtain ⟨hle, hlt, hempty⟩ := h.bounds
        obtain ⟨x, y, hbody, hstart, -⟩ := mem_interpolationsFrom he
        have hpos : 0 < bytes o.semi.text := by
          refine Nat.pos_of_ne_zero (mt bytes_eq_zero.1 (hempty.resolve_left ?_))
          rw [o.isSemicolon]
          nofun
        rw [Token.hi_span] at hlt
        have hbytes := congrArg bytes hbody
        simp only [bytes_append] at hbytes
        obtain ⟨part, text, rest, rfl, rfl, rfl, htext⟩ := exists_place_inside (n := n) heq
          (by rw [bytes_append]; omega) (by rw [bytes_append]; omega)
        rw [heq] at hgap
        rw [htext] at he hbody
        have hplace : o.semi.lo = lo + bytes gap + bytes ['`'] + bytes part := by
          rw [hlo, bytes_append, bytes_cons, bytes_cons, bytes_nil]
          omega
        have hwhole := omits_inside (o := o) hgap hscan htext he (hplace ▸ hle) (by omega) ?_
        · simpa only [append_assoc, cons_append] using hwhole
        · intro x' y' hexcerpt hx'
          have hshort : e.text.length < (gap ++ '`' :: part ++ ';' :: (text ++ rest)).length := by
            have hlength := congrArg List.length hbody
            simp only [length_append, length_cons] at hlength ⊢
            omega
          rw [hexcerpt] at h hshort hnamed
          exact ih _ hshort h (by omega) hnamed rfl
      · -- it is behind the first token
        obtain ⟨hle, -⟩ := h.bounds
        obtain ⟨text, part, rfl, rfl, rfl⟩ := exists_place_behind (n := n) heq
          (by rw [bytes_append]; omega)
        rw [take_left, drop_left] at h hdots
        have hplace : o.semi.lo = lo + bytes gap + bytes (c :: text) + bytes part := by
          rw [hlo, bytes_append, bytes_cons, bytes_cons, bytes_append]
          omega
        have hrest := ih _ (by simp only [length_append, length_cons]; omega) h hplace
          hdots rfl
        rw [heq] at hgap
        have hwhole := omits_behind hgap hscan hrest
        simpa only [append_assoc, cons_append] using hwhole

end ScriptCheck
