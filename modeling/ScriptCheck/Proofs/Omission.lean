import Mathlib.Data.List.Forall2
import ScriptCheck.Proofs.LayoutProgram

/-!
# Reading without a semicolon

A semicolon is left out before a token that starts a statement on a new line or closes a list of
statements (`Omission`), in a script or in an interpolation of one of its templates. The tokens of
both texts are related by `Omission.Omits`: up to the place of the semicolon they are alike, and
behind it too.

Two states are *parallel* if the first one stands in the tokens with the semicolon, without a fault,
and the second one stands at the same place in the tokens without it (`Parallel`). Its faults are
those of the first state as long as the place is ahead. Behind it they are those of the omission: the
one that the semicolon is missing, or none before a token that closes a list. The only states in
which the current tokens differ are those at the place itself (`AtGap`), and most tests of reading
do not tell a semicolon from the tokens it may be left out before (`Parallel.kind_congr`).
-/

namespace ScriptCheck

open List

open Text

variable {k : TokenKind}

/-! ### Tokens -/

/-- Whether a statement may end before a token without a semicolon, with or without a fault: the
token starts a statement or closes a list of statements. -/
def TokenKind.delimits (k : TokenKind) : Bool := k.startsStatement || k.closesBlock

theorem TokenKind.closesBlock_of_startsStatement (h : k.startsStatement = true) :
    k.closesBlock = false := by
  cases k with
  | keyword w => cases w <;> first | rfl | cases h
  | _ => cases h

theorem TokenKind.closesBlock_of_not_delimits (h : k.delimits = false) : k.closesBlock = false :=
  (Bool.or_eq_false_iff.1 h).2

/-- Tokens that differ at most in the text skipped before them. Both or none stand on a new line,
unless they close a list of statements. -/
structure Token.Alike (t t' : Token) : Prop where
  kind : t'.kind = t.kind
  lo : t'.lo = t.lo
  text : t'.text = t.text
  onNewLine : t.kind.closesBlock = false → t'.onNewLine = t.onNewLine

namespace Token.Alike

variable {t t' : Token}

theorem refl (t : Token) : t.Alike t := ⟨rfl, rfl, rfl, fun _ => rfl⟩

theorem span (h : t.Alike t') : t'.span = t.span := by
  unfold Token.span
  rw [h.lo, h.text]

theorem word (h : t.Alike t') : t'.word = t.word := by
  unfold Token.word
  rw [h.text]

theorem ident (h : t.Alike t') : t'.ident = t.ident := by
  unfold Token.ident
  rw [h.word, h.span]

theorem interpolations (h : t.Alike t') : t'.interpolations = t.interpolations := by
  unfold Token.interpolations
  rw [h.lo, h.text]

end Token.Alike

/-- The kind of the first of some tokens; behind the last one stands the end. -/
def firstKind : List Token → TokenKind
  | [] => .eof
  | t :: _ => t.kind

theorem headD_kind {eof : Token} (heof : eof.kind = .eof) (ts : List Token) :
    (ts.headD eof).kind = firstKind ts := by
  cases ts with
  | nil => exact heof
  | cons => rfl

theorem firstKind_of_alike {ts ts' : List Token} (h : List.Forall₂ Token.Alike ts ts') :
    firstKind ts' = firstKind ts := by
  cases h with
  | nil => rfl
  | cons ht => exact ht.kind

/-- A semicolon and the token behind it, which starts a statement on a new line or closes a list of
statements. -/
structure Omission where
  semi : Token
  next : Token
  isSemicolon : semi.kind = .punct .semicolon
  ends : (next.kind.startsStatement = true ∧ next.onNewLine = true) ∨ next.kind.closesBlock = true

namespace Omission

theorem delimits (o : Omission) : o.next.kind.delimits = true := by
  rw [TokenKind.delimits, Bool.or_eq_true]
  exact o.ends.imp_left And.left

theorem starts (o : Omission) (h : o.next.kind.closesBlock = false) :
    o.next.kind.startsStatement = true ∧ o.next.onNewLine = true :=
  o.ends.resolve_right (by simp [h])

/-- The faults of a script without the semicolon: it is missing, unless the token behind it closes a
list of statements. -/
def faults (o : Omission) : List (Located SyntaxError) :=
  if o.next.kind.closesBlock then []
  else [⟨o.next.span, .expected [.punct .semicolon] o.next.kind⟩]

/-- The tokens behind the semicolon begin with the one that is known; this may be the end. -/
def Behind (o : Omission) (ts : List Token) : Prop :=
  ts.head? = some o.next ∨ (ts = [] ∧ o.next.kind = .eof)

/-- Tokens with the semicolon and without it. It may stand in an interpolation of a template, which
is then read from another text. -/
inductive Omits (o : Omission) : List Token → List Token → Prop
  | here {ts ts' : List Token} (hnext : o.Behind ts) (hts : List.Forall₂ Token.Alike ts ts') :
    Omits o (o.semi :: ts) ts'
  | template {t t' eof eof' : Token} {e e' : Excerpt} {es fs : List Excerpt}
    {inner inner' ts ts' : List Token} (hkind : t.kind = .template) (hkind' : t'.kind = .template)
    (hline : t'.onNewLine = t.onNewLine) (hes : t.interpolations = es ++ e :: fs)
    (hes' : t'.interpolations = es ++ e' :: fs)
    (hinner : tokensFrom .normal .none e.lo e.text = inner ++ [eof])
    (hinner' : tokensFrom .normal .none e'.lo e'.text = inner' ++ [eof'])
    (heof : eof.Alike eof') (h : Omits o inner inner') (hts : List.Forall₂ Token.Alike ts ts') :
    Omits o (t :: ts) (t' :: ts')
  | later {t t' : Token} {ts ts' : List Token} (ht : t.Alike t') (h : Omits o ts ts') :
    Omits o (t :: ts) (t' :: ts')

/-- Tokens that follow in the two readings: the place is ahead, or it is passed. -/
def Follow (o : Omission) (ts ts' : List Token) : Prop :=
  o.Omits ts ts' ∨ List.Forall₂ Token.Alike ts ts'

variable {o : Omission} {ts ts' : List Token}

theorem Behind.firstKind (h : o.Behind ts) : firstKind ts = o.next.kind := by
  rcases h with h | ⟨rfl, hkind⟩
  · cases ts with
    | nil => cases h
    | cons t ts => rw [ScriptCheck.firstKind, Option.some.inj h]
  · exact hkind.symm

theorem Omits.ne_nil (h : o.Omits ts ts') : ts ≠ [] := by
  cases h <;> simp

/-- At the end of the tokens with the semicolon, none is left of those without it. -/
theorem Follow.eq_nil (h : o.Follow ts ts') (hnil : ts = []) : ts' = [] := by
  subst hnil
  rcases h with h | h
  · exact absurd rfl h.ne_nil
  · cases h
    rfl

/-- The first of the tokens that follow are of one kind, or the first one is the semicolon and the
second one is the token behind it. -/
theorem Follow.kind_cases (h : o.Follow ts ts') :
    firstKind ts' = firstKind ts ∨
      (firstKind ts = .punct .semicolon ∧ firstKind ts' = o.next.kind) := by
  rcases h with h | h
  · cases h with
    | here hnext hts =>
      exact .inr ⟨o.isSemicolon, (firstKind_of_alike hts).trans hnext.firstKind⟩
    | template hkind hkind' => exact .inl (hkind'.trans hkind.symm)
    | later ht => exact .inl ht.kind
  · exact .inl (firstKind_of_alike h)

/-- What tells a token that the semicolon may be left out before from a semicolon in no case, tells
the first of the tokens that follow from each other in no case. -/
theorem Follow.kind_congr {β : Type} (h : o.Follow ts ts') {f : TokenKind → β}
    (hf : ∀ k : TokenKind, k.delimits = true → f k = f (.punct .semicolon)) :
    f (firstKind ts') = f (firstKind ts) := by
  rcases h.kind_cases with heq | ⟨hsemi, hnext⟩
  · rw [heq]
  · rw [hsemi, hnext]
    exact hf _ o.delimits

/-- Unless the first token is the semicolon, the tokens behind the first ones follow too. -/
theorem Follow.tail (h : o.Follow ts ts') (hne : firstKind ts ≠ .punct .semicolon) :
    o.Follow ts.tail ts'.tail := by
  rcases h with h | h
  · cases h with
    | here => exact absurd o.isSemicolon hne
    | template _ _ _ _ _ _ _ _ _ hts => exact .inr hts
    | later _ h => exact .inl h
  · cases h with
    | nil => exact .inr .nil
    | cons _ hts => exact .inr hts

/-- Kinds that are neither a semicolon nor one that it may be left out before. -/
def Common (k : TokenKind) : Prop := k ≠ .punct .semicolon ∧ k.delimits = false

instance (k : TokenKind) : Decidable (Common k) := inferInstanceAs (Decidable (_ ∧ _))

/-- A test for a common kind fails for a semicolon and for the token behind it. -/
theorem Common.beq_congr (hk : Common k) {l : TokenKind}
    (hl : l.delimits = true) : (l == k) = (TokenKind.punct .semicolon == k) := by
  rw [beq_eq_false_iff_ne.2 hk.1.symm, beq_eq_false_iff_ne]
  rintro rfl
  exact absurd hl (by simp [hk.2])

/-- Whether tokens begin with some kinds; behind the last one stands the end. -/
def beginsWith : List TokenKind → List Token → Bool
  | [], _ => true
  | k :: ks, ts => firstKind ts == k && beginsWith ks ts.tail

theorem Follow.beginsWith (h : o.Follow ts ts') {ks : List TokenKind}
    (hks : ∀ k ∈ ks, Common k) : beginsWith ks ts' = beginsWith ks ts := by
  induction ks generalizing ts ts' with
  | nil => rfl
  | cons k ks ih =>
    obtain ⟨hk, hks⟩ := forall_mem_cons.1 hks
    have hhead := h.kind_congr (f := (· == k)) fun l hl => hk.beq_congr hl
    rw [Omission.beginsWith, Omission.beginsWith, hhead]
    by_cases hkind : firstKind ts = k
    · rw [ih (h.tail (hkind ▸ hk.1)) hks]
    · rw [beq_eq_false_iff_ne.2 hkind, Bool.false_and, Bool.false_and]

/-- Tokens of common kinds may be passed over in both readings. -/
theorem Follow.dropWhile (h : o.Follow ts ts') {p : TokenKind → Bool}
    (hp : ∀ k, p k = true → Common k) :
    o.Follow (ts.dropWhile fun t => p t.kind) (ts'.dropWhile fun t => p t.kind) := by
  have hfalse {k : TokenKind} (hk : ¬Common k) : p k = false :=
    Bool.eq_false_iff.2 fun h => hk (hp k h)
  have hsemi : p (.punct .semicolon) = false := hfalse fun hcommon => hcommon.1 rfl
  have hsame {us us' : List Token} (h : o.Follow us us') :
      p (firstKind us') = p (firstKind us) := by
    refine h.kind_congr fun k hk => ?_
    rw [hsemi, hfalse fun hcommon => by simp [hcommon.2] at hk]
  have heof : p .eof = false := hfalse (by decide)
  induction ts generalizing ts' with
  | nil =>
    obtain rfl := h.eq_nil rfl
    exact h
  | cons t ts ih =>
    cases hpt : p t.kind with
    | false =>
      -- nothing is passed over in the other tokens either
      rw [dropWhile_cons_of_neg (by simp [hpt])]
      cases ts' with
      | nil => exact h
      | cons t' ts' =>
        have hpt' : p t'.kind = false := (hsame h).trans hpt
        rwa [dropWhile_cons_of_neg (by simp [hpt'])]
    | true =>
      have htail : o.Follow ts ts'.tail := h.tail (hp _ hpt).1
      rw [dropWhile_cons_of_pos (by simp [hpt])]
      cases ts' with
      | nil =>
        have hnone : p .eof = true := (hsame h).trans hpt
        rw [heof] at hnone
        cases hnone
      | cons t' ts' =>
        have hpt' : p t'.kind = true := (hsame h).trans hpt
        rw [dropWhile_cons_of_pos (by simp [hpt'])]
        exact ih htail

end Omission

/-- Whether tokens of a kind are passed as they are: all but templates, malformed ones and the
end. -/
def TokenKind.isPlain : TokenKind → Bool
  | .eof | .template | .error _ => false
  | _ => true

theorem TokenKind.of_isPlain (h : k.isPlain) : k ≠ .eof ∧ k ≠ .template ∧ k.isError = false := by
  cases k <;> simp_all [isPlain, isError]

/-! ### States -/

namespace Parser

/-- A script with the semicolon and one of the same length without it, and how many templates may
stand in each other. -/
structure Setting extends Omission where
  source : List Char
  source' : List Char
  fuel : Nat
  bytes_eq : bytes source' = bytes source

namespace Setting

variable (c : Setting)

abbrev sheet : Sheet := ⟨c.source, c.fuel⟩

abbrev sheet' : Sheet := ⟨c.source', c.fuel⟩

theorem template_eq : c.sheet'.template = c.sheet.template := by
  unfold Sheet.template
  rw [c.bytes_eq]

theorem faults_eq (t : Token) : c.sheet'.faults t = c.sheet.faults t := by
  unfold Sheet.faults
  rw [c.template_eq]

end Setting

/-- Reading stands at the semicolon, and in the tokens without it at the token behind. -/
structure AtGap (c : Setting) (s s' : State) : Prop where
  current : s.current = c.semi
  kind' : s'.kind = c.next.kind
  rest : ∃ ts, s.rest = c.semi :: ts ∧ c.Behind ts ∧ List.Forall₂ Token.Alike ts s'.rest
  clean : s'.errors = []

/-- Reading stands at the same place of both lists of tokens, without a fault in the first one. -/
structure Parallel (c : Setting) (s s' : State) : Prop where
  fine : s.Fine c.sheet
  fine' : s'.Fine c.sheet'
  depth : s'.depth = s.depth
  eof : s.eof.Alike s'.eof
  clean : s.errors = []
  last : s.kind.delimits = false → s'.last.isSome = s.last.isSome
  place : (c.Omits s.rest s'.rest ∧ s'.errors = []) ∨
    (List.Forall₂ Token.Alike s.rest s'.rest ∧ s'.errors = c.faults)

namespace AtGap

variable {c : Setting} {s s' : State}

theorem kind (h : AtGap c s s') : s.kind = .punct .semicolon := by
  unfold State.kind
  rw [h.current, c.isSemicolon]

theorem delimits (h : AtGap c s s') : s'.kind.delimits = true := by
  rw [h.kind', c.delimits]

theorem ne_semicolon (h : AtGap c s s') : s'.kind ≠ .punct .semicolon := by
  intro heq
  have hdelimits := h.delimits
  rw [heq] at hdelimits
  cases hdelimits

/-- At another level reading still stands at the place. -/
theorem level (h : AtGap c s s') (depth : Nat) : AtGap c { s with depth } s' :=
  ⟨h.current, h.kind', h.rest, h.clean⟩

/-- A token that does not close a list is not the end, so it is the first one that follows. -/
theorem alike (h : AtGap c s s') (hcloses : c.next.kind.closesBlock = false) :
    c.next.Alike s'.current := by
  obtain ⟨ts, -, hnext, hts⟩ := h.rest
  rcases hnext with hhead | ⟨-, heof⟩
  · unfold State.current
    generalize s'.rest = rest at hts ⊢
    cases hts with
    | nil => cases hhead
    | cons ht => exact Option.some.inj hhead ▸ ht
  · rw [heof] at hcloses
    cases hcloses

end AtGap

/-- Passing the first of the tokens that follow. -/
theorem State.advance_eq {s : State} {rest : List Token} (h : s.rest = s.current :: rest) :
    s.advance = { s with rest, last := some s.current, reported := false } := by
  rcases s.advance_cases with ⟨hnil, -⟩ | ⟨rest', hrest, heq⟩
  · simp [hnil] at h
  · rw [heq, (List.cons.inj (h.symm.trans hrest)).2]

theorem State.Fine.kind_eq {c : Sheet} {s : State} (h : s.Fine c) : s.kind = firstKind s.rest :=
  headD_kind h.isEof s.rest

theorem State.Fine.ahead_one {c : Sheet} {s : State} (h : s.Fine c) :
    s.ahead 1 = firstKind s.rest.tail := by
  have hahead : s.ahead 1 = (s.rest.tail.headD s.eof).kind := by
    unfold State.ahead
    cases s.rest with
    | nil => rfl
    | cons t rest => cases rest <;> rfl
  rw [hahead, headD_kind h.isEof]

theorem State.kind_advance (s : State) : s.advance.kind = s.ahead 1 := by
  rcases hrest : s.rest with _ | ⟨t, rest⟩
  · simp [State.advance, State.ahead, State.kind, State.current, hrest]
  · cases rest <;> simp [State.advance, State.ahead, State.kind, State.current, hrest]

namespace Parallel

variable {c : Setting} {s s' : State}

variable (h : Parallel c s s')

include h

theorem follow : c.Follow s.rest s'.rest :=
  h.place.imp And.left And.left

/-- The tokens that follow tell that reading stands at the place. -/
theorem atGap_of_rest {ts : List Token} (hrest : s.rest = c.semi :: ts)
    (hnext : c.Behind ts) (hts : List.Forall₂ Token.Alike ts s'.rest) (hclean : s'.errors = []) :
    AtGap c s s' where
  current := by simp [State.current, hrest]
  kind' := by rw [h.fine'.kind_eq, firstKind_of_alike hts, hnext.firstKind]
  rest := ⟨ts, hrest, hnext, hts⟩
  clean := hclean

/-- The current tokens are those at the place, or they are alike, unless they are templates. -/
theorem atGap_or :
    AtGap c s s' ∨ (s'.kind = s.kind ∧
      (s.kind.closesBlock = false → s'.current.onNewLine = s.current.onNewLine) ∧
      (s.kind ≠ .template → s.current.Alike s'.current)) := by
  have heof := h.eof
  unfold State.kind State.current
  rcases h.place with ⟨hplace, hclean⟩ | ⟨hplace, -⟩
  · generalize hrest : s.rest = rest at hplace
    generalize hrest' : s'.rest = rest' at hplace
    cases hplace with
    | here hnext hts => exact .inl (h.atGap_of_rest hrest hnext (hrest' ▸ hts) hclean)
    | template hkind hkind' hline =>
      exact .inr ⟨hkind'.trans hkind.symm, fun _ => hline, fun hne => absurd hkind hne⟩
    | later ht => exact .inr ⟨ht.kind, ht.onNewLine, fun _ => ht⟩
  · generalize s.rest = rest at hplace
    generalize s'.rest = rest' at hplace
    refine .inr ?_
    cases hplace with
    | nil => exact ⟨heof.kind, heof.onNewLine, fun _ => heof⟩
    | cons ht => exact ⟨ht.kind, ht.onNewLine, fun _ => ht⟩

theorem kind_eq (hgap : ¬AtGap c s s') : s'.kind = s.kind :=
  (h.atGap_or.resolve_left hgap).1

/-- Away from the place, both lists of tokens end at once. -/
theorem rest_eq_nil (hgap : ¬AtGap c s s') (hnil : s'.rest = []) : s.rest = [] := by
  have hkind := h.kind_eq hgap
  rw [h.fine'.kind_eq, hnil] at hkind
  by_contra hne
  obtain ⟨t, rest, hrest⟩ := exists_cons_of_ne_nil hne
  have heof : t.kind = .eof := by
    rw [h.fine.kind_eq, hrest] at hkind
    exact hkind.symm
  exact (h.fine.tokens t (by simp [hrest])).notEof heof

/-- What tells a token that the semicolon may be left out before from a semicolon in no case is the
same for both current tokens. -/
theorem kind_congr {β : Type} {f : TokenKind → β}
    (hf : ∀ k : TokenKind, k.delimits = true → f k = f (.punct .semicolon)) :
    f s'.kind = f s.kind := by
  rcases h.atGap_or with hgap | ⟨heq, -⟩
  · rw [hgap.kind]
    exact hf _ hgap.delimits
  · rw [heq]

theorem kind_beq (hk : Omission.Common k) : (s'.kind == k) = (s.kind == k) :=
  h.kind_congr (f := (· == k)) fun _ hl => hk.beq_congr hl

theorem atMark {p : Punct} (hp : Omission.Common (.punct p)) : s'.atMark p = s.atMark p :=
  h.kind_beq hp

theorem atEnd (hgap : ¬AtGap c s s') (ends : List TokenKind) : s'.atEnd ends = s.atEnd ends := by
  rw [State.atEnd, State.atEnd, h.kind_eq hgap]

theorem atName (w : String) : s'.atName w = s.atName w := by
  have hlabel := h.kind_beq (k := .label) (by decide)
  unfold State.atName
  rw [hlabel]
  cases hkind : s.kind == .label with
  | false => rfl
  | true =>
    have hkind : s.kind = .label := by simpa using hkind
    rcases h.atGap_or with hgap | ⟨-, -, halike⟩
    · simp [hgap.kind] at hkind
    · rw [(halike (by simp [hkind])).text]

theorem newLine (hgap : ¬AtGap c s s')
    (hdelimits : s.kind.delimits = false) : s'.newLine = s.newLine := by
  obtain ⟨-, hline, -⟩ := h.atGap_or.resolve_left hgap
  unfold State.newLine
  rw [h.last hdelimits, hline (TokenKind.closesBlock_of_not_delimits hdelimits)]

omit h in
/-- No operator is one of the tokens that the semicolon may be left out before. -/
theorem operator?_of_delimits (hk : k.delimits = true) : k.operator? = none := by
  cases k with
  | keyword w => cases w <;> first | rfl | cases hk
  | punct p => cases p <;> first | rfl | cases hk
  | eof => rfl
  | _ => cases hk

/-- The same operator stands at both places. -/
theorem operator? : s'.operator? = s.operator? := by
  have hkind : s'.kind.operator? = s.kind.operator? :=
    h.kind_congr (f := TokenKind.operator?) fun k hk => operator?_of_delimits hk
  unfold State.operator?
  rw [hkind]
  split
  · next op hop =>
    have hdelimits : s.kind.delimits = false := by
      rw [Bool.eq_false_iff]
      intro hk
      rw [operator?_of_delimits hk] at hop
      cases hop
    have hgap : ¬AtGap c s s' := fun hgap => by
      simp [hgap.kind, TokenKind.operator?, Punct.operator?] at hop
    rw [h.newLine hgap hdelimits]
  · rfl

section

variable (hne : s.kind ≠ .punct .semicolon)
include hne

/-- The tokens behind the current ones. -/
theorem tail : c.Follow s.rest.tail s'.rest.tail :=
  h.follow.tail (h.fine.kind_eq ▸ hne)

theorem ahead_one (hk : Omission.Common k) : (s'.ahead 1 == k) = (s.ahead 1 == k) := by
  rw [h.fine.ahead_one, h.fine'.ahead_one]
  exact (h.tail hne).kind_congr (f := (· == k)) fun _ hl => hk.beq_congr hl

/-- The token behind the current one is of the same kind, unless it is a semicolon. -/
theorem ahead_one_eq (hahead : s.ahead 1 ≠ .punct .semicolon) : s'.ahead 1 = s.ahead 1 := by
  rw [h.fine.ahead_one] at hahead ⊢
  rw [h.fine'.ahead_one]
  exact (h.tail hne).kind_cases.resolve_right fun hsemi => hahead hsemi.1

/-- Parameters of an arrow function are recognised in both readings. -/
theorem atArrowParams : s'.atArrowParams = s.atArrowParams := by
  have hparams (u : State) : u.atArrowParams =
      Omission.beginsWith [.punct .rparen, .punct .arrow] (u.rest.tail.dropWhile fun t =>
        (fun k => k == .label || k == .punct .comma || k == .punct .ellipsis) t.kind) := by
    unfold State.atArrowParams
    rw [drop_one]
    rcases u.rest.tail.dropWhile _ with _ | ⟨t, _ | ⟨v, rest⟩⟩ <;>
      simp [Omission.beginsWith, firstKind]
  rw [hparams s, hparams s']
  have hfollow := (h.tail hne).dropWhile
    (p := fun k => k == .label || k == .punct .comma || k == .punct .ellipsis) fun k hk => by
      simp only [Bool.or_eq_true, beq_iff_eq] at hk
      rcases hk with (rfl | rfl) | rfl <;> decide
  exact hfollow.beginsWith (by decide)

end

theorem atForIn {skip : Nat} (hskip : skip = 0 ∨ skip = 1 ∧ s.kind ≠ .punct .semicolon) :
    s'.atForIn skip = s.atForIn skip := by
  have hnames {o : Sheet} {u : State} (hu : u.Fine o) : u.atForIn skip =
      (Omission.beginsWith [.label, .keyword .inKw] (u.rest.drop skip) ||
        Omission.beginsWith [.label, .punct .comma, .label, .keyword .inKw]
          (u.rest.drop skip)) := by
    have hahead (n : Nat) : u.ahead n = firstKind (u.rest.drop n) := by
      rw [← headD_kind hu.isEof]
      simp [State.ahead, headD_eq_head?_getD]
    unfold State.atForIn
    simp only [Omission.beginsWith, tail_drop, hahead, Bool.and_true, Nat.add_assoc]
    rw [Bool.and_or_distrib_left]
    simp only [Bool.and_assoc]
  have hfollow : c.Follow (s.rest.drop skip) (s'.rest.drop skip) := by
    rcases hskip with rfl | ⟨rfl, hne⟩
    · exact h.follow
    · rw [drop_one, drop_one]
      exact h.tail hne
  rw [hnames h.fine, hnames h.fine', hfollow.beginsWith (by decide),
    hfollow.beginsWith (by decide)]

/-! ### Steps of both readings -/

/-- The tokens behind the current ones, unless these are at the place. -/
theorem place_tail (hgap : ¬AtGap c s s')
    (htemplate : s.kind ≠ .template) :
    (c.Omits s.rest.tail s'.rest.tail ∧ s'.errors = []) ∨
      (List.Forall₂ Token.Alike s.rest.tail s'.rest.tail ∧ s'.errors = c.faults) := by
  rcases h.place with ⟨hplace, hclean⟩ | ⟨hplace, hfault⟩
  · refine .inl ⟨?_, hclean⟩
    generalize hrest : s.rest = rest at hplace ⊢
    generalize hrest' : s'.rest = rest' at hplace ⊢
    cases hplace with
    | here hnext hts => exact absurd (h.atGap_of_rest hrest hnext (hrest' ▸ hts) hclean) hgap
    | template hkind => exact absurd (by simp [State.kind, State.current, hrest, hkind]) htemplate
    | later _ h => exact h
  · refine .inr ⟨?_, hfault⟩
    generalize s.rest = rest at hplace ⊢
    generalize s'.rest = rest' at hplace ⊢
    cases hplace with
    | nil => exact .nil
    | cons _ hts => exact hts

/-- Both readings pass their current tokens, which are alike. -/
theorem advance (hgap : ¬AtGap c s s') (hplain : s.kind.isPlain) :
    Parallel c s.advance s'.advance ∧ s.current.Alike s'.current := by
  obtain ⟨hne, htemplate, herr⟩ := TokenKind.of_isPlain hplain
  obtain ⟨hkind, -, halike⟩ := h.atGap_or.resolve_left hgap
  have htook := took_advance h.fine hne herr
  have htook' := took_advance h.fine' (hkind ▸ hne) (hkind ▸ herr)
  have hrest := htook.rest
  have hrest' := htook'.rest
  have hplace := h.place_tail hgap htemplate
  have hs := State.advance_eq hrest
  have hs' := State.advance_eq hrest'
  rw [hrest, hrest', tail_cons, tail_cons] at hplace
  refine ⟨⟨htook.onward.fine, htook'.onward.fine, ?_, ?_, ?_, ?_, ?_⟩, halike htemplate⟩
  · rw [hs, hs']
    exact h.depth
  · rw [hs, hs']
    exact h.eof
  · rw [hs]
    exact h.clean
  · rw [hs, hs']
    exact fun _ => rfl
  · rw [hs'] at hplace ⊢
    exact hplace

/-- At the place, one reading passes the semicolon, and the other one lists the faults of the
omission. -/
theorem pass (hgap : AtGap c s s') {t' : State}
    (ht' : t' = { s' with errors := c.faults }) (hs' : Onward c.sheet' s' t') :
    Parallel c s.advance t' := by
  obtain ⟨ts, hrest, hnext, hts⟩ := hgap.rest
  have hs := h.fine.advance (by simp [hgap.kind, TokenKind.isError])
  have hadvance : s.advance = { s with rest := ts, last := some c.semi, reported := false } := by
    simp [State.advance, hrest]
  refine ⟨hs.fine, hs'.fine, ?_, ?_, ?_, fun hdelimits => ?_, .inr ⟨?_, ?_⟩⟩
  · rw [hadvance, ht']
    exact h.depth
  · rw [hadvance, ht']
    exact h.eof
  · rw [hadvance]
    exact h.clean
  · have hkind : s.advance.kind = c.next.kind := by
      rw [hs.fine.kind_eq, hadvance]
      exact hnext.firstKind
    rw [hkind, c.delimits] at hdelimits
    cases hdelimits
  · rw [hadvance, ht']
    exact hts
  · rw [ht']

/-- Before a token that closes a list, the semicolon is not missed. -/
theorem passClosing (hgap : AtGap c s s')
    (hcloses : c.next.kind.closesBlock = true) : Parallel c s.advance s' := by
  refine h.pass hgap ?_ (.refl h.fine')
  rw [Omission.faults, if_pos hcloses, ← hgap.clean]

/-- Before a token that starts a statement, it is listed that the semicolon is missing. -/
theorem passMissing (hgap : AtGap c s s') (hcloses : c.next.kind.closesBlock = false) :
    Parallel c s.advance (s'.unexpected [.punct .semicolon]) := by
  refine h.pass hgap ?_ (h.fine'.unexpected _)
  have herr : s'.kind.isError = false := by
    have hdelimits := hgap.delimits
    cases hk : s'.kind with
    | error => simp [hk, TokenKind.delimits, TokenKind.startsStatement, TokenKind.closesBlock]
        at hdelimits
    | _ => rfl
  unfold State.unexpected State.reportCurrent
  rw [herr, hgap.kind', Omission.faults, hcloses]
  simp [State.report, hgap.clean, (hgap.alike hcloses).span]

/-- Both readings go to another level. -/
theorem level {depth : Nat} (hle : depth ≤ maxNesting) :
    Parallel c { s with depth } { s' with depth } :=
  ⟨(h.fine.level hle).fine, (h.fine'.level hle).fine, rfl, h.eof, h.clean, h.last, h.place⟩

/-- A statement ends in both readings. -/
theorem terminate (hclean : s.terminate.errors = []) : Parallel c s.terminate s'.terminate := by
  by_cases hgap : AtGap c s s'
  · have hs : s.terminate = s.advance := by
      simp [State.terminate, State.atMark, hgap.kind]
    have hmark : s'.atMark .semicolon = false := beq_eq_false_iff_ne.2 hgap.ne_semicolon
    rw [hs]
    -- the other reading stays where it is, and misses the semicolon unless a list is closed
    cases hcloses : c.next.kind.closesBlock with
    | true =>
      have hs' : s'.terminate = s' := by
        unfold State.terminate
        rw [hmark, hgap.kind', hcloses]
        rfl
      rw [hs']
      exact h.passClosing hgap hcloses
    | false =>
      have hs' : s'.terminate = s'.unexpected [.punct .semicolon] := by
        have hfault : s'.afterFault = false := by
          rw [Bool.eq_false_iff]
          exact fun hafter => h.fine'.noted (.inr (.inr hafter)) hgap.clean
        unfold State.terminate
        rw [hmark, hgap.kind', hcloses, hfault, (c.starts hcloses).1]
        simp
      rw [hs']
      exact h.passMissing hgap hcloses
  · have hkind := h.kind_eq hgap
    rcases h.fine.terminate_clean hclean with ⟨hsemi, heq⟩ | ⟨hcloses, heq⟩
    · have hs' : s'.terminate = s'.advance := by
        simp [State.terminate, State.atMark, hkind, hsemi]
      rw [heq, hs']
      exact (h.advance hgap (hsemi ▸ rfl)).1
    · have hs' : s'.terminate = s' := by
        have hmark : s'.atMark .semicolon = false := by
          unfold State.atMark
          rw [hkind]
          cases hk : s.kind with
          | punct p => cases p <;> simp_all [TokenKind.closesBlock]
          | _ => rfl
        unfold State.terminate
        rw [hmark, hkind, hcloses]
        rfl
      rw [heq, hs']
      exact h

end Parallel

end Parser

end ScriptCheck
