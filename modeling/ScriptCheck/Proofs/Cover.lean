import ScriptCheck.Proofs.Scanned
import ScriptCheck.Proofs.Skipped
import ScriptCheck.Proofs.Slices

/-!
# Tokens cover the text they are read from

The tokens of a part of a script lie in it one after the other, on character boundaries; between
them stands only what may be skipped, and the only empty one is the last, which marks the end of the
part (`Cover`). This holds for every text and every part of it that starts and ends between
characters (`cover_tokens`).

The proof goes through `Follows`, which says the same of a list of tokens by recursion, in terms of
the gaps that the tokens carry.
-/

namespace ScriptCheck

open List

open Text

/-- Tokens that follow each other from an offset on: each starts behind the text skipped before it,
which starts where the token before it ends. -/
def Follows (lo : Nat) : List Token → Prop
  | [] => True
  | t :: rest =>
    t.lo = lo + bytes t.gap ∧ Skipped (t.kind = .eof) (lo == 0) t.gap ∧ Follows t.span.hi rest

/-- Tokens that cover the part of a script between two offsets. -/
structure Cover (source : List Char) (lo hi : Nat) (tokens : List Token) : Prop where
  /-- The last token is the only one that marks the end and the only empty one. -/
  ends : ∃ body last, tokens = body ++ [last] ∧ last.kind = .eof ∧ last.span = ⟨hi, 0⟩ ∧
    ∀ t ∈ body, t.kind ≠ .eof ∧ 0 < t.span.len
  /-- Every token lies within the part and on character boundaries. -/
  within : ∀ t ∈ tokens, lo ≤ t.span.lo ∧ t.span.hi ≤ hi ∧ t.span.text? source = some t.text
  /-- Tokens are in order and do not overlap. -/
  ordered : tokens.Pairwise fun s t => s.span.hi ≤ t.span.lo
  /-- Before the first token stands only what may be skipped there. -/
  first : ∀ t rest, tokens = t :: rest →
    ∃ gap, slice? source lo t.span.lo = some gap ∧ Skipped (t.kind = .eof) (lo == 0) gap
  /-- Between two tokens stands only what may be skipped, and no line that names an interpreter. -/
  between : ∀ front s t rest, tokens = front ++ s :: t :: rest →
    ∃ gap, slice? source s.span.hi t.span.lo = some gap ∧ Skipped (t.kind = .eof) false gap

/-! ### What reading a text into tokens gives -/

/-- The tokens of a text are some that are not empty, and the end of the text. -/
theorem tokensFrom_eq_append (mode : LexMode) (before : Preceding) (lo : Nat) (cs : List Char) :
    ∃ body gap, tokensFrom mode before lo cs = body ++ [⟨.eof, lo + bytes cs, gap, []⟩] ∧
      ∀ t ∈ body, t.kind ≠ .eof ∧ t.text ≠ [] := by
  fun_induction tokensFrom mode before lo cs with
  | case1 before lo cs skipped gap start h =>
    have hsplit := take_append_drop skipped cs
    rw [h, append_nil] at hsplit
    exact ⟨[], gap, by simp [start, gap, hsplit], by simp⟩
  | case2 before lo cs skipped gap start c rest h kind n hscan text ih =>
    obtain ⟨body, gap', heq, hbody⟩ := ih
    have hsplit : gap ++ (text ++ rest.drop n) = cs := by
      simp only [gap, text, cons_append, take_append_drop]
      rw [← h, take_append_drop]
    have hkind : kind ≠ .eof := by
      simpa [hscan] using scan_ne_eof mode before.divides c rest
    refine ⟨⟨kind, start, gap, text⟩ :: body, gap', ?_, ?_⟩
    · have hbytes : start + bytes text + bytes (rest.drop n) = lo + bytes cs := by
        rw [← hsplit]
        simp only [bytes_append, start]
        omega
      rw [heq, hbytes, cons_append]
    · intro t ht
      rcases mem_cons.1 ht with rfl | ht
      · exact ⟨hkind, by simp [text]⟩
      · exact hbody t ht

/-- The tokens of a text follow each other from its start on. -/
theorem follows_tokensFrom (mode : LexMode) (before : Preceding) (lo : Nat) (cs : List Char) :
    Follows lo (tokensFrom mode before lo cs) := by
  fun_induction tokensFrom mode before lo cs with
  | case1 before lo cs skipped gap start h =>
    have hgap := skipped_take_triviaLength (lo == 0) cs
    exact ⟨rfl, by simpa [h, skipped, gap] using hgap, trivial⟩
  | case2 before lo cs skipped gap start c rest h kind n hscan text ih =>
    have hgap := skipped_take_triviaLength (lo == 0) cs
    have hkind : kind ≠ .eof := by
      simpa [hscan] using scan_ne_eof mode before.divides c rest
    refine ⟨rfl, ?_, ih⟩
    simpa [h, skipped, gap, hkind] using hgap

/-- What stands before and after a token, and where it stands. -/
theorem Follows.split {lo : Nat} {front rest : List Token} {t : Token}
    (h : Follows lo (front ++ t :: rest)) :
    t.lo = lo + bytes (front.flatMap Token.covered) + bytes t.gap ∧ Follows t.span.hi rest := by
  induction front generalizing lo with
  | nil => exact ⟨by simpa using h.1, h.2.2⟩
  | cons u front ih =>
    obtain ⟨hlo, -, hrest⟩ := h
    obtain ⟨ht, hfollows⟩ := ih hrest
    refine ⟨?_, hfollows⟩
    simp only [ht, Token.hi_span, hlo, flatMap_cons, Token.covered, bytes_append]
    omega

/-! ### Tokens of a part of a script -/

section Part

variable {source text : List Char} {lo hi : Nat} {tokens : List Token}

/-- Tokens that spell out a part of a script, each with its gap. -/
structure Spelled (source : List Char) (lo hi : Nat) (text : List Char) (tokens : List Token) :
    Prop where
  isSlice : slice? source lo hi = some text
  spells : tokens.flatMap Token.covered = text
  follows : Follows lo tokens

/-- The text of a token is a slice of the script, and so is the gap before it. -/
theorem Spelled.slices (h : Spelled source lo hi text tokens) {front rest : List Token} {t : Token}
    (heq : tokens = front ++ t :: rest) :
    slice? source (lo + bytes (front.flatMap Token.covered)) t.lo = some t.gap ∧
      slice? source t.lo t.span.hi = some t.text := by
  subst heq
  obtain ⟨hlo, -⟩ := h.follows.split
  have htext : text = front.flatMap Token.covered ++
      (t.gap ++ (t.text ++ rest.flatMap Token.covered)) := by
    rw [← h.spells]
    simp [Token.covered]
  have hslice := h.isSlice
  rw [htext] at hslice
  constructor
  · rw [hlo]
    exact slice?_of_slice? hslice
  · rw [← append_assoc] at hslice
    have := slice?_of_slice? hslice
    simpa [hlo, Nat.add_assoc] using this

/-- Where the gap before a token starts. -/
theorem Follows.gap_start {front rest : List Token} {s t : Token}
    (h : Follows lo (front ++ s :: t :: rest)) :
    lo + bytes ((front ++ [s]).flatMap Token.covered) = s.span.hi ∧
      Skipped (t.kind = .eof) (s.span.hi == 0) t.gap := by
  obtain ⟨hs, hrest⟩ := h.split
  refine ⟨?_, hrest.2.1⟩
  simp only [flatMap_append, flatMap_cons, flatMap_nil, append_nil,
    Token.covered, bytes_append, Token.hi_span, hs]
  omega

/-- Tokens that follow each other start at or behind the offset from which they do. -/
theorem Follows.le_lo (h : Follows lo tokens) : ∀ t ∈ tokens, lo ≤ t.span.lo := by
  intro t ht
  obtain ⟨front, rest, rfl⟩ := append_of_mem ht
  have := h.split.1
  simp only [Token.lo_span]
  omega

theorem Follows.pairwise (h : Follows lo tokens) :
    tokens.Pairwise fun s t => s.span.hi ≤ t.span.lo := by
  induction tokens generalizing lo with
  | nil => exact .nil
  | cons t rest ih => exact .cons (fun u hu => h.2.2.le_lo u hu) (ih h.2.2)

/-- A token lies within the text it was read from. -/
theorem mem_tokensFrom {mode : LexMode} {before : Preceding} {cs : List Char} {t : Token}
    (ht : t ∈ tokensFrom mode before lo cs) :
    lo ≤ t.span.lo ∧ t.span.hi ≤ lo + bytes cs ∧ t.text.length ≤ cs.length := by
  have hfollows := follows_tokensFrom mode before lo cs
  have hspells := covered_tokensFrom mode before lo cs
  refine ⟨hfollows.le_lo t ht, ?_⟩
  obtain ⟨front, rest, heq⟩ := append_of_mem ht
  rw [heq] at hfollows hspells
  -- what follows a token belongs to the text too
  have hlo := hfollows.split.1
  have hbytes := congrArg bytes hspells
  have hlength := congrArg List.length hspells
  simp only [flatMap_append, flatMap_cons, Token.covered, bytes_append,
    length_append] at hbytes hlength
  simp only [Token.hi_span]
  omega

/-- The tokens of a part of a script spell it out. -/
theorem spelled_tokensFrom (h : slice? source lo hi = some text) (mode : LexMode)
    (before : Preceding) : Spelled source lo hi text (tokensFrom mode before lo text) :=
  ⟨h, covered_tokensFrom mode before lo text, follows_tokensFrom mode before lo text⟩

/-- The tokens of a part of a script cover it. -/
theorem cover_tokensFrom (h : slice? source lo hi = some text) (mode : LexMode)
    (before : Preceding) : Cover source lo hi (tokensFrom mode before lo text) := by
  have hspelled := spelled_tokensFrom h mode before
  obtain ⟨body, gap, heq, hbody⟩ := tokensFrom_eq_append mode before lo text
  have hhi := bytes_of_slice? h
  have hwithin {t : Token} : t ∈ tokensFrom mode before lo text → _ := mem_tokensFrom
  generalize tokensFrom mode before lo text = tokens at hspelled heq hwithin
  have hpos : ∀ t ∈ body, t.kind ≠ .eof ∧ 0 < t.span.len := by
    intro t ht
    obtain ⟨hkind, htext⟩ := hbody t ht
    have := mt bytes_eq_zero.1 htext
    exact ⟨hkind, by simp only [Token.span]; omega⟩
  refine ⟨⟨body, _, heq, rfl, ?_, hpos⟩, ?_, hspelled.follows.pairwise, ?_, ?_⟩
  · simp [Token.span, hhi]
  · intro t ht
    obtain ⟨front, rest, rfl⟩ := append_of_mem ht
    obtain ⟨-, htext⟩ := hspelled.slices rfl
    exact ⟨(hwithin ht).1, hhi ▸ (hwithin ht).2.1, htext⟩
  · rintro t rest rfl
    have hsplit : t :: rest = [] ++ t :: rest := rfl
    obtain ⟨hgap, -⟩ := hspelled.slices hsplit
    exact ⟨t.gap, by simpa using hgap, hspelled.follows.2.1⟩
  · rintro front s t rest rfl
    obtain ⟨hstart, hskip⟩ := hspelled.follows.gap_start
    obtain ⟨hgap, -⟩ := hspelled.slices (append_cons front s (t :: rest))
    rw [hstart] at hgap
    refine ⟨t.gap, hgap, ?_⟩
    -- the token before is not the last one, hence not empty
    have hs : s ∈ body := by
      have hinit := congrArg List.dropLast heq
      rw [dropLast_concat] at hinit
      rw [← hinit, dropLast_append_cons]
      simp [List.dropLast]
    have hne : s.span.hi ≠ 0 := by
      have := (hpos s hs).2
      simp only [Span.hi]
      omega
    rwa [beq_eq_false_iff_ne.2 hne] at hskip

end Part

theorem cover_tokenize (mode : LexMode) (source : List Char) :
    Cover source 0 (bytes source) (tokenize mode source) :=
  cover_tokensFrom (slice?_all source) mode .none

/-- A script is read into tokens that cover it; a part of it can be read exactly if it starts and
ends between characters, and the tokens cover that part. -/
theorem cover_tokens (mode : LexMode) (source : List Char) :
    Cover source 0 (bytes source) (tokenize mode source) ∧
      ∀ lo hi, (slice? source lo hi).isSome ↔
        ∃ tokens, tokenizeRange? mode source lo hi = some tokens ∧ Cover source lo hi tokens := by
  refine ⟨cover_tokenize mode source, fun lo hi => ⟨fun h => ?_, ?_⟩⟩
  · obtain ⟨text, htext⟩ := Option.isSome_iff_exists.1 h
    exact ⟨_, by rw [tokenizeRange?, htext]; rfl, cover_tokensFrom htext mode .none⟩
  · rintro ⟨tokens, htokens, -⟩
    obtain ⟨text, htext, -⟩ := Option.map_eq_some_iff.1 htokens
    simp [htext]

end ScriptCheck
