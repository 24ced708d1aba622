import ScriptCheck.Proofs.Fitting
import ScriptCheck.Proofs.ReadExpression

/-!
# Reading what is known to come

Where the lexemes that come next are known, reading them has two outcomes only: it gives a value, or
it lists that a part is nested too deep. `Comes deep s p P` says that reading `p` from the state `s`
has the second outcome where `deep` holds, and otherwise gives a value and a state that satisfy `P`.
A state before known lexemes, with no fault so far, is `State.Awaits`.

A part that is nested too deep may be given up, and reading goes on behind it. Since whatever is
read then is a run (`Runs`), what was listed stays listed, so `Comes.bind` needs nothing to be known
of the tokens after such a part.
-/

namespace ScriptCheck

open List

namespace Parser

variable {α β : Type} {c : Sheet} {k d : Nat} {s : State} {item : Parser α}

/-! ### Nesting that is too deep -/

/-- It is listed that a part is nested too deep. -/
def State.Deep (s : State) : Prop := ∃ e ∈ s.errors, e.value = .nestingTooDeep

theorem Onward.deep {t : State} (h : Onward c s t) (hs : s.Deep) : t.Deep := by
  obtain ⟨e, he, hvalue⟩ := hs
  exact ⟨e, h.listed.subset he, hvalue⟩

/-! ### A value, or too deep -/

/-- Where `deep` holds, reading a part lists that it is nested too deep; otherwise it gives a value
and a state with some property. -/
def Comes (deep : Prop) (s : State) (p : Parser α) (P : α → State → Prop) : Prop :=
  (deep ∧ (exec p s).2.Deep) ∨ (¬ deep ∧ ∃ a t, exec p s = (some a, t) ∧ P a t)

namespace Comes

variable {deep deep' : Prop} {p : Parser α} {f : α → Parser β} {P : α → State → Prop}
  {R : β → State → Prop} {Q : α → List Token → Prop} {W : α → State → Prop}

/-- One part after another: what is listed in the first one stays listed. -/
theorem exec_bind (h : Comes deep s p P) (hs : s.Fine c) (hp : Reading c s p Q W)
    (hf : ∀ a t, W a t → t.Fine c → Onward c t (exec (f a) t).2) :
    (deep ∧ (exec (p >>= f) s).2.Deep) ∨
      (¬ deep ∧ ∃ a t, W a t ∧ P a t ∧ exec (p >>= f) s = exec (f a) t) := by
  rw [Parser.exec_bind]
  rcases h with ⟨hdeep, hlisted⟩ | ⟨hdeep, a, t, heq, hP⟩
  · refine .inl ⟨hdeep, ?_⟩
    obtain ⟨t, heq, -⟩ | ⟨a, t, heq, hgot⟩ := hp.outcome hs
    · rw [heq] at hlisted ⊢
      exact hlisted
    · rw [heq] at hlisted ⊢
      exact (hf a t hgot.value hgot.onward.fine).deep hlisted
  · have hgot := hp hs
    rw [heq] at hgot
    exact .inr ⟨hdeep, a, t, hgot.value, hP, by rw [heq]⟩

theorem of_exec_eq {q : Parser α} {t : State} (h : Comes deep t q P) (heq : exec p s = exec q t) :
    Comes deep s p P := by
  unfold Comes
  rwa [heq]

/-- One part after another. The second one is read only if the first one is not too deep. -/
theorem bind (h : Comes deep s p P) (hs : s.Fine c) (hp : Reading c s p Q W)
    (hdeep : deep → deep') (hf : ∀ a, Runs c (f a))
    (hnext : ¬ deep → ∀ a t, P a t → Comes deep' t (f a) R) : Comes deep' s (p >>= f) R := by
  rcases h.exec_bind hs hp fun a t _ => hf a t with ⟨hin, hlisted⟩ | ⟨hin, a, t, -, hP, heq⟩
  · exact .inl ⟨hdeep hin, hlisted⟩
  · exact (hnext hin a t hP).of_exec_eq heq

theorem pure {a : α} (hdeep : ¬ deep) (h : P a s) : Comes deep s (Pure.pure a) P :=
  .inr ⟨hdeep, a, s, rfl, h⟩

theorem get {f : State → Parser α} (h : Comes deep s (f s) P) :
    Comes deep s (MonadState.get >>= f) P :=
  h

theorem spanFrom {start : Span} {f : Span → Parser α} (h : ∀ span, Comes deep s (f span) P) :
    Comes deep s (liftM (Parser.spanFrom start) >>= f) P :=
  h _

theorem checkTarget {e : Expr} {f : Unit → Parser α} (he : isTarget e)
    (h : Comes deep s (f ()) P) : Comes deep s (liftM (Parser.checkTarget e) >>= f) P := by
  have hexec : exec (liftM (Parser.checkTarget e) >>= f) s = exec (f ()) s := by
    simp [Parser.checkTarget, reportWhen, he]
  exact h.of_exec_eq hexec

end Comes

/-! ### States on one line -/

/-- Reading without a fault so far stands before some lexemes, all on one line, at a level of
nesting. -/
structure State.Awaits (c : Sheet) (d : Nat) (ls : List Lexeme) (s : State) : Prop where
  fine : s.Fine c
  depth : s.depth = d
  rest : s.rest.map Token.lexeme = ls
  line : ∀ t ∈ s.rest, t.onNewLine = false
  ordinary : ∀ l ∈ ls, l.kind.isOrdinary
  clean : s.errors = []

namespace State.Awaits

variable {l : Lexeme} {ls : List Lexeme}

theorem isOrdinary_of_mem (h : s.Awaits c d ls) {t : Token} (ht : t ∈ s.rest) :
    t.kind.isOrdinary := by
  refine h.ordinary t.lexeme ?_
  rw [← h.rest]
  exact mem_map_of_mem ht

/-- No token that comes next is of any other kind, the end apart. -/
theorem ahead_ne (h : s.Awaits c d ls) {kind : TokenKind}
    (hkind : kind.isOrdinary = false ∧ kind ≠ .eof) (n : Nat) : s.ahead n ≠ kind := by
  rintro rfl
  obtain ⟨hordinary, heof⟩ := hkind
  unfold ahead at hordinary heof
  rw [getD_eq_getElem?_getD] at hordinary heof
  cases hn : s.rest[n]? with
  | none => exact heof (by rw [hn]; exact h.fine.isEof)
  | some t =>
    rw [hn] at hordinary
    exact absurd (h.isOrdinary_of_mem (mem_of_getElem? hn)) (by simpa using hordinary)

theorem kind_ne (h : s.Awaits c d ls) {other : TokenKind}
    (hother : other.isOrdinary = false ∧ other ≠ .eof) : s.kind ≠ other := by
  have hahead : s.ahead 0 = s.kind := by cases hrest : s.rest <;> simp [ahead, kind, current, hrest]
  rw [← hahead]
  exact h.ahead_ne hother 0

/-- The parameters of an arrow function never come next. -/
theorem atArrowParams_eq_false (h : s.Awaits c d ls) : s.atArrowParams = false := by
  unfold atArrowParams
  split
  · next t u rest heq =>
    have hmem : u ∈ s.rest := by
      have hu : u ∈ t :: u :: rest := by simp
      rw [← heq] at hu
      exact mem_of_mem_drop ((dropWhile_sublist _).subset hu)
    have harrow : u.kind ≠ .punct .arrow := by
      intro hkind
      exact absurd (h.isOrdinary_of_mem hmem) (by simp [hkind, TokenKind.isOrdinary])
    simp [harrow]
  · rfl

/-- The next token is the first lexeme, and passing it leaves the others. -/
theorem advance (h : s.Awaits c d (l :: ls)) : s.current.lexeme = l ∧ s.advance.Awaits c d ls := by
  obtain ⟨t, rest, hrest, rfl, hmap⟩ := map_eq_cons_iff.1 h.rest
  have hcurrent : s.current = t := by simp [current, hrest]
  have hordinary : s.kind.isOrdinary := by
    rw [kind, hcurrent]
    exact h.ordinary t.lexeme (by simp)
  have herror : s.kind.isError = false := by
    cases hkind : s.kind <;> simp_all [TokenKind.isOrdinary, TokenKind.isError]
  have hadvance : s.advance = { s with rest, last := some t, reported := false } := by
    simp [State.advance, hrest]
  refine ⟨by rw [hcurrent], (h.fine.advance herror).fine, ?_, ?_, ?_, ?_, ?_⟩
  · rw [hadvance]
    exact h.depth
  · rw [hadvance]
    exact hmap
  · rw [hadvance]
    exact fun u hu => h.line u (by simp [hrest, show u ∈ rest from hu])
  · exact fun l hl => h.ordinary l (by simp [hl])
  · rw [hadvance]
    exact h.clean

/-- Reading goes to another level. -/
theorem level (h : s.Awaits c d ls) {depth : Nat} (hle : depth ≤ maxNesting) :
    { s with depth }.Awaits c depth ls :=
  ⟨(h.fine.level hle).fine, rfl, h.rest, h.line, h.ordinary, h.clean⟩

theorem length_eq (h : s.Awaits c d ls) : s.rest.length = ls.length := by
  rw [← h.rest, length_map]

theorem kind_eq (h : s.Awaits c d (l :: ls)) : s.kind = l.kind :=
  congrArg Lexeme.kind h.advance.1

theorem text_eq (h : s.Awaits c d (l :: ls)) : s.current.text = l.text :=
  congrArg Lexeme.text h.advance.1

theorem kind_nil (h : s.Awaits c d []) : s.kind = .eof := by
  have hrest : s.rest = [] := map_eq_nil_iff.1 h.rest
  simp [kind, current, hrest, h.fine.isEof]

/-- On one line, an operator is read wherever there is one. -/
theorem operator?_eq (h : s.Awaits c d ls) : s.operator? = Lexeme.operator? ls := by
  cases ls with
  | nil =>
    have hkind := h.kind_nil
    simp [operator?, hkind, TokenKind.operator?, Lexeme.operator?]
  | cons l ls =>
    have hline : s.newLine = false := by
      obtain ⟨t, rest, hrest, -, -⟩ := map_eq_cons_iff.1 h.rest
      simp [newLine, current, hrest, h.line t (by simp [hrest])]
    have hkind := h.kind_eq
    unfold operator? Lexeme.operator?
    split <;> simp_all

/-- The first report of a nesting that is too deep is listed. -/
theorem deep_tooDeep (h : s.Awaits c d ls) : (exec (Parser.tooDeep : Parser α) s).2.Deep := by
  have hexec : (exec (Parser.tooDeep : Parser α) s).2 = s.reportDepth := rfl
  rw [hexec]
  rcases s.reportDepth_cases with ⟨-, hdeep⟩ | ⟨-, heq⟩
  · exact absurd h.clean (h.fine.noted (.inl hdeep))
  · rw [heq]
    exact ⟨⟨s.current.span, .nestingTooDeep⟩, by simp, rfl⟩

end State.Awaits

namespace Comes

variable {deep : Prop} {P : α → State → Prop} {ls : List Lexeme} {kind : TokenKind}
  {text : List Char}

section

variable {f : Token → Parser α} (hs : s.Awaits c d (⟨kind, text⟩ :: ls))
  (h : ∀ {t : Token} {u : State}, t.kind = kind → t.text = text → u.Awaits c d ls →
    Comes deep u (f t) P)
include hs h

/-- Passes the next token. -/
theorem advance : Comes deep s (liftM Parser.advance >>= f) P :=
  h hs.kind_eq hs.text_eq hs.advance.2

/-- Passes the next token, which is as expected. -/
theorem expect : Comes deep s (Parser.expect kind >>= f) P := by
  have hkind : (s.kind == kind) = true := by simp [hs.kind_eq]
  have hexec : exec (Parser.expect kind >>= f) s = exec (f s.current) s.advance := by
    rw [Parser.exec_bind, Parser.expect, exec_get, if_pos hkind]
    rfl
  exact (h hs.kind_eq hs.text_eq hs.advance.2).of_exec_eq hexec

end

/-- Reads a name. -/
theorem ident {f : Ident → Parser α} (hs : s.Awaits c d (⟨.label, text⟩ :: ls))
    (h : ∀ {x : Ident} {u : State}, x.name = String.ofList text → u.Awaits c d ls →
      Comes deep u (f x) P) : Comes deep s (Parser.ident >>= f) P := by
  unfold Parser.ident
  rw [bind_assoc]
  exact expect hs fun _ htext hu => h (congrArg String.ofList htext) hu

/-- Reads the name of a property. -/
theorem propertyName {f : Ident → Parser α} (hkind : kind = .label ∨ kind.isKeyword)
    (hs : s.Awaits c d (⟨kind, text⟩ :: ls))
    (h : ∀ {x : Ident} {u : State}, x.name = String.ofList text → u.Awaits c d ls →
      Comes deep u (f x) P) : Comes deep s (Parser.propertyName >>= f) P := by
  by_cases hkeyword : s.kind.isKeyword
  · have hexec : exec (Parser.propertyName >>= f) s = exec (f s.current.ident) s.advance := by
      rw [Parser.exec_bind, Parser.propertyName, exec_get, if_pos hkeyword]
      rfl
    exact (h (congrArg String.ofList hs.text_eq) hs.advance.2).of_exec_eq hexec
  · rw [hs.kind_eq] at hkeyword
    obtain rfl : kind = .label := hkind.resolve_right hkeyword
    rw [← hs.kind_eq] at hkeyword
    have hexec : exec (Parser.propertyName >>= f) s = exec (Parser.ident >>= f) s := by
      rw [Parser.exec_bind, Parser.propertyName, exec_get, if_neg hkeyword, Parser.exec_bind]
    exact (Comes.ident hs h).of_exec_eq hexec

end Comes

/-! ### Operators after an expression -/

/-- An operator that is strong enough is passed. -/
theorem exec_withOperator {power : Nat} {lhs : Expr} {go : Infix → Parser Expr} {op : Infix}
    (hop : s.operator? = some op) (hpower : power ≤ op.left) :
    exec (withOperator power lhs go) s = exec (go op) s.advance := by
  rw [withOperator, exec_get, hop]
  dsimp only
  rw [if_neg (Nat.not_lt.2 hpower)]
  rfl

/-- Without such an operator, an expression stands as it is. -/
theorem exec_withOperator_ends {power : Nat} {lhs : Expr} {go : Infix → Parser Expr}
    {ls : List Lexeme} (hs : s.Awaits c d ls) (h : Lexeme.Ends power ls) :
    exec (withOperator power lhs go) s = (some lhs, s) := by
  rw [withOperator, exec_get, hs.operator?_eq]
  cases hop : Lexeme.operator? ls with
  | none => rfl
  | some op =>
    dsimp only
    rw [if_pos (h op hop)]
    rfl

/-- The token of a prefix operator starts no other operand. -/
theorem exec_operand_eq_prefixOperand {below : Level}
    (h : s.kind.unary?.isSome ∨ s.kind.update?.isSome) :
    exec (operand below) s = exec (prefixOperand below) s := by
  rw [operand, exec_get]
  split <;> first | rfl | next hkind => simp [hkind, TokenKind.unary?, TokenKind.update?] at h

/-! ### Items of a list -/

/-- Whether an item is read at its first try, or nested too deep, does not depend on further
tries. -/
theorem comes_retrying {deep : Prop} {p : Parser α} {P : α → State → Prop}
    {spelling : α → Spelling} {nodes : α → List Node} (close : TokenKind)
    (hp : Reads c k p spelling nodes) (hs : s.Fine c) (h : Comes deep s p P) (n : Nat) :
    Comes deep s (retrying close p n) P := by
  cases n with
  | zero => exact h
  | succ n =>
    unfold Comes at h ⊢
    rw [exec_retrying_succ]
    rcases h with ⟨hdeep, hlisted⟩ | ⟨hdeep, a, t, heq, hP⟩
    · refine .inl ⟨hdeep, ?_⟩
      have hreach := (hp s).onward hs
      rcases heq : exec p s with ⟨_ | a, t⟩
      · rw [heq] at hlisted hreach
        have hpass := hreach.fine.passComma? close
        dsimp only
        split
        · have hmore := (reads_retrying close hp n _).onward hpass.fine
          exact (hpass.trans hmore).deep hlisted
        · exact hpass.deep hlisted
      · rw [heq] at hlisted
        exact hlisted
    · exact .inr ⟨hdeep, a, t, by rw [heq], hP⟩

/-- What is read after an item of a list. -/
def furtherItems (close : TokenKind) (item : Parser α) (n : Nat) (a : α) : Parser (List α) := do
  if ← takeMark .comma then
    let rest ← itemsUpTo close item n
    return a :: rest
  else
    let s ← get
    if s.kind == close then
      return [a]
    else
      unexpected [.punct .comma, close]

theorem exec_itemsUpTo_succ (close : TokenKind) (item : Parser α) (n : Nat) :
    exec (itemsUpTo close item (n + 1)) s =
      if s.atEnd [close] then (some [], s)
      else exec (retrying close item s.rest.length >>= furtherItems close item n) s := by
  rw [itemsUpTo, exec_get]
  split <;> rfl

theorem exec_furtherItems_comma {close : TokenKind} {n : Nat} {a : α} (h : s.kind = .punct .comma) :
    exec (furtherItems close item n a) s =
      exec (itemsUpTo close item n >>= fun rest => Pure.pure (a :: rest)) s.advance := by
  rw [furtherItems, exec_takeMark, if_pos (by simp [h])]
  rfl

theorem exec_furtherItems_close {close : TokenKind} {n : Nat} {a : α} (h : s.kind = close)
    (hclose : close ≠ .punct .comma) :
    exec (furtherItems close item n a) s = exec (Pure.pure [a]) s := by
  rw [furtherItems, exec_takeMark, if_neg (by simp [h, hclose]), if_neg Bool.false_ne_true,
    exec_get, if_pos (by simp [h])]

theorem runs_furtherItems {spelling : α → Spelling} {nodes : α → List Node} (close : TokenKind)
    (hitem : Reads c k item spelling nodes) (n : Nat) (a : α) :
    Runs c (furtherItems close item n a) := by
  refine .bind (fun _ => (reading_takeMark .comma).onward) fun b => ?_
  cases b with
  | true => exact .bind (.of_reads (reads_itemsUpTo close hitem n)) fun _ => .pure _
  | false =>
    refine .get fun s => ?_
    split
    · exact .pure _
    · exact .unexpected _

end Parser

end ScriptCheck
