import ScriptCheck.Proofs.Depth
import ScriptCheck.Proofs.ReadProgram

/-!
# Reading back what is written

A fitted expression, written on one line, is read as the same expression up to regions, or it is
nested too deep, and which of the two is decided by the number of levels it takes
(`parseExpr_line`).

With `n` levels left, an expression is read from its lexemes up to the operators that follow it, and
the levels that its own operators took are gone then (`ReadsBack`). So an operand before an operator
is read in the same way wherever it stands: the operator after it is the next one to be applied. An
operand after an operator is complete where no operator follows that is as strong as the power asked
for (`ReadsBack.comes`). There is one lemma for each kind of expression.
-/

namespace ScriptCheck

open List

open Text

variable {span : Span} {e : Expr} {more : List Lexeme}

namespace Parser

variable {c : Sheet} {d : Nat} {s : State}

/-! ### Levels -/

section

variable {n power k : Nat} {r l : Expr} {optional : Bool}

/-- The value is an expression up to regions, and some lexemes are left, on some level. -/
def Same (c : Sheet) (d : Nat) (e : Expr) (more : List Lexeme) (e' : Expr) (t : State) : Prop :=
  e'.bare = e.bare ∧ t.Awaits c d more

/-- What is read on levels of its own, after which reading is back on some level. -/
def resumed {α : Type} (d : Nat) (r : Option α × State) : Option α × State :=
  (r.1, { r.2 with depth := d })

/-- With enough levels left, an expression is read from its lexemes, up to the operators after it;
with fewer levels it is nested too deep. -/
def ReadsBack (c : Sheet) (e : Expr) : Prop :=
  ∀ (n d power : Nat) (s : State) (more : List Lexeme), n + d ≤ maxNesting →
    e.Fits power → s.Awaits c d (e.lexemes ++ more) → e.Precedes more →
    (n < e.nesting ∧ (exec ((Level.withLeft c.template n).expr power) s).2.Deep) ∨
      (¬ n < e.nesting ∧ ∃ e' t, (∃ s₀, Passes c n s₀ t [.expr e']) ∧
        Same c (d + e.spine) e more e' t ∧
        exec ((Level.withLeft c.template n).expr power) s =
          resumed d (exec ((Level.withLeft c.template (n - e.spine)).operators power e') t))

theorem exec_operators_ends {lhs : Expr} {ls : List Lexeme} (hs : s.Awaits c d ls)
    (h : Lexeme.Ends power ls) :
    exec ((Level.withLeft c.template n).operators power lhs) s = (some lhs, s) := by
  cases n <;> exact exec_withOperator_ends hs h

/-- An expression is read where no operator follows that would be part of it. -/
theorem ReadsBack.comes (h : ReadsBack c e) (hn : n + d ≤ maxNesting) (hpower : Asked power)
    (hfits : e.Fits power) (hs : s.Awaits c d (e.lexemes ++ more))
    (hends : Lexeme.Ends power more) :
    Comes (n < e.nesting) s ((Level.withLeft c.template n).expr power) (Same c d e more) := by
  have hyields : e.Precedes more := fun op hop => hfits.yields hpower (hends op hop)
  rcases h n d power s more hn hfits hs hyields with
    ⟨hdeep, hlisted⟩ | ⟨hdeep, e', t, -, ⟨hbare, ht⟩, heq⟩
  · exact .inl ⟨hdeep, hlisted⟩
  · rw [exec_operators_ends ht hends] at heq
    exact .inr ⟨hdeep, e', _, heq, hbare, ht.level (Nat.le_of_add_left_le hn)⟩

variable (hc : c.Sound)

include hc

/-- An operand that is read last is made a part of the whole expression. -/
theorem ReadsBack.comes_last (hr : ReadsBack c r) (hn : n + d ≤ maxNesting) (hpower : Asked power)
    (hfits : r.Fits power) (hs : s.Awaits c d (r.lexemes ++ more)) (hends : Lexeme.Ends power more)
    {start : Span} {make : Span → Expr → Expr}
    (hmake : ∀ {span : Span} {r' : Expr}, r'.bare = r.bare → (make span r').bare = e.bare) :
    Comes (n < r.nesting) s
      (do let r' ← (Level.withLeft c.template n).expr power
          let span ← spanFrom start
          return make span r')
      (Same c d e more) := by
  have hL := Level.sound_withLeft hc n
  refine .bind (hr.comes hn hpower hfits hs hends) hs.fine (hL.expr power s) id
    (fun _ => .spanFrom _ fun _ => .pure _) fun hdeep r' t hsame => ?_
  exact .spanFrom fun span => .pure hdeep ⟨hmake hsame.1, hsame.2⟩

/-- A part that a mark closes is made a part of the whole expression. -/
theorem ReadsBack.comes_enclosed {i : Expr} (hi : ReadsBack c i) (hn : n + d ≤ maxNesting)
    {close : Punct} (hclose : close.operator? = none)
    (hs : s.Awaits c d (i.lexemes ++ .fixed (.punct close) :: more)) {start : Span}
    {make : Span → Expr → Expr}
    (hmake : ∀ {span : Span} {i' : Expr}, i'.bare = i.bare → (make span i').bare = e.bare) :
    Comes (n < i.nesting) s
      (do let i' ← (Level.withLeft c.template n).expr 0
          let _ ← expectMark close
          let span ← spanFrom start
          return make span i')
      (Same c d e more) := by
  have hL := Level.sound_withLeft hc n
  refine .bind (hi.comes hn asked_zero i.fits_zero hs (Lexeme.ends_mark hclose)) hs.fine
    (hL.expr 0 s) id (fun _ => ?_) fun hdeep i' t hsame => ?_
  · exact .bind (fun _ => (reading_expectMark _).onward) fun _ => .spanFrom _ fun _ => .pure _
  · exact .expect hsame.2 fun _ _ hu => .spanFrom fun span => .pure hdeep ⟨hmake hsame.1, hu⟩

/-- An expression that starts with no other expression is read as an operand. -/
theorem readsBack_operand (hspine : e.spine = 1) (hnesting : e.nesting = k + 1)
    (h : ∀ {n d : Nat} {s : State} {more : List Lexeme}, n + d ≤ maxNesting →
      s.Awaits c d (e.lexemes ++ more) → e.Precedes more →
      Comes (n < k) s (operand (Level.withLeft c.template n)) (Same c d e more)) :
    ReadsBack c e := by
  intro n d power s more hn _ hs hyields
  rw [hspine, hnesting]
  cases n with
  | zero => exact .inl ⟨Nat.succ_pos k, hs.deep_tooDeep⟩
  | succ n =>
    have hL := Level.sound_withLeft hc n
    have hlt : s.depth < maxNesting := by
      rw [hs.depth]
      omega
    have hexec := exec_nested (operand (Level.withLeft c.template n) >>=
      (Level.withLeft c.template n).operators power) s
    rw [if_pos hlt, hs.depth] at hexec
    have hle : d + 1 ≤ maxNesting := by omega
    have hdown := hs.level hle
    rcases (h (by omega) hdown hyields).exec_bind hdown.fine ((reads_operand hL).up _)
      fun lhs t hlhs => (hL.operators power (Nat.le_succ n) hlhs).onward with
      ⟨hdeep, hlisted⟩ | ⟨hdeep, e', t, hpass, hsame, heq⟩
    · refine .inl ⟨by omega, ?_⟩
      change (exec (nested _) s).2.Deep
      rw [hexec]
      exact hlisted
    · refine .inr ⟨by omega, e', t, ⟨_, hpass⟩, hsame, hexec.trans ?_⟩
      rw [heq]
      rfl

/-- An operator after its left operand is applied to it. -/
theorem readsBack_infix {op : Infix} {tail : List Lexeme} (hl : ReadsBack c l)
    (hyields : l.Yields op) (houter : e.outer? = some op)
    (hlexemes : e.lexemes = l.lexemes ++ (op.lexemes ++ tail)) (htoken : op.token?.isSome)
    (hspine : e.spine = l.spine + 1) (hnesting : e.nesting = max l.nesting (l.spine + 1 + k))
    (h : ∀ {n d : Nat} {s : State} {more : List Lexeme} {l' : Expr}, n + d ≤ maxNesting →
      l'.bare = l.bare → s.Awaits c d (tail ++ more) → e.Precedes more →
      Comes (n < k) s (applied (Level.withLeft c.template n) op l') (Same c d e more)) :
    ReadsBack c e := by
  intro n d power s more hn hfits hs hmore
  obtain ⟨kind, hkind⟩ := Option.isSome_iff_exists.1 htoken
  have hop := Infix.operator?_of_token? hkind
  have hpower : power ≤ op.left := hfits op houter
  have hop_lexemes : op.lexemes = [.fixed kind] := by simp [Infix.lexemes, hkind]
  rw [hlexemes, hop_lexemes] at hs
  simp only [append_assoc, cons_append, nil_append] at hs
  have hnext : l.Precedes (Lexeme.fixed kind :: (tail ++ more)) := by
    intro op' hop'
    cases hop.symm.trans hop'
    exact hyields
  rw [hspine, hnesting]
  rcases hl n d power s _ hn (hyields.fits hpower) hs hnext with
    ⟨hdeep, hlisted⟩ | ⟨hdeep, l', t, ⟨s₀, hpass⟩, ⟨hbare, ht⟩, heq⟩
  · exact .inl ⟨by omega, hlisted⟩
  · rw [heq]
    have hoperator : t.operator? = some op := ht.operator?_eq.trans hop
    have hadvance := ht.advance.2
    cases hlevel : n - l.spine with
    | zero =>
      -- no level is left for the operator
      refine .inl ⟨by omega, ?_⟩
      have hexec : exec ((Level.withLeft c.template 0).operators power l') t =
          exec tooDeep t.advance :=
        exec_withOperator hoperator hpower
      rw [hexec]
      exact hadvance.deep_tooDeep
    | succ j =>
      have hL := Level.sound_withLeft hc j
      have hle : d + l.spine + 1 ≤ maxNesting := by omega
      have hdown := hadvance.level hle
      have hexec : exec ((Level.withLeft c.template (j + 1)).operators power l') t =
          exec (applied (Level.withLeft c.template j) op l' >>=
            (Level.withLeft c.template j).operators power)
            { t.advance with depth := d + l.spine + 1 } := by
        refine (exec_withOperator hoperator hpower).trans ?_
        rw [Parser.exec_bind, exec_descend, hadvance.depth, if_pos (by omega)]
      have hj : n - (l.spine + 1) = j := by omega
      have hkind := State.operator?_kind hoperator
      obtain ⟨hne, herr⟩ := TokenKind.wellFormed_of_operator? hkind
      have htook := took_advance ht.fine hne herr
      have hoccurs : op.OccursIn s₀.rest := by
        rintro rfl
        have htoken := TokenKind.token?_of_operator? hkind
        exact ⟨t.current, hpass.onward.suffix.subset htook.mem, (Option.some.inj htoken).symm⟩
      have honto := (hpass.onto htook.onward).onto (hadvance.fine.level hle)
      rw [hexec, hj]
      rcases (h (by omega) hbare hdown hmore).exec_bind hdown.fine
        (reading_applied hL (by omega) hoccurs honto)
        fun e t he => (hL.operators (l := n) power (by omega) he).onward with
        ⟨hdeep', hlisted⟩ | ⟨hdeep', e', u, hpass', hsame, heq'⟩
      · exact .inl ⟨by omega, hlisted⟩
      · exact .inr ⟨by omega, e', u, ⟨s₀, hpass'⟩, hsame, by rw [heq']⟩

/-! ### Operands -/

theorem readsBack_ident {x : Ident} (hname : Keyword.ofWord? x.name.toList = none) :
    ReadsBack c (.ident x) := by
  refine readsBack_operand hc rfl rfl fun {n d s more} hn hs _ => ?_
  have hlexeme : Lexeme.word x.name = ⟨.label, x.name.toList⟩ := by
    simp [Lexeme.word, wordKind, hname]
  rw [Expr.lexemes, hlexeme] at hs
  unfold operand
  refine .get ?_
  rw [hs.kind_eq]
  refine .get (.ident hs fun {y u} hy hu => ?_)
  have harrow : s.ahead 1 ≠ .punct .arrow := hs.ahead_ne (by decide) 1
  rw [if_neg (by simpa using harrow)]
  refine .pure (Nat.not_lt_zero _) ⟨?_, hu⟩
  simp [hy]

theorem readsBack_int (h : n < integerBound) :
    ReadsBack c (.int span n) := by
  refine readsBack_operand hc rfl rfl fun {_ d s more} _ hs _ => ?_
  rw [Expr.lexemes] at hs
  unfold operand
  refine .get ?_
  rw [hs.kind_eq]
  refine .expect hs fun {t u} _ htext hu => ?_
  have hvalue : integerValue? t.text = some n := by
    rw [htext]
    exact Lexeme.integerValue?_decimal h
  rw [hvalue]
  exact .pure (Nat.not_lt_zero _) ⟨rfl, hu⟩

theorem readsBack_paren (he : ReadsBack c e) :
    ReadsBack c (.paren span e) := by
  refine readsBack_operand hc rfl rfl fun {n d s more} hn hs _ => ?_
  rw [Expr.lexemes] at hs
  simp only [cons_append, append_assoc, nil_append] at hs
  unfold operand
  refine .get ?_
  rw [hs.kind_eq]
  refine .get (.expect hs fun {t u} _ _ hu => ?_)
  rw [if_neg (by simp [hs.atArrowParams_eq_false])]
  exact he.comes_enclosed hc hn rfl hu fun h => by simp [h]

theorem readsBack_unary {op : UnaryOp}
    (he : ReadsBack c e) (hfits : e.Fits prefixPower) :
    ReadsBack c (.unary span op e) := by
  refine readsBack_operand hc rfl rfl fun {n d s more} hn hs hmore => ?_
  rw [Expr.lexemes] at hs
  have hunary : s.kind.unary? = some op := by
    rw [hs.kind_eq]
    cases op <;> rfl
  refine .of_exec_eq ?_ (exec_operand_eq_prefixOperand (.inl (by simp [hunary])))
  unfold prefixOperand
  refine .get ?_
  rw [hunary]
  refine .advance hs fun {t u} _ _ hu => ?_
  have hends : Lexeme.Ends prefixPower more := fun op hop => hmore op hop _ rfl
  exact he.comes_last hc hn asked_prefixPower hfits hu hends fun h => by simp [h]

theorem readsBack_update_before {op : UpdateOp}
    (he : ReadsBack c e) (htarget : isTarget e) :
    ReadsBack c (.update span op true e) := by
  refine readsBack_operand hc rfl rfl fun {n d s more} hn hs hmore => ?_
  have hL := Level.sound_withLeft hc n
  rw [Expr.lexemes] at hs
  have hunary : s.kind.unary? = none := by
    rw [hs.kind_eq]
    cases op <;> rfl
  have hupdate : s.kind.update? = some op := by
    rw [hs.kind_eq]
    cases op <;> rfl
  refine .of_exec_eq ?_ (exec_operand_eq_prefixOperand (.inr (by simp [hupdate])))
  unfold prefixOperand
  refine .get ?_
  rw [hunary, hupdate]
  refine .advance hs fun {t u} _ _ hu => ?_
  have hends : Lexeme.Ends prefixPower more := fun op hop => hmore op hop _ rfl
  have hfits := Expr.fits_of_isTarget htarget
  refine .bind (he.comes hn asked_prefixPower hfits hu hends) hu.fine (hL.expr _ u) id
    (fun _ => ?_) fun hdeep e' v hsame => ?_
  · exact .bind (.of_reads (reads_checkTarget _)) fun _ => .spanFrom _ fun _ => .pure _
  · refine .checkTarget (Expr.isTarget_of_bare hsame.1 htarget) ?_
    refine .spanFrom fun span => .pure hdeep ⟨?_, hsame.2⟩
    simp [hsame.1]

/-! ### Operators applied to an expression -/

theorem readsBack_update_after {op : UpdateOp}
    (he : ReadsBack c e) (htarget : isTarget e) :
    ReadsBack c (.update span op false e) := by
  have hlexemes : (Expr.update span op false e).lexemes =
      e.lexemes ++ ((Infix.update op).lexemes ++ []) := by
    rw [Expr.lexemes, append_nil]
  have hnesting : (Expr.update span op false e).nesting = max e.nesting (e.spine + 1 + 0) := rfl
  refine readsBack_infix hc he (Expr.yields_of_isTarget htarget _) rfl hlexemes rfl rfl
    hnesting fun {n d s more l'} hn hbare hs _ => ?_
  unfold applied
  refine .checkTarget (Expr.isTarget_of_bare hbare htarget) ?_
  refine .spanFrom fun span => .pure (Nat.not_lt_zero _) ⟨?_, hs⟩
  simp [hbare]

theorem readsBack_binary {op : BinaryOp} (hl : ReadsBack c l) (hyields : l.Yields (.binary op))
    (hr : ReadsBack c r) (hfits : r.Fits (Infix.binary op).right) :
    ReadsBack c (.binary span op l r) := by
  refine readsBack_infix hc hl hyields rfl rfl rfl rfl rfl
    fun {n d s more l'} hn hbare hs hmore => ?_
  have hpower : Asked (Infix.binary op).right := asked_right (by cases op <;> decide)
  have hends : Lexeme.Ends (Infix.binary op).right more := fun op hop => hmore op hop _ rfl
  unfold applied
  exact hr.comes_last hc hn hpower hfits hs hends fun h => by simp [hbare, h]

theorem readsBack_assign {op : AssignOp} (hop : op.mark?.isSome) (hl : ReadsBack c l)
    (htarget : isTarget l) (hr : ReadsBack c r) (hfits : r.Fits (Infix.assign op).right) :
    ReadsBack c (.assign span op l r) := by
  refine readsBack_infix hc hl (Expr.yields_of_isTarget htarget _) rfl rfl
    (by simpa [Infix.token?] using hop) rfl rfl fun {n d s more l'} hn hbare hs hmore => ?_
  have hpower : Asked (Infix.assign op).right :=
    asked_right (by simp [Infix.right, Infix.powers, prefixPower])
  have hends : Lexeme.Ends (Infix.assign op).right more := fun op hop => hmore op hop _ rfl
  unfold applied
  refine .checkTarget (Expr.isTarget_of_bare hbare htarget) ?_
  exact hr.comes_last hc hn hpower hfits hs hends fun h => by simp [hbare, h]

theorem readsBack_conditional {test yes no : Expr}
    (htest : ReadsBack c test) (hyields : test.Yields .conditional)
    (hyes : ReadsBack c yes) (hno : ReadsBack c no)
    (hfits : no.Fits Infix.conditional.right) :
    ReadsBack c (.conditional span test yes no) := by
  refine readsBack_infix hc htest hyields rfl rfl rfl rfl rfl
    fun {n d s more test'} hn hbare hs hmore => ?_
  have hL := Level.sound_withLeft hc n
  have hends : Lexeme.Ends Infix.conditional.right more := fun op hop => hmore op hop _ rfl
  simp only [append_assoc, cons_append] at hs
  unfold applied
  refine .bind (hyes.comes hn asked_zero yes.fits_zero hs (Lexeme.ends_mark rfl)) hs.fine
    (hL.expr 0 s) (by omega) (fun _ => ?_) fun hdeep yes' t hyes' => ?_
  · refine .bind (fun _ => (reading_expectMark _).onward) fun _ => ?_
    exact .bind (.of_reads (hL.expr _)) fun _ => .spanFrom _ fun _ => .pure _
  · refine .expect hyes'.2 fun {_ u} _ _ hu => ?_
    refine .bind (hno.comes hn (asked_right (by decide)) hfits hu hends) hu.fine (hL.expr _ u)
      (by omega) (fun _ => .spanFrom _ fun _ => .pure _) fun hdeep' no' v hno' => ?_
    refine .spanFrom fun span => .pure (by omega) ⟨?_, hno'.2⟩
    simp [hbare, hyes'.1, hno'.1]

theorem readsBack_member {x : Ident} (he : ReadsBack c e) (hyields : e.Yields (.member optional)) :
    ReadsBack c (.member span e x optional) := by
  have hnesting : (Expr.member span e x optional).nesting = max e.nesting (e.spine + 1 + 0) := rfl
  refine readsBack_infix hc he hyields rfl rfl rfl rfl hnesting
    fun {n d s more e'} hn hbare hs _ => ?_
  have hkind : wordKind .normal x.name.toList = .label ∨
      (wordKind .normal x.name.toList).isKeyword := by
    unfold wordKind
    cases Keyword.ofWord? x.name.toList <;> simp [TokenKind.isKeyword]
  unfold applied
  refine .propertyName hkind hs fun {y u} hy hu => ?_
  refine .spanFrom fun span => .pure (Nat.not_lt_zero _) ⟨?_, hu⟩
  simp [hbare, hy]

theorem readsBack_index {i : Expr} (he : ReadsBack c e) (hyields : e.Yields (.index optional))
    (hi : ReadsBack c i) :
    ReadsBack c (.index span e i optional) := by
  refine readsBack_infix hc he hyields rfl rfl rfl rfl rfl
    fun {n d s more e'} hn hbare hs _ => ?_
  simp only [append_assoc, cons_append, nil_append] at hs
  unfold applied
  exact hi.comes_enclosed hc hn rfl hs fun h => by simp [hbare, h]

/-! ### Arguments -/

omit hc in
theorem comes_element {a : Expr} (ha : ReadsBack c a) (hn : n + d ≤ maxNesting)
    (hs : s.Awaits c d (a.lexemes ++ more)) (hends : Lexeme.Ends 0 more) :
    Comes (n < a.nesting) s (element (Level.withLeft c.template n)) (Same c d a more) := by
  refine .of_exec_eq (ha.comes hn asked_zero a.fits_zero hs hends) ?_
  have hspread : s.kind ≠ .punct .ellipsis := hs.kind_ne (by decide)
  rw [element, exec_get, exec_takeMark, if_neg (by simpa using hspread)]
  rfl

/-- One argument is read, and then what follows it. -/
theorem comes_itemsUpTo_succ {a : Expr} (ha : a.Fitted) (hreads : ReadsBack c a)
    (hn : n + d ≤ maxNesting) {rest : List Lexeme} (hs : s.Awaits c d (a.lexemes ++ rest))
    (hends : Lexeme.Ends 0 rest) {deep : Prop} {P : List Expr → State → Prop}
    (hdeep : n < a.nesting → deep) (hnext : ¬ n < a.nesting → ∀ a' t, Same c d a rest a' t →
      Comes deep t (furtherItems (.punct .rparen) (element (Level.withLeft c.template n)) k a') P) :
    Comes deep s (itemsUpTo (.punct .rparen) (element (Level.withLeft c.template n)) (k + 1))
      P := by
  have helement := reads_element (Level.sound_withLeft hc n)
  have hend : s.atEnd [.punct .rparen] = false := by
    obtain ⟨l, ls, hlexemes, hrparen⟩ := ha.exists_head
    rw [hlexemes] at hs
    have heof : l.kind ≠ .eof := by
      intro heq
      exact absurd (hs.ordinary l (by simp)) (by simp [heq, TokenKind.isOrdinary])
    simp [State.atEnd, hs.kind_eq, hrparen, heof]
  have hfirst := comes_retrying (.punct .rparen) helement hs.fine (comes_element hreads hn hs hends)
    s.rest.length
  refine .of_exec_eq (.bind hfirst hs.fine (reads_retrying _ helement _ s) hdeep
    (runs_furtherItems _ helement k) hnext) ?_
  rw [exec_itemsUpTo_succ, if_neg (by simp [hend])]

/-- Arguments are read up to the closing parenthesis. -/
theorem comes_itemsUpTo {args : List Expr} (hn : n + d ≤ maxNesting) (hargs : ∀ a ∈ args, a.Fitted)
    (hreads : ∀ a ∈ args, ReadsBack c a)
    (hs : s.Awaits c d (Expr.argsLexemes args ++ .fixed (.punct .rparen) :: more))
    (hk : s.rest.length ≤ k) :
    Comes (n < Expr.argsNesting args) s
      (itemsUpTo (.punct .rparen) (element (Level.withLeft c.template n)) k)
      (fun args' t => Expr.bareArgs args' = Expr.bareArgs args ∧
        t.Awaits c d (.fixed (.punct .rparen) :: more)) := by
  have helement := reads_element (Level.sound_withLeft hc n)
  induction args generalizing s k with
  | nil =>
    have hlength := hs.length_eq
    simp only [Expr.argsLexemes, nil_append, length_cons] at hlength
    obtain ⟨k, rfl⟩ : ∃ j, k = j + 1 := ⟨k - 1, by omega⟩
    have hend : s.atEnd [.punct .rparen] = true := by
      simp [State.atEnd, hs.kind_eq, Lexeme.fixed]
    refine .of_exec_eq (.pure (Nat.not_lt_zero _) ⟨rfl, hs⟩) ?_
    rw [exec_itemsUpTo_succ, if_pos hend]
    rfl
  | cons a as ih =>
    obtain ⟨ha, has⟩ := forall_mem_cons.1 hargs
    obtain ⟨hra, hras⟩ := forall_mem_cons.1 hreads
    have hlength := hs.length_eq
    simp only [length_append, length_cons] at hlength
    obtain ⟨k, rfl⟩ : ∃ j, k = j + 1 := ⟨k - 1, by omega⟩
    have hdeep : n < a.nesting → n < Expr.argsNesting (a :: as) := by
      simp only [Expr.argsNesting]
      omega
    cases as with
    | nil =>
      refine comes_itemsUpTo_succ hc ha hra hn hs (Lexeme.ends_mark rfl) hdeep
        fun hin a' t hsame => ?_
      refine .of_exec_eq (.pure ?_ ⟨?_, hsame.2⟩)
        (exec_furtherItems_close hsame.2.kind_eq (by decide))
      · simpa [Expr.argsNesting] using hin
      · simp [hsame.1]
    | cons b as =>
      have hlexemes : Expr.argsLexemes (a :: b :: as) ++ .fixed (.punct .rparen) :: more =
          a.lexemes ++ .fixed (.punct .comma) ::
            (Expr.argsLexemes (b :: as) ++ .fixed (.punct .rparen) :: more) := by
        rw [Expr.argsLexemes, append_assoc, cons_append]
      rw [hlexemes] at hs
      refine comes_itemsUpTo_succ hc ha hra hn hs (Lexeme.ends_mark rfl) hdeep
        fun hin a' t hsame => ?_
      have hadvance := hsame.2.advance.2
      have hlength' := hadvance.length_eq
      have hnesting : Expr.argsNesting (a :: b :: as) =
          max a.nesting (Expr.argsNesting (b :: as)) := rfl
      refine .of_exec_eq (.bind (ih has hras hadvance ?_) hadvance.fine
        (reads_itemsUpTo _ helement k _) ?_ (fun _ => .pure _) fun hin' as' u hu => ?_)
        (exec_furtherItems_comma hsame.2.kind_eq)
      · simp [Expr.argsLexemes] at hlength hlength' ⊢
        omega
      · omega
      · refine .pure (by omega) ⟨?_, hu.2⟩
        rw [Expr.bareArgs, Expr.bareArgs, hsame.1, hu.1]

theorem readsBack_call {args : List Expr} (he : ReadsBack c e) (hyields : e.Yields (.call optional))
    (hargs : ∀ a ∈ args, a.Fitted) (hreads : ∀ a ∈ args, ReadsBack c a) :
    ReadsBack c (.call span e args optional) := by
  refine readsBack_infix hc he hyields rfl rfl rfl rfl rfl
    fun {n d s more e'} hn hbare hs _ => ?_
  have helement := reads_element (Level.sound_withLeft hc n)
  simp only [append_assoc, cons_append, nil_append] at hs
  have hitems := comes_itemsUpTo hc hn hargs hreads hs le_rfl
  unfold applied
  refine .bind (.get hitems) hs.fine (reads_items _ helement s) id
    (fun _ => ?_) fun hdeep args' t hargs' => ?_
  · exact .bind (fun _ => (reading_expectMark _).onward) fun _ => .spanFrom _ fun _ => .pure _
  · refine .expect hargs'.2 fun _ _ hu => .spanFrom fun span => .pure hdeep ⟨?_, hu⟩
    simp [hbare, hargs'.1]

/-- A fitted expression is read from its lexemes. -/
theorem readsBack_of_fitted (h : e.Fitted) : ReadsBack c e := by
  induction h with
  | ident _ hname => exact readsBack_ident hc hname
  | int hn => exact readsBack_int hc hn
  | paren _ ih => exact readsBack_paren hc ih
  | unary _ hfits ih => exact readsBack_unary hc ih hfits
  | @update _ _ before _ _ htarget ih =>
    cases before with
    | true => exact readsBack_update_before hc ih htarget
    | false => exact readsBack_update_after hc ih htarget
  | binary _ hyields _ hfits ihl ihr => exact readsBack_binary hc ihl hyields ihr hfits
  | assign hop _ htarget _ hfits ihl ihr =>
    exact readsBack_assign hc hop ihl htarget ihr hfits
  | conditional _ hyields _ _ hfits ihtest ihyes ihno =>
    exact readsBack_conditional hc ihtest hyields ihyes ihno hfits
  | member _ hyields _ ih => exact readsBack_member hc ih hyields
  | index _ hyields _ ih ihi => exact readsBack_index hc ih hyields ihi
  | call _ hyields hargs ih ihargs => exact readsBack_call hc ih hyields hargs ihargs

end

/-! ### Whole expressions -/

/-- Reading a fitted expression written on one line starts before its lexemes. -/
theorem awaits_tokenize (h : e.Fitted) :
    (State.ofTokens (tokenize .normal (Lexeme.line e.lexemes))).Awaits
      (wholeSheet (Lexeme.line e.lexemes)) 0 e.lexemes := by
  have hclosed := h.closed
  obtain ⟨ts, eof, htokens, hlexemes, hline, -⟩ :=
    lexemes_tokensFrom (hclosed.lexable .none) 0 (.inl rfl) (.inl rfl)
  have hrest : (State.ofTokens (tokenize .normal (Lexeme.line e.lexemes))).rest = ts := by
    rw [nil_append, append_nil] at htokens
    change (tokensFrom .normal .none 0 (Lexeme.line e.lexemes)).dropLast = ts
    rw [htokens, dropLast_concat]
  refine ⟨fine_tokenize _ _, rfl, ?_, ?_, hclosed.ordinary, rfl⟩
  · rw [hrest, hlexemes]
  · rw [hrest]
    exact hline

/-- An expression is read up to the end. -/
theorem Comes.wholeExpr {deep : Prop} {L : Level} {k : Nat} (hL : L.Sound c k) (hs : s.Fine c)
    (h : Comes deep s (L.expr 0) (Same c d e [])) (textEnd : Nat) :
    (deep ∧ ((wholeExpr L textEnd).run s).2.Deep) ∨
      (¬ deep ∧ ((wholeExpr L textEnd).run s).1.bare = e.bare ∧
        ((wholeExpr L textEnd).run s).2.errors = []) := by
  have hrun : (Parser.wholeExpr L textEnd).run s =
      ((exec (L.expr 0) s).1.getD (.invalid ⟨textEnd, 0⟩),
        (exec (Parser.expect .eof) (exec (L.expr 0) s).2).2) := rfl
  rw [hrun]
  rcases h with ⟨hdeep, hlisted⟩ | ⟨hdeep, e', t, heq, hbare, ht⟩
  · have hfine := ((hL.expr 0 s).onward hs).fine
    exact .inl ⟨hdeep, (exec_expect_eof hfine).1.deep hlisted⟩
  · rw [heq]
    have hkind : (t.kind == .eof) = true := by simp [ht.kind_nil]
    have hexec : exec (Parser.expect .eof) t = (some t.current, t.advance) := by
      rw [Parser.expect, exec_get, if_pos hkind]
      rfl
    have hrest : t.rest = [] := map_eq_nil_iff.1 ht.rest
    have hadvance : t.advance = t := by simp [State.advance, hrest]
    rw [hexec, hadvance]
    exact .inr ⟨hdeep, hbare, ht.clean⟩

/-- A fitted expression is read at the top level from its lexemes. -/
theorem comes_top {source : List Char} (h : e.Fitted)
    (hs : s.Awaits (wholeSheet source) 0 e.lexemes) :
    Comes (maxNesting < e.nesting) s ((top (bytes source)).expr 0)
      (Same (wholeSheet source) 0 e []) := by
  have hreads : ReadsBack (wholeSheet source) e := readsBack_of_fitted (sound_sheet _ _) h
  rw [← append_nil e.lexemes] at hs
  have hends : Lexeme.Ends 0 [] := by simp [Lexeme.Ends, Lexeme.operator?]
  have htop : top (bytes source) = Level.withLeft (wholeSheet source).template maxNesting := rfl
  rw [htop]
  exact hreads.comes le_rfl asked_zero e.fits_zero hs hends

end Parser

/-- **Reading back.** A fitted expression that is written on one line is read as the same expression
and without a fault, if reading it takes no more levels than there are; otherwise it is reported to
be nested too deep. -/
theorem parseExpr_line {e : Expr} (h : e.Fitted) :
    (e.nesting ≤ maxNesting → (parseExpr (Lexeme.line e.lexemes)).1.bare = e.bare ∧
      (parseExpr (Lexeme.line e.lexemes)).2 = []) ∧
    (maxNesting < e.nesting →
      ∃ fault ∈ (parseExpr (Lexeme.line e.lexemes)).2, fault.value = .nestingTooDeep) := by
  have hs := Parser.awaits_tokenize h
  have hexpr := Parser.comes_top h hs
  rcases hexpr.wholeExpr (Parser.sound_top _) hs.fine (bytes (Lexeme.line e.lexemes)) with
    ⟨hdeep, hlisted⟩ | ⟨hdeep, hbare, hclean⟩
  · exact ⟨fun hle => absurd hdeep (Nat.not_lt.2 hle), fun _ => hlisted⟩
  · exact ⟨fun _ => ⟨hbare, hclean⟩, fun hlt => absurd hlt hdeep⟩

/-- Operators of many powers, written out and read back. -/
theorem parseExpr_line_mixed : ∃ e : Expr, e.Fitted ∧ e.nesting ≤ maxNesting ∧
    Lexeme.line e.lexemes =
      "a . in / ( b ?? 1 ) - - c [ 0 ] ** 2 ? d = ++ e : f ?.( 7 , g -- )".toList ∧
    (parseExpr (Lexeme.line e.lexemes)).1.bare = e.bare ∧
    (parseExpr (Lexeme.line e.lexemes)).2 = [] := by
  have hquotient : (Expr.binary ⟨0, 0⟩ .div
      (.member ⟨0, 0⟩ (.ident ⟨"a", ⟨0, 0⟩⟩) ⟨"in", ⟨0, 0⟩⟩ false)
      (.paren ⟨0, 0⟩ (.binary ⟨0, 0⟩ .nullish (.ident ⟨"b", ⟨0, 0⟩⟩) (.int ⟨0, 0⟩ 1)))).Fitted := by
    refine .binary (.member (.ident ?_ ?_) ?_ ?_) ?_
      (.paren (.binary (.ident ?_ ?_) ?_ (.int ?_) ?_)) ?_ <;> decide
  have hpower : (Expr.binary ⟨0, 0⟩ .exp
      (.unary ⟨0, 0⟩ .neg (.index ⟨0, 0⟩ (.ident ⟨"c", ⟨0, 0⟩⟩) (.int ⟨0, 0⟩ 0) false))
      (.int ⟨0, 0⟩ 2)).Fitted := by
    refine .binary (.unary (.index (.ident ?_ ?_) ?_ (.int ?_)) ?_) ?_ (.int ?_) ?_ <;> decide
  have hassign : (Expr.assign ⟨0, 0⟩ .assign (.ident ⟨"d", ⟨0, 0⟩⟩)
      (.update ⟨0, 0⟩ .increment true (.ident ⟨"e", ⟨0, 0⟩⟩))).Fitted := by
    refine .assign ?_ (.ident ?_ ?_) ?_ (.update (.ident ?_ ?_) ?_) ?_ <;> decide
  have hcall : (Expr.call ⟨0, 0⟩ (.ident ⟨"f", ⟨0, 0⟩⟩)
      [.int ⟨0, 0⟩ 7, .update ⟨0, 0⟩ .decrement false (.ident ⟨"g", ⟨0, 0⟩⟩)] true).Fitted := by
    refine .call (.ident ?_ ?_) ?_ (List.forall_mem_cons.2 ⟨.int ?_,
      List.forall_mem_singleton.2 (.update (.ident ?_ ?_) ?_)⟩) <;> decide
  have hfitted : (Expr.conditional ⟨0, 0⟩ (.binary ⟨0, 0⟩ .sub _ _) _ _).Fitted :=
    .conditional (.binary hquotient (by decide) hpower (by decide)) (by decide) hassign hcall
      (by decide)
  exact ⟨_, hfitted, by decide, by decide +kernel, (parseExpr_line hfitted).1 (by decide)⟩

end ScriptCheck
