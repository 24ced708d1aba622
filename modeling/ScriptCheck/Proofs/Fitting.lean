import ScriptCheck.Proofs.Lexemes
import ScriptCheck.Proofs.Spelling

/-!
# Expressions that need no further parentheses

Some expressions are what reading their tokens from left to right makes of them: each operand that
stands without parentheses is held together by the powers of the operators around it. That is
`Expr.Fitted`, which asks for two things. An operand after an operator has outermost an operator of
at least the power asked for there (`Expr.Fits`), and an operand before an operator binds what
follows it more strongly than that operator binds its left side (`Expr.Yields`).

The lexemes of such an expression, in order, are `Expr.lexemes`. Written on one line they are read
as tokens again (`Expr.Fitted.closed`): a slash comes after an operand only, where it divides.
`Expr.nesting` is the number of levels that reading the expression takes, and `Expr.spine` the
number of them that are used up when it is read.
-/

namespace ScriptCheck

open Text

/-! ### The table of powers -/

namespace Infix

/-- The powers of all operators. -/
def table : List (Nat × Nat) :=
  [(2, 1), (4, 3), (5, 6), (7, 8), (9, 10), (11, 12), (13, 14), (15, 16), (17, 18), (19, 20),
   (21, 22), (23, 24), (25, 26), (28, 27), (31, 32), (33, 34)]

theorem powers_mem_table (op : Infix) : op.powers ∈ table := by
  cases op with
  | binary op => cases op <;> decide
  | _ => simp [powers, table]

/-- The right power is at most one above the left power. -/
theorem right_le (op : Infix) : op.right ≤ op.left + 1 := by
  have htable : ∀ p ∈ table, p.2 ≤ p.1 + 1 := by decide
  exact htable _ op.powers_mem_table

/-- The operator is read at its own token. -/
theorem operator?_of_token? {op : Infix} {kind : TokenKind} (h : op.token? = some kind) :
    kind.operator? = some op := by
  cases op with
  | assign op =>
    cases op with
    | assign =>
      cases h
      rfl
    | compound op => cases op <;> cases h <;> rfl
  | binary op => cases op <;> cases h <;> rfl
  | update op => cases op <;> cases h <;> rfl
  | conditional =>
    cases h
    rfl
  | member optional | call optional | index optional => cases optional <;> cases h <;> rfl

end Infix

/-- A power such that no operator whose left power reaches it has a smaller right power. -/
structure Asked (power : Nat) : Prop where
  le_prefixPower : power ≤ prefixPower
  le_right {op : Infix} : power ≤ op.left → power ≤ op.right

theorem asked_zero : Asked 0 := ⟨Nat.zero_le _, fun _ => Nat.zero_le _⟩

theorem asked_prefixPower : Asked prefixPower := by
  have htable : ∀ p ∈ Infix.table, prefixPower ≤ p.1 → prefixPower ≤ p.2 := by decide
  exact ⟨Nat.le_refl _, fun {op} => htable _ op.powers_mem_table⟩

variable {op : Infix}

/-- The right power of an operator, as long as an operator before its operand binds more. -/
theorem asked_right (h : op.right ≤ prefixPower) : Asked op.right := by
  have htable : ∀ p ∈ Infix.table, ∀ q ∈ Infix.table, p.2 ≤ q.1 → p.2 ≤ q.2 := by decide
  exact ⟨h, fun {op'} => htable _ op.powers_mem_table _ op'.powers_mem_table⟩

/-! ### Fitted expressions -/

namespace Expr

/-- The operator outermost in an expression, if that stands after its first operand. -/
def outer? : Expr → Option Infix
  | .update _ op false _ => some (.update op)
  | .binary _ op _ _ => some (.binary op)
  | .assign _ op _ _ => some (.assign op)
  | .conditional _ _ _ _ => some .conditional
  | .call _ _ _ optional => some (.call optional)
  | .member _ _ _ optional => some (.member optional)
  | .index _ _ _ optional => some (.index optional)
  | _ => none

/-- How strongly the outermost operator binds what follows the expression. -/
def closing? : Expr → Option Nat
  | .unary _ _ _ | .update _ _ true _ => some prefixPower
  | e => e.outer?.map Infix.right

/-- An expression may stand where a power is asked for. -/
def Fits (power : Nat) (e : Expr) : Prop := ∀ op ∈ e.outer?, power ≤ op.left

/-- An expression may stand before an operator. -/
def Yields (op : Infix) (e : Expr) : Prop := ∀ power ∈ e.closing?, op.left < power

instance (power : Nat) (e : Expr) : Decidable (e.Fits power) :=
  inferInstanceAs (Decidable (∀ op ∈ e.outer?, _))

instance (op : Infix) (e : Expr) : Decidable (e.Yields op) :=
  inferInstanceAs (Decidable (∀ power ∈ e.closing?, _))

/-- Expressions of names, integers, parentheses and operators in which every operand fits the place
it stands in. What is assigned to or updated is a name, a member or an index, and fits anywhere. -/
inductive Fitted : Expr → Prop
  | ident {x : Ident} (hword : isWord x.name.toList)
      (hname : Keyword.ofWord? x.name.toList = none) : Fitted (.ident x)
  | int {span : Span} {n : Nat} (h : n < integerBound) : Fitted (.int span n)
  | paren {span : Span} {e : Expr} (he : Fitted e) : Fitted (.paren span e)
  | unary {span : Span} {op : UnaryOp} {e : Expr} (he : Fitted e) (hfits : e.Fits prefixPower) :
    Fitted (.unary span op e)
  | update {span : Span} {op : UpdateOp} {before : Bool} {e : Expr} (he : Fitted e)
      (htarget : Parser.isTarget e) : Fitted (.update span op before e)
  | binary {span : Span} {op : BinaryOp} {l r : Expr} (hl : Fitted l)
      (hyields : l.Yields (.binary op)) (hr : Fitted r)
      (hfits : r.Fits (Infix.binary op).right) : Fitted (.binary span op l r)
  | assign {span : Span} {op : AssignOp} {l r : Expr} (hop : op.mark?.isSome) (hl : Fitted l)
      (htarget : Parser.isTarget l) (hr : Fitted r) (hfits : r.Fits (Infix.assign op).right) :
    Fitted (.assign span op l r)
  | conditional {span : Span} {test yes no : Expr} (htest : Fitted test)
      (hyields : test.Yields .conditional) (hyes : Fitted yes) (hno : Fitted no)
      (hfits : no.Fits Infix.conditional.right) : Fitted (.conditional span test yes no)
  | member {span : Span} {e : Expr} {x : Ident} {optional : Bool} (he : Fitted e)
      (hyields : e.Yields (.member optional)) (hword : isWord x.name.toList) :
    Fitted (.member span e x optional)
  | index {span : Span} {e i : Expr} {optional : Bool} (he : Fitted e)
      (hyields : e.Yields (.index optional)) (hi : Fitted i) : Fitted (.index span e i optional)
  | call {span : Span} {e : Expr} {args : List Expr} {optional : Bool} (he : Fitted e)
      (hyields : e.Yields (.call optional)) (hargs : ∀ a ∈ args, Fitted a) :
    Fitted (.call span e args optional)

theorem fits_zero (e : Expr) : e.Fits 0 := fun _ _ => Nat.zero_le _

variable {e : Expr}

/-- What may be assigned to has no outermost operator, or one of the strongest. -/
theorem powers_of_isTarget (h : Parser.isTarget e) :
    e.closing? = e.outer?.map Infix.right ∧ ∀ op ∈ e.outer?, op.powers = (33, 34) := by
  unfold Parser.isTarget at h
  split at h
  · simp [closing?, outer?]
  · simp [closing?, outer?, Infix.powers]
  · simp [closing?, outer?, Infix.powers]
  · simp [closing?, outer?]
  · cases h

theorem fits_of_isTarget (h : Parser.isTarget e) : e.Fits prefixPower := by
  intro op hop
  have hpowers := (powers_of_isTarget h).2 op hop
  simp [Infix.left, hpowers, prefixPower]

theorem yields_of_isTarget (h : Parser.isTarget e) (op : Infix) : e.Yields op := by
  intro k hk
  obtain ⟨hclosing, hpowers⟩ := powers_of_isTarget h
  obtain ⟨op', hop', rfl⟩ := Option.map_eq_some_iff.1 (hclosing ▸ hk)
  have htable : ∀ p ∈ Infix.table, p.1 < 34 := by decide
  simpa [Infix.left, Infix.right, hpowers op' hop'] using htable _ op.powers_mem_table

/-- An operand that fits the power asked for holds together before any operator that is weaker than
that power. -/
theorem Fits.yields {power : Nat} (h : e.Fits power) (hpower : Asked power)
    (hop : op.left < power) : e.Yields op := by
  intro k hk
  have hle := hpower.le_prefixPower
  unfold closing? at hk
  split at hk
  · cases hk
    omega
  · cases hk
    omega
  · obtain ⟨op', hop', rfl⟩ := Option.map_eq_some_iff.1 hk
    have hright := hpower.le_right (h op' hop')
    omega

/-- An operand before an operator fits where the operator does. -/
theorem Yields.fits (h : e.Yields op) {power : Nat} (hpower : power ≤ op.left) :
    e.Fits power := by
  intro op' hop'
  have hclosing : e.closing? = some op'.right := by
    cases e <;> simp_all [outer?, closing?]
    split at hop' <;> simp_all
  have hright := op'.right_le
  have hlt := h _ hclosing
  omega

/-! ### Expressions without their places -/

mutual

/-- An expression without the regions of its parts, if it is made of names, integers, parentheses
and operators. -/
def bare : Expr → Expr
  | .ident x => .ident ⟨x.name, ⟨0, 0⟩⟩
  | .int _ n => .int ⟨0, 0⟩ n
  | .paren _ e => .paren ⟨0, 0⟩ e.bare
  | .unary _ op e => .unary ⟨0, 0⟩ op e.bare
  | .update _ op before e => .update ⟨0, 0⟩ op before e.bare
  | .binary _ op l r => .binary ⟨0, 0⟩ op l.bare r.bare
  | .assign _ op l r => .assign ⟨0, 0⟩ op l.bare r.bare
  | .conditional _ test yes no => .conditional ⟨0, 0⟩ test.bare yes.bare no.bare
  | .member _ e x optional => .member ⟨0, 0⟩ e.bare ⟨x.name, ⟨0, 0⟩⟩ optional
  | .index _ e i optional => .index ⟨0, 0⟩ e.bare i.bare optional
  | .call _ e args optional => .call ⟨0, 0⟩ e.bare (bareArgs args) optional
  | e => e

/-- Arguments without the regions of their parts. -/
def bareArgs : List Expr → List Expr
  | [] => []
  | a :: as => a.bare :: bareArgs as

end

attribute [simp] bare bareArgs

theorem isTarget_bare (e : Expr) : Parser.isTarget e.bare = Parser.isTarget e := by
  cases e <;> simp [Parser.isTarget]

/-- Whether an expression may be assigned to does not depend on where it stands. -/
theorem isTarget_of_bare {e' : Expr} (h : e'.bare = e.bare) (he : Parser.isTarget e) :
    Parser.isTarget e' := by
  rwa [← isTarget_bare, h, isTarget_bare]

/-! ### How they are written -/

end Expr

/-- The lexeme of what follows an expression; none for an assignment that does not exist. -/
def Infix.lexemes (op : Infix) : List Lexeme := op.token?.toList.map Lexeme.fixed

namespace Expr

mutual

/-- The lexemes of an expression made of names, integers, parentheses and operators, in order. -/
def lexemes : Expr → List Lexeme
  | .ident x => [.word x.name]
  | .int _ n => [.decimal n]
  | .paren _ e => .fixed (.punct .lparen) :: (e.lexemes ++ [.fixed (.punct .rparen)])
  | .unary _ op e => .fixed op.token :: e.lexemes
  | .update _ op true e => .fixed op.token :: e.lexemes
  | .update _ op false e => e.lexemes ++ (Infix.update op).lexemes
  | .binary _ op l r => l.lexemes ++ ((Infix.binary op).lexemes ++ r.lexemes)
  | .assign _ op l r => l.lexemes ++ ((Infix.assign op).lexemes ++ r.lexemes)
  | .conditional _ test yes no =>
    test.lexemes ++ (Infix.conditional.lexemes ++
      (yes.lexemes ++ .fixed (.punct .colon) :: no.lexemes))
  | .member _ e x optional => e.lexemes ++ ((Infix.member optional).lexemes ++ [.word x.name])
  | .index _ e i optional =>
    e.lexemes ++ ((Infix.index optional).lexemes ++ (i.lexemes ++ [.fixed (.punct .rbrack)]))
  | .call _ e args optional =>
    e.lexemes ++ ((Infix.call optional).lexemes ++
      (argsLexemes args ++ [.fixed (.punct .rparen)]))
  | _ => []

/-- The lexemes of arguments, with commas between them. -/
def argsLexemes : List Expr → List Lexeme
  | [] => []
  | [a] => a.lexemes
  | a :: b :: as => a.lexemes ++ .fixed (.punct .comma) :: argsLexemes (b :: as)

end

attribute [simp] lexemes argsLexemes

/-! ### How deep they are nested -/

/-- How many levels are used up when an expression is read: one for its first operand, and one for
each operator applied after it. -/
def spine : Expr → Nat
  | .update _ _ false e | .binary _ _ e _ | .assign _ _ e _ | .conditional _ e _ _
  | .call _ e _ _ | .member _ e _ _ | .index _ e _ _ => e.spine + 1
  | _ => 1

mutual

/-- How many levels reading an expression takes. -/
def nesting : Expr → Nat
  | .paren _ e | .unary _ _ e | .update _ _ true e => e.nesting + 1
  | .update _ _ false e | .member _ e _ _ => max e.nesting (e.spine + 1)
  | .binary _ _ l r | .assign _ _ l r | .index _ l r _ =>
    max l.nesting (l.spine + 1 + r.nesting)
  | .conditional _ test yes no =>
    max test.nesting (test.spine + 1 + max yes.nesting no.nesting)
  | .call _ e args _ => max e.nesting (e.spine + 1 + argsNesting args)
  | _ => 1

/-- How many levels reading arguments takes. -/
def argsNesting : List Expr → Nat
  | [] => 0
  | a :: as => max a.nesting (argsNesting as)

end

end Expr

/-! ### What follows an expression -/

/-- The operator that comes first in some lexemes. -/
def Lexeme.operator? : List Lexeme → Option Infix
  | [] => none
  | l :: _ => l.kind.operator?

/-- No operator of at least some power comes first. -/
def Lexeme.Ends (power : Nat) (ls : List Lexeme) : Prop :=
  ∀ op ∈ operator? ls, op.left < power

/-- A mark that is no operator ends every expression. -/
theorem Lexeme.ends_mark {power : Nat} {p : Punct} {ls : List Lexeme} (h : p.operator? = none) :
    Ends power (.fixed (.punct p) :: ls) := by
  intro op hop
  cases h.symm.trans hop

/-- An expression may stand before the operator that comes first in some lexemes. -/
def Expr.Precedes (e : Expr) (ls : List Lexeme) : Prop :=
  ∀ op ∈ Lexeme.operator? ls, e.Yields op

/-! ### Scanning what is written -/

/-- The kinds of tokens that expressions of names, integers, parentheses and operators are made
of. -/
def TokenKind.isOrdinary : TokenKind → Bool
  | .label | .number | .keyword _ => true
  | .punct p => p != .arrow && p != .ellipsis
  | _ => false

/-- The token of an operator has one written form and is none of the marks of functions. -/
theorem TokenKind.isOrdinary_of_operator? {kind : TokenKind} (h : kind.operator? = some op) :
    kind.lexeme?.isSome ∧ kind.isOrdinary := by
  cases kind with
  | keyword k => exact ⟨rfl, rfl⟩
  | punct p =>
    refine ⟨rfl, ?_⟩
    cases p <;> first | rfl | cases h
  | _ => cases h

/-- What follows an expression has one lexeme, at which it is read, or cannot be written. -/
theorem Infix.lexemes_cases (op : Infix) :
    op.lexemes = [] ∨
      ∃ kind, op.token? = some kind ∧ kind.operator? = some op ∧ op.lexemes = [.fixed kind] := by
  unfold lexemes
  cases h : op.token? with
  | none => exact .inl rfl
  | some kind => exact .inr ⟨kind, rfl, operator?_of_token? h, rfl⟩

theorem Infix.isOrdinary_of_mem_lexemes : ∀ l ∈ op.lexemes, l.kind.isOrdinary := by
  rcases op.lexemes_cases with heq | ⟨kind, -, hop, heq⟩
  · simp [heq]
  · simpa [heq, Lexeme.fixed] using (TokenKind.isOrdinary_of_operator? hop).2

/-- An operator is scanned where a slash divides. -/
theorem Infix.lexable_lexemes (op : Infix) {before : Preceding} (h : before.divides = true) :
    Lexable .normal before op.lexemes := by
  rcases op.lexemes_cases with heq | ⟨kind, -, hop, heq⟩
  · rw [heq]
    trivial
  · rw [heq]
    exact ⟨Lexeme.scans_fixed (TokenKind.isOrdinary_of_operator? hop).1 fun _ => h, trivial⟩

/-- Lexemes that are scanned from their own text wherever they stand, and after which a slash
divides. -/
structure Lexeme.Closed (ls : List Lexeme) : Prop where
  lexable (before : Preceding) : Lexable .normal before ls
  divides (before : Preceding) : (before.pushAll ls).divides = true
  ordinary : ∀ l ∈ ls, l.kind.isOrdinary

namespace Lexeme.Closed

variable {ls ls' : List Lexeme}

/-- A single lexeme that may end an expression. -/
theorem singleton {l : Lexeme} (hscans : ∀ divides, l.Scans .normal divides)
    (hends : l.kind.endsExpression) (hkind : l.kind.isOrdinary) : Closed [l] where
  lexable _ := ⟨hscans _, trivial⟩
  divides _ := by simp [Preceding.push, Preceding.divides, hends]
  ordinary := by simpa using hkind

/-- A mark other than a slash that may end an expression. -/
theorem mark {p : Punct} (hends : (TokenKind.punct p).endsExpression) :
    Closed [.fixed (.punct p)] := by
  refine singleton (fun divides => scans_mark ?_) hends ?_
  · rintro (rfl | rfl) <;> cases hends
  · cases p <;> first | rfl | cases hends

theorem append_of_lexable (hlexable : ∀ before, Lexable .normal before ls)
    (hordinary : ∀ l ∈ ls, l.kind.isOrdinary) (h' : Closed ls') : Closed (ls ++ ls') where
  lexable before := lexable_append.2 ⟨hlexable before, h'.lexable _⟩
  divides before := by
    rw [Preceding.pushAll_append]
    exact h'.divides _
  ordinary := List.forall_mem_append.2 ⟨hordinary, h'.ordinary⟩

theorem append (h : Closed ls) (h' : Closed ls') : Closed (ls ++ ls') :=
  append_of_lexable h.lexable h.ordinary h'

/-- A lexeme other than a slash before others. -/
theorem cons {kind : TokenKind} (hkind : kind.lexeme?.isSome)
    (hslash : kind ≠ .punct .slash ∧ kind ≠ .punct .slashAssign) (hordinary : kind.isOrdinary)
    (h : Closed ls) : Closed (.fixed kind :: ls) := by
  change Closed ([.fixed kind] ++ ls)
  refine append_of_lexable (fun _ => ⟨scans_fixed hkind ?_, trivial⟩) ?_ h
  · simp [hslash]
  · simpa [fixed] using hordinary

/-- An operator after an operand. If it is a slash, it divides. -/
theorem append_infix (h : Closed ls) (hlexable : ∀ before, Lexable .normal before ls')
    (hdivides : ∀ before : Preceding, (before.pushAll (op.lexemes ++ ls')).divides = true)
    (hordinary : ∀ l ∈ ls', l.kind.isOrdinary) : Closed (ls ++ (op.lexemes ++ ls')) where
  lexable before :=
    lexable_append.2 ⟨h.lexable before,
      lexable_append.2 ⟨op.lexable_lexemes (h.divides before), hlexable _⟩⟩
  divides before := by
    rw [Preceding.pushAll_append]
    exact hdivides _
  ordinary := List.forall_mem_append.2 ⟨h.ordinary,
    List.forall_mem_append.2 ⟨Infix.isOrdinary_of_mem_lexemes, hordinary⟩⟩

/-- An operator between operands. -/
theorem between (h : Closed ls) (op : Infix) (h' : Closed ls') :
    Closed (ls ++ (op.lexemes ++ ls')) :=
  h.append_infix h'.lexable (fun before => by
    rw [Preceding.pushAll_append]
    exact h'.divides _) h'.ordinary

/-- The name of a property, which may be a keyword. -/
theorem member (h : Closed ls) (optional : Bool) {name : String} (hword : isWord name.toList) :
    Closed (ls ++ ((Infix.member optional).lexemes ++ [.word name])) := by
  have hkind : (Lexeme.word name).kind = .label ∨ ∃ k, (Lexeme.word name).kind = .keyword k := by
    unfold Lexeme.word wordKind
    cases Keyword.ofWord? name.toList with
    | none => exact .inl rfl
    | some k => exact .inr ⟨k, rfl⟩
  refine h.append_infix (fun _ => ⟨scans_word hword _ _, trivial⟩) (fun before => ?_) ?_
  · cases optional <;> rcases hkind with hkind | ⟨k, hkind⟩ <;>
      simp [Infix.lexemes, Infix.token?, Preceding.push, Preceding.divides, hkind, Lexeme.fixed,
        TokenKind.endsExpression, TokenKind.isKeyword]
  · rcases hkind with hkind | ⟨k, hkind⟩ <;> simp [hkind, TokenKind.isOrdinary]

/-- An update after its operand. -/
theorem updated (h : Closed ls) (op : UpdateOp) : Closed (ls ++ (Infix.update op).lexemes) := by
  rw [← List.append_nil (Infix.lexemes _)]
  refine h.append_infix (fun _ => trivial) (fun before => ?_) (by simp)
  cases op <;> rfl

end Lexeme.Closed

/-- Arguments are scanned wherever they stand if each of them is. -/
theorem Expr.lexable_argsLexemes {args : List Expr} (h : ∀ a ∈ args, Lexeme.Closed a.lexemes) :
    (∀ before, Lexable .normal before (argsLexemes args)) ∧
      ∀ l ∈ argsLexemes args, l.kind.isOrdinary := by
  induction args with
  | nil => exact ⟨fun _ => trivial, by simp [argsLexemes]⟩
  | cons a as ih =>
    obtain ⟨ha, has⟩ := List.forall_mem_cons.1 h
    obtain ⟨hlexable, hordinary⟩ := ih has
    cases as with
    | nil => exact ⟨ha.lexable, ha.ordinary⟩
    | cons b as =>
      refine ⟨fun before => lexable_append.2 ⟨ha.lexable before, ?_, hlexable _⟩, ?_⟩
      · exact Lexeme.scans_mark (by simp)
      · exact List.forall_mem_append.2 ⟨ha.ordinary, List.forall_mem_cons.2 ⟨rfl, hordinary⟩⟩

/-- The lexemes of a fitted expression are scanned from their own text wherever they stand. -/
theorem Expr.Fitted.closed {e : Expr} (h : e.Fitted) : Lexeme.Closed e.lexemes := by
  induction h with
  | @ident x hword hname =>
    have hkind : (Lexeme.word x.name).kind = .label := by simp [Lexeme.word, wordKind, hname]
    exact .singleton (fun _ => Lexeme.scans_word hword _ _) (by rw [hkind]; rfl) (by rw [hkind]; rfl)
  | int _ => exact .singleton (fun _ => Lexeme.scans_decimal _ _ _) rfl rfl
  | paren _ ih => exact .cons rfl (by simp) rfl (ih.append (.mark rfl))
  | @unary _ op _ _ _ ih =>
    refine .cons ?_ ?_ ?_ ih <;> cases op <;> decide
  | @update _ op before e _ _ ih =>
    cases before with
    | true => refine .cons ?_ ?_ ?_ ih <;> cases op <;> decide
    | false => exact ih.updated op
  | binary _ _ _ _ ihl ihr => exact ihl.between _ ihr
  | assign _ _ _ _ _ ihl ihr => exact ihl.between _ ihr
  | conditional _ _ _ _ _ ihtest ihyes ihno =>
    exact ihtest.between _ (ihyes.append (.cons rfl (by simp) rfl ihno))
  | member _ _ hword ih => exact ih.member _ hword
  | index _ _ _ ih ihi => exact ih.between _ (ihi.append (.mark rfl))
  | call _ _ _ ih ihargs =>
    obtain ⟨hlexable, hordinary⟩ := lexable_argsLexemes ihargs
    exact ih.between _ (.append_of_lexable hlexable hordinary (.mark rfl))

/-- A fitted expression does not start with a closing parenthesis. -/
theorem Expr.Fitted.exists_head {e : Expr} (h : e.Fitted) :
    ∃ l ls, e.lexemes = l :: ls ∧ l.kind ≠ .punct .rparen := by
  have happend {ls : List Lexeme} (more : List Lexeme)
      (h : ∃ l ls', ls = l :: ls' ∧ l.kind ≠ .punct .rparen) :
      ∃ l ls', ls ++ more = l :: ls' ∧ l.kind ≠ .punct .rparen := by
    obtain ⟨l, ls', rfl, hne⟩ := h
    exact ⟨l, ls' ++ more, rfl, hne⟩
  induction h with
  | @ident x _ hname =>
    exact ⟨_, _, rfl, by simp [Lexeme.word, wordKind, hname]⟩
  | int _ => exact ⟨_, _, rfl, by simp [Lexeme.decimal]⟩
  | paren _ _ => exact ⟨_, _, rfl, by simp [Lexeme.fixed]⟩
  | @unary _ op _ _ _ _ => exact ⟨_, _, rfl, by cases op <;> decide⟩
  | @update _ op before e _ _ ih =>
    cases before with
    | true => exact ⟨_, _, rfl, by cases op <;> decide⟩
    | false => exact happend _ ih
  | binary _ _ _ _ ih _ => exact happend _ ih
  | assign _ _ _ _ _ ih _ => exact happend _ ih
  | conditional _ _ _ _ _ ih _ _ => exact happend _ ih
  | member _ _ _ ih => exact happend _ ih
  | index _ _ _ ih _ => exact happend _ ih
  | call _ _ _ ih _ => exact happend _ ih

end ScriptCheck
