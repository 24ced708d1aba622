import ScriptCheck.Proofs.Omission
import ScriptCheck.Proofs.Stripped

/-!
# Reading in parallel

`Tracks c s s' P K p p' S B` says of reading `p` from the state `s` and `p'` from the state `s'`, the
latter without the semicolon of `c`: if the states are parallel and the first reading ends without a
fault, then the second one has a value too, the states after both are parallel, and `S` holds of the
values and the states. The exception is a semicolon that may not be left out, as it is a statement
by itself, stands in the head of a loop or ends an exported function before a token that closes a
list. Then `B` holds of the value of the first reading.

What was read before is taken into account in two ways: `P` is a premise of the former, and `K` is
enough for `B`, whatever the second reading does. So there is one rule for each way to put parts
together, as in `Tracks.bind`, and at the end of a part it remains to be shown that `S` follows from
all that is known of its parts, and `B` from what is known of one of them (`Tracks.pure`).
-/

namespace ScriptCheck

open List

variable {kind : TokenKind} {close : TokenKind} {t : State} {m : Punct}

/-! ### Nodes that need the semicolon -/

/-- Whether a statement exports a function. -/
def Stmt.exportsFunction : Stmt → Bool
  | .exportDecl _ (.function ..) => true
  | _ => false

namespace Omission

/-- A node to which the semicolon belongs, and which cannot do without it: an empty statement, a
loop with the semicolon in its head, or an exported function before a token that closes a list. -/
structure NeededBy (o : Omission) (n : Node) : Prop where
  encloses : n.span.Encloses o.semi.span
  between : ∀ c ∈ n.parts, ¬c.span.Encloses o.semi.span
  inner : n = .stmt (.empty o.semi.span) ∨ o.semi.span.hi < n.span.hi ∨
    (o.next.kind.closesBlock = true ∧ ∃ s : Stmt, n = .stmt s ∧ s.exportsFunction = true)

/-- One of some nodes holds a node that needs the semicolon. -/
def Needed (o : Omission) (ns : List Node) : Prop := ∃ n ∈ ns, ∃ m, n.Holds m ∧ o.NeededBy m

variable {o : Omission} {n : Node} {ns ms : List Node}

@[simp]
theorem needed_nil : ¬o.Needed [] := by simp [Needed]

@[simp]
theorem needed_append : o.Needed (ns ++ ms) ↔ o.Needed ns ∨ o.Needed ms := by
  simp [Needed, or_and_right, exists_or]

theorem needed_cons : o.Needed (n :: ns) ↔ o.Needed [n] ∨ o.Needed ns :=
  @needed_append o [n] ns

@[simp]
theorem needed_cons_cons {m : Node} : o.Needed (n :: m :: ns) ↔ o.Needed [n] ∨ o.Needed (m :: ns) :=
  needed_cons

theorem NeededBy.needed (h : o.NeededBy n) : o.Needed [n] :=
  ⟨n, mem_singleton.2 rfl, n, .refl n, h⟩

/-- A node holds what its parts hold. -/
theorem Needed.node (h : o.Needed n.parts) : o.Needed [n] := by
  obtain ⟨c, hc, m, hm, hneeded⟩ := h
  exact ⟨n, mem_singleton.2 rfl, m, (Node.holds_of_mem hc).trans hm, hneeded⟩

end Omission

namespace Parser

/-! ### Parts that are read in parallel -/

/-- What is known of reading a part with the semicolon and another one without it. -/
structure Tracks {α : Type} (c : Setting) (s s' : State) (P K : Prop) (p p' : Parser α)
    (S : α → α → State → State → Prop) (B : α → State → Prop) : Prop where
  runs : s.Fine c.sheet → Onward c.sheet s (exec p s).2
  keeps : s.Fine c.sheet → K → ∀ a t, exec p s = (some a, t) → B a t
  follows : P → Parallel c s s' → ∀ a t, exec p s = (some a, t) → t.errors = [] →
    B a t ∨ ∃ a' t', exec p' s' = (some a', t') ∧ Parallel c t t' ∧ S a a' t t'

/-- A part is read in parallel: what `f` leaves of its value is the same in both readings, unless
the semicolon is needed by one of the nodes of the value. -/
def Mirrors {α β : Type} (c : Setting) (p : Parser α) (f : α → β) (nodes : α → List Node) : Prop :=
  ∀ ⦃P : Prop⦄ (s s' : State), Tracks c s s' P False p p (fun a a' _ _ => f a' = f a)
    fun a _ => c.Needed (nodes a)

/-- What is known of reading two statements of which the same is left. -/
abbrev TracksStmt (c : Setting) (s s' : State) (P K : Prop) (p p' : Parser Stmt) : Prop :=
  Tracks c s s' P K p p' (fun a a' _ _ => a'.stripped = a.stripped) fun a _ => c.Needed [.stmt a]

abbrev MirrorsStmt (c : Setting) (p : Parser Stmt) : Prop :=
  Mirrors c p Stmt.stripped fun a => [.stmt a]

abbrev TracksExpr (c : Setting) (s s' : State) (P K : Prop) (p p' : Parser Expr) : Prop :=
  Tracks c s s' P K p p' (fun e e' _ _ => e'.stripped = e.stripped) fun e _ => c.Needed [.expr e]

abbrev MirrorsExpr (c : Setting) (p : Parser Expr) : Prop :=
  Mirrors c p Expr.stripped fun e => [.expr e]

variable {α β γ : Type} {c : Setting} {s s' : State} {P P' K K' L : Prop} {p p' q q' : Parser α}
  {f f' : α → Parser β} {R S : α → α → State → State → Prop} {B B' : α → State → Prop}
  {T : β → β → State → State → Prop} {C : β → State → Prop}

theorem exec_bind_eq_some {b : β} {u : State} (h : exec (p >>= f) s = (some b, u)) :
    ∃ a t, exec p s = (some a, t) ∧ exec (f a) t = (some b, u) := by
  rw [exec_bind] at h
  rcases heq : exec p s with ⟨_ | a, t⟩
  · rw [heq] at h
    exact absurd (congrArg Prod.fst h) (by simp)
  · rw [heq] at h
    exact ⟨a, t, rfl, h⟩

theorem exec_bind_of_eq {a : α} (h : exec p s = (some a, t)) : exec (p >>= f) s = exec (f a) t := by
  rw [exec_bind, h]

theorem exec_bind_of_none (h : (exec p s).1 = none) : (exec (p >>= f) s).1 = none := by
  rw [exec_bind]
  rcases heq : exec p s with ⟨_ | a, t⟩
  · rfl
  · simp [heq] at h

/-- A reading is remembered with its value. -/
theorem Reading.recall {o : Sheet} {Q : α → List Token → Prop} {W : α → State → Prop}
    (h : Reading o s p Q W) : Reading o s p Q fun a t => W a t ∧ exec p s = (some a, t) := by
  intro hs
  obtain ⟨t, heq, hfail⟩ | ⟨a, t, heq, hgot⟩ := h.outcome hs
  · rw [heq]
    exact hfail
  · rw [heq]
    exact ⟨hgot.onward, ⟨hgot.value, rfl⟩, hgot.reads⟩

namespace Tracks

variable {Q : α → List Token → Prop} {W : α → State → Prop}

/-- One part after another, where all that is known goes through the value of the first one. What
holds of that value by itself may be used for the second one. -/
theorem through {Q : α → State → Prop} (hp : Tracks c s s' P K p p' R B)
    (hvalue : s.Fine c.sheet → ∀ a t, exec p s = (some a, t) → Q a t)
    (hf : ∀ a a' t t', Q a t → Tracks c t t' (R a a' t t') (B a t) (f a) (f' a') T C) :
    Tracks c s s' P K (p >>= f) (p' >>= f') T C where
  runs hs := by
    have hst := hp.runs hs
    rw [exec_bind]
    rcases heq : exec p s with ⟨_ | a, t⟩
    · rw [heq] at hst
      exact hst
    · rw [heq] at hst
      exact hst.trans ((hf a a t t (hvalue hs a t heq)).runs hst.fine)
  keeps hs hK b u hexec := by
    obtain ⟨a, t, heq, hexec⟩ := exec_bind_eq_some hexec
    have hst := hp.runs hs
    rw [heq] at hst
    have hnext := hf a a t t (hvalue hs a t heq)
    exact hnext.keeps hst.fine (hp.keeps hs hK a t heq) b u hexec
  follows hP hs b u hexec hclean := by
    obtain ⟨a, t, heq, hexec⟩ := exec_bind_eq_some hexec
    have hQ := hvalue hs.fine a t heq
    have hst := hp.runs hs.fine
    rw [heq] at hst
    have htu := (hf a a t t hQ).runs hst.fine
    rw [hexec] at htu
    rcases hp.follows hP hs a t heq (htu.clean hclean) with hB | ⟨a', t', heq', ht, hR⟩
    · exact .inl ((hf a a t t hQ).keeps hst.fine hB b u hexec)
    · rw [exec_bind_of_eq heq']
      exact (hf a a' t t' hQ).follows hR ht b u hexec hclean

/-- Less is known before, or less is asked for after a part. -/
theorem mono (h : Tracks c s s' P K p p' S B) (hP : P' → P) (hK : K' → K)
    (hS : ∀ a a' t t', S a a' t t' → R a a' t t') (hB : ∀ a t, B a t → B' a t) :
    Tracks c s s' P' K' p p' R B' where
  runs := h.runs
  keeps hs hK' a t hexec := hB a t (h.keeps hs (hK hK') a t hexec)
  follows hP' hs a t hexec hclean :=
    (h.follows (hP hP') hs a t hexec hclean).imp (hB a t) fun ⟨a', t', heq, ht, hSa⟩ =>
      ⟨a', t', heq, ht, hS a a' t t' hSa⟩

/-- What was read before says less. -/
theorem weaken (h : Tracks c s s' P K p p' S B) (hP : P' → P) (hK : K' → K) :
    Tracks c s s' P' K' p p' S B :=
  h.mono hP hK (fun _ _ _ _ h => h) fun _ _ h => h

/-- A limit on the tokens left is more than none. -/
theorem upTo {q : Nat → Parser α} {Q : Prop} {m : Nat} (n : Nat)
    (h : ∀ n, Tracks c s s' (P ∧ Q ∧ m < n + 1) K p (q (n + 1)) S B) :
    Tracks c s s' (P ∧ Q ∧ m < n) K p (q n) S B := by
  cases n with
  | zero => exact ⟨(h 0).runs, (h 0).keeps, fun hP => absurd hP.2.2 (Nat.not_lt_zero m)⟩
  | succ n => exact h n

/-- What is known before a part is still known after it. -/
theorem frame (h : Tracks c s s' P False p p' S B) :
    Tracks c s s' P K p p' (fun a a' t t' => P ∧ S a a' t t') (fun a t => K ∨ B a t) where
  runs := h.runs
  keeps _ hK _ _ _ := .inl hK
  follows hP hs a t hexec hclean :=
    (h.follows hP hs a t hexec hclean).imp .inr fun ⟨a', t', heq, ht, hS⟩ =>
      ⟨a', t', heq, ht, hP, hS⟩

/-- One part after another. -/
theorem andThen (hp : Tracks c s s' P False p p' R B)
    (hf : ∀ a a' t t', Tracks c t t' (P ∧ R a a' t t') (K ∨ B a t) (f a) (f' a') T C) :
    Tracks c s s' P K (p >>= f) (p' >>= f') T C :=
  hp.frame.through (fun _ _ _ _ => trivial) fun a a' t t' _ => hf a a' t t'

/-- One part after another, where the first one takes over what was needed before. -/
theorem onto (hp : Tracks c s s' P K p p' R B)
    (hf : ∀ a a' t t', Tracks c t t' (P ∧ R a a' t t') (B a t) (f a) (f' a') T C) :
    Tracks c s s' P K (p >>= f) (p' >>= f') T C := by
  have hrecall : Tracks c s s' P K p p' (fun a a' t t' => P ∧ R a a' t t') B :=
    ⟨hp.runs, hp.keeps, fun hP hs a t hexec hclean =>
      (hp.follows hP hs a t hexec hclean).imp_right fun ⟨a', t', heq, ht, hR⟩ =>
        ⟨a', t', heq, ht, hP, hR⟩⟩
  exact hrecall.through (fun _ _ _ _ => trivial) fun a a' t t' _ => hf a a' t t'

/-- One part after another, where the nodes that the first one passes may be used for the second
one. -/
theorem laying (hp : Tracks c s s' P False p p' R B) (hread : Reading c.sheet s p Q W)
    (hf : ∀ a a' t t', W a t → Tracks c t t' (P ∧ R a a' t t') (K ∨ B a t) (f a) (f' a') T C) :
    Tracks c s s' P K (p >>= f) (p' >>= f') T C := by
  refine hp.frame.through (fun hs a t heq => ?_) hf
  have hgot := hread hs
  rw [heq] at hgot
  exact hgot.value

/-- One part after another, where what is known of the values holds of a value and itself. So it may
be taken as known of any two values. -/
theorem relate {A : α → α → Prop} (hA : ∀ a, A a a)
    (hp : Tracks c s s' P False p p' (fun a a' _ _ => A a a') B)
    (hf : ∀ a a' t t', A a a' → Tracks c t t' P (K ∨ B a t) (f a) (f' a') T C) :
    Tracks c s s' P K (p >>= f) (p' >>= f') T C := by
  refine hp.andThen fun a a' t t' => ?_
  obtain ⟨hruns, hkeeps, -⟩ := hf a a t t' (hA a)
  exact ⟨hruns, hkeeps, fun ⟨hP, haa'⟩ => (hf a a' t t' haa').follows hP⟩

/-- One part after another. -/
theorem bind {g : α → γ} {nodes : α → List Node} (hp : Mirrors c p g nodes)
    (hf : ∀ a a' t t', g a' = g a → Tracks c t t' P (K ∨ c.Needed (nodes a)) (f a) (f' a') T C) :
    Tracks c s s' P K (p >>= f) (p >>= f') T C :=
  relate (A := fun a a' => g a' = g a) (fun _ => rfl) (hp s s') hf

/-- A part before another one, which does not need the semicolon and whose value does not matter. -/
theorem pass (hp : Tracks c s s' P False p p' R fun _ _ => False)
    (hf : ∀ a a' t t', Tracks c t t' P K (f a) (f' a') T C) :
    Tracks c s s' P K (p >>= f) (p' >>= f') T C :=
  hp.andThen fun a a' t t' => (hf a a' t t').weaken And.left fun h => h.elim id False.elim

/-- A part before another one, which has the same value in both readings. -/
theorem same (hp : Mirrors c p id fun _ => []) (hf : ∀ a t t', Tracks c t t' P K (f a) (f' a) T C) :
    Tracks c s s' P K (p >>= f) (p >>= f') T C := by
  refine .bind hp fun a a' t t' haa' => ?_
  obtain rfl : a' = a := haa'
  exact (hf a' t t').weaken id fun hK => hK.resolve_right Omission.needed_nil

/-- A value that needs no token. -/
theorem pure {a a' : α} (hS : P → S a a' s s') (hB : K → B a s) :
    Tracks c s s' P K (Pure.pure a) (Pure.pure a') S B where
  runs hs := .refl hs
  keeps _ hK b t hexec := by
    cases hexec
    exact hB hK
  follows hP hs b t hexec _ := by
    cases hexec
    exact .inr ⟨a', s', rfl, hs, hS hP⟩

/-- The state can be asked for. -/
theorem get {f f' : State → Parser α} (h : Tracks c s s' P K (f s) (f' s') S B) :
    Tracks c s s' P K (MonadState.get >>= f) (MonadState.get >>= f') S B :=
  ⟨h.runs, h.keeps, h.follows⟩

/-- The place of the semicolon may be treated by itself, and elsewhere the current tokens are of one
kind. This depends on the second reading, so it takes more to know that the first one is a run. -/
theorem unlessGap (hK : ¬K) (hrun : Reading c.sheet s p Q W)
    (hgap : AtGap c s s' → ∀ a t, exec p s = (some a, t) → t.errors = [] → B a t)
    (h : Parallel c s s' → ¬AtGap c s s' → s'.kind = s.kind → Tracks c s s' P K p p' S B) :
    Tracks c s s' P K p p' S B where
  runs hs := hrun.onward hs
  keeps _ hk := absurd hk hK
  follows hP hs a t hexec hclean := by
    by_cases hat : AtGap c s s'
    · exact .inl (hgap hat a t hexec hclean)
    · exact (h hs hat (hs.kind_eq hat)).follows hP hs a t hexec hclean

/-- A part that has no value at the place of the semicolon. -/
theorem awayFromGap (hK : ¬K) (hrun : Reading c.sheet s p Q W)
    (hnone : AtGap c s s' → (exec p s).1 = none)
    (h : Parallel c s s' → ¬AtGap c s s' → s'.kind = s.kind → Tracks c s s' P K p p' S B) :
    Tracks c s s' P K p p' S B :=
  unlessGap hK hrun (fun hgap _ _ hexec => absurd (hnone hgap) (by simp [hexec])) h

/-- The place of the semicolon may be treated before the second reading is looked at. -/
theorem offGap (hgap : Parallel c s s' → AtGap c s s' → ∀ a t, exec p s = (some a, t) →
      t.errors = [] → B a t)
    (h : Tracks c s s' (P ∧ ¬AtGap c s s') K p p' S B) : Tracks c s s' P K p p' S B where
  runs := h.runs
  keeps := h.keeps
  follows hP hs a t hexec hclean := by
    by_cases hat : AtGap c s s'
    · exact .inl (hgap hs hat a t hexec hclean)
    · exact h.follows ⟨hP, hat⟩ hs a t hexec hclean

/-- The place of the semicolon may be treated apart from the second reading. -/
theorem byGap (h : Tracks c s s' (P ∧ ¬AtGap c s s') (K ∨ AtGap c s s') p p' S B) :
    Tracks c s s' P K p p' S B where
  runs := h.runs
  keeps hs hK := h.keeps hs (.inl hK)
  follows hP hs a t hexec hclean := by
    by_cases hat : AtGap c s s'
    · exact .inl (h.keeps hs.fine (.inr hat) a t hexec)
    · exact h.follows ⟨hP, hat⟩ hs a t hexec hclean

/-- One part after another, where the first one leaves a fault at the place of the semicolon. So
the second reading needs to take the same course elsewhere only. -/
theorem andThenOffGap {r' : Parser β} (f' : α → Parser β) (hp : Tracks c s s' P False p p' R B)
    (hgap : AtGap c s s' → ∀ a t, exec p s = (some a, t) → s.Fine c.sheet → t.errors ≠ [])
    (hr' : P → Parallel c s s' → ¬AtGap c s s' → exec r' s' = exec (p' >>= f') s')
    (hf : ∀ a a' t t', Tracks c t t' (P ∧ R a a' t t') (K ∨ B a t) (f a) (f' a') T C) :
    Tracks c s s' P K (p >>= f) r' T C where
  runs := (hp.andThen hf).runs
  keeps := (hp.andThen hf).keeps
  follows hP hs b u hexec hclean := by
    by_cases hat : AtGap c s s'
    · obtain ⟨a, t, heq, hexec⟩ := exec_bind_eq_some hexec
      have hst := hp.runs hs.fine
      rw [heq] at hst
      have htu := (hf a a t t).runs hst.fine
      rw [hexec] at htu
      exact absurd (htu.clean hclean) (hgap hat a t heq hs.fine)
    · rw [hr' hP hs hat]
      exact (hp.andThen hf).follows hP hs b u hexec hclean

/-- What is the same in parallel states may be replaced in the second reading. -/
theorem of_eq {κ : Type} {f : κ → Parser α} {k : κ} (k' : κ) (hk : P → Parallel c s s' → k' = k)
    (h : Tracks c s s' P K p (f k) S B) : Tracks c s s' P K p (f k') S B where
  runs := h.runs
  keeps := h.keeps
  follows hP hs := by
    rw [hk hP hs]
    exact h.follows hP hs

/-- A test that has the same outcome in parallel states. -/
theorem ite {b b' : Bool} (hb : P → Parallel c s s' → b' = b)
    (hyes : b = true → Tracks c s s' P K p p' S B) (hno : b = false → Tracks c s s' P K q q' S B) :
    Tracks c s s' P K (if b then p else q) (if b' then p' else q') S B := by
  refine .of_eq (f := fun k => if k then p' else q') b' hb ?_
  cases b with
  | true => exact hyes rfl
  | false => exact hno rfl

/-- A part that has no value. -/
theorem fails (hrun : s.Fine c.sheet → Onward c.sheet s (exec p s).2)
    (hnone : (exec p s).1 = none) : Tracks c s s' P K p p' S B where
  runs := hrun
  keeps _ _ a t hexec := absurd (congrArg Prod.fst hexec) (by simp [hnone])
  follows _ _ a t hexec := absurd (congrArg Prod.fst hexec) (by simp [hnone])

/-- A part that never fails. -/
theorem lift {g g' : StateM State α} (hrun : s.Fine c.sheet → Onward c.sheet s (g.run s).2)
    (hK : K → B (g.run s).1 (g.run s).2)
    (hfollows : P → Parallel c s s' → (g.run s).2.errors = [] → B (g.run s).1 (g.run s).2 ∨
      Parallel c (g.run s).2 (g'.run s').2 ∧ S (g.run s).1 (g'.run s').1 (g.run s).2 (g'.run s').2) :
    Tracks c s s' P K (liftM g) (liftM g') S B where
  runs := hrun
  keeps _ hk a t hexec := by
    cases hexec
    exact hK hk
  follows hP hs a t hexec hclean := by
    cases hexec
    exact (hfollows hP hs hclean).imp_right fun h => ⟨_, _, rfl, h⟩

/-- The region of the second reading does not matter. -/
theorem spanFrom {start start' : Span} {f f' : Span → Parser α}
    (h : ∀ span', Tracks c s s' P K (f (start.through s.lastSpan)) (f' span') S B) :
    Tracks c s s' P K (liftM (Parser.spanFrom start) >>= f) (liftM (Parser.spanFrom start') >>= f')
      S B :=
  have h := h (start'.through s'.lastSpan)
  ⟨h.runs, h.keeps, h.follows⟩

end Tracks

/-! ### Single tokens -/

theorem tracks_unexpected (kinds kinds' : List TokenKind) :
    Tracks c s s' P K (unexpected kinds) (unexpected kinds') S B :=
  .fails (fun hs => hs.unexpected kinds) rfl

theorem tracks_tooDeep : Tracks c s s' P K tooDeep tooDeep S B :=
  .fails (fun hs => hs.move (.depth s)) rfl

/-- Tokens that were passed in both readings. -/
structure Passed (kind : TokenKind) (s s' : State) (tok tok' : Token) (t t' : State) : Prop where
  alike : tok.Alike tok'
  kind : s.kind = kind
  length : t.rest.length + 1 = s.rest.length
  length' : t'.rest.length + 1 = s'.rest.length
  last : t.last.isSome
  last' : t'.last.isSome

/-- Passing tokens that are known. -/
theorem Parallel.passed (h : Parallel c s s') (hgap : ¬AtGap c s s')
    (hkind : s.kind = kind) (hplain : kind.isPlain) :
    Parallel c s.advance s'.advance ∧
      Passed kind s s' s.current s'.current s.advance s'.advance := by
  subst hkind
  obtain ⟨hne, -, herr⟩ := TokenKind.of_isPlain hplain
  obtain ⟨hadvance, halike⟩ := h.advance hgap hplain
  have hkind := h.kind_eq hgap
  have hrest := (took_advance h.fine hne herr).rest
  have hrest' := (took_advance h.fine' (hkind ▸ hne) (hkind ▸ herr)).rest
  refine ⟨hadvance, halike, rfl, ?_, ?_, ?_, ?_⟩
  · exact (congrArg List.length hrest).symm
  · exact (congrArg List.length hrest').symm
  · rw [State.advance_eq hrest]
    rfl
  · rw [State.advance_eq hrest']
    rfl

theorem exec_expect_of_eq (h : s.kind = kind) :
    exec (expect kind) s = (some s.current, s.advance) := by
  unfold expect
  change exec (ite _ _ _) s = _
  rw [if_pos (beq_iff_eq.2 h)]
  rfl

theorem exec_expect_of_ne (h : s.kind ≠ kind) :
    exec (expect kind) s = (none, s.unexpected [kind]) := by
  unfold expect
  change exec (ite _ _ _) s = _
  rw [if_neg (mt beq_iff_eq.1 h)]
  rfl

theorem exec_expect_eq_some {tok : Token} (h : exec (expect kind) s = (some tok, t)) :
    s.kind = kind ∧ tok = s.current ∧ t = s.advance := by
  by_cases hkind : s.kind = kind
  · rw [exec_expect_of_eq hkind] at h
    cases h
    exact ⟨hkind, rfl, rfl⟩
  · rw [exec_expect_of_ne hkind] at h
    cases h

/-- A token of a kind other than a semicolon. -/
theorem tracks_expect (hsemi : kind ≠ .punct .semicolon) (hplain : kind.isPlain) :
    Tracks c s s' P False (expect kind) (expect kind) (Passed kind s s') fun _ _ => False where
  runs hs := by
    obtain ⟨hne, -, herr⟩ := TokenKind.of_isPlain hplain
    exact (reading_expect hne herr).onward hs
  keeps _ h := h.elim
  follows _ hs tok t hexec _ := by
    obtain ⟨hkind, rfl, rfl⟩ := exec_expect_eq_some hexec
    have hgap : ¬AtGap c s s' := fun hgap => hsemi (hkind.symm.trans hgap.kind)
    obtain ⟨hadvance, hpassed⟩ := hs.passed hgap hkind hplain
    exact .inr ⟨_, _, exec_expect_of_eq ((hs.kind_eq hgap).trans hkind), hadvance, hpassed⟩

theorem tracks_expectMark (hm : m ≠ .semicolon) :
    Tracks c s s' P False (expectMark m) (expectMark m) (Passed (.punct m) s s')
      fun _ _ => False :=
  tracks_expect (by simpa using hm) rfl

theorem tracks_expectKeyword (w : Keyword) :
    Tracks c s s' P False (expectKeyword w) (expectKeyword w) (Passed (.keyword w) s s')
      fun _ _ => False :=
  tracks_expect (by simp) rfl

/-- A mark other than a semicolon, and then what is read from there. -/
theorem Tracks.passMark {f f' : Token → Parser β} (hm : m ≠ .semicolon)
    (hf : ∀ a a' t t', Tracks c t t' P K (f a) (f' a') T C) :
    Tracks c s s' P K (expectMark m >>= f) (expectMark m >>= f') T C :=
  .pass (tracks_expectMark hm) hf

/-- A keyword, and then what is read from there. -/
theorem Tracks.passKeyword {w : Keyword} {f f' : Token → Parser β}
    (hf : ∀ a a' t t', Tracks c t t' P K (f a) (f' a') T C) :
    Tracks c s s' P K (expectKeyword w >>= f) (expectKeyword w >>= f') T C :=
  .pass (tracks_expectKeyword w) hf

/-- A semicolon that may not be left out. -/
theorem tracks_semicolon :
    Tracks c s s' P False (expectMark .semicolon) (expectMark .semicolon) (fun _ _ _ _ => True)
      fun tok _ => tok = c.semi where
  runs hs := (reading_expect (by simp) rfl).onward hs
  keeps _ h := h.elim
  follows _ hs tok t hexec _ := by
    obtain ⟨hkind, rfl, rfl⟩ := exec_expect_eq_some hexec
    by_cases hgap : AtGap c s s'
    · exact .inl hgap.current
    · obtain ⟨hadvance, -⟩ := hs.passed hgap hkind rfl
      have hkind' := (hs.kind_eq hgap).trans hkind
      exact .inr ⟨_, _, exec_expect_of_eq hkind', hadvance, trivial⟩

theorem exec_attempt (p : Parser α) (s : State) :
    exec (attempt p) s = (some (exec p s).1, (exec p s).2) := rfl

/-- A semicolon that is listed if it is missing, also before a token that closes a list. -/
theorem tracks_attempt_semicolon :
    Tracks c s s' P False (attempt (expectMark .semicolon)) (attempt (expectMark .semicolon))
      (fun _ _ _ _ => True) fun o _ => c.next.kind.closesBlock = true ∧ o = some c.semi where
  runs hs := (reading_expect (by simp) rfl).attempt.onward hs
  keeps _ h := h.elim
  follows _ hs o t hexec hclean := by
    rw [exec_attempt] at hexec ⊢
    by_cases hkind : s.kind = .punct .semicolon
    · rw [expectMark, exec_expect_of_eq hkind] at hexec
      cases hexec
      by_cases hgap : AtGap c s s'
      · cases hcloses : c.next.kind.closesBlock with
        | true => exact .inl ⟨rfl, congrArg some hgap.current⟩
        | false =>
          rw [expectMark, exec_expect_of_ne hgap.ne_semicolon]
          exact .inr ⟨_, _, rfl, hs.passMissing hgap hcloses, trivial⟩
      · obtain ⟨hadvance, -⟩ := hs.passed hgap hkind rfl
        rw [expectMark, exec_expect_of_eq ((hs.kind_eq hgap).trans hkind)]
        exact .inr ⟨_, _, rfl, hadvance, trivial⟩
    · rw [expectMark, exec_expect_of_ne hkind] at hexec
      cases hexec
      exact absurd hclean (hs.fine.unexpected_listed _)

/-- Passes the current token, which is known and no semicolon. -/
theorem Tracks.advance {f f' : Token → Parser α} (hkind : s.kind = kind)
    (hsemi : kind ≠ .punct .semicolon) (hplain : kind.isPlain)
    (h : Tracks c s.advance s'.advance (P ∧ s.current.Alike s'.current) K (f s.current)
      (f' s'.current) S B) :
    Tracks c s s' P K (liftM Parser.advance >>= f) (liftM Parser.advance >>= f') S B where
  runs hs := by
    have hst := hs.advance (hkind ▸ (TokenKind.of_isPlain hplain).2.2)
    exact hst.trans (h.runs hst.fine)
  keeps hs := h.keeps (hs.advance (hkind ▸ (TokenKind.of_isPlain hplain).2.2)).fine
  follows hP hs := by
    have hgap : ¬AtGap c s s' := fun hgap => hsemi (hkind.symm.trans hgap.kind)
    obtain ⟨hadvance, hpassed⟩ := hs.passed hgap hkind hplain
    exact h.follows ⟨hP, hpassed.alike⟩ hadvance

/-- A token of a kind other than a semicolon, before what is made of it. -/
theorem Tracks.expecting {f f' : Token → Parser α}
    (hsemi : kind ≠ .punct .semicolon) (hplain : kind.isPlain)
    (hf : ∀ tok tok' t t', tok.Alike tok' → Tracks c t t' P K (f tok) (f' tok') S B) :
    Tracks c s s' P K (expect kind >>= f) (expect kind >>= f') S B := by
  have htok : Tracks c s s' P False (expect kind) (expect kind) (fun tok tok' _ _ => tok.Alike tok')
      fun _ _ => False :=
    (tracks_expect hsemi hplain).mono id id (fun _ _ _ _ h => h.alike) fun _ _ h => h
  refine .relate .refl htok fun tok tok' t t' halike => ?_
  exact (hf tok tok' t t' halike).weaken id fun h => h.resolve_right id

theorem mirrors_ident : Mirrors c ident id fun _ => [] := by
  intro P s s'
  unfold ident
  refine .expecting (by simp) rfl fun tok tok' t t' halike => ?_
  exact .pure (fun _ => halike.ident) False.elim

theorem exec_ident_atGap (hgap : AtGap c s s') : (exec ident s).1 = none := by
  unfold ident
  rw [exec_bind, exec_expect_of_ne (by simp [hgap.kind])]

theorem exec_propertyName_atGap (hgap : AtGap c s s') : (exec propertyName s).1 = none := by
  unfold propertyName
  rw [exec_get, hgap.kind]
  exact exec_ident_atGap hgap

/-- A word is passed in both readings. -/
theorem mirrors_propertyName : Mirrors c propertyName id fun _ => [] := by
  intro P s s'
  refine .awayFromGap id (reads_propertyName 0 s) exec_propertyName_atGap fun _ _ hkind => ?_
  unfold propertyName
  refine .get ?_
  rw [hkind]
  cases hword : s.kind with
  | keyword w =>
    refine .advance hword (by simp) rfl ?_
    exact .pure (fun h => h.2.ident) False.elim
  | _ => exact mirrors_ident s s'

/-- Whether a token was passed, which is the same in both readings. -/
def TakenBoth (s s' : State) (b b' : Bool) (t t' : State) : Prop :=
  b' = b ∧ (b = true → t.rest.length < s.rest.length ∧ t'.rest.length < s'.rest.length)

/-- A token is passed if some condition holds, which is the same in parallel states and holds only
before tokens of a certain kind. -/
theorem tracks_takeIf {g : StateM State Bool} (here : State → Bool) (kind : TokenKind)
    (hrun : ∀ u, g.run u = if here u then (true, u.advance) else (false, u))
    (hsame : Parallel c s s' → here s' = here s) (hhere : here s = true → s.kind = kind)
    (hcommon : kind ≠ .punct .semicolon) (hplain : kind.isPlain) :
    Tracks c s s' P False (liftM g) (liftM g) (TakenBoth s s') fun _ _ => False := by
  refine .lift (fun hs => ?_) False.elim fun _ hs _ => .inr ?_
  · obtain ⟨hne, -, herr⟩ := TokenKind.of_isPlain hplain
    exact (reading_takeIf (hrun s) hhere hne herr).onward hs
  · rw [hrun s, hrun s', hsame hs]
    cases hyes : here s with
    | false => exact ⟨hs, rfl, by simp⟩
    | true =>
      have hkind := hhere hyes
      have hgap : ¬AtGap c s s' := fun hgap => hcommon (hkind.symm.trans hgap.kind)
      obtain ⟨hadvance, hpassed⟩ := hs.passed hgap hkind hplain
      exact ⟨hadvance, rfl, fun _ => ⟨Nat.lt_of_succ_le hpassed.length.le,
        Nat.lt_of_succ_le hpassed.length'.le⟩⟩

theorem tracks_take (hcommon : Omission.Common kind) (hplain : kind.isPlain) :
    Tracks c s s' P False (liftM (take kind)) (liftM (take kind)) (TakenBoth s s')
      fun _ _ => False := by
  refine tracks_takeIf (fun u => u.kind == kind) kind (run_take kind) (fun hs => ?_) (fun h => ?_)
    hcommon.1 hplain
  · exact hs.kind_beq hcommon
  · exact beq_iff_eq.1 h

theorem tracks_takeMark (hm : Omission.Common (.punct m)) :
    Tracks c s s' P False (liftM (takeMark m)) (liftM (takeMark m)) (TakenBoth s s')
      fun _ _ => False :=
  tracks_take hm rfl

theorem tracks_takeKeyword {w : Keyword} (hw : Omission.Common (.keyword w)) :
    Tracks c s s' P False (liftM (takeKeyword w)) (liftM (takeKeyword w)) (TakenBoth s s')
      fun _ _ => False :=
  tracks_take hw rfl

theorem tracks_takeName (w : String) :
    Tracks c s s' P False (liftM (takeName w)) (liftM (takeName w)) (TakenBoth s s')
      fun _ _ => False :=
  tracks_takeIf (·.atName w) .label (run_takeName w)
    (fun hs => hs.atName w) (fun h => (State.atName_iff.1 h).1) (by simp) rfl

/-- A semicolon is no other mark. -/
theorem exec_takeMark_atGap {f : Bool → Parser α} (hgap : AtGap c s s')
    (hm : m ≠ .semicolon) : exec (liftM (takeMark m) >>= f) s = exec (f false) s := by
  rw [exec_takeMark, if_neg (by simp [hgap.kind, hm.symm])]

/-- A token that may be there, before what depends on it. -/
theorem Tracks.taking {g : StateM State Bool} {f f' : Bool → Parser α}
    (hg : Tracks c s s' P False (liftM g) (liftM g) (TakenBoth s s') fun _ _ => False)
    (hf : ∀ b t t', Tracks c t t'
      (P ∧ (b = true → t.rest.length < s.rest.length ∧ t'.rest.length < s'.rest.length)) K (f b)
      (f' b) S B) :
    Tracks c s s' P K (liftM g >>= f) (liftM g >>= f') S B := by
  refine hg.andThen fun b b' t t' => ⟨(hf b t t').runs, fun hs hK => ?_, ?_⟩
  · exact (hf b t t').keeps hs (hK.resolve_right id)
  · rintro ⟨hP, rfl, htaken⟩
    exact (hf b' t t').follows ⟨hP, htaken⟩

theorem tracks_expectName (w : String) :
    Tracks c s s' P False (expectName w) (expectName w) (fun _ _ _ _ => True)
      fun _ _ => False where
  runs hs := (reads_expectName w s).onward hs
  keeps _ h := h.elim
  follows _ hs a t hexec _ := by
    by_cases hname : s.atName w = true
    · rw [exec_expectName_of_atName hname] at hexec
      cases hexec
      have hkind := (State.atName_iff.1 hname).1
      have hgap : ¬AtGap c s s' := fun hgap => by simp [hgap.kind] at hkind
      obtain ⟨hadvance, -⟩ := hs.passed hgap hkind rfl
      exact .inr ⟨_, _, exec_expectName_of_atName ((hs.atName w).trans hname), hadvance, trivial⟩
    · rw [exec_expectName_of_not hname] at hexec
      cases hexec

theorem mirrors_textLit : Mirrors c textLit id fun _ => [] := by
  intro P s s'
  unfold textLit
  refine .expecting (by simp) rfl fun tok tok' t t' halike => ?_
  refine .pure (fun _ => ?_) False.elim
  rw [halike.text, halike.span]

/-! ### Parts that may be missing, and checks -/

theorem Mirrors.congr {f : α → β} {nodes nodes' : α → List Node} (h : Mirrors c p f nodes)
    (hnodes : ∀ a, nodes a = nodes' a) : Mirrors c p f nodes' :=
  fun _ s s' => (h s s').mono id id (fun _ _ _ _ h => h) fun a _ hneeded => hnodes a ▸ hneeded

theorem mirrors_optionally {here : Bool} {f : α → β} {node : α → Node}
    (h : Mirrors c p f fun a => [node a]) :
    Mirrors c (optionally here p) (Option.map f) fun o => o.toList.map node := by
  intro P s s'
  cases here with
  | false => exact .pure (fun _ => rfl) False.elim
  | true =>
    refine .bind h fun a a' t t' ha => .pure (fun _ => ?_) fun h => h.resolve_left id
    rw [Option.map_some, Option.map_some, ha]

theorem mirrors_optionally_same {here : Bool} (h : Mirrors c p id fun _ => []) :
    Mirrors c (optionally here p) id fun _ => [] := by
  intro P s s'
  cases here with
  | false => exact .pure (fun _ => rfl) False.elim
  | true => exact .same h fun a t t' => .pure (fun _ => rfl) False.elim

theorem tracks_report (span span' : Span) {e e' : SyntaxError} (he : e.isPlain)
    (hfound : e.found? = none) :
    Tracks c s s' P False (liftM (report span e)) (liftM (report span' e'))
      (fun _ _ t t' => t.rest = s.rest ∧ t'.rest = s'.rest) fun _ _ => False :=
  .lift (fun hs => hs.report span he hfound) id fun _ _ hclean =>
    absurd hclean (append_ne_nil_of_right_ne_nil s.errors (by simp))

theorem tracks_reportWhen {faulty faulty' : Bool} (hfaulty : P → faulty' = faulty)
    (span span' : Span) {e : SyntaxError} (he : e.isPlain) (hfound : e.found? = none) :
    Tracks c s s' P False (liftM (reportWhen faulty span e)) (liftM (reportWhen faulty' span' e))
      (fun _ _ t t' => t.rest = s.rest ∧ t'.rest = s'.rest) fun _ _ => False := by
  refine .of_eq (f := fun b => liftM (reportWhen b span' e)) faulty' (fun hP _ => hfaulty hP) ?_
  cases faulty with
  | false => exact .lift (fun hs => .refl hs) id fun _ hs _ => .inr ⟨hs, rfl, rfl⟩
  | true => exact tracks_report span span' he hfound

theorem tracks_terminate :
    Tracks c s s' P False (liftM terminate) (liftM terminate) (fun _ _ _ _ => True)
      fun _ _ => False :=
  .lift (fun hs => hs.terminate) id fun _ hs hclean => .inr ⟨hs.terminate hclean, trivial⟩

/-- What is read after a fault is not without faults. -/
theorem not_clean_after_fault {g : State → State} {f : PUnit → Parser α}
    {Q : α → List Token → Prop} {W : α → State → Prop} {a : α}
    (hexec : exec (modify g >>= f) s = (some a, t))
    (hrun : Onward c.sheet s (g s) ∧ (g s).errors ≠ [])
    (hread : Reading c.sheet (g s) (f ⟨⟩) Q W) : t.errors ≠ [] := by
  have hexec : exec (f ⟨⟩) (g s) = (some a, t) := hexec
  have honward := hread.onward hrun.1.fine
  rw [hexec] at honward
  exact mt honward.clean hrun.2

/-- Going on after a fault. -/
theorem tracks_after_fault {g : State → State} {f : PUnit → Parser α}
    {Q : α → List Token → Prop} {W : α → State → Prop}
    (hrun : s.Fine c.sheet → Onward c.sheet s (g s) ∧ (g s).errors ≠ [])
    (hread : Reading c.sheet (g s) (f ⟨⟩) Q W) :
    Tracks c s s' P False (modify g >>= f) p' S B where
  runs hs := (hrun hs).1.trans (hread.onward (hrun hs).1.fine)
  keeps _ h := h.elim
  follows _ hs _ _ hexec hclean :=
    absurd hclean (not_clean_after_fault hexec (hrun hs.fine) hread)

/-! ### Levels -/

/-- Both readings go one level deeper. -/
theorem tracks_descend :
    Tracks c s s' P False descend descend (fun _ _ _ _ => True) fun _ _ => False where
  runs hs := (reads_descend s).onward hs
  keeps _ h := h.elim
  follows _ hs a t hexec _ := by
    rw [exec_descend] at hexec ⊢
    rw [hs.depth]
    split at hexec
    · next hlt =>
      cases hexec
      exact .inr ⟨_, _, if_pos hlt, hs.level hlt, trivial⟩
    · cases hexec

/-- A part on a level of its own is read in parallel. -/
theorem mirrors_nested {g : α → β} {nodes : α → List Node} (h : Mirrors c p g nodes) :
    Mirrors c (nested p) g nodes := by
  intro P s s'
  refine ⟨fun hs => ?_, fun _ h => h.elim, fun hP hs a t hexec hclean => ?_⟩
  · rw [exec_nested]
    split
    · next hlt =>
      have hdown := hs.level hlt
      have hst := (h (P := P) _ s').runs hdown.fine
      exact hdown.trans (hst.trans (hst.fine.level hs.depth_le))
    · have hdeep := hs.move (.depth s)
      exact hdeep.trans (hdeep.fine.level hs.depth_le)
  · rw [exec_nested] at hexec ⊢
    rw [hs.depth]
    split at hexec
    · next hlt =>
      rw [if_pos hlt]
      rcases heq : exec p { s with depth := s.depth + 1 } with ⟨_ | b, u⟩
      · rw [heq] at hexec
        cases hexec
      · rw [heq] at hexec
        cases hexec
        refine ((h _ _).follows hP (hs.level hlt) a u heq hclean).imp_right ?_
        rintro ⟨a', t', heq', ht, hg⟩
        rw [heq']
        exact ⟨_, _, rfl, ht.level hs.fine.depth_le, hg⟩
    · cases hexec

/-! ### Lists -/

/-- A part is read over its nodes in both scripts. -/
structure ReadsBoth (c : Setting) (k : Nat) (p : Parser α) (spelling : α → Spelling)
    (nodes : α → List Node) : Prop where
  fst : Reads c.sheet k p spelling nodes
  snd : Reads c.sheet' k p spelling nodes

/-- No token comes back while a part is read, in both readings. -/
theorem Tracks.consuming {Q Q' : α → List Token → Prop} {W W' : α → State → Prop}
    (h : Tracks c s s' P K p p' S B) (hp : Reading c.sheet s p Q W)
    (hp' : Reading c.sheet' s' p' Q' W') :
    Tracks c s s' P K p p' (fun a a' t t' => S a a' t t' ∧ t.rest.length ≤ s.rest.length ∧
      t'.rest.length ≤ s'.rest.length) B where
  runs := h.runs
  keeps := h.keeps
  follows hP hs a t hexec hclean := by
    refine (h.follows hP hs a t hexec hclean).imp id ?_
    rintro ⟨a', t', hexec', ht, hS⟩
    have hst := hp.onward hs.fine
    have hst' := hp'.onward hs.fine'
    rw [hexec] at hst
    rw [hexec'] at hst'
    exact ⟨a', t', hexec', ht, hS, hst.length_le, hst'.length_le⟩

/-- One part after another, where no token comes back while the first one is read. -/
theorem Tracks.bindConsuming {k : Nat} {g : α → γ} {nodes read : α → List Node}
    {spelling : α → Spelling} (hp : Mirrors c p g nodes) (hreads : ReadsBoth c k p spelling read)
    (hf : ∀ a a' t t', g a' = g a → Tracks c t t' (P ∧ t.rest.length ≤ s.rest.length ∧
      t'.rest.length ≤ s'.rest.length) (K ∨ c.Needed (nodes a)) (f a) (f' a') T C) :
    Tracks c s s' P K (p >>= f) (p >>= f') T C := by
  refine ((hp s s').consuming (hreads.fst s) (hreads.snd s')).andThen fun a a' t t' => ?_
  obtain ⟨hruns, hkeeps, -⟩ := hf a a t t' rfl
  exact ⟨hruns, hkeeps, fun ⟨hP, ha, hlength⟩ => (hf a a' t t' ha).follows ⟨hP, hlength⟩⟩

/-- Without a fault an item is read at the first try. -/
theorem exec_retrying_of_clean {k : Nat} {spelling : α → Spelling} {nodes : α → List Node}
    (hp : Reads c.sheet k p spelling nodes) (close : TokenKind) (n : Nat) {a : α}
    (hs : s.Fine c.sheet) (hexec : exec (retrying close p n) s = (some a, t))
    (hclean : t.errors = []) : exec p s = (some a, t) := by
  cases n with
  | zero => exact hexec
  | succ n =>
    rw [exec_retrying_succ] at hexec
    obtain ⟨u, heq, hsu, hlisted⟩ | ⟨b, u, heq, -⟩ := (hp s).outcome hs
    · rw [heq] at hexec
      dsimp only at hexec
      have hcomma := hsu.fine.passComma? close
      split at hexec
      · have hrun := (reads_retrying close hp n _).onward hcomma.fine
        rw [hexec] at hrun
        exact absurd ((hcomma.trans hrun).clean hclean) hlisted
      · cases hexec
    · rw [heq] at hexec ⊢
      exact hexec

theorem exec_retrying_of_eq (close : TokenKind) (n : Nat) {a : α}
    (hexec : exec p s = (some a, t)) : exec (retrying close p n) s = (some a, t) := by
  cases n with
  | zero => exact hexec
  | succ n => rw [exec_retrying_succ, hexec]

section

variable {k : Nat} {spelling : α → Spelling} {g : α → β} {nodes read : α → List Node}
  (hreads : ReadsBoth c k p spelling read)
include hreads

theorem tracks_retrying (hp : Mirrors c p g nodes) (close : TokenKind) (n n' : Nat) :
    Tracks c s s' P False (retrying close p n) (retrying close p n')
      (fun a a' t t' => g a' = g a ∧ t.rest.length ≤ s.rest.length ∧
        t'.rest.length ≤ s'.rest.length) fun a _ => c.Needed (nodes a) := by
  refine Tracks.consuming ⟨?_, fun _ h => h.elim, ?_⟩ (reads_retrying close hreads.fst n s)
    (reads_retrying close hreads.snd n' s')
  · exact fun hs => (reads_retrying close hreads.fst n s).onward hs
  · intro hP hs a t hexec hclean
    have hexec := exec_retrying_of_clean hreads.fst close n hs.fine hexec hclean
    refine ((hp s s').follows hP hs a t hexec hclean).imp id ?_
    rintro ⟨a', t', hexec', h⟩
    exact ⟨a', t', exec_retrying_of_eq close n' hexec', h⟩

variable (hnone : ∀ {u u' : State}, AtGap c u u' → (exec p u).1 = none)
  (hclose : close ≠ .punct .semicolon)
include hnone hclose

/-- Items, of which there are no more than tokens. None of them starts with a semicolon. -/
theorem tracks_itemsUpTo (hp : Mirrors c p g nodes) (n n' : Nat) :
    Tracks c s s' (P ∧ s.rest.length ≤ n ∧ s'.rest.length ≤ n') False (itemsUpTo close p n)
      (itemsUpTo close p n') (fun as as' _ _ => as'.map g = as.map g)
      fun as _ => c.Needed (as.flatMap nodes) := by
  induction n generalizing P n' s s' with
  | zero =>
    refine ⟨fun hs => .refl hs, fun _ h => h.elim, ?_⟩
    rintro ⟨-, hn, -⟩ hs as t hexec -
    cases hexec
    have hnil := hs.follow.eq_nil (length_eq_zero_iff.1 (Nat.le_zero.1 hn))
    have hend := hs.fine'.atEnd_of_length [close] (by simp [hnil])
    exact .inr ⟨_, _, exec_itemsUpTo_of_atEnd hend n', hs, rfl⟩
  | succ n ih =>
    cases hend : s.atEnd [close] with
    | true =>
      refine ⟨fun hs => (reads_itemsUpTo close hreads.fst _ s).onward hs, fun _ h => h.elim, ?_⟩
      intro _ hs as t hexec _
      have hgap : ¬AtGap c s s' := fun hgap => by
        simp [State.atEnd, hgap.kind, hclose.symm] at hend
      rw [exec_itemsUpTo_of_atEnd hend] at hexec
      cases hexec
      exact .inr ⟨_, _, exec_itemsUpTo_of_atEnd ((hs.atEnd hgap _).trans hend) n', hs, rfl⟩
    | false =>
      rw [itemsUpTo]
      refine .get ?_
      rw [hend]
      refine .andThenOffGap
        (fun a' => do
          if ← takeMark .comma then
            let rest ← itemsUpTo close p (n' - 1)
            return a' :: rest
          else
            let s ← get
            if s.kind == close then
              return [a']
            else
              unexpected [.punct .comma, close])
        (tracks_retrying hreads hp close _ s'.rest.length) ?_ ?_ fun a a' t t' => ?_
      · intro hgap a t hexec hfine hclean
        have hfirst := exec_retrying_of_clean hreads.fst close _ hfine hexec hclean
        exact absurd (hnone hgap) (by simp [hfirst])
      · -- away from the place there is another item in both readings
        rintro ⟨-, -, hn'⟩ hs hgap
        have hend' : s'.atEnd [close] = false := (hs.atEnd hgap _).trans hend
        cases n' with
        | zero =>
          have hlength := hs.fine'.atEnd_of_length [close] (Nat.le_zero.1 hn')
          rw [hend'] at hlength
          cases hlength
        | succ n' =>
          rw [itemsUpTo, exec_get, hend']
          rfl
      · refine .taking (tracks_takeMark (by decide)) fun b u u' => ?_
        cases b with
        | true =>
          refine .andThen ((ih (P := g a' = g a) (n' - 1)).weaken (fun h => ?_) id) ?_
          · obtain ⟨⟨⟨-, hn, hn'⟩, hga, hle, hle'⟩, hlt⟩ := h
            obtain ⟨hlt, hlt'⟩ := hlt rfl
            exact ⟨hga, by omega, by omega⟩
          · intro rest rest' v v'
            refine .pure (fun h => ?_) fun h => ?_
            · rw [map_cons, map_cons, h.1.1.2.1, h.2]
            · rw [flatMap_cons, Omission.needed_append]
              exact h.imp_left fun h => h.elim False.elim id
        | false =>
          refine .get (.offGap (fun _ hgap as v hexec => ?_) ?_)
          · rw [beq_eq_false_iff_ne.2 (hgap.kind ▸ hclose.symm)] at hexec
            cases hexec
          · refine .ite (fun h hs => by rw [hs.kind_eq h.2]) (fun _ => ?_) fun _ => ?_
            · refine .pure (fun h => ?_) fun h => ?_
              · rw [map_singleton, map_singleton, h.1.1.2.1]
              · rw [flatMap_singleton]
                exact h.elim False.elim id
            · exact tracks_unexpected _ _

theorem mirrors_items (hp : Mirrors c p g nodes) :
    Mirrors c (items close p) (List.map g) fun as => as.flatMap nodes := by
  intro P s s'
  refine .get ((tracks_itemsUpTo hreads hnone hclose hp _ _).weaken (P := P ∧ _) (fun h => ?_) id)
  exact ⟨h, le_rfl, le_rfl⟩

/-- Items that are one node each. -/
theorem mirrors_items_node {node : α → Node} (hp : Mirrors c p g fun a => [node a]) :
    Mirrors c (items close p) (List.map g) fun as => as.map node :=
  (mirrors_items hreads hnone hclose hp).congr fun as => by simp [map_eq_flatMap]

/-- Items that are the same in both readings. -/
theorem mirrors_items_same (hp : Mirrors c p id fun _ => []) :
    Mirrors c (items close p) id fun _ => [] := by
  intro P s s'
  have hitems : Mirrors c (items close p) (List.map id) fun _ => [] :=
    (mirrors_items hreads hnone hclose hp).congr fun as => flatMap_eq_nil_iff.2 fun _ _ => rfl
  exact (hitems s s').mono id id (fun as as' _ _ h => by simpa using h) fun _ _ h => h

end

section

variable {stmt : Parser Stmt} {k : Nat} {ends : List TokenKind}

theorem run_statementsUpTo_of_atEnd (hend : s.atEnd ends = true) (n : Nat) :
    (statementsUpTo stmt ends n).run s = ([], s) := by
  cases n with
  | zero => rfl
  | succ n => rw [run_statementsUpTo_succ, if_pos hend]

/-- Statements, of which there are no more than tokens. At the place of the semicolon, the next one
is a semicolon by itself. -/
theorem Parallel.statementsUpTo (h : Parallel c s s') (hreads : ReadsStmt c.sheet k stmt)
    (hreads' : ReadsStmt c.sheet' k stmt) (hstmt : MirrorsStmt c stmt)
    (hempty : ∀ {u u' : State}, AtGap c u u' → ∀ a t, exec stmt u = (some a, t) →
      c.Needed [.stmt a]) (hends : .punct .semicolon ∉ ends) {n n' : Nat} (hn : s.rest.length ≤ n)
    (hn' : s'.rest.length ≤ n') (hclean : ((statementsUpTo stmt ends n).run s).2.errors = []) :
    c.Needed (((statementsUpTo stmt ends n).run s).1.map .stmt) ∨
      Parallel c ((statementsUpTo stmt ends n).run s).2 ((statementsUpTo stmt ends n').run s').2 ∧
        ((statementsUpTo stmt ends n').run s').1.map Stmt.stripped =
          ((statementsUpTo stmt ends n).run s).1.map Stmt.stripped := by
  induction n generalizing n' s s' with
  | zero =>
    have hnil := h.follow.eq_nil (length_eq_zero_iff.1 (Nat.le_zero.1 hn))
    have hend := h.fine'.atEnd_of_length ends (by simp [hnil])
    rw [run_statementsUpTo_of_atEnd hend]
    exact .inr ⟨h, rfl⟩
  | succ n ih =>
    cases hend : s.atEnd ends with
    | true =>
      have hgap : ¬AtGap c s s' := fun hgap => by
        simp [State.atEnd, hgap.kind, hends] at hend
      rw [run_statementsUpTo_of_atEnd hend,
        run_statementsUpTo_of_atEnd ((h.atEnd hgap ends).trans hend)]
      exact .inr ⟨h, rfl⟩
    | false =>
      rw [run_statementsUpTo_succ, hend, if_neg Bool.false_ne_true] at hclean ⊢
      obtain ⟨t, heq, hst, hlisted⟩ | ⟨a, t, heq, hgot⟩ := (hreads s).outcome h.fine
      · -- a statement that could not be read leaves a fault
        rw [heq] at hclean
        have hrec := hst.fine.recover ends (t.rest.length == s.rest.length)
        have hrun := (got_statementsUpTo hreads ends n hrec.fine).1.onward
        exact absurd ((hrec.trans hrun).clean hclean) hlisted
      · rw [heq] at hclean ⊢
        have hrun := (got_statementsUpTo hreads ends n hgot.onward.fine).1.onward
        have hlength := hgot.value.length_lt
        by_cases hgap : AtGap c s s'
        · exact .inl (Omission.needed_cons.2 (.inl (hempty hgap a t heq)))
        rcases (hstmt s s').follows trivial h a t heq (hrun.clean hclean) with
          hneeded | ⟨a', t', heq', ht, hstripped⟩
        · exact .inl (Omission.needed_cons.2 (.inl hneeded))
        · have hend' : s'.atEnd ends = false := (h.atEnd hgap ends).trans hend
          have hgot' := hreads' s' h.fine'
          rw [heq'] at hgot'
          have hlength' := hgot'.value.length_lt
          obtain ⟨m', rfl⟩ : ∃ m', n' = m' + 1 := ⟨n' - 1, by omega⟩
          rw [run_statementsUpTo_succ, hend', if_neg Bool.false_ne_true, heq']
          have hle' : t'.rest.length ≤ m' := by omega
          rcases ih ht (by omega) hle' hclean with hneeded | ⟨hpar, hrest⟩
          · exact .inl (Omission.needed_cons.2 (.inr hneeded))
          · refine .inr ⟨hpar, ?_⟩
            rw [map_cons, map_cons, hstripped, hrest]

theorem mirrors_statements (hreads : ReadsStmt c.sheet k stmt) (hreads' : ReadsStmt c.sheet' k stmt)
    (hstmt : MirrorsStmt c stmt)
    (hempty : ∀ {u u' : State}, AtGap c u u' → ∀ a t, exec stmt u = (some a, t) →
      c.Needed [.stmt a]) (hends : .punct .semicolon ∉ ends) :
    Mirrors c (liftM (statements stmt ends)) (List.map Stmt.stripped) fun body =>
      body.map .stmt := by
  intro P s s'
  refine .lift (fun hs => ?_) False.elim fun _ hs hclean => ?_
  · exact (got_statementsUpTo hreads ends _ hs).1.onward
  · exact hs.statementsUpTo hreads hreads' hstmt hempty hends le_rfl le_rfl hclean

end

end Parser

end ScriptCheck
