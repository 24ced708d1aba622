import ScriptCheck.Proofs.Outcome

/-!
# Reading lists

Lists of items between commas and lists of statements. Both go on after an item that could not be
read, so they have values even where there are faults; without a fault every item was read at its
first try. A list of statements ends before one of its closing tokens, however many faults it has
(`statements_atEnd`), since each statement passes a token and going on after a fault does too.
-/

namespace ScriptCheck

open Spelling

namespace Parser

variable {α : Type} {c : Sheet} {k : Nat} {s : State} {p : Parser α} {spelling : α → Spelling}
  {nodes : α → List Node} {V : α → Prop} (close : TokenKind)

/-! ### Items between commas -/

/-- An item is read, or else the one behind the next comma. -/
theorem exec_retrying_succ (n : Nat) :
    exec (retrying close p (n + 1)) s =
      match exec p s with
      | (some a, t) => (some a, t)
      | (none, t) =>
        if (t.passComma? close).1 then exec (retrying close p n) (t.passComma? close).2
        else (none, (t.passComma? close).2) := by
  have hattempt : exec (attempt p) s = (some (exec p s).1, (exec p s).2) := rfl
  rw [retrying, exec_bind, hattempt]
  rcases exec p s with ⟨_ | a, t⟩
  · change exec (if (t.passComma? close).1 then retrying close p n else failure)
      (t.passComma? close).2 = _
    dsimp only
    rcases t.passComma? close with ⟨_ | _, u⟩ <;> rfl
  · rfl

/-- Nothing is read at the end. -/
theorem exec_itemsUpTo_of_atEnd {close : TokenKind} (hend : s.atEnd [close] = true) (n : Nat) :
    exec (itemsUpTo close p n) s = (some [], s) := by
  cases n with
  | zero => rfl
  | succ n =>
    rw [itemsUpTo, exec_get, if_pos hend]
    rfl

section

variable (hp : ∀ s, Reading c s p (fun a us => spelling a s.rest us)
  fun a t => Passes c k s t (nodes a) ∧ V a)
include hp

/-- Further tries at an item are made only after a fault. -/
theorem reading_retrying (n : Nat) (s : State) :
    Reading c s (retrying close p n) (fun a us => spelling a s.rest us)
      fun a t => Passes c k s t (nodes a) ∧ V a := by
  induction n generalizing s with
  | zero => exact hp s
  | succ n ih =>
    intro hs
    rw [exec_retrying_succ]
    obtain ⟨t, heq, hst, hlisted⟩ | ⟨a, t, heq, hgot⟩ := (hp s).outcome hs
    · rw [heq]
      have hcomma := hst.fine.passComma? close
      have hsu := hst.trans hcomma
      have hu := mt hcomma.clean hlisted
      dsimp only
      split
      · exact (ih _ hsu.fine).after_fault hsu hu fun _ _ h => ⟨h.1.after hsu, h.2⟩
      · exact ⟨hsu, hu⟩
    · rw [heq]
      exact hgot

theorem reading_itemsUpTo (n : Nat) (s : State) :
    Reading c s (itemsUpTo close p n) (fun as us => separated spelling as s.rest us)
      fun as t => Passes c k s t (as.flatMap nodes) ∧ ∀ a ∈ as, V a := by
  induction n generalizing s with
  | zero => exact .of_fine fun hs => .pure ⟨.nil (.refl hs), by simp⟩ rfl
  | succ n ih =>
    rw [itemsUpTo]
    refine .get ?_
    split
    · exact .of_fine fun hs => .pure ⟨.nil (.refl hs), by simp⟩ rfl
    · refine .bind (reading_retrying close hp _ s) fun a t ha => ?_
      refine .bind (reading_takeMark .comma) fun b u hu => ?_
      have hfirst := ha.1.onto hu.1
      cases b with
      | true =>
        refine .bind (ih u) fun rest v hrest => .pure ⟨hfirst.append hrest.1, ?_⟩ ?_
        · exact List.forall_mem_cons.2 ⟨ha.2, hrest.2⟩
        · exact fun hmore hcomma hfirst => inl (append (append hfirst hcomma) hmore)
      | false =>
        refine .get ?_
        split
        · refine .pure ⟨by simpa using hfirst, by simpa using ha.2⟩ fun heq hfirst => ?_
          exact inr (append_given rfl (heq ▸ hfirst))
        · exact reading_unexpected _

/-- Items between commas, up to the token that closes the list. -/
theorem reading_items :
    Reading c s (items close p) (fun as us => separated spelling as s.rest us)
      fun as t => Passes c k s t (as.flatMap nodes) ∧ ∀ a ∈ as, V a :=
  .get (reading_itemsUpTo close hp _ s)

end

theorem Reads.and_true (h : Reads c k p spelling nodes) (s : State) :
    Reading c s p (fun a us => spelling a s.rest us) fun a t => Passes c k s t (nodes a) ∧ True :=
  (h s).mono (fun _ _ h => h) fun _ _ h => ⟨h, trivial⟩

theorem reads_retrying (hp : Reads c k p spelling nodes) (n : Nat) :
    Reads c k (retrying close p n) spelling nodes :=
  fun s => (reading_retrying close hp.and_true n s).mono (fun _ _ h => h) fun _ _ h => h.1

theorem reads_itemsUpTo (hp : Reads c k p spelling nodes) (n : Nat) :
    Reads c k (itemsUpTo close p n) (separated spelling) fun as => as.flatMap nodes :=
  fun s => (reading_itemsUpTo close hp.and_true n s).mono (fun _ _ h => h) fun _ _ h => h.1

theorem reads_items (hp : Reads c k p spelling nodes) :
    Reads c k (items close p) (separated spelling) fun as => as.flatMap nodes :=
  fun s => .get (reads_itemsUpTo close hp _ s)

/-- Items that are one node each. -/
theorem reads_items_node {node : α → Node} (hp : Reads c k p spelling fun a => [node a]) :
    Reads c k (items close p) (separated spelling) fun as => as.map node :=
  (reads_items close hp).congr fun as => by simp [List.map_eq_flatMap]

/-! ### Statements -/

/-- Skipping passes a token if there is one. -/
theorem State.length_skip : s.skip.rest.length = s.rest.length - 1 := by
  have hrest := s.rest_reportLexical
  unfold skip
  rcases s.reportLexical.advance_cases with ⟨hnil, heq⟩ | ⟨rest, hcons, heq⟩
  · have hnil : s.rest = [] := hrest ▸ hnil
    simp [heq, hnil]
  · rw [heq, ← hrest, hcons]
    simp

/-- After a statement that could not be read, fewer tokens follow than before it. -/
theorem State.length_recover_lt {t : State} (ends : List TokenKind) (hst : Onward c s t)
    (hs : s.rest ≠ []) :
    (t.recover ends (t.rest.length == s.rest.length)).rest.length < s.rest.length := by
  have hle := hst.length_le
  have hpos := List.length_pos_iff.2 hs
  by_cases hlen : t.rest.length = s.rest.length
  · -- nothing was passed, so going on starts by skipping a token
    have honward := (hst.fine.skip.fine.recover ends false).length_le
    have hskip := t.length_skip
    have heq : t.recover ends (t.rest.length == s.rest.length) = t.skip.recover ends false := by
      simp [recover, hlen]
    rw [heq]
    omega
  · have honward := (hst.fine.recover ends (t.rest.length == s.rest.length)).length_le
    omega

theorem State.Fine.atEnd_of_length (hs : s.Fine c) (ends : List TokenKind)
    (h : s.rest.length = 0) : s.atEnd ends = true := by
  have hrest := List.length_eq_zero_iff.1 h
  simp [atEnd, kind, current, hrest, hs.isEof]

/-- A list of statements, one statement at a time. -/
theorem run_statementsUpTo_succ (stmt : Parser Stmt) (ends : List TokenKind) (n : Nat) :
    (statementsUpTo stmt ends (n + 1)).run s =
      if s.atEnd ends then ([], s)
      else
        match exec stmt s with
        | (some first, t) =>
          (first :: ((statementsUpTo stmt ends n).run t).1, ((statementsUpTo stmt ends n).run t).2)
        | (none, t) =>
          (statementsUpTo stmt ends n).run (t.recover ends (t.rest.length == s.rest.length)) := by
  rw [statementsUpTo]
  change (ite _ _ _ : StateM State (List Stmt)).run s = _
  split
  · rfl
  · unfold exec
    simp only [StateT.run_bind]
    rcases StateT.run stmt.run s with ⟨_ | first, t⟩ <;> rfl

/-- A statement is read by the tokens that spell it. -/
abbrev ReadsStmt (c : Sheet) (k : Nat) (stmt : Parser Stmt) : Prop :=
  Reads c k stmt (Stmt.spelling true) fun a => [.stmt a]

section

variable {stmt : Parser Stmt} (hstmt : ReadsStmt c k stmt) (ends : List TokenKind)
include hstmt

/-- A list of statements is read as far as there is one of its closing tokens. -/
theorem got_statementsUpTo (n : Nat) (hs : s.Fine c) :
    Got c s (fun body us => stmtsSpelling true body s.rest us)
        (fun body t => Passes c k s t (body.map .stmt))
        ((statementsUpTo stmt ends n).run s).1 ((statementsUpTo stmt ends n).run s).2 ∧
      (s.rest.length ≤ n → ((statementsUpTo stmt ends n).run s).2.atEnd ends = true) := by
  induction n generalizing s with
  | zero =>
    refine ⟨⟨.refl hs, .nil (.refl hs), fun _ => rfl⟩, fun hlen => ?_⟩
    exact hs.atEnd_of_length ends (Nat.le_zero.1 hlen)
  | succ n ih =>
    rw [run_statementsUpTo_succ]
    split
    · next hend => exact ⟨⟨.refl hs, .nil (.refl hs), fun _ => rfl⟩, fun _ => hend⟩
    · next hend =>
      have hne : s.rest ≠ [] := fun hnil => hend (hs.atEnd_of_length ends (by simp [hnil]))
      obtain ⟨t, heq, hst, hlisted⟩ | ⟨a, t, heq, hst, hpass, hQ⟩ := (hstmt s).outcome hs
      · rw [heq]
        have hrec := hst.fine.recover ends (t.rest.length == s.rest.length)
        have hlt := State.length_recover_lt ends hst hne
        have hsu := hst.trans hrec
        obtain ⟨hgot, hatEnd⟩ := ih hsu.fine
        -- the list has the fault of the statement that is left out
        refine ⟨⟨hsu.trans hgot.onward, hgot.value.after hsu, fun hclean => ?_⟩,
          fun hn => hatEnd (by omega)⟩
        exact absurd (hrec.clean (hgot.onward.clean hclean)) hlisted
      · rw [heq]
        obtain ⟨hgot, hatEnd⟩ := ih hst.fine
        have hlt := hpass.length_lt
        refine ⟨⟨hst.trans hgot.onward, hpass.cons hgot.value, fun hclean => ?_⟩,
          fun hn => hatEnd (by omega)⟩
        exact append (hQ (hgot.onward.clean hclean)) (hgot.reads hclean)

/-- Statements up to one of some tokens. -/
theorem reads_statements :
    Reads c k (liftM (statements stmt ends)) (stmtsSpelling true) fun body => body.map .stmt :=
  fun _ hs => (got_statementsUpTo hstmt ends _ hs).1

/-- A list of statements ends before one of its closing tokens or at the end. -/
theorem statements_atEnd (hs : s.Fine c) : ((statements stmt ends).run s).2.atEnd ends = true :=
  (got_statementsUpTo hstmt ends _ hs).2 le_rfl

end

end Parser

end ScriptCheck
