import ScriptCheck.Proofs.Layout
import ScriptCheck.Proofs.Spelling

/-!
# Outcomes of reading

What is proved of a part that is read: `Reading c s p Q W` says that reading `p` from the state `s`
moves on, whether it succeeds or fails, and that

* a failure has left a fault in the list,
* of a success, `W` holds of the value and the state after it, and if there is no fault at all then
  `Q` holds of the value and the tokens left.

`Reads c k p spelling nodes` says that a part is read by the tokens that spell its value, over the
nodes that the value has, with `k` levels.

There is one rule for each way to put parts together. In `Reading.bind`, what is known of the first
part becomes a premise of what is to be shown of the second one.
-/

namespace ScriptCheck

open Spelling

namespace Parser

variable {w : String} {here : Bool}

/-- Reads a part from a state: its outcome, and the state after it. -/
def exec {α : Type} (p : Parser α) (s : State) : Option α × State := p.run.run s

/-- The value of a part that was read, the state after it, and what is known of both. -/
structure Got {α : Type} (c : Sheet) (s : State) (Q : α → List Token → Prop) (W : α → State → Prop)
    (a : α) (t : State) : Prop where
  onward : Onward c s t
  value : W a t
  reads : t.errors = [] → Q a t.rest

/-- The state after a part that could not be read. -/
structure Failed (c : Sheet) (s t : State) : Prop where
  onward : Onward c s t
  listed : t.errors ≠ []

/-- What is known of an outcome. -/
def Outcome {α : Type} (c : Sheet) (s : State) (Q : α → List Token → Prop) (W : α → State → Prop) :
    Option α × State → Prop
  | (some a, t) => Got c s Q W a t
  | (none, t) => Failed c s t

/-- What is known of reading a part from a state whose tokens are laid out. -/
def Reading {α : Type} (c : Sheet) (s : State) (p : Parser α) (Q : α → List Token → Prop)
    (W : α → State → Prop) : Prop :=
  s.Fine c → Outcome c s Q W (exec p s)

/-- A part is read by the tokens that spell its value, over the nodes it has. -/
def Reads {α : Type} (c : Sheet) (k : Nat) (p : Parser α) (spelling : α → Spelling)
    (nodes : α → List Node) : Prop :=
  ∀ s, Reading c s p (fun a us => spelling a s.rest us) fun a t => Passes c k s t (nodes a)

variable {α β : Type} {c : Sheet} {k : Nat} {s : State} {p : Parser α} {f : α → Parser β}
  {Q Q' : α → List Token → Prop} {W W' : α → State → Prop} {R : β → List Token → Prop}
  {V : β → State → Prop}

/-! ### Putting parts together -/

theorem exec_bind (p : Parser α) (f : α → Parser β) (s : State) :
    exec (p >>= f) s =
      match exec p s with
      | (some a, t) => exec (f a) t
      | (none, t) => (none, t) := by
  unfold exec
  rcases h : StateT.run p.run s with ⟨_ | a, t⟩ <;>
    simp only [OptionT.run_bind, StateT.run_bind, Option.elimM, h] <;> rfl

theorem exec_get (f : State → Parser α) : exec (MonadState.get >>= f) s = exec (f s) s := rfl

/-- What is known of an outcome holds of it if reading started earlier, too. -/
theorem Outcome.after {t : State} {r : Option α × State} (h : Outcome c t Q W r)
    (hst : Onward c s t) (hQ : ∀ a us, Q a us → Q' a us) (hW : ∀ a u, W a u → W' a u) :
    Outcome c s Q' W' r := by
  rcases r with ⟨_ | a, u⟩
  · exact ⟨hst.trans h.onward, h.listed⟩
  · exact ⟨hst.trans h.onward, hW a u h.value, fun hclean => hQ a _ (h.reads hclean)⟩

/-- After a fault nothing is claimed of the tokens. -/
theorem Outcome.after_fault {t : State} {r : Option α × State} (h : Outcome c t Q W r)
    (hst : Onward c s t) (ht : t.errors ≠ []) (hW : ∀ a u, W a u → W' a u) :
    Outcome c s Q' W' r := by
  rcases r with ⟨_ | a, u⟩
  · exact ⟨hst.trans h.onward, h.listed⟩
  · exact ⟨hst.trans h.onward, hW a u h.value, fun hclean => absurd (h.onward.clean hclean) ht⟩

namespace Reading

/-- A part either fails or is read. -/
theorem outcome (h : Reading c s p Q W) (hs : s.Fine c) :
    (∃ t, exec p s = (none, t) ∧ Failed c s t) ∨
      ∃ a t, exec p s = (some a, t) ∧ Got c s Q W a t := by
  have h := h hs
  rcases hexec : exec p s with ⟨_ | a, t⟩
  · rw [hexec] at h
    exact .inl ⟨t, rfl, h⟩
  · rw [hexec] at h
    exact .inr ⟨a, t, rfl, h⟩

/-- Reading a part moves on, whatever comes of it. -/
theorem onward (h : Reading c s p Q W) (hs : s.Fine c) : Onward c s (exec p s).2 := by
  obtain ⟨t, heq, hfail⟩ | ⟨a, t, heq, hgot⟩ := h.outcome hs
  · rw [heq]
    exact hfail.onward
  · rw [heq]
    exact hgot.onward

theorem of_fine (h : s.Fine c → Reading c s p Q W) : Reading c s p Q W := fun hs => h hs hs

/-- One part after another. What is known of the first value and of the tokens it was read from is a
premise for the second one. -/
theorem bind (hp : Reading c s p Q W)
    (hf : ∀ a t, W a t → Reading c t (f a) (fun b us => Q a t.rest → R b us) V) :
    Reading c s (p >>= f) R V := by
  intro hs
  rw [exec_bind]
  obtain ⟨t, heq, hfail⟩ | ⟨a, t, heq, hst, hW, hQ⟩ := hp.outcome hs
  · rw [heq]
    exact hfail
  · rw [heq]
    dsimp only
    obtain ⟨u, heq', hfail⟩ | ⟨b, u, heq', htu, hV, hR⟩ := (hf a t hW).outcome hst.fine
    · rw [heq']
      exact ⟨hst.trans hfail.onward, hfail.listed⟩
    · rw [heq']
      exact ⟨hst.trans htu, hV, fun hclean => hR hclean (hQ (htu.clean hclean))⟩

/-- A value that needs no token. -/
theorem pure {a : α} (hW : W a s) (hQ : Q a s.rest) : Reading c s (Pure.pure a) Q W :=
  fun hs => ⟨.refl hs, hW, fun _ => hQ⟩

/-- More is known of a part than needed. -/
theorem mono (h : Reading c s p Q W) (hQ : ∀ a us, Q a us → Q' a us)
    (hW : ∀ a t, W a t → W' a t) : Reading c s p Q' W' :=
  fun hs => (h hs).after (.refl hs) hQ hW

/-- The state can be asked for. -/
theorem get {f : State → Parser α} (h : Reading c s (f s) Q W) :
    Reading c s (MonadState.get >>= f) Q W :=
  h

/-- A part that never fails. -/
theorem lift {g : StateM State α} (h : s.Fine c → Got c s Q W (g.run s).1 (g.run s).2) :
    Reading c s (liftM g) Q W :=
  h

/-- A failure that has left a fault. -/
theorem failure {g : State → State} (h : s.Fine c → Failed c s (g s)) :
    Reading c s (modify g >>= fun _ => (Alternative.failure : Parser α)) Q W :=
  h

/-- Going on after a fault. -/
theorem after_fault {g : State → State} {f : PUnit → Parser α}
    (hg : s.Fine c → Failed c s (g s))
    (h : Onward c s (g s) → Reading c (g s) (f ⟨⟩) Q W) :
    Reading c s (modify g >>= f) Q' W :=
  fun hs => (h (hg hs).onward (hg hs).onward.fine).after_fault (hg hs).onward (hg hs).listed
    fun _ _ hW => hW

/-- The outcome of a part that may fail. Without a fault it did not. -/
theorem attempt (h : Reading c s p Q W) :
    Reading c s (Parser.attempt p) (fun o us => ∃ a, o = some a ∧ Q a us)
      (fun o t => Onward c s t ∧ ∀ a ∈ o, W a t) := by
  intro hs
  have hexec : exec (Parser.attempt p) s = (some (exec p s).1, (exec p s).2) := rfl
  rw [hexec]
  obtain ⟨t, heq, hst, hlisted⟩ | ⟨a, t, heq, hst, hW, hQ⟩ := h.outcome hs
  · -- a failure goes on as a value, but the fault stays in the list
    rw [heq]
    exact ⟨hst, ⟨hst, by simp⟩, fun hclean => absurd hclean hlisted⟩
  · rw [heq]
    exact ⟨hst, ⟨hst, by simpa using hW⟩, fun hclean => ⟨a, rfl, hQ hclean⟩⟩

/-- Passes the current token, which is known. -/
theorem advance {f : Token → Parser α} {kind : TokenKind} (hkind : s.kind = kind)
    (hne : kind ≠ .eof) (herr : kind.isError = false)
    (h : Took c s s.current s.advance → Reading c s.advance (f s.current)
      (fun a us => s.rest = s.current :: s.advance.rest → Q a us) W) :
    Reading c s (liftM Parser.advance >>= f) Q W := by
  subst hkind
  intro hs
  have htook := took_advance hs hne herr
  exact (h htook htook.onward.fine).after htook.onward (fun _ _ hQ => hQ htook.rest)
    fun _ _ hW => hW

/-- A region that starts at a token or tree read before, and ends with the token read last. -/
theorem spanFrom {start : Span} {f : Span → Parser α}
    (h : Reading c s (f (start.through s.lastSpan)) Q W) :
    Reading c s (liftM (Parser.spanFrom start) >>= f) Q W :=
  h

end Reading

theorem Reads.congr {spelling : α → Spelling} {nodes nodes' : α → List Node}
    (h : Reads c k p spelling nodes) (heq : ∀ a, nodes a = nodes' a) :
    Reads c k p spelling nodes' :=
  fun s => (h s).mono (fun _ _ hQ => hQ) fun a _ hpass => heq a ▸ hpass

/-- There may be one level more. -/
theorem Reads.up {spelling : α → Spelling} {nodes : α → List Node}
    (h : Reads c k p spelling nodes) : Reads c (k + 1) p spelling nodes :=
  fun s => (h s).mono (fun _ _ hQ => hQ) fun _ _ hpass => hpass.mono (Nat.le_succ k)

/-! ### Single tokens -/

theorem reading_unexpected (kinds : List TokenKind) :
    Reading c s (unexpected kinds : Parser α) Q W :=
  .failure fun hs => ⟨hs.unexpected kinds, hs.unexpected_listed kinds⟩

theorem reading_tooDeep : Reading c s (tooDeep : Parser α) Q W :=
  .failure fun hs => ⟨hs.move (.depth s), hs.reportDepth_listed⟩

variable {kind : TokenKind}

/-- A token of a kind is passed, or the part fails. -/
theorem reading_expect (hne : kind ≠ .eof) (herr : kind.isError = false) :
    Reading c s (expect kind) (fun t us => s.rest = t :: us ∧ t.kind = kind)
      (fun tok t => Took c s tok t ∧ tok.kind = kind) := by
  unfold expect
  refine .get ?_
  split
  · next h =>
    have hkind : s.kind = kind := by simpa using h
    refine .lift fun hs => ?_
    have htook := took_advance hs (hkind ▸ hne) (hkind ▸ herr)
    exact ⟨htook.onward, ⟨htook, hkind⟩, fun _ => ⟨htook.rest, hkind⟩⟩
  · exact reading_unexpected _

theorem reading_expectMark (m : Punct) :
    Reading c s (expectMark m) (fun _ us => mark m s.rest us) (Took c s) :=
  (reading_expect (by simp) rfl).mono (fun t _ h => ⟨t, h.1, h.2⟩) fun _ _ h => h.1

theorem reading_expectKeyword (w : Keyword) :
    Reading c s (expectKeyword w) (fun _ us => word w s.rest us) (TookWord c w s) :=
  (reading_expect (by simp) rfl).mono (fun t _ h => ⟨t, h.1, h.2⟩) fun _ _ h => ⟨h.1, h.2⟩

/-- A mark, and then what is read from there. -/
theorem Reading.mark {m : Punct} {f : Token → Parser β} (hf : ∀ a t, Took c s a t →
      Reading c t (f a) (fun b us => Spelling.mark m s.rest t.rest → R b us) V) :
    Reading c s (expectMark m >>= f) R V :=
  .bind (reading_expectMark m) hf

/-- A keyword, and then what is read from there. -/
theorem Reading.keyword {w : Keyword} {f : Token → Parser β} (hf : ∀ a t, TookWord c w s a t →
      Reading c t (f a) (fun b us => word w s.rest t.rest → R b us) V) :
    Reading c s (expectKeyword w >>= f) R V :=
  .bind (reading_expectKeyword w) hf

theorem reads_ident (k : Nat) : Reads c k ident name fun x => [.name x] := by
  intro s
  unfold ident
  refine .bind (reading_expect (by simp) rfl) fun tok t h => ?_
  exact .pure (h.1.name (.inl h.2)) fun h => ⟨tok, h.1, h.2, rfl⟩

theorem reads_propertyName (k : Nat) :
    Reads c k propertyName Spelling.propertyName fun x => [.name x] := by
  intro s
  unfold propertyName
  refine .get ?_
  split
  · next h =>
    have hkind : s.kind ≠ .eof ∧ s.kind.isError = false := by
      cases hk : s.kind <;> simp_all [TokenKind.isKeyword, TokenKind.isError]
    refine .advance rfl hkind.1 hkind.2 fun htook => ?_
    exact .pure (htook.name (.inr h)) fun hrest => ⟨s.current, hrest, .inr h, rfl⟩
  · refine (reads_ident k s).mono ?_ fun _ _ h => h
    rintro _ _ ⟨t, h, hkind, hx⟩
    exact ⟨t, h, .inl hkind, hx⟩

/-- What is known after a token was passed or not. -/
def Taken (c : Sheet) (s : State) (b : Bool) (t : State) : Prop :=
  Onward c s t ∧ (b = true → Took c s s.current t)

/-- A token is passed if some condition holds, which only holds before a token of a certain kind. -/
theorem reading_takeIf {g : StateM State Bool}
    (hrun : g.run s = if here then (true, s.advance) else (false, s))
    (hhere : here = true → s.kind = kind) (hne : kind ≠ .eof) (herr : kind.isError = false) :
    Reading c s (liftM g)
      (fun b us => if b then here = true ∧ s.rest = s.current :: us else s.rest = us)
      (Taken c s) := by
  refine .lift fun hs => ?_
  cases here with
  | false =>
    have hrun : g.run s = (false, s) := hrun
    rw [hrun]
    exact ⟨.refl hs, ⟨.refl hs, by simp⟩, fun _ => rfl⟩
  | true =>
    have hrun : g.run s = (true, s.advance) := hrun
    have htook := took_advance hs (hhere rfl ▸ hne) (hhere rfl ▸ herr)
    rw [hrun]
    exact ⟨htook.onward, ⟨htook.onward, fun _ => htook⟩, fun _ => ⟨rfl, htook.rest⟩⟩

theorem run_take (kind : TokenKind) (s : State) :
    (take kind).run s = if s.kind == kind then (true, s.advance) else (false, s) := by
  unfold take
  change (ite _ _ _ : StateM State Bool).run s = _
  split <;> rfl

theorem run_takeName (w : String) (s : State) :
    (takeName w).run s = if s.atName w then (true, s.advance) else (false, s) := by
  unfold takeName
  change (ite _ _ _ : StateM State Bool).run s = _
  split <;> rfl

theorem exec_takeMark (p : Punct) (f : Bool → Parser α) :
    exec (liftM (takeMark p) >>= f) s =
      if s.kind == .punct p then exec (f true) s.advance else exec (f false) s := by
  have hexec : exec (liftM (takeMark p) >>= f) s =
      exec (f ((take (.punct p)).run s).1) ((take (.punct p)).run s).2 := rfl
  rw [hexec, run_take]
  split <;> rfl

/-- A token of a kind is passed if there is one. -/
theorem reading_take (hne : kind ≠ .eof) (herr : kind.isError = false) :
    Reading c s (liftM (take kind))
      (fun b us => (if b then Spelling.kind kind else nothing : Spelling) s.rest us)
      (Taken c s) := by
  refine (reading_takeIf (run_take kind s) (fun h => by simpa using h) hne herr).mono ?_
    fun _ _ h => h
  rintro (_ | _) us h
  · exact h
  · exact ⟨s.current, h.2, beq_iff_eq.1 h.1⟩

theorem reading_takeMark (m : Punct) :
    Reading c s (liftM (takeMark m))
      (fun b us => (if b then mark m else nothing : Spelling) s.rest us) (Taken c s) :=
  reading_take (by simp) rfl

theorem reading_takeKeyword (w : Keyword) :
    Reading c s (liftM (takeKeyword w))
      (fun b us => (if b then word w else nothing : Spelling) s.rest us) (Taken c s) :=
  reading_take (by simp) rfl

theorem State.atName_iff :
    s.atName w = true ↔ s.kind = .label ∧ s.current.text = w.toList := by
  simp [State.atName]

theorem reading_takeName (w : String) :
    Reading c s (liftM (takeName w))
      (fun b us => (if b then contextual w else nothing : Spelling) s.rest us) (Taken c s) := by
  refine (reading_takeIf (run_takeName w s) (fun h => (State.atName_iff.1 h).1) (by simp) rfl).mono
    ?_ fun _ _ h => h
  rintro (_ | _) us h
  · exact h
  · exact ⟨s.current, h.2, State.atName_iff.1 h.1⟩

theorem exec_expectName_of_atName (h : s.atName w = true) :
    exec (expectName w) s = (some (), s.advance) := by
  unfold expectName
  change exec (ite _ _ _) s = _
  rw [if_pos h]
  rfl

theorem exec_expectName_of_not (h : s.atName w ≠ true) :
    exec (expectName w) s = (none, s.reportCurrent (.expectedWord w s.kind)) := by
  unfold expectName
  change exec (ite _ _ _) s = _
  rw [if_neg h]
  rfl

theorem reads_expectName (w : String) :
    Reads c 0 (expectName w) (fun _ => contextual w) fun _ => [] := by
  intro s hs
  by_cases hname : s.atName w = true
  · obtain ⟨hkind, htext⟩ := State.atName_iff.1 hname
    have htook := took_advance hs (by simp [hkind]) (by simp [hkind, TokenKind.isError])
    rw [exec_expectName_of_atName hname]
    exact ⟨htook.onward, htook.passes, fun _ => ⟨s.current, htook.rest, hkind, htext⟩⟩
  · rw [exec_expectName_of_not hname]
    exact ⟨hs.reportCurrent rfl rfl, hs.reportCurrent_listed _⟩

/-! ### Levels of nesting -/

/-- One level deeper, or it is listed that there are too many. -/
theorem exec_descend : exec descend s =
    if s.depth < maxNesting then (some ⟨⟩, { s with depth := s.depth + 1 })
    else (none, s.reportDepth) := by
  unfold descend
  change exec (ite _ _ _) s = _
  split <;> rfl

theorem reads_descend : Reads c 0 descend (fun _ => nothing) fun _ => [] := by
  intro s hs
  rw [exec_descend]
  split
  · next hlt => exact ⟨hs.level hlt, .nil (hs.level hlt), fun _ => rfl⟩
  · exact ⟨hs.move (.depth s), hs.reportDepth_listed⟩

/-- A part on a level of its own is read one level deeper, and then that level is left. -/
theorem exec_nested (p : Parser α) (s : State) : exec (nested p) s =
    if s.depth < maxNesting then
      ((exec p { s with depth := s.depth + 1 }).1,
        { (exec p { s with depth := s.depth + 1 }).2 with depth := s.depth })
    else (none, { s.reportDepth with depth := s.depth }) := by
  have hexec : exec (nested p) s = ((exec (descend >>= fun _ => p) s).1,
      { (exec (descend >>= fun _ => p) s).2 with depth := s.depth }) := rfl
  rw [hexec, exec_bind, exec_descend]
  by_cases hlt : s.depth < maxNesting
  · rw [if_pos hlt, if_pos hlt]
  · rw [if_neg hlt, if_neg hlt]

/-- What has a value on a level of its own has it one level deeper. -/
theorem exec_of_nested {a : α} {t : State} (h : exec (nested p) s = (some a, t)) :
    ∃ u, exec p { s with depth := s.depth + 1 } = (some a, u) := by
  rw [exec_nested] at h
  split at h
  · rcases heq : exec p { s with depth := s.depth + 1 } with ⟨o, u⟩
    rw [heq] at h
    cases h
    exact ⟨u, rfl⟩
  · cases h

/-- A part on a level of its own. -/
theorem reads_nested {spelling : α → Spelling} {nodes : α → List Node}
    (h : Reads c k p spelling nodes) : Reads c k (nested p) spelling nodes := by
  intro s hs
  have hdown {d : Nat} (hd : d ≤ maxNesting) := hs.level hd
  rw [exec_nested]
  split
  · next hlt =>
    obtain ⟨t, heq, hfail⟩ | ⟨a, t, heq, hst, hpass, hread⟩ := (h _).outcome (hdown hlt).fine
    · rw [heq]
      exact ⟨(hdown hlt).trans (hfail.onward.trans (hfail.onward.fine.level hs.depth_le)),
        hfail.listed⟩
    · rw [heq]
      have hup := hst.fine.level hs.depth_le
      exact ⟨(hdown hlt).trans (hst.trans hup), (hpass.after (hdown hlt)).onto hup, hread⟩
  · have hdeep := hs.move (.depth s)
    exact ⟨hdeep.trans (hdeep.fine.level hs.depth_le), hs.reportDepth_listed⟩

/-! ### Parts that may be missing, and checks -/

/-- A part that is read only where some condition holds. -/
theorem reading_optionally {spelling : α → Spelling}
    (h : Reading c s p (fun a us => spelling a s.rest us) W) :
    Reading c s (optionally here p)
      (fun o us => (Spelling.given (o.isSome = here) ++ perhaps spelling o) s.rest us)
      (fun o t => Onward c s t ∧ ∀ a ∈ o, W a t) := by
  cases here with
  | false => exact .of_fine fun hs => .pure ⟨.refl hs, by simp⟩ ⟨s.rest, ⟨rfl, rfl⟩, rfl⟩
  | true =>
    intro hs
    have hexec : exec (optionally true p) s = exec (p >>= fun a => Pure.pure (some a)) s := rfl
    rw [hexec, exec_bind]
    obtain ⟨t, heq, hfail⟩ | ⟨a, t, heq, hst, hW, hQ⟩ := h.outcome hs
    · rw [heq]
      exact hfail
    · rw [heq]
      exact ⟨hst, ⟨hst, by simpa using hW⟩, fun hclean => ⟨s.rest, ⟨rfl, rfl⟩, hQ hclean⟩⟩

theorem reads_optionally {spelling : α → Spelling} {node : α → Node}
    (h : Reads c k p spelling fun a => [node a]) :
    Reads c k (optionally here p)
      (fun o => Spelling.given (o.isSome = here) ++ perhaps spelling o)
      fun o => o.toList.map node := by
  refine fun s => (reading_optionally (h s)).mono (fun _ _ h => h) fun o t ho => ?_
  cases o with
  | none => exact .nil ho.1
  | some a => exact ho.2 a rfl

/-- A fault that is listed. -/
theorem reads_report (span : Span) {e : SyntaxError} (he : e.isPlain) (hfound : e.found? = none)
    {A : Spelling} : Reads c 0 (liftM (report span e)) (fun _ => A) fun _ => [] := by
  refine fun s => .lift fun hs => ⟨hs.report span he hfound, .nil (hs.report span he hfound), ?_⟩
  exact fun hclean => absurd hclean (List.append_ne_nil_of_right_ne_nil _ (by simp))

/-- A fault that is listed where a condition holds. -/
theorem reads_reportWhen (faulty : Bool) (span : Span) {e : SyntaxError} (he : e.isPlain)
    (hfound : e.found? = none) :
    Reads c 0 (liftM (reportWhen faulty span e)) (fun _ => given (faulty = false)) fun _ => [] := by
  intro s
  cases faulty with
  | false => exact .lift fun hs => ⟨.refl hs, .nil (.refl hs), fun _ => ⟨rfl, rfl⟩⟩
  | true => exact reads_report span he hfound s

theorem reads_terminate : Reads c 0 (liftM terminate) (fun _ => terminator) fun _ => [] := by
  refine fun s => .lift fun hs => ⟨hs.terminate, .nil hs.terminate, fun hclean => ?_⟩
  change s.terminate.errors = [] at hclean
  change terminator s.rest s.terminate.rest
  obtain ⟨hkind, heq⟩ | ⟨hclose, heq⟩ := hs.terminate_clean hclean
  · rw [heq]
    have htook := took_advance hs (by simp [hkind]) (by simp [hkind, TokenKind.isError])
    exact .inl ⟨s.current, htook.rest, hkind⟩
  · rw [heq]
    refine .inr ⟨rfl, ?_⟩
    cases hrest : s.rest with
    | nil => rfl
    | cons t rest => simpa [State.kind, State.current, hrest] using hclose

/-! ### Parts of which only the moves count -/

/-- Reading a part moves on, whatever comes of it. -/
def Runs (c : Sheet) (p : Parser α) : Prop := ∀ s : State, s.Fine c → Onward c s (exec p s).2

namespace Runs

theorem of_reads {spelling : α → Spelling} {nodes : α → List Node}
    (h : Reads c k p spelling nodes) : Runs c p :=
  fun s hs => (h s).onward hs

theorem pure (a : α) : Runs c (Pure.pure a : Parser α) := fun _ hs => .refl hs

theorem bind (hp : Runs c p) (hf : ∀ a, Runs c (f a)) : Runs c (p >>= f) := by
  intro s hs
  have hst := hp s hs
  rw [exec_bind]
  rcases heq : exec p s with ⟨_ | a, t⟩
  · rw [heq] at hst
    exact hst
  · rw [heq] at hst
    exact hst.trans (hf a t hst.fine)

theorem spanFrom (start : Span) {f : Span → Parser α} (hf : ∀ span, Runs c (f span)) :
    Runs c (liftM (Parser.spanFrom start) >>= f) :=
  fun s hs => hf _ s hs

theorem get {f : State → Parser α} (hf : ∀ s, Runs c (f s)) :
    Runs c (MonadState.get >>= f) :=
  fun s hs => hf s s hs

theorem unexpected (kinds : List TokenKind) : Runs c (unexpected kinds : Parser α) :=
  fun _ hs => hs.unexpected kinds

theorem mark {m : Punct} {f : Token → Parser α} (hf : ∀ t, Runs c (f t)) :
    Runs c (expectMark m >>= f) :=
  .bind (fun _ hs => (reading_expectMark m).onward hs) hf

end Runs

end Parser

end ScriptCheck
