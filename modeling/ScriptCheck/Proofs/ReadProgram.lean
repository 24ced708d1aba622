import ScriptCheck.Proofs.Cover
import ScriptCheck.Proofs.ReadStatement
import ScriptCheck.Proofs.Regions
import ScriptCheck.Proofs.Words

/-!
# Reading programs

Every level is sound: one more level reads one more layer around a sound one. Reading starts in a
state whose tokens are laid out (`fine_ofTokens`), and an interpolation of a template, which is
shorter than the template, lies in its excerpt of it; so templates are sound too (`sound_sheet`).

A whole script is read in a run that passes all of its tokens, over the nodes of its tree. The tree
is spelled by the tokens if there is no fault (`got_readScript`).
-/

namespace ScriptCheck

open List

open Spelling Text

variable {c : Sheet}

/-! ### Levels -/

namespace Level

theorem sound_bottom (hc : c.Sound) : (bottom c.template).Sound c 0 where
  stmt _ := Parser.reading_tooDeep
  expr _ _ := Parser.reading_tooDeep
  operators power _ _ _ _ _ h :=
    Parser.reading_withOperator power h fun _ _ _ _ => Parser.reading_tooDeep
  template := rfl
  sheet := hc

/-- One more level is sound and adds at most one to the nesting. -/
theorem Sound.above {below : Level} {k : Nat} (hbelow : below.Sound c k) :
    below.above.Sound c (k + 1) where
  stmt := Parser.reads_nested (Parser.reads_statement hbelow)
  expr power := by
    refine Parser.reads_nested fun s => ?_
    refine .bind ((Parser.reads_operand hbelow).up s) fun lhs t hlhs => ?_
    exact (hbelow.operators power (Nat.le_succ k) hlhs).mono
      (fun e us hread hread' => hread _ hread') fun _ _ h => h
  operators power _ _ _ _ hkl h := by
    have hle := Nat.le_of_succ_le hkl
    refine Parser.reading_withOperator power h fun op t hop ht => ?_
    refine .bind (Parser.reads_descend t) fun _ u hu => ?_
    refine .bind (Parser.reading_applied hbelow hle hop (ht.onto hu.onward)) fun e v he => ?_
    refine (hbelow.operators power hle he).mono (fun e' us hread hread' heq ts₀ hop => ?_)
      fun _ _ h => h
    have heq : t.rest = u.rest := heq
    exact hread _ (hread' ts₀ (heq ▸ hop))
  template := hbelow.template
  sheet := hbelow.sheet

theorem sound_withLeft (hc : c.Sound) (n : Nat) : (withLeft c.template n).Sound c n := by
  induction n with
  | zero => exact sound_bottom hc
  | succ n ih => exact ih.above

end Level

namespace Parser

variable {s t : State} {es : List Excerpt}

/-! ### Faults in runs -/

theorem State.errors_advance (s : State) : s.advance.errors = s.errors := by
  rcases s.advance_cases with ⟨-, heq⟩ | ⟨rest, -, heq⟩ <;> rw [heq]

/-- What a move lists is accounted for by the tokens that follow. -/
theorem Move.accounted (hc : c.Sound) (hm : Move c s t) (hs : s.Fine c) :
    ∀ x ∈ t.errors, x ∈ s.errors ∨ x.Accounted s.tokens := by
  have hlist {x : Located SyntaxError} (hx : x.Accounted s.tokens) :
      ∀ y ∈ s.errors ++ [x], y ∈ s.errors ∨ y.Accounted s.tokens :=
    forall_mem_append.2 ⟨fun _ => .inl, forall_mem_singleton.2 (.inr hx)⟩
  cases hm with
  | pass =>
    rw [s.errors_advance]
    exact fun _ => .inl
  | template hkind =>
    refine forall_mem_append.2 ⟨fun _ => .inl, fun x hx => .inr ?_⟩
    refine (hc.accounted (hs.current_laid (by simp [hkind])) hkind x hx).mono ?_
    exact cons_subset.2 ⟨s.current_mem_tokens, nil_subset _⟩
  | lexical =>
    rcases s.reportLexical_cases with ⟨heq, -⟩ | ⟨e, -, -, heq⟩ <;> rw [heq]
    · exact fun _ => .inl
    · refine hlist ⟨Located.foundIn_of_eq_none rfl, fun _ => ?_⟩
      exact ⟨s.current, s.current_mem_tokens, le_rfl, le_rfl⟩
  | fault span he hfound =>
    refine hlist ⟨fun kind hkind => ?_, fun hlex => ?_⟩
    · obtain ⟨rfl, rfl⟩ := hfound kind hkind
      exact ⟨s.current, .mem s.current_mem_tokens, rfl, rfl⟩
    · rw [SyntaxError.isLexical_of_isPlain he] at hlex
      exact absurd hlex Bool.false_ne_true
  | depth =>
    rcases s.reportDepth_cases with ⟨heq, -⟩ | ⟨-, heq⟩ <;> rw [heq]
    · exact fun _ => .inl
    · exact hlist ⟨Located.foundIn_of_eq_none rfl, fun hlex => absurd hlex Bool.false_ne_true⟩
  | level => exact fun _ => .inl

/-- What is listed on the way is accounted for by the tokens that followed at its start. -/
theorem Onward.accounted (hc : c.Sound) (h : Onward c s t) :
    ∀ x ∈ t.errors, x ∈ s.errors ∨ x.Accounted s.tokens := by
  refine (h.keeps (P := fun u => u.tokens ⊆ s.tokens ∧
    ∀ x ∈ u.errors, x ∈ s.errors ∨ x.Accounted s.tokens) (fun hu hm ⟨hsub, hfaults⟩ => ?_)
    ⟨List.Subset.refl _, fun _ => .inl⟩).2
  refine ⟨List.Subset.trans ?_ hsub, fun x hx => ?_⟩
  · obtain ⟨heof, ⟨hrest, -⟩ | ⟨hrest, -⟩⟩ := hm.cursor
    · simp [State.tokens, heof, hrest]
    · simp [State.tokens, heof, hrest]
  · rcases hm.accounted hc hu x hx with hx | hx
    · exact hfaults x hx
    · exact .inr (hx.mono hsub)

/-- Moving on is a run. -/
theorem Onward.reaches (hc : c.Sound) (h : Onward c s t) : Reaches s t := by
  refine h.keeps (P := Reaches s) (fun {u v} hu hm hsu => ?_) .refl
  cases hm with
  | pass h => exact hsu.tail (.pass h)
  | lexical => exact hsu.tail (.lexical u)
  | fault span he => exact hsu.tail (.fault u span (SyntaxError.isLexical_of_isPlain he))
  | depth => exact hsu.tail (.depth u)
  | level h => exact hsu.tail (.level h)
  | template hkind =>
    have htook := took_template hu hkind
    have hpass : Reaches s u.advance :=
      hsu.tail (.pass fun herr => absurd herr (by simp [hkind, TokenKind.isError]))
    have hlast : u.advance.last = some u.current := by
      rcases u.advance_cases with ⟨hnil, -⟩ | ⟨rest, -, heq⟩
      · exact absurd htook.mem (by simp [hnil])
      · rw [heq]
    have hes : ∀ x ∈ c.faults u.current, x.value.isLexical →
        u.current.span.Encloses x.span := by
      intro x hx hlex
      obtain ⟨w, hw, hencloses⟩ := (hc.accounted htook.laid hkind x hx).lexical hlex
      exact mem_singleton.1 hw ▸ hencloses
    have hstep := hpass.tail (.nested hlast hkind hes)
    rwa [u.errors_advance] at hstep

/-! ### Parts that are read on their own -/

/-- The tokens of an excerpt are laid out. -/
theorem fine_ofTokens {e : Excerpt} (he : e.Closed c.source) (hlen : e.text.length ≤ c.fuel)
    (mode : LexMode) : (State.ofTokens (tokensFrom mode .none e.lo e.text)).Fine c := by
  have hcover := cover_tokensFrom he.slice? mode .none
  have hfollows := follows_tokensFrom mode .none e.lo e.text
  have hlaid {t : Token} (ht : t ∈ tokensFrom mode .none e.lo e.text) (hkind : t.kind ≠ .eof)
      (htext : t.text ≠ []) : t.Laid c := by
    have hpos := mt bytes_eq_zero.1 htext
    refine ⟨(hcover.within t ht).2.2, ?_, isWord_of_mem he ht, text_of_keyword ht,
      getLast?_of_template ht, hkind, (mem_tokensFrom ht).2.2.trans hlen⟩
    simp only [Token.span]
    omega
  obtain ⟨body, gap, heq, hbody⟩ := tokensFrom_eq_append mode .none e.lo e.text
  rw [heq] at hlaid hfollows ⊢
  have hrest : (State.ofTokens (body ++ [⟨.eof, e.lo + bytes e.text, gap, []⟩])).rest = body :=
    dropLast_concat
  have heof : (State.ofTokens (body ++ [⟨.eof, e.lo + bytes e.text, gap, []⟩])).eof =
      ⟨.eof, e.lo + bytes e.text, gap, []⟩ := getLastD_concat ..
  have htokens : ∀ t ∈ body, t.Laid c := fun t ht =>
    hlaid (mem_append_left _ ht) (hbody t ht).1 (hbody t ht).2
  refine ⟨by rw [heof], ?_, by rwa [hrest], by simp [State.ofTokens], ?_, ?_, Nat.zero_le _⟩
  · rw [heof]
    have hspan : (⟨e.lo, bytes e.text⟩ : Span).text? c.source = some e.text := he.slice?
    exact (Span.edges_of_text? hspan).2
  · rw [hrest, heof]
    -- each token starts where the one before it ends, or later
    have hordered : ∀ {lo : Nat} {tokens : List Token}, (∀ t ∈ tokens, t.Laid c) →
        Follows lo (tokens ++ [⟨.eof, e.lo + bytes e.text, gap, []⟩]) →
        InOrder lo (e.lo + bytes e.text) (tokens.map Token.span) := by
      intro lo tokens htokens hfollows
      induction tokens generalizing lo with
      | nil =>
        have := hfollows.1
        exact Nat.le_of_add_right_le (Nat.le_of_eq this.symm)
      | cons t tokens ih =>
        obtain ⟨hlo, -, hrest⟩ := hfollows
        obtain ⟨ht, htokens⟩ := forall_mem_cons.1 htokens
        have hpos := ht.pos
        refine ⟨?_, ?_, ih htokens hrest⟩
        · simp only [Token.lo_span]
          omega
        · simp only [Span.hi]
          omega
    exact (hordered htokens hfollows).mono_left (Nat.zero_le _)
  · simp [State.Noted, State.ofTokens, State.afterFault]

/-- The first token of an excerpt is in it. -/
theorem le_lo_ofTokens (e : Excerpt) (mode : LexMode) :
    e.lo ≤ (State.ofTokens (tokensFrom mode .none e.lo e.text)).current.lo ∧
      (State.ofTokens (tokensFrom mode .none e.lo e.text)).eof.lo = e.lo + bytes e.text := by
  obtain ⟨body, gap, heq, -⟩ := tokensFrom_eq_append mode .none e.lo e.text
  have hne : tokensFrom mode .none e.lo e.text ≠ [] := by simp [heq]
  have hstands := State.stands_ofTokens hne
  refine ⟨(mem_tokensFrom hstands.current_mem).1, ?_⟩
  rw [heq]
  exact congrArg Token.lo (getLastD_concat ..)

variable {source : List Char}

/-- What stands for an interpolation that could not be read is at the end of the script. -/
theorem all_laid_unread :
    (Node.expr (.invalid ⟨bytes source, 0⟩)).All (Node.Laid source) := by
  refine Node.all_iff.2 ⟨⟨?_, le_rfl, nofun, trivial⟩, by simp [Node.parts, Expr.parts]⟩
  have htext : (⟨bytes source, 0⟩ : Span).text? source = some [] :=
    slice?_eq_some_iff.2 ⟨source, [], by simp, rfl, rfl⟩
  change ((⟨bytes source, 0⟩ : Span).text? source).isSome
  rw [htext]
  rfl

/-- The stretches of a text that ends with no word are closed. -/
theorem closed_of_stretches {front cs back : List Char} (hsource : source = front ++ (cs ++ back))
    (hlast : ∀ c ∈ cs.getLast?, isWordChar c = false) (hes : Stretches (bytes front) cs es) :
    ∀ e ∈ es, e.Closed source := by
  induction es generalizing front cs with
  | nil => simp
  | cons e es ih =>
    obtain ⟨before, after, rfl, hlo, hafter, hrest⟩ := hes
    refine forall_mem_cons.2 ⟨⟨front ++ before, after ++ back, by simp [hsource],
      by rw [bytes_append, hlo], ?_⟩, ?_⟩
    · intro c hc hword
      rcases hafter with rfl | ⟨rest, rfl⟩
      · have hc' : c ∈ (before ++ (e.text ++ [])).getLast? := by
          rw [append_nil, getLast?_append, hc]
          rfl
        exact absurd hword (Bool.eq_false_iff.1 (hlast c hc'))
      · rfl
    · have hbytes : e.lo + bytes e.text = bytes (front ++ (before ++ e.text)) := by
        rw [hlo]
        simp only [bytes_append]
        omega
      rw [hbytes] at hrest
      refine ih (by simp [hsource]) (fun c hc => hlast c ?_) hrest
      rw [← append_assoc, getLast?_append, hc]
      rfl

/-- A template is a text that ends with no word, and its interpolations are stretches of it. -/
theorem exists_stretches {t : Token} (ht : t.Laid c) (hkind : t.kind = .template) :
    ∃ front back, c.source = front ++ (t.text.drop 1 ++ back) ∧
      bytes front = t.lo + bytes (t.text.take 1) ∧
      (∀ c ∈ (t.text.drop 1).getLast?, isWordChar c = false) ∧
      Stretches (bytes front) (t.text.drop 1) t.interpolations := by
  obtain ⟨before, after, hsource, hlo, hhi⟩ := slice?_eq_some_iff.1 ht.text
  have hfront : bytes (before ++ t.text.take 1) = t.lo + bytes (t.text.take 1) := by
    rw [bytes_append, hlo]
    rfl
  refine ⟨before ++ t.text.take 1, after, ?_, hfront, ?_, ?_⟩
  · rw [append_assoc, ← append_assoc (t.text.take 1), take_append_drop]
    exact hsource
  · intro c hc
    have hmem : t.text.getLast? = some c := by
      rw [← take_append_drop 1 t.text, getLast?_append, hc]
      rfl
    rw [ht.backtick hkind] at hmem
    cases hmem
    decide
  · rw [hfront]
    exact stretches_interpolationsFrom _ _

/-- An interpolation of a template is closed in the script. -/
theorem closed_of_mem_interpolations {t : Token} (ht : t.Laid c) (hkind : t.kind = .template)
    {e : Excerpt} (he : e ∈ t.interpolations) : e.Closed c.source := by
  obtain ⟨front, back, hsource, -, hlast, hstretches⟩ := exists_stretches ht hkind
  exact closed_of_stretches hsource hlast hstretches e he

/-- The end is read at the end only, and it is not passed. -/
theorem exec_expect_eof (hs : s.Fine c) :
    Onward c s (exec (expect .eof) s).2 ∧
      ((exec (expect .eof) s).2.errors = [] → s.rest = []) := by
  by_cases hkind : s.kind = .eof
  · have hexec : exec (expect .eof) s = (some s.current, s.advance) := by
      unfold expect
      change exec (ite _ _ _) s = _
      rw [if_pos (beq_iff_eq.2 hkind)]
      rfl
    rw [hexec]
    exact ⟨hs.advance (by simp [hkind, TokenKind.isError]), fun _ => hs.rest_eq_nil hkind⟩
  · have hexec : exec (expect .eof) s = (none, s.unexpected [.eof]) := by
      unfold expect
      change exec (ite _ _ _) s = _
      rw [if_neg (mt beq_iff_eq.1 hkind)]
      rfl
    rw [hexec]
    exact ⟨hs.unexpected _, fun hclean => absurd hclean (hs.unexpected_listed _)⟩

/-- All tokens of an excerpt follow at first. -/
theorem tokens_ofTokens (mode : LexMode) (e : Excerpt) :
    (State.ofTokens (tokensFrom mode .none e.lo e.text)).tokens =
      tokensFrom mode .none e.lo e.text := by
  obtain ⟨body, gap, heq, -⟩ := tokensFrom_eq_append mode .none e.lo e.text
  have hne : tokensFrom mode .none e.lo e.text ≠ [] := by simp [heq]
  obtain ⟨read, hread, hlast⟩ := State.stands_ofTokens hne
  have hnil : read = [] := getLast?_eq_none_iff.1 hlast.symm
  rw [hnil] at hread
  exact hread

/-- What is known of an interpolation and the state after it: it has grown from its tokens, it stands
for what could not be read or lies in its excerpt, and without a fault the tokens spell it. -/
structure Alone (c : Sheet) (tokens : List Token) (e : Excerpt) (r : Expr × State) : Prop where
  onward : Onward c (.ofTokens tokens) r.2
  laid : (Node.expr r.1).All (Node.Laid c.source)
  grown : (Node.expr r.1).Grown c.source tokens maxNesting
  place : r.1.isUnread (bytes c.source) ∨ InOrder e.lo (e.lo + bytes e.text) [r.1.span]
  spelled : r.2.errors = [] → r.1.spelling true tokens.dropLast []

/-- An expression up to the end has a value even if it cannot be read. -/
theorem alone_wholeExpr {L : Level} (hL : L.Sound c maxNesting) {e : Excerpt}
    (he : e.Closed c.source) (hlen : e.text.length ≤ c.fuel) (mode : LexMode) :
    Alone c (tokensFrom mode .none e.lo e.text) e ((wholeExpr L (bytes c.source)).run
      (.ofTokens (tokensFrom mode .none e.lo e.text))) := by
  obtain ⟨hlo, heof⟩ := le_lo_ofTokens e mode
  have hfine := fine_ofTokens he hlen mode
  generalize hs : State.ofTokens (tokensFrom mode .none e.lo e.text) = s at hfine hlo heof ⊢
  have hrest : s.rest = (tokensFrom mode .none e.lo e.text).dropLast := by
    rw [← hs]
    rfl
  have hrun : (wholeExpr L (bytes c.source)).run s =
      ((exec (L.expr 0) s).1.getD (.invalid ⟨bytes c.source, 0⟩),
        (exec (expect .eof) (exec (L.expr 0) s).2).2) := rfl
  rw [hrun]
  obtain ⟨t, heq, hst, hlisted⟩ | ⟨a, t, heq, hst, hpass, hread⟩ := (hL.expr 0 s).outcome hfine
  · obtain ⟨htu, -⟩ := exec_expect_eof hst.fine
    rw [heq]
    exact ⟨hs ▸ hst.trans htu, all_laid_unread, Node.grown_leaf rfl (Node.made_plain rfl),
      .inl (by simp [Expr.isUnread]), fun hclean => absurd (htu.clean hclean) hlisted⟩
  · obtain ⟨htu, hnil⟩ := exec_expect_eof hst.fine
    obtain ⟨hle, hlt, -⟩ := hpass.inOrder
    rw [heq]
    refine ⟨hs ▸ hst.trans htu, hpass.laid _ (by simp), ?_, .inr ⟨hlo.trans hle, hlt, ?_⟩,
      fun hclean => ?_⟩
    · exact (hpass.grown _ (by simp)).mono (hrest ▸ dropLast_subset _) le_rfl
    · calc a.span.hi ≤ t.reach := hpass.hi_le (.expr a) (by simp)
        _ ≤ t.eof.lo := hst.fine.ordered.le
        _ = e.lo + bytes e.text := by rw [hst.eof_eq, heof]
    · have hspelled := hread (htu.clean hclean)
      rwa [hnil hclean, hrest] at hspelled

theorem partsSpelled_map {read : Excerpt → Expr}
    (h : ∀ e ∈ es, (read e).spelling true (tokensFrom .normal .none e.lo e.text).dropLast []) :
    partsSpelled true (es.map read) es := by
  induction es with
  | nil => trivial
  | cons e es ih =>
    obtain ⟨he, hes⟩ := forall_mem_cons.1 h
    exact ⟨he, ih hes⟩

/-- An interpolation is shorter than its template and lies in it. -/
theorem inside_of_mem_interpolations {t : Token} {e : Excerpt} (he : e ∈ t.interpolations) :
    t.span.Encloses e.span ∧ e.text.length < t.text.length := by
  obtain ⟨before, after, heq, hlo, hlen⟩ := mem_interpolationsFrom he
  have htext : t.text = t.text.take 1 ++ (before ++ (e.text ++ after)) := by
    rw [← heq, take_append_drop]
  have hbytes := congrArg bytes htext
  have hlength := congrArg List.length htext
  simp only [bytes_append, length_append] at hbytes hlength
  refine ⟨⟨?_, ?_⟩, by omega⟩
  · change t.lo ≤ e.lo
    omega
  · change e.lo + bytes e.text ≤ t.lo + bytes t.text
    omega

/-- Interpolations that each lie in their excerpt are in order over the stretches of a text. -/
theorem inOrder_interpolations {read : Excerpt → Expr} {lo : Nat} {cs : List Char}
    (hes : Stretches lo cs es) (hplace : ∀ e ∈ es, (read e).isUnread (bytes source) ∨
      InOrder e.lo (e.lo + bytes e.text) [(read e).span]) :
    InOrder lo (lo + bytes cs)
      ((((es.map read).filter fun e => !e.isUnread (bytes source)).map Node.expr).map
        Node.span) := by
  induction es generalizing lo cs with
  | nil => exact Nat.le_add_right _ _
  | cons e es ih =>
    obtain ⟨hfirst, hmore⟩ := forall_mem_cons.1 hplace
    obtain ⟨before, after, rfl, hlo, -, hrest⟩ := hes
    have hordered := ih hrest hmore
    have hend : e.lo + bytes e.text + bytes after =
        lo + bytes (before ++ (e.text ++ after)) := by
      simp only [bytes_append]
      omega
    rw [hend] at hordered
    have hle : lo ≤ e.lo := by omega
    rw [map_cons]
    cases hunread : (read e).isUnread (bytes source) with
    | true =>
      rw [filter_cons_of_neg (by simp [hunread])]
      exact hordered.mono_left (hle.trans (Nat.le_add_right _ _))
    | false =>
      rw [filter_cons_of_pos (by simp [hunread])]
      exact ((hfirst.resolve_left (by simp [hunread])).mono_left hle).append hordered

/-- Templates are sound. An interpolation is shorter than its template, by which the limit on
templates in each other goes down too. -/
theorem sound_sheet (source : List Char) (n : Nat) : Sheet.Sound ⟨source, n⟩ := by
  induction n with
  | zero =>
    -- no token is as short as the limit
    have hnone {t : Token} (ht : t.Laid ⟨source, 0⟩) : False := Nat.lt_irrefl 0 ht.fuel_pos
    exact ⟨fun ht => (hnone ht).elim, fun ht => (hnone ht).elim, fun ht => (hnone ht).elim,
      fun ht => (hnone ht).elim, fun ht => (hnone ht).elim⟩
  | succ n ih =>
    have hL : (Sheet.inner source n).Sound ⟨source, n⟩ maxNesting :=
      Level.sound_withLeft ih maxNesting
    have halone {t : Token} (ht : t.Laid ⟨source, n + 1⟩) (hkind : t.kind = .template)
        {e : Excerpt} (he : e ∈ t.interpolations) :
        Alone ⟨source, n⟩ (tokensFrom .normal .none e.lo e.text) e
          (alone (Sheet.inner source n) (bytes source) e) := by
      have hlt := (inside_of_mem_interpolations he).2
      exact alone_wholeExpr hL (closed_of_mem_interpolations ht hkind he)
        (Nat.le_of_lt_succ (hlt.trans_le ht.length_le)) .normal
    refine ⟨fun ht hkind hclean => ?_, fun {t} ht hkind => ?_, fun ht hkind part hpart => ?_,
      fun {t} ht hkind tokens hmem => ?_, fun {t} ht hkind x hx => ?_⟩
    · rw [Sheet.faults_succ, flatMap_eq_nil_iff] at hclean
      rw [Sheet.parts_succ]
      exact partsSpelled_map fun e he => (halone ht hkind he).spelled (hclean e he)
    · obtain ⟨front, back, -, hfront, -, hstretches⟩ := exists_stretches ht hkind
      have hordered := inOrder_interpolations hstretches fun e he => (halone ht hkind he).place
      have hbytes : bytes (t.text.take 1) + bytes (t.text.drop 1) = bytes t.text := by
        rw [← bytes_append, take_append_drop]
      have hend : bytes front + bytes (t.text.drop 1) = t.span.hi := by
        rw [hfront, Token.hi_span]
        omega
      rw [hend] at hordered
      rw [Sheet.parts_succ]
      refine hordered.mono_left ?_
      rw [hfront]
      exact Nat.le_add_right _ _
    · rw [Sheet.parts_succ] at hpart
      obtain ⟨e, he, rfl⟩ := mem_map.1 hpart
      exact (halone ht hkind he).laid
    · have hread : Sheet.parts ⟨source, n + 1⟩ t =
          (t.interpolations.map fun e =>
            ((alone (Sheet.inner source n) (bytes source) e).1, e)).map Prod.fst := by
        rw [Sheet.parts_succ, map_map]
        rfl
      rw [hread]
      refine .template hmem hkind (fun p hp => ?_) fun p hp => ?_
      · obtain ⟨e, he, rfl⟩ := mem_map.1 hp
        exact ⟨he, (halone ht hkind he).place.imp_right fun h => ⟨h.1, h.2.2⟩⟩
      · obtain ⟨e, he, rfl⟩ := mem_map.1 hp
        exact (halone ht hkind he).grown
    · rw [Sheet.faults_succ] at hx
      obtain ⟨e, he, hx⟩ := mem_flatMap.1 hx
      obtain ⟨hfound, hlexical⟩ := ((halone ht hkind he).onward.accounted ih x hx).resolve_left
        (by simp [State.ofTokens])
      rw [tokens_ofTokens] at hfound hlexical
      refine ⟨fun kind hx => ?_, fun hlex => ⟨t, mem_singleton_self t, ?_⟩⟩
      · obtain ⟨u, hu, hu'⟩ := hfound kind hx
        exact ⟨u, .interpolation (mem_singleton_self t) hkind he hu, hu'⟩
      · -- the fault lies in a token, that in the interpolation, and that in the template
        obtain ⟨u, hu, hux⟩ := hlexical hlex
        obtain ⟨hlo, hhi, -⟩ := mem_tokensFrom hu
        have heu : e.span.Encloses u.span := ⟨hlo, hhi⟩
        exact ((inside_of_mem_interpolations he).1.trans heu).trans hux

end Parser

/-! ### Regions -/

section

variable {source : List Char}

theorem Node.All.hi_le {n : Node} (h : n.All (Node.Laid source)) : n.span.hi ≤ bytes source := by
  obtain ⟨text, htext⟩ := Option.isSome_iff_exists.1 h.self.text
  exact (le_of_slice? htext).2

/-- Whether all regions of a node have a property. -/
def Node.Regions (P : RegionSpec) : Node → Prop
  | .stmt s => s.Regions P
  | .case c => c.Regions P
  | .expr e => e.Regions P
  | .name x => P.part x.span

attribute [local simp] Node.Regions Stmt.Regions Expr.Regions SwitchCase.Regions Declarator.Regions
  Property.Regions ImportSpec.Regions ExportSpec.Regions PropertyName.Regions paramsRegions
  stmtsRegions_iff optionRegions_iff stmtOptionRegions_iff exprsRegions_iff propertiesRegions_iff
  declaratorsRegions_iff casesRegions_iff Node.span Stmt.span Expr.span SwitchCase.span Node.parts
  Stmt.parts Expr.parts SwitchCase.parts Declarator.parts Property.parts functionParts paramNodes
  ImportSpec.names ExportSpec.names PropertyName.names Property.keyEnd

variable {stop : Nat}

theorem ImportSpec.regions_of_names {spec : ImportSpec} (h : ∀ x ∈ spec.names, x.span.hi ≤ stop) :
    spec.Regions (upTo stop) := by
  cases spec <;> simpa using h

theorem ExportSpec.regions_of_names {spec : ExportSpec} (h : ∀ x ∈ spec.names, x.span.hi ≤ stop) :
    spec.Regions (upTo stop) := by
  simpa using h

theorem Declarator.regions_of_parts {d : Declarator}
    (h : ∀ m ∈ d.parts, m.Regions (upTo stop)) : d.Regions (upTo stop) := by
  cases d
  simp_all

theorem Property.regions_of_parts {p : Property} (hkey : p.keyEnd ≤ stop)
    (h : ∀ m ∈ p.parts, m.Regions (upTo stop)) : p.Regions (upTo stop) := by
  cases p with
  | named key value => cases key <;> simp_all
  | _ => simp_all

/-- All regions of a node end by an offset if its own one and those of its parts do. -/
theorem Node.regions_of_parts {n : Node} (hspan : n.span.hi ≤ stop) (hproper : n.Proper stop)
    (h : ∀ m ∈ n.parts, m.Regions (upTo stop)) : n.Regions (upTo stop) := by
  cases n with
  | stmt s =>
    cases s with
    | decl =>
      exact ⟨hspan, declaratorsRegions_iff.2 fun d hd =>
        d.regions_of_parts fun m hm => h m (mem_flatMap_of_mem hd hm)⟩
    | imports | exportNames =>
      exact ⟨hspan, fun spec hspec => spec.regions_of_names fun x hx =>
        h (.name x) (mem_map_of_mem (mem_flatMap_of_mem hspec hx)), hproper⟩
    | exportAll => exact ⟨hspan, by simpa using h, hproper⟩
    | _ => simp_all [or_imp, forall_and]
  | expr e =>
    cases e with
    | object =>
      exact ⟨hspan, propertiesRegions_iff.2 fun p hp =>
        p.regions_of_parts (hproper p hp) fun m hm => h m (mem_flatMap_of_mem hp hm)⟩
    | invalid => exact hspan
    | _ => simp_all [or_imp, forall_and]
  | case c =>
    cases c
    simp_all [or_imp, forall_and]
  | name x => exact hspan

/-- The regions of a statement that is laid out end in the script. -/
theorem Stmt.regions_of_laid (s : Stmt) :
    (Node.stmt s).All (Node.Laid source) → s.Regions (upTo (bytes source)) := by
  refine Node.stmt_induction (P := fun n =>
    n.All (Node.Laid source) → n.Regions (upTo (bytes source))) (fun n ih h => ?_) s
  exact n.regions_of_parts h.hi_le h.self.head fun m hm => ih m hm (h.of_holds (Node.holds_of_mem hm))

end

namespace Parser

variable (mode : LexMode) (source : List Char)

/-! ### Whole scripts -/

/-- The sheet of a script, whose length bounds how many templates can stand in each other. -/
abbrev wholeSheet (source : List Char) : Sheet := ⟨source, bytes source⟩

theorem sound_top (source : List Char) :
    (top (bytes source)).Sound (wholeSheet source) maxNesting :=
  Level.sound_withLeft (sound_sheet _ _) maxNesting

theorem fine_tokenize :
    (State.ofTokens (tokenize mode source)).Fine (wholeSheet source) :=
  fine_ofTokens (e := ⟨0, source⟩) (closed_script source) (length_le_bytes source) mode

/-- How the statements of a script are read. -/
def readScript (mode : LexMode) (source : List Char) : List Stmt × State :=
  (statements (top (bytes source)).stmt []).run (.ofTokens (tokenize mode source))

theorem outcome_readScript :
    Got (wholeSheet source) (.ofTokens (tokenize mode source))
      (fun body us => stmtsSpelling true body (tokenize mode source).dropLast us)
      (fun body t => Passes (wholeSheet source) maxNesting (.ofTokens (tokenize mode source)) t
        (body.map .stmt))
      (readScript mode source).1 (readScript mode source).2 :=
  reads_statements (sound_top source).stmt [] _ (fine_tokenize mode source)

/-- A script is read over the nodes of its statements. -/
theorem passes_readScript :
    Passes (wholeSheet source) maxNesting (.ofTokens (tokenize mode source))
      (readScript mode source).2 ((readScript mode source).1.map .stmt) :=
  (outcome_readScript mode source).value

/-- What is known of the statements of a script and the state after them. -/
structure ReadOut (mode : LexMode) (source : List Char) (body : List Stmt) (t : State) : Prop where
  reaches : Reaches (.ofTokens (tokenize mode source)) t
  value : stmtsRegions (upTo (bytes source)) body
  reads : t.errors = [] → stmtsSpelling true body (tokenize mode source).dropLast t.rest

/-- A script is read in a run. Its tree lies in the script, and without a fault it is spelled by the
tokens. -/
theorem got_readScript :
    ReadOut mode source (readScript mode source).1 (readScript mode source).2 where
  reaches := (outcome_readScript mode source).onward.reaches (sound_sheet _ _)
  value := stmtsRegions_iff.2 fun s hs =>
    s.regions_of_laid ((passes_readScript mode source).laid _ (mem_map_of_mem hs))
  reads := (outcome_readScript mode source).reads

/-- All tokens of a script are read. -/
theorem rest_readScript :
    (readScript mode source).2.rest = [] := by
  have hend : (readScript mode source).2.atEnd [] = true :=
    statements_atEnd (sound_top source).stmt [] (fine_tokenize mode source)
  refine (passes_readScript mode source).onward.fine.rest_eq_nil ?_
  simpa [State.atEnd] using hend

end Parser

/-! ### Parts of a script -/

/-- The parts of a script that are read on their own, and how their words are read: the whole
script, and the interpolations of the templates in such a part. -/
inductive ReadAlone (mode : LexMode) (source : List Char) : LexMode → Excerpt → Prop
  | script : ReadAlone mode source mode ⟨0, source⟩
  | interpolation {m : LexMode} {e e' : Excerpt} {t : Token} (h : ReadAlone mode source m e)
    (ht : t ∈ tokensFrom m .none e.lo e.text) (hkind : t.kind = .template)
    (he : e' ∈ t.interpolations) : ReadAlone mode source .normal e'

/-- How an excerpt of a script is read, for templates in each other to a depth of at most `n`. -/
def Parser.readExcerpt (source : List Char) (n : Nat) (mode : LexMode) (e : Excerpt) :
    Expr × State :=
  (wholeExpr (Level.withLeft (interpolations (bytes source) n) maxNesting) (bytes source)).run
    (.ofTokens (tokensFrom mode .none e.lo e.text))

section

variable {source : List Char} {mode m : LexMode} {e : Excerpt}

/-- A token of an excerpt has its place in the script, unless it marks the end. -/
theorem Excerpt.Closed.laid_of_mem (he : e.Closed source) {t : Token}
    (ht : t ∈ tokensFrom m .none e.lo e.text) (hkind : t.kind ≠ .eof) :
    t.Laid ⟨source, e.text.length⟩ := by
  have hlaid := (Parser.fine_ofTokens (c := ⟨source, _⟩) he le_rfl m).tokens t
  obtain ⟨body, gap, heq, -⟩ := tokensFrom_eq_append m .none e.lo e.text
  rw [heq] at ht hlaid
  refine hlaid ?_
  change t ∈ (body ++ [_]).dropLast
  rw [dropLast_concat]
  rcases mem_append.1 ht with ht | ht
  · exact ht
  · rw [mem_singleton.1 ht] at hkind
    exact absurd rfl hkind

theorem ReadAlone.closed (h : ReadAlone mode source m e) : e.Closed source := by
  induction h with
  | script => exact closed_script source
  | interpolation _ ht hkind he ih =>
    exact Parser.closed_of_mem_interpolations (ih.laid_of_mem ht (by simp [hkind])) hkind he

end

end ScriptCheck
