import ScriptCheck.Proofs.ReadExpression

/-!
# Reading statements

Each statement is read by the tokens that spell it and over its nodes, where the same is known of
the level below. Branches and loops take one level more than their parts, other statements do not.

Lists with a limit on their length, such as the names of a declaration or the branches of an `if`
with colons, never reach it: each of their items passes a token.
-/

namespace ScriptCheck

open Spelling Text

namespace Parser

variable {c : Sheet} {k : Nat} {below : Level} {s s₀ t : State}

/-! ### Parts without a level of their own -/

/-- A statement whose parts are read ends with its semicolon. -/
theorem reading_terminated {ns : List Node} (h : Passes c k s₀ s ns)
    (hlt : s₀.current.lo < s.reach) {start : Span} (hstart : start = s₀.current.span)
    {make : Span → Stmt}
    (hmake : ∀ span, (make span).span = span ∧ (make span).parts = ns ∧
      (Node.stmt (make span)).Proper (bytes c.source) ∧
      (Node.stmt (make span)).Made c.source s₀.rest k k) :
    Reading c s (terminated start make) (fun st us => ∃ span, st = make span ∧ terminator s.rest us)
      fun a t => Passes c k s₀ t [.stmt a] := by
  unfold terminated
  refine .bind (reads_terminate s) fun _ t ht => .spanFrom <| .pure ?_ fun hend => ⟨_, rfl, hend⟩
  obtain ⟨hspan, heq, hhead, hmade⟩ := hmake (start.through t.lastSpan)
  exact (h.onto ht.onward).node (hlt.trans_le ht.onward.reach_le) hstart hspan heq rfl
    hhead hmade

/-- A statement that starts with a word ends with its semicolon. -/
theorem TookWord.terminated {w : Keyword} {tok : Token} {ns : List Node}
    (h : TookWord c w s₀ tok s) (hparts : Passes c k s t ns) {make : Span → Stmt}
    (hmake : ∀ span, (make span).span = span ∧ (make span).parts = ns ∧
      (Node.stmt (make span)).Proper (bytes c.source) ∧ w ∈ (make span).words ∧
        (Node.stmt (make span)).nests = false) :
    Reading c t (Parser.terminated tok.span make)
      (fun st us => ∃ span, st = make span ∧ terminator t.rest us)
      fun a t => Passes c k s₀ t [.stmt a] := by
  refine reading_terminated (hparts.after h.onward) (h.lt_reach hparts.onward)
    (congrArg Token.span h.eq) fun span => ?_
  obtain ⟨hspan, heq, hhead, hword, hnests⟩ := hmake span
  exact ⟨hspan, heq, hhead, h.made hword hnests⟩

theorem reads_declWord (kind : Option DeclKind) :
    Reads c 0 (declWord kind) (fun _ => perhaps (fun k : DeclKind => word k.keyword) kind)
      fun _ => [] := by
  intro s
  cases kind with
  | none => exact .of_fine fun hs => .pure (.nil (.refl hs)) rfl
  | some kind => exact .keyword fun _ t h => .pure h.passes fun hword => hword

theorem reads_forNames (k : Nat) :
    Reads c k forNames
      (fun names => perhaps (fun x => name x ++ mark .comma) names.1 ++ name names.2)
      fun names => names.1.toList.map .name ++ [.name names.2] := by
  intro s
  unfold forNames
  refine .bind (reads_ident k s) fun first t hfirst => ?_
  refine .bind (reading_takeMark .comma) fun two u hu => ?_
  cases two with
  | true =>
    refine .bind (reads_ident k u) fun second v hsecond => ?_
    refine .pure ((hfirst.onto hu.1).cons hsecond) ?_
    exact fun hread hcomma hread' => append (append hread' hcomma) hread
  | false =>
    refine .pure (hfirst.onto hu.1) fun heq hread => ?_
    have heq : t.rest = u.rest := heq
    exact append rfl (heq ▸ hread)

theorem reads_catchParam (k : Nat) :
    Reads c k catchParam (fun x => name x ++ mark .rparen) fun x => [.name x] := by
  intro s
  unfold catchParam
  refine .bind (reads_ident k s) fun x t hx => .mark fun _ u hclose => ?_
  exact .pure (hx.onto hclose.onward) fun hclose hread => append hread hclose

section

variable (hbelow : below.Sound c k) {tok : Token}

include hbelow

/-! ### Declarations -/

theorem reads_declarator (kind : DeclKind) :
    Reads c k (declarator below kind) (Declarator.spelling true kind) Declarator.parts := by
  intro s
  unfold declarator
  refine .bind (reads_ident k s) fun name t hname => ?_
  refine .bind (reading_takeMark .assign) fun hasInit u hassign => ?_
  refine .bind (reads_optionally (hbelow.expr 0) u) fun init v hinit => ?_
  refine .bind (reads_reportWhen _ _ rfl rfl v) fun _ w hcheck => .pure ?_ ?_
  · exact (hname.onto hassign.1).cons (hinit.onto hcheck.onward)
  · intro hcheck hread hassign hread'
    have hinit' := perhaps_of_announced hassign hread
    rw [← initialSpelling_eq] at hinit'
    refine append (append hread' hinit') (given_of hcheck fun h hconst => ?_)
    subst hconst
    simpa using h

/-- Names of a declaration, with fewer tokens left than the limit. -/
theorem reading_declaratorsUpTo (kind : DeclKind) {n : Nat} (hn : s.rest.length < n) :
    Reading c s (declaratorsUpTo below kind n)
      (fun ds us => declaratorsSpelling true kind ds s.rest us)
      fun ds t => Passes c k s t (ds.flatMap Declarator.parts) := by
  induction n generalizing s with
  | zero => omega
  | succ n ih =>
    rw [declaratorsUpTo]
    refine .bind (reads_declarator hbelow kind s) fun first t hfirst => ?_
    refine .bind (reading_takeMark .comma) fun more u hu => ?_
    cases more with
    | true =>
      have hlt := (hu.2 rfl).length_lt
      have hle := hfirst.onward.length_le
      refine .bind (ih (by omega)) fun rest v hrest => .pure ?_ ?_
      · exact (hfirst.onto hu.1).append hrest
      · intro hmore hcomma hread
        cases rest with
        | nil => exact absurd hmore id
        | cons d rest => exact append (append hread hcomma) hmore
    | false =>
      refine .pure (by simpa using hfirst.onto hu.1) fun heq hread => ?_
      have heq : t.rest = u.rest := heq
      exact heq ▸ hread

/-- A declaration, with what follows its names. -/
theorem reads_declaration (kind : DeclKind) {finish : StateM State Unit} {A : Spelling}
    (hfinish : Reads c 0 (liftM finish) (fun _ => A) fun _ => []) :
    Reads c k (declaration below kind finish)
      (fun st ts us => ∃ span ds, st = .decl span kind ds ∧
        (word kind.keyword ++ declaratorsSpelling true kind ds ++ A) ts us)
      fun d => [.stmt d] := by
  intro s
  unfold declaration
  refine .keyword fun start t hstart => .get ?_
  refine .bind (reading_declaratorsUpTo hbelow kind (Nat.lt_succ_self _)) fun ds u hds => ?_
  refine .bind (hfinish u) fun _ v hv => .spanFrom <| .pure ?_ ?_
  · exact hstart.opens (hds.onto hv.onward) rfl rfl rfl trivial (hstart.made (by simp) rfl)
  · exact fun hend hread hword => ⟨_, ds, rfl, append (append hword hread) hend⟩

/-! ### Branches and loops -/

theorem reads_colonBlock (ends : List TokenKind) :
    Reads c k (colonBlock below ends) (Stmt.colonSpelling true) fun b => [.stmt b] := by
  intro s
  unfold colonBlock
  refine .mark fun colon t hcolon => ?_
  refine .bind (reads_statements hbelow.stmt _ t) fun body u hbody => .spanFrom <| .pure ?_ ?_
  · exact hcolon.opens hbody rfl rfl rfl trivial (Node.made_plain rfl)
  · exact fun hread hopen => append hopen hread

theorem reads_loopBody (close : Keyword) :
    Reads c k (loopBody below close)
      (fun st => st.spelling true ∪ (st.colonSpelling true ++ word close))
      fun b => [.stmt b] := by
  intro s
  unfold loopBody
  refine .get ?_
  split
  · refine .mark fun colon t hcolon => ?_
    refine .bind (reads_statements hbelow.stmt _ t) fun body u hbody => ?_
    refine .keyword fun _ v hclose => .spanFrom <| .pure ?_ ?_
    · exact hcolon.opens (hbody.onto hclose.onward) rfl rfl rfl trivial (Node.made_plain rfl)
    · exact fun hclose hread hopen => inr (append (append hopen hread) hclose)
  · exact (hbelow.stmt s).mono (fun _ _ h => inl h) fun _ _ h => h

omit hbelow in
/-- An `if` that starts with the word `elif` is a further test. -/
theorem TookWord.made_elif (h : TookWord c .elifKw s tok t) {span : Span}
    (hlo : span.lo = tok.span.lo) (test : Expr) (yes : Stmt) (no : Option Stmt) :
    (Node.stmt (.ifElse span test yes no)).Made c.source s.rest k k := by
  refine ⟨le_rfl, .inr ⟨_, by simp, h.occursIn⟩, fun _ => .inr ?_⟩
  have htext : slice? c.source tok.lo (tok.lo + bytes tok.text) = some tok.text := h.laid.text
  rw [h.laid.keyword h.kind] at htext
  rw [Node.isElif, hlo]
  exact beq_iff_eq.2 htext

/-- The branches of an `if` with colons, after its test, are read with fewer tokens left than `n`.
They make a node that starts at the `if`, whose word decides whether it takes a level. -/
def ReadsBranches (c : Sheet) (k n : Nat) (branches : Span → Expr → Parser Stmt) : Prop :=
  ∀ {l : Nat} {s₀ s : State} {start : Span} {test : Expr}, start = s₀.current.span →
    Passes c k s₀ s [.expr test] → s.rest.length < n →
    (∀ last yes no, (Node.stmt (.ifElse (start.through last) test yes no)).Made c.source s₀.rest k
      l) →
    Reading c s (branches start test)
      (fun st us => ∀ ts₀, parenSpelling (test.spelling true) ts₀ s.rest →
        st.branchSpelling true ts₀ us)
      fun a t => Passes c l s₀ t [.stmt a]

/-- What follows the first branch of an `if` with colons. -/
theorem reading_colonAlternative {branches : Span → Expr → Parser Stmt} {n : Nat}
    (hbranches : ReadsBranches c k n branches) (hn : s.rest.length ≤ n) :
    Reading c s (colonAlternative below branches)
      (fun no us => alternativeSpelling true no s.rest us)
      fun no t => Passes c k s t (no.toList.map .stmt) := by
  unfold colonAlternative
  refine .get ?_
  split
  · refine .keyword fun start t hstart => ?_
    refine .bind (reads_parenExpr hbelow t) fun test u htest => ?_
    have hlt := htest.onward.length_le.trans_lt hstart.length_lt
    refine .bind (hbranches (congrArg Token.span hstart.eq) (htest.after hstart.onward) (by omega)
      fun last => hstart.made_elif (Span.lo_through _ _) test) fun no v hno => .pure hno ?_
    exact fun hread hparen hword => inl (append hword (hread _ hparen))
  · refine .keyword fun _ t helse => ?_
    refine .bind (reads_colonBlock hbelow _ t) fun no u hno => .keyword fun _ v hclose => ?_
    refine .pure ((hno.after helse.onward).onto hclose.onward) ?_
    exact fun hclose hread hword => inr (append (append hword hread) hclose)
  · exact .keyword fun _ t hclose => .pure hclose.passes fun hclose => hclose

theorem readsBranches_colonBranches (n : Nat) : ReadsBranches c k n (colonBranches below n) := by
  induction n with
  | zero =>
    intro l s₀ s start test _ _ hn
    omega
  | succ n ih =>
    intro l s₀ s start test hstart htest hn hmade
    rw [colonBranches]
    refine .bind (reads_colonBlock hbelow _ s) fun yes t hyes => ?_
    -- the colon was passed, so the limit for further branches is not reached
    have hlt := hyes.length_lt
    refine .bind (reading_colonAlternative hbelow ih (by omega)) fun no u hno => ?_
    have hparts := htest.cons (hyes.cons hno)
    refine .spanFrom <| .pure ?_ ?_
    · exact hparts.node hparts.lt_reach hstart rfl rfl rfl trivial (hmade _ yes no)
    · exact fun hread hread' ts₀ hparen => append (append hparen hread') hread

theorem reads_ifStmt : ReadsStmt c (k + 1) (ifStmt below) := by
  intro s
  unfold ifStmt
  refine .keyword fun start t hstart => ?_
  refine .bind (reads_parenExpr hbelow t) fun test u htest => .get ?_
  split
  · refine (readsBranches_colonBranches hbelow _ (congrArg Token.span hstart.eq)
      (htest.after hstart.onward) (Nat.lt_succ_self _) fun _ _ _ => hstart.madeOver (by simp)).mono
      (fun st us hread hparen hword => ?_) fun _ _ h => h
    exact Stmt.spelling_of_branchSpelling (append hword (hread _ hparen))
  · refine .bind (hbelow.stmt u) fun yes v hyes => ?_
    refine .bind (reading_takeKeyword .elseKw) fun hasElse w helse => ?_
    refine .bind (reads_optionally hbelow.stmt w) fun no x hno => .spanFrom <| .pure ?_ ?_
    · exact hstart.opens (htest.cons ((hyes.onto helse.1).cons hno)) rfl rfl rfl trivial
        (hstart.madeOver (by simp))
    · intro hread helse hread' hparen hword
      have hno' := perhaps_of_announced helse hread
      rw [← elseSpelling_eq] at hno'
      exact inl (append (append (append hword hparen) hread') hno')

theorem reads_whileStmt : ReadsStmt c (k + 1) (whileStmt below) := by
  intro s
  unfold whileStmt
  refine .keyword fun start t hstart => ?_
  refine .bind (reads_parenExpr hbelow t) fun test u htest => ?_
  refine .bind (reads_loopBody hbelow _ u) fun body v hbody => .spanFrom <| .pure ?_ ?_
  · exact hstart.opens (htest.cons hbody) rfl rfl rfl trivial (hstart.madeOver (by simp))
  · exact fun hread hparen hword => append (append hword hparen) hread

/-- The rest of a `for` over the values of an expression, after its parenthesis. -/
theorem reading_forIn (hword : TookWord c .forKw s₀ tok s) (hmoves : Onward c s t)
    (kind : Option DeclKind) :
    Reading c t (forIn below tok.span kind)
      (fun st us => ∀ ts₀, (word .forKw ++ mark .lparen) ts₀ t.rest → st.spelling true ts₀ us)
      fun a u => Passes c (k + 1) s₀ u [.stmt a] := by
  unfold forIn
  refine .bind (reads_declWord kind t) fun _ u hu => ?_
  refine .bind (reads_forNames k u) fun ⟨key, value⟩ v hnames => .keyword fun _ w hin => ?_
  refine .bind (hbelow.expr 0 w) fun iterable x hiterable => .mark fun _ y hclose => ?_
  refine .bind (reads_loopBody hbelow _ y) fun body z hbody => .spanFrom <| .pure ?_ ?_
  · have hiterable := hiterable.onto hclose.onward
    have hparts := ((hnames.onto hin.onward).after hu.onward).append (hiterable.cons hbody)
    -- the iterable comes behind the tokens of the names, and they behind the word of the loop
    have hhead : tok.span.lo < iterable.span.lo :=
      calc tok.span.lo < s.current.lo := hword.lo_lt
        _ ≤ w.current.lo := (((hmoves.trans hu.onward).trans hnames.onward).trans hin.onward).lo_le
        _ ≤ iterable.span.lo := hiterable.le_lo
    exact hword.opens (hparts.after hmoves) rfl (by simp [Node.parts, Stmt.parts]) rfl hhead
      (hword.madeOver (by simp))
  · rintro hbody hclose hread hin ⟨_, hkey, hvalue⟩ hdecl ts₀ hopen
    have hnames := append (append (append (append hopen hdecl) hkey) hvalue) hin
    exact append (append (append hnames hread) hclose) hbody

theorem reads_forInit :
    Reads c k (forInit below) (initSpelling true) fun o => o.toList.map .stmt := by
  intro s
  unfold forInit
  refine .get ?_
  split
  · exact .of_fine fun hs => .pure (.nil (.refl hs)) rfl
  · next kind _ _ =>
    have hfinish : Reads c 0 (liftM (pure () : StateM State Unit)) (fun _ => nothing)
        fun _ => [] :=
      fun _ => .of_fine fun hs => .pure (.nil (.refl hs)) rfl
    refine .bind (reads_declaration hbelow kind hfinish s) fun decl t hdecl => .pure hdecl ?_
    rintro ⟨span, ds, rfl, hread⟩
    exact of_append_nothing hread
  · refine .bind (hbelow.expr 0 s) fun e t he => .pure ?_ fun hread => hread
    exact he.around rfl rfl rfl trivial (Node.made_plain rfl)

/-- An expression that may be missing before a mark lies before the mark. -/
theorem reading_exprBefore (m : Punct) :
    Reading c s (exprBefore below m) (fun e us => (optionSpelling true e ++ mark m) s.rest us)
      fun o t => Passes c k s t (o.toList.map .expr) ∧ ∀ e ∈ o, e.span.hi < t.current.lo := by
  unfold exprBefore
  refine .get ?_
  refine .bind (reads_optionally (hbelow.expr 0) s) fun o t ho => ?_
  refine .mark fun tok u hmark => .pure ⟨ho.onto hmark.onward, ?_⟩ ?_
  · rintro e ⟨⟩
    calc e.span.hi ≤ t.reach := ho.hi_le (.expr e) (by simp)
      _ ≤ t.current.lo := ho.onward.fine.reach_le
      _ < u.reach := hmark.lt_reach (.refl hmark.onward.fine)
      _ ≤ u.current.lo := hmark.onward.fine.reach_le
  · rintro hmark ⟨_, ⟨-, rfl⟩, hread⟩
    rw [← optionSpelling_eq] at hread
    exact append hread hmark

theorem reads_forStmt : ReadsStmt c (k + 1) (forStmt below) := by
  intro s
  unfold forStmt
  refine .keyword fun start t hstart => .mark fun _ u hopen => .get ?_
  dsimp only
  generalize u.atForIn (if (declKind? u.kind).isSome then 1 else 0) = overValues
  cases overValues with
  | true =>
    refine (reading_forIn hbelow hstart hopen.onward _).mono (fun st us hread hopen hword => ?_)
      fun _ _ h => h
    exact hread _ (append hword hopen)
  | false =>
    refine .bind (reads_forInit hbelow u) fun init v hinit => .mark fun _ w hsemi => ?_
    refine .bind (reading_exprBefore hbelow _) fun test x htest => ?_
    refine .bind (reading_exprBefore hbelow _) fun update y hupdate => ?_
    refine .bind (reads_loopBody hbelow _ y) fun body z hbody => .spanFrom <| .pure ?_ ?_
    · have hparts := ((hinit.onto hsemi.onward).append
        (htest.1.append (hupdate.1.append hbody))).after hopen.onward
      refine hstart.opens hparts rfl rfl rfl ?_ (hstart.madeOver (by simp))
      exact fun e he => (hupdate.2 e he).trans_le hbody.le_lo
    · rintro hbody ⟨_, hupdate, hclose⟩ ⟨_, htest, hsecond⟩ hfirst hinit hopen hword
      have htests :=
        append (append (append (append (append hword hopen) hinit) hfirst) htest) hsecond
      exact append (append (append htests hupdate) hclose) hbody

/-! ### Switches, handlers and jumps -/

/-- The body of a case makes a node that starts with the word of the case. -/
theorem reading_caseBody {w : Keyword} (hword : TookWord c w s₀ tok s)
    (hw : w = .caseKw ∨ w = .defaultKw) {test : Option Expr}
    (htest : Passes c k s t (test.toList.map .expr)) :
    Reading c t (caseBody below tok.span test)
      (fun a us => ∃ span body, a = .mk span test body ∧
        (mark .colon ++ stmtsSpelling true body) t.rest us)
      fun a u => Passes c k s₀ u [.case a] := by
  unfold caseBody
  refine .mark fun _ u hcolon => ?_
  refine .bind (reads_statements hbelow.stmt _ u) fun body v hbody => .spanFrom <| .pure ?_ ?_
  · exact hword.opens (htest.append (hbody.after hcolon.onward)) rfl rfl rfl trivial
      (hword.made (by simpa using hw) rfl)
  · exact fun hread hcolon => ⟨_, body, rfl, append hcolon hread⟩

theorem reads_casesUpTo (n : Nat) (hasDefault : Bool) :
    Reads c k (casesUpTo below n hasDefault) (casesSpelling true hasDefault)
      fun cases => cases.map .case := by
  induction n generalizing hasDefault with
  | zero => exact fun s => .of_fine fun hs => .pure (.nil (.refl hs)) rfl
  | succ n ih =>
    intro s
    rw [casesUpTo]
    refine .get ?_
    split
    · exact .of_fine fun hs => .pure (.nil (.refl hs)) rfl
    · split
      · refine .keyword fun start t hstart => ?_
        refine .bind (hbelow.expr 0 t) fun test u htest => ?_
        refine .bind (reading_caseBody hbelow hstart (.inl rfl) htest) fun first v hfirst => ?_
        refine .bind (ih hasDefault v) fun rest w hrest => .pure (hfirst.cons hrest) ?_
        rintro hmore ⟨span, body, rfl, _, hcolon, hbody⟩ hread hword
        exact append (append (append (append hword hread) hcolon) hbody) hmore
      · refine .keyword fun start t hstart => ?_
        refine .bind (reads_reportWhen _ _ rfl rfl t) fun _ u hu => ?_
        refine .bind (reading_caseBody hbelow hstart (.inr rfl) (.nil hu.onward)) ?_
        intro first v hfirst
        refine .bind (ih true v) fun rest w hrest => .pure (hfirst.cons hrest) ?_
        rintro hmore ⟨span, body, rfl, _, hcolon, hbody⟩ hcheck hword
        exact append (append (append (append hword hcheck) hcolon) hbody) hmore
      -- a token that starts no case is skipped, and what follows is read after a fault
      · refine .after_fault (fun hs => ?_) fun hmoves => (ih hasDefault _).mono (fun _ _ h => h)
          fun _ _ h => h.after hmoves
        have hlist := hs.unexpected [.keyword .caseKw, .keyword .defaultKw, .punct .rbrace]
        exact ⟨hlist.trans hlist.fine.skip, mt hlist.fine.skip.clean (hs.unexpected_listed _)⟩

omit hbelow in
/-- The token before a case is tested for one word after the other. -/
theorem casesUpTo_succ (n : Nat) (hasDefault : Bool) :
    casesUpTo below (n + 1) hasDefault =
      (do
        let s ← get
        if s.atEnd [.punct .rbrace] then
          return []
        else if s.kind == .keyword .caseKw then
          let start ← expectKeyword .caseKw
          let test ← below.expr 0
          let first ← caseBody below start.span (some test)
          let rest ← casesUpTo below n hasDefault
          return first :: rest
        else if s.kind == .keyword .defaultKw then
          let start ← expectKeyword .defaultKw
          reportWhen hasDefault start.span .duplicateDefault
          let first ← caseBody below start.span none
          let rest ← casesUpTo below n true
          return first :: rest
        else
          modify fun s =>
            (s.unexpected [.keyword .caseKw, .keyword .defaultKw, .punct .rbrace]).skip
          casesUpTo below n hasDefault) := by
  rw [casesUpTo]
  congr
  funext s
  split
  · rfl
  · split <;> simp_all

omit hbelow in
theorem exec_casesUpTo_of_nil (n : Nat) (hasDefault : Bool) (hs : s.Fine c)
    (hnil : s.rest = []) : exec (casesUpTo below n hasDefault) s = (some [], s) := by
  cases n with
  | zero => rfl
  | succ n =>
    rw [casesUpTo_succ, exec_get, if_pos (hs.atEnd_of_length _ (by simp [hnil]))]
    rfl

theorem reads_switchStmt : ReadsStmt c (k + 1) (switchStmt below) := by
  intro s
  unfold switchStmt
  refine .keyword fun start t hstart => ?_
  refine .bind (reads_parenExpr hbelow t) fun subject u hsubject => .mark fun _ v hopen => .get ?_
  refine .bind (reads_casesUpTo hbelow _ _ v) fun cases w hcases => ?_
  refine .mark fun _ x hclose => .spanFrom <| .pure ?_ ?_
  · exact hstart.opens ((hsubject.onto hopen.onward).cons (hcases.onto hclose.onward)) rfl rfl rfl
      (hstart.lo_lt.trans_le hsubject.le_lo) (hstart.madeOver (by simp))
  · intro hclose hread hopen hparen hword
    exact append (append hword hparen) (append (append hopen hread) hclose)

theorem reads_tryStmt : ReadsStmt c (k + 1) (tryStmt below) := by
  intro s
  unfold tryStmt
  refine .keyword fun start t hstart => ?_
  refine .bind (reads_block hbelow t) fun body u hbody => .keyword fun _ v hcatch => ?_
  refine .bind (reading_takeMark .lparen) fun hasParam w hopen => ?_
  refine .bind (reads_optionally (reads_catchParam k) w) fun param x hparam => ?_
  refine .bind (reads_block hbelow x) fun handler y hhandler => .spanFrom <| .pure ?_ ?_
  · have hparts := (hbody.onto (hcatch.onward.trans hopen.1)).append (hparam.append hhandler)
    exact hstart.opens hparts rfl rfl rfl trivial (hstart.madeOver (by simp))
  · intro hhandler hread hopen hcatch hbody hword
    have hparam := perhaps_of_announced hopen hread
    exact append (append (append (append hword hbody) hcatch) hparam) hhandler

theorem reads_returnStmt : ReadsStmt c k (returnStmt below) := by
  intro s
  unfold returnStmt
  refine .keyword fun start t hstart => .get ?_
  refine .bind (reads_optionally (hbelow.expr 0) t) fun value u hvalue => ?_
  refine .mono (hstart.terminated hvalue fun span => ?_) ?_ fun _ _ h => h
  · exact ⟨rfl, rfl, trivial, by simp, rfl⟩
  · rintro st us ⟨span, rfl, hend⟩ ⟨_, ⟨-, rfl⟩, hread⟩ hword
    rw [← optionSpelling_eq] at hread
    exact append (append hword hread) hend

end

/-! ### Imports and exports -/

theorem reads_aliased {other : Parser Ident} {second : Ident → Spelling}
    (hother : Reads c k other second fun x => [.name x]) :
    Reads c k (aliased propertyName other) (fun x => aliasSpelling second x.1 x.2)
      fun names => .name names.1 :: names.2.toList.map .name := by
  intro s
  unfold aliased
  refine .bind (reads_propertyName k s) fun first t hfirst => ?_
  refine .bind (reading_takeName "as") fun hasOther u hu => ?_
  refine .bind (reads_optionally hother u) fun newName v hnewName => ?_
  refine .pure ((hfirst.onto hu.1).cons hnewName) ?_
  exact fun hread has hread' => append hread' (perhaps_of_announced has hread)

theorem reads_importSpec (k : Nat) :
    Reads c k importSpec ImportSpec.spelling fun spec => spec.names.map .name := by
  intro s
  unfold importSpec
  exact .bind (reads_aliased (reads_ident k) s) fun ⟨x, newName⟩ t h => .pure h fun hread => hread

theorem reads_exportSpec (k : Nat) :
    Reads c k exportSpec ExportSpec.spelling fun spec => spec.names.map .name := by
  intro s
  unfold exportSpec
  exact .bind (reads_aliased (reads_propertyName k) s) fun ⟨x, newName⟩ t h =>
    .pure h fun hread => hread

theorem reads_specs {α : Type} {spec : Parser α} {spelling : α → Spelling} {names : α → List Ident}
    (hspec : Reads c k spec spelling fun a => (names a).map .name) :
    Reads c k (specs spec) (specsSpelling spelling) fun as => (as.flatMap names).map .name := by
  intro s
  unfold specs
  refine .mark fun _ t hopen => ?_
  refine .bind (reads_items _ hspec t) fun as u has => .mark fun _ v hclose => .pure ?_ ?_
  · simp only [List.map_flatMap]
    exact (has.after hopen.onward).onto hclose.onward
  · exact fun hclose hread hopen => append (append hopen hread) hclose

theorem reads_importSpecs (k : Nat) :
    Reads c k importSpecs importSpecsSpelling
      fun specs => (specs.flatMap ImportSpec.names).map .name := by
  intro s
  unfold importSpecs
  refine .bind (reading_takeMark .star) fun star t ht => ?_
  cases star with
  | true =>
    refine .bind (reads_expectName _ t) fun _ u hu => ?_
    refine .bind (reads_ident k u) fun x v hx => .pure (hx.after (ht.1.trans hu.onward)) ?_
    exact fun hread has hstar => append (append hstar has) hread
  | false =>
    refine (reads_specs (reads_importSpec k) t).mono (fun specs us hread heq => ?_)
      fun _ _ h => h.after ht.1
    have heq : s.rest = t.rest := heq
    exact importSpecsSpelling_of_specs (heq ▸ hread)

theorem reads_importClause (k : Nat) :
    Reads c k importClause (importClauseSpelling true)
      fun specs => (specs.flatMap ImportSpec.names).map .name := by
  intro s
  unfold importClause
  refine .get ?_
  split
  · refine .bind (reads_ident k s) fun x t hx => ?_
    refine .bind (reading_takeMark .comma) fun more u hu => ?_
    cases more with
    | true =>
      refine .bind (reads_importSpecs k u) fun specs v hspecs => ?_
      refine .pure ((hx.onto hu.1).cons hspecs) ?_
      intro hread hcomma hread'
      -- without names in them, the braces after the comma are not in the tree
      cases specs with
      | nil => exact append hread' (inr (append (append_given rfl hcomma) hread))
      | cons => exact append (append hread' hcomma) hread
    | false => exact .pure (hx.onto hu.1) fun heq hread => append hread (inl heq)
  · exact (reads_importSpecs k s).mono (fun _ _ h => importClauseSpelling_of_specs h)
      fun _ _ h => h

theorem reads_importStmt : ReadsStmt c k importStmt := by
  intro s
  unfold importStmt
  refine .keyword fun start t hstart => ?_
  refine .bind (reads_importClause k t) fun names u hnames => ?_
  refine .bind (reads_expectName _ u) fun _ v hfrom => .bind reading_textLit fun lit w hlit => ?_
  refine .mono (hstart.terminated (hnames.onto (hfrom.onward.trans hlit.1)) fun span => ?_) ?_
    fun _ _ h => h
  · exact ⟨rfl, rfl, hlit.2, by simp, rfl⟩
  · rintro st us ⟨span, rfl, hend⟩ hsource hfrom hread hword
    exact append (append (append (append hword hread) hfrom) hsource) hend

section

variable {tok : Token} (hword : TookWord c .exportKw s₀ tok s)

include hword

/-- An exported declaration, after `export`. -/
theorem reading_exportedDecl (hbelow : below.Sound c k) (kind : DeclKind) :
    Reading c s (exportedDecl below tok.span kind)
      (fun st us => word .exportKw s₀.rest s.rest → st.spelling true s₀.rest us)
      fun a t => Passes c k s₀ t [.stmt a] := by
  unfold exportedDecl
  refine .bind (reads_declaration hbelow kind reads_terminate s) fun d t hd => ?_
  refine .spanFrom <| .pure (hword.opens hd rfl rfl rfl trivial (hword.made (by simp) rfl)) ?_
  rintro ⟨_, ds, rfl, hread⟩ hword
  exact append hword hread

/-- An exported function, after `export`. -/
theorem reading_exportedFunction (hbelow : below.Sound c k) :
    Reading c s (exportedFunction below tok.span)
      (fun st us => word .exportKw s₀.rest s.rest → st.spelling true s₀.rest us)
      fun a t => Passes c k s₀ t [.stmt a] := by
  unfold exportedFunction
  refine .bind (reads_function hbelow (fun span name ps body => (name, Stmt.function span name ps body))
    (fun a => .stmt a.2) (fun _ _ _ _ => ⟨rfl, rfl, rfl, trivial, by simp, rfl⟩) s)
    fun ⟨fname, inner⟩ t ha => ?_
  refine .bind (reads_reportWhen _ _ rfl rfl t) fun _ u hu => ?_
  -- a missing semicolon is listed, but does not undo the function
  refine .bind (reading_expectMark _).attempt fun _ v hv => .spanFrom <| .pure ?_ ?_
  · exact hword.opens (ha.onto (hu.onward.trans hv.1)) rfl rfl rfl trivial
      (hword.made (by simp) rfl)
  · rintro ⟨_, -, hend⟩ hcheck ⟨_, _, ps, body, heq, hread⟩ hword
    cases heq
    exact append hword (append (append hread (given_of hcheck (by simp))) hend)

/-- All names of a module, after `export`. -/
theorem reading_exportedModule :
    Reading c s (exportedModule tok.span)
      (fun st us => word .exportKw s₀.rest s.rest → st.spelling true s₀.rest us)
      fun a t => Passes c k s₀ t [.stmt a] := by
  unfold exportedModule
  refine .mark fun _ t hstar => ?_
  refine .bind (reading_takeName "as") fun hasName u hu => ?_
  refine .bind (reads_optionally (reads_ident k) u) fun newName v hname => ?_
  refine .bind (reads_expectName _ v) fun _ w hfrom => .bind reading_textLit fun lit x hlit => ?_
  refine .mono (hword.terminated ((hname.onto (hfrom.onward.trans hlit.1)).after
    (hstar.onward.trans hu.1)) fun span => ?_) ?_ fun _ _ h => h
  · exact ⟨rfl, rfl, hlit.2, by simp, rfl⟩
  · rintro st us ⟨span, rfl, hend⟩ hsource hfrom hread has hstar hword
    have hname := perhaps_of_announced has hread
    exact append (append (append (append (append hword hstar) hname) hfrom) hsource) hend

/-- Exported names in braces, after `export`. -/
theorem reading_exportedNames :
    Reading c s (exportedNames tok.span)
      (fun st us => word .exportKw s₀.rest s.rest → st.spelling true s₀.rest us)
      fun a t => Passes c k s₀ t [.stmt a] := by
  unfold exportedNames
  refine .bind (reads_specs (reads_exportSpec k) s) fun names t hnames => ?_
  refine .bind (reading_takeName "from") fun hasSource u hu => ?_
  refine .bind (reading_optionally reading_textLit) fun lit v hv => ?_
  refine .mono (hword.terminated (hnames.onto (hu.1.trans hv.1)) fun span => ?_) ?_ fun _ _ h => h
  · exact ⟨rfl, rfl, fun l hl => (hv.2 l hl).2, by simp, rfl⟩
  · rintro st us ⟨span, rfl, hend⟩ hread hfrom hnames hword
    exact append (append (append hword hnames) (perhaps_of_announced hfrom hread)) hend

end

theorem reads_exportStmt (hbelow : below.Sound c k) : ReadsStmt c k (exportStmt below) := by
  intro s
  unfold exportStmt
  refine .keyword fun start t hstart => .get ?_
  split
  · exact reading_exportedDecl hstart hbelow _
  · exact reading_exportedDecl hstart hbelow _
  · exact reading_exportedFunction hstart hbelow
  · refine .keyword fun _ u hdefault => .bind (hbelow.expr 0 u) fun value v hvalue => ?_
    refine .mono (hstart.terminated (hvalue.after hdefault.onward) fun span => ?_) ?_
      fun _ _ h => h
    · exact ⟨rfl, rfl, trivial, by simp, rfl⟩
    · rintro st us ⟨span, rfl, hend⟩ hread hdefault hword
      exact append (append (append hword hdefault) hread) hend
  · exact reading_exportedModule hstart
  · exact reading_exportedNames hstart
  · exact reading_unexpected _

/-! ### All statements -/

theorem reads_exprStmt (hbelow : below.Sound c k) : ReadsStmt c k (exprStmt below) := by
  intro s
  unfold exprStmt
  refine .get <| .bind (hbelow.expr 0 s) fun e t he => ?_
  refine .mono (reading_terminated he he.lt_reach rfl fun span => ?_) ?_ fun _ _ h => h
  · exact ⟨rfl, rfl, trivial, Node.made_plain rfl⟩
  · rintro st us ⟨span, rfl, hend⟩ hread
    exact append hread hend

/-- A word and its semicolon. -/
theorem reads_wordStmt (w : Keyword) (make : Span → Stmt)
    (hspelling : ∀ span, (make span).spelling true = word w ++ terminator)
    (hmake : ∀ span, (make span).span = span ∧ (make span).parts = [] ∧
      (Node.stmt (make span)).Proper (bytes c.source) ∧ w ∈ (make span).words ∧
        (Node.stmt (make span)).nests = false) :
    ReadsStmt c k (wordStmt w make) := by
  intro s
  unfold wordStmt
  refine .keyword fun start t hstart => ?_
  refine (hstart.terminated (.nil (.refl hstart.onward.fine)) hmake).mono ?_ fun _ _ h => h
  rintro st us ⟨span, rfl, hend⟩ hword
  rw [hspelling]
  exact append hword hend

theorem reads_blockStmt (hbelow : below.Sound c k) : ReadsStmt c k (blockStmt below) := by
  intro s
  unfold blockStmt
  refine .get <| .bind (reading_block hbelow) fun body t hbody => .spanFrom <| .pure ?_ fun h => h
  exact hbody.1.node hbody.2 rfl rfl rfl rfl trivial (Node.made_plain rfl)

theorem reads_emptyStmt : ReadsStmt c k emptyStmt := by
  intro s
  unfold emptyStmt
  exact .mark fun tok t htook => .pure (htook.leaf rfl rfl rfl trivial (Node.made_plain rfl))
    fun hread => hread

/-- A function whose word is followed by a name has that name. -/
theorem isSome_of_functionSpelling {fname : Option Ident} {ps : List Param} {body : Spelling}
    {ts us : List Token} {eof : Token} (hlabel : (ts.getD 1 eof).kind = .label)
    (h : functionSpelling (perhaps name fname) ps body ts us) : fname.isSome = true := by
  cases fname with
  | some x => rfl
  | none =>
    obtain ⟨_, ⟨_, ⟨_, ⟨t, rfl, -⟩, rfl⟩, _, ⟨_, ⟨u, rfl, hopen⟩, -⟩, -⟩, -⟩ := h
    simp [hopen] at hlabel

/-- A statement takes at most one level. -/
theorem reads_statement (hbelow : below.Sound c k) : ReadsStmt c (k + 1) (statement below) := by
  intro s
  have hdecl (kind : DeclKind) : Reading c s (declaration below kind terminate)
      (fun st us => st.spelling true s.rest us) fun d t => Passes c (k + 1) s t [.stmt d] := by
    refine ((reads_declaration hbelow kind reads_terminate).up s).mono ?_ fun _ _ h => h
    rintro st us ⟨span, ds, rfl, hread⟩
    exact hread
  unfold statement
  refine .get ?_
  split
  · exact hdecl .letDecl
  · exact hdecl .constDecl
  · split
    · next hlabel =>
      -- a function that starts a statement has a name, since one was seen after its word
      refine ((reads_function hbelow Stmt.function Node.stmt fun _ _ _ _ => ?_).up s).mono ?_
        fun _ _ h => h
      · exact ⟨rfl, rfl, rfl, trivial, by simp, rfl⟩
      · rintro st us ⟨span, fname, ps, body, rfl, hread⟩
        exact append hread ⟨isSome_of_functionSpelling (beq_iff_eq.1 hlabel) hread, rfl⟩
    · exact (reads_exprStmt hbelow).up s
  · exact reads_ifStmt hbelow s
  · exact reads_whileStmt hbelow s
  · exact reads_forStmt hbelow s
  · exact reads_switchStmt hbelow s
  · exact reads_tryStmt hbelow s
  · exact (reads_returnStmt hbelow).up s
  · exact reads_wordStmt _ .breaks (fun _ => rfl) (fun _ => ⟨rfl, rfl, trivial, by simp, rfl⟩) s
  · exact reads_wordStmt _ .continues (fun _ => rfl) (fun _ => ⟨rfl, rfl, trivial, by simp, rfl⟩) s
  · exact (reads_blockStmt hbelow).up s
  · exact reads_emptyStmt s
  · exact reads_importStmt s
  · exact (reads_exportStmt hbelow).up s
  · exact (reads_exprStmt hbelow).up s

end Parser

end ScriptCheck
