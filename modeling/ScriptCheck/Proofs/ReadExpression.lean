import ScriptCheck.Proofs.ReadList

/-!
# Reading expressions

Each part of an expression is read by the tokens that spell it and over its nodes, where the same is
known of the level below (`Level.Sound`) and of the interpolations of templates (`Sheet.Sound`).
-/

namespace ScriptCheck

open Spelling Text

/-! ### Templates -/

/-- An interpolation as it is read on its own. -/
def Parser.alone (L : Level) (textEnd : Nat) (e : Excerpt) : Expr × State :=
  (wholeExpr L textEnd).run (.ofTokens (tokensFrom .normal .none e.lo e.text))

/-- Interpolations are read without regard to what stands before them. -/
theorem Parser.run_interpolations (L : Level) (textEnd : Nat) (es : List Excerpt) (s : State) :
    (es.mapM (interpolation L textEnd)).run s =
      (es.map fun e => (alone L textEnd e).1,
        { s with errors := s.errors ++ es.flatMap fun e => (alone L textEnd e).2.errors }) := by
  induction es generalizing s with
  | nil =>
    rw [List.mapM_nil, List.map_nil, List.flatMap_nil, List.append_nil]
    rfl
  | cons e es ih =>
    have hrun : ((e :: es).mapM (interpolation L textEnd)).run s =
        ((alone L textEnd e).1 :: ((es.mapM (interpolation L textEnd)).run
            { s with errors := s.errors ++ (alone L textEnd e).2.errors }).1,
          ((es.mapM (interpolation L textEnd)).run
            { s with errors := s.errors ++ (alone L textEnd e).2.errors }).2) := by
      rw [List.mapM_cons]
      rfl
    rw [hrun, ih]
    simp [List.append_assoc]

namespace Sheet

variable (c : Sheet)

/-- Reading the interpolations of a template lists their faults and does nothing else. -/
theorem run_template (t : Token) (s : Parser.State) :
    (c.template t).run s = (c.parts t, { s with errors := s.errors ++ c.faults t }) := by
  obtain ⟨source, _ | n⟩ := c
  · have hnil : s.errors = s.errors ++ [] := (List.append_nil _).symm
    exact congrArg (fun errors => (([] : List Expr), { s with errors })) hnil
  · simp only [parts, faults, template, Parser.interpolations, Parser.run_interpolations]
    rfl

/-- How the interpolations of templates are read: with one template less around the others. -/
def inner (source : List Char) (n : Nat) : Level :=
  .withLeft (template ⟨source, n⟩) maxNesting

theorem parts_succ (source : List Char) (n : Nat) (t : Token) : parts ⟨source, n + 1⟩ t =
    t.interpolations.map fun e => (Parser.alone (inner source n) (bytes source) e).1 := by
  simp only [parts, template, Parser.interpolations, Parser.run_interpolations, inner]

theorem faults_succ (source : List Char) (n : Nat) (t : Token) : faults ⟨source, n + 1⟩ t =
    t.interpolations.flatMap fun e => (Parser.alone (inner source n) (bytes source) e).2.errors := by
  simp only [faults, template, Parser.interpolations, Parser.run_interpolations, inner]
  rfl

/-- The interpolations of templates are read by the tokens that spell them, over nodes that lie in
the token of the template, in order, and have grown from the tokens of the interpolations. -/
structure Sound : Prop where
  spelled {t : Token} (ht : t.Laid c) (hkind : t.kind = .template) (hclean : c.faults t = []) :
    partsSpelled true (c.parts t) t.interpolations
  inOrder {t : Token} (ht : t.Laid c) (hkind : t.kind = .template) :
    InOrder t.span.lo t.span.hi
      (((Node.expr (.template t.span (c.parts t))).standing (bytes c.source)).map Node.span)
  laid {t : Token} (ht : t.Laid c) (hkind : t.kind = .template) :
    ∀ e ∈ c.parts t, (Node.expr e).All (Node.Laid c.source)
  grown {t : Token} (ht : t.Laid c) (hkind : t.kind = .template) {tokens : List Token}
    (hmem : t ∈ tokens) : (Node.expr (.template t.span (c.parts t))).Grown c.source tokens 0
  accounted {t : Token} (ht : t.Laid c) (hkind : t.kind = .template) :
    ∀ x ∈ c.faults t, x.Accounted [t]

end Sheet

/-! ### Levels -/

abbrev Parser.ReadsExpr (c : Sheet) (k : Nat) (p : Parser Expr) : Prop :=
  Reads c k p (Expr.spelling true) fun e => [.expr e]

/-- What can be read at a level is read by the tokens that spell it, over its nodes. The operators
after an expression are read by the tokens that make a spelling of it into one of the result, and
make one node of it and of what follows. -/
structure Level.Sound (c : Sheet) (k : Nat) (L : Level) : Prop where
  stmt : Parser.ReadsStmt c k L.stmt
  expr (power : Nat) : Parser.ReadsExpr c k (L.expr power)
  operators (power : Nat) {lhs : Expr} {l : Nat} {s₀ s : Parser.State} (hkl : k ≤ l)
    (h : Parser.Passes c l s₀ s [.expr lhs]) :
    Parser.Reading c s (L.operators power lhs)
      (fun e us => ∀ ts₀, lhs.spelling true ts₀ s.rest → e.spelling true ts₀ us)
      fun e t => Parser.Passes c l s₀ t [.expr e]
  template : L.template = c.template
  sheet : c.Sound

namespace Parser

variable {c : Sheet} {k : Nat} {below : Level} {s : State}

/-! ### Parts shared with statements -/

theorem reading_textLit : Reading c s textLit (fun lit us => text lit s.rest us)
    fun lit t => Onward c s t ∧ lit.span.hi ≤ bytes c.source := by
  unfold textLit
  refine .bind (reading_expect (by simp) rfl) fun tok t h => ?_
  exact .pure ⟨h.1.onward, h.1.laid.hi_le⟩ fun h => ⟨tok, h.1, h.2, by simp⟩

theorem reads_param (k : Nat) : Reads c k param Param.spelling fun p => [.name p.name] := by
  intro s
  unfold param
  refine .bind (reading_takeMark .ellipsis) fun rest t ht => ?_
  refine .bind (reads_ident k t) fun name u hname => .pure (hname.after ht.1) ?_
  exact fun hread hrest => append hrest hread

/-- Without a fault only the last parameter takes all remaining arguments. -/
theorem reads_checkRest (ps : List Param) :
    Reads c 0 (liftM (checkRest ps)) (fun _ => given (∀ p ∈ ps.dropLast, p.rest = false))
      fun _ => [] := by
  intro s
  unfold checkRest
  split
  · exact reads_report _ rfl rfl s
  · next h => exact .lift fun hs => ⟨.refl hs, .nil (.refl hs), fun _ => ⟨by simpa using h, rfl⟩⟩

theorem reads_params (k : Nat) : Reads c k params paramsSpelling paramNodes := by
  intro s
  unfold params
  refine .bind (reads_items_node _ (reads_param k) s) fun ps t hps => ?_
  refine .bind (reads_checkRest ps t) fun _ u hu => .pure (hps.onto hu.onward) ?_
  exact fun hrest hread => append hread hrest

theorem reads_checkTarget (e : Expr) :
    Reads c 0 (liftM (checkTarget e)) (fun _ => given (isTarget e = true)) fun _ => [] :=
  fun s => (reads_reportWhen _ _ rfl rfl s).mono (fun _ _ h => given_of h (by simp)) fun _ _ h => h

section

variable (hbelow : below.Sound c k)

include hbelow

/-- Statements in braces, of which at least the braces are passed. -/
theorem reading_block :
    Reading c s (block below) (fun body us => blockSpelling (stmtsSpelling true body) s.rest us)
      fun body t => Passes c k s t (body.map .stmt) ∧ s.current.lo < t.reach := by
  unfold block
  refine .mark fun _ t hopen => ?_
  refine .bind (reads_statements hbelow.stmt _ t) fun body u hbody => ?_
  refine .mark fun _ v hclose => .pure ⟨?_, ?_⟩ ?_
  · exact (hbody.after hopen.onward).onto hclose.onward
  · exact hopen.lt_reach (hbody.onward.trans hclose.onward)
  · exact fun hclose hread hopen => append (append hopen hread) hclose

theorem reads_block : Reads c k (block below)
    (fun body => blockSpelling (stmtsSpelling true body)) fun body => body.map .stmt :=
  fun _ => (reading_block hbelow).mono (fun _ _ h => h) fun _ _ h => h.1

theorem reads_functionBody :
    Reads c k (functionBody below) (fun body => functionBodySpelling (stmtsSpelling true body))
      fun body => body.map .stmt := by
  intro s
  unfold functionBody
  refine .bind (reading_takeMark .colon) fun b t ht => ?_
  cases b with
  | true =>
    refine .bind (reads_statements hbelow.stmt _ t) fun body u hbody => ?_
    refine .keyword fun _ v hclose => .pure ((hbody.after ht.1).onto hclose.onward) ?_
    exact fun hclose hread hopen => inr (append (append hopen hread) hclose)
  | false =>
    refine (reads_block hbelow t).mono (fun body us hread heq => ?_) fun _ _ h => h.after ht.1
    exact inl (heq ▸ hread)

/-- A function, from whose parts a node is made. -/
theorem reads_function {α : Type} (make : Span → Option Ident → List Param → List Stmt → α)
    (node : α → Node)
    (hnode : ∀ span name ps body, (node (make span name ps body)).span = span ∧
      (node (make span name ps body)).parts = functionParts name ps body ∧
      (node (make span name ps body)).isComposite ∧
      (node (make span name ps body)).Proper (bytes c.source) ∧
      .functionKw ∈ (node (make span name ps body)).words ∧
      (node (make span name ps body)).nests = false) :
    Reads c k (function below make)
      (fun a ts us => ∃ span name ps body, a = make span name ps body ∧
        functionSpelling (perhaps Spelling.name name) ps
          (functionBodySpelling (stmtsSpelling true body)) ts us) fun a => [node a] := by
  intro s
  unfold function
  refine .keyword fun start t hstart => .get ?_
  refine .bind (reads_optionally (reads_ident k) t) fun name u hname => ?_
  refine .mark fun _ v hopen => ?_
  refine .bind (reads_params k v) fun ps w hps => ?_
  refine .mark fun _ x hclose => ?_
  refine .bind (reads_functionBody hbelow x) fun body y hbody => .spanFrom <| .pure ?_ ?_
  · have hparts := (hname.onto hopen.onward).append ((hps.onto hclose.onward).append hbody)
    obtain ⟨hspan, heq, hcomposite, hhead, hword, hnests⟩ :=
      hnode (start.span.through y.lastSpan) name ps body
    exact hstart.opens hparts hspan heq hcomposite hhead (hstart.made hword hnests)
  · rintro hread hclose hparams hopen ⟨_, ⟨-, rfl⟩, hnamed⟩ hword
    refine ⟨_, name, ps, body, rfl, ?_⟩
    exact append (append (append hword hnamed) (append (append hopen hparams) hclose)) hread

theorem reads_parenExpr :
    Reads c k (parenExpr below) (fun e => parenSpelling (e.spelling true)) fun e => [.expr e] := by
  intro s
  unfold parenExpr
  refine .mark fun _ t hopen => ?_
  refine .bind (hbelow.expr 0 t) fun e u he => .mark fun _ v hclose => .pure ?_ ?_
  · exact (he.after hopen.onward).onto hclose.onward
  · exact fun hclose hread hopen => append (append hopen hread) hclose

/-! ### Operands -/

theorem reads_element :
    Reads c k (element below) (Expr.elementSpelling true) fun e => [.expr e] := by
  intro s
  unfold element
  refine .get <| .bind (reading_takeMark .ellipsis) fun b t ht => ?_
  cases b with
  | true =>
    refine .bind (hbelow.expr 0 t) fun e u he => .spanFrom <| .pure ?_ ?_
    · exact (ht.2 rfl).opens he rfl rfl rfl trivial (Node.made_plain rfl)
    · exact fun hread hmark => append hmark hread
  | false =>
    refine (hbelow.expr 0 t).mono (fun e us hread heq => ?_) fun _ _ h => h.after ht.1
    have heq : s.rest = t.rest := heq
    exact Expr.elementSpelling_of_spelling (heq ▸ hread)

theorem reads_propertyValue :
    Reads c k (propertyValue below) (fun e => mark .colon ++ e.spelling true)
      fun e => [.expr e] := by
  intro s
  unfold propertyValue
  refine .mark fun _ t hcolon => ?_
  exact (hbelow.expr 0 t).mono (fun e us hread hcolon => append hcolon hread)
    fun _ _ h => h.after hcolon.onward

/-- What is known of a property that was read: its nodes, and where its key ends. -/
abbrev ReadsProperty (c : Sheet) (k : Nat) (s : State) (p : Parser Property) : Prop :=
  Reading c s p (fun p us => p.spelling true s.rest us)
    fun p t => Passes c k s t p.parts ∧ p.keyEnd ≤ bytes c.source

theorem reads_wordProperty : ReadsProperty c k s (wordProperty below) := by
  unfold wordProperty
  refine .bind (reads_propertyName k s) fun name t hname => ?_
  refine .bind (reads_propertyValue hbelow t) fun value u hvalue => ?_
  refine .pure ⟨hname.cons hvalue, Nat.zero_le _⟩ ?_
  rintro ⟨_, hcolon, hread⟩ hword
  exact append (append hword hcolon) hread

/-- A property with a number before its value. -/
theorem reading_numberProperty (hkind : s.kind = .number ∨ s.kind = .double) :
    ReadsProperty c k s (do
      let _ ← advance
      let value ← propertyValue below
      return .named (.number ⟨s.current.word, s.current.span⟩) value) := by
  have hkind' : s.kind ≠ .eof ∧ s.kind.isError = false := by
    rcases hkind with h | h <;> simp [h, TokenKind.isError]
  refine .advance rfl hkind'.1 hkind'.2 fun htook => ?_
  refine .bind (reads_propertyValue hbelow _) fun value u hvalue => ?_
  refine .pure ⟨hvalue.after htook.onward, htook.laid.hi_le⟩ ?_
  rintro ⟨_, hcolon, hread⟩ hrest
  exact append (append ⟨s.current, hrest, hkind, rfl⟩ hcolon) hread

theorem reads_plainProperty : ReadsProperty c k s (plainProperty below) := by
  unfold plainProperty
  refine .get ?_
  dsimp only
  split
  · split
    · exact .bind (reads_ident k s) fun name t hname => .pure ⟨hname, Nat.zero_le _⟩ fun hread => hread
    · exact reads_wordProperty hbelow
  · exact reads_wordProperty hbelow
  · refine .bind reading_textLit fun lit t hlit => ?_
    refine .bind (reads_propertyValue hbelow t) fun value u hvalue => ?_
    refine .pure ⟨hvalue.after hlit.1, hlit.2⟩ ?_
    rintro ⟨_, hcolon, hread⟩ htext
    exact append (append htext hcolon) hread
  · next hkind => exact reading_numberProperty hbelow (.inl hkind)
  · next hkind => exact reading_numberProperty hbelow (.inr hkind)
  · next hkind =>
    refine .advance hkind (by simp) rfl fun htook => ?_
    refine .bind (hbelow.expr 0 _) fun key t hkey => .mark fun _ u hclose => ?_
    refine .bind (reads_propertyValue hbelow u) fun value v hvalue => .pure ⟨?_, Nat.zero_le _⟩ ?_
    · exact ((hkey.after htook.onward).onto hclose.onward).cons hvalue
    · rintro ⟨_, hcolon, hread⟩ hclose hinner hrest
      exact append (append (append (append ⟨_, hrest, hkind⟩ hinner) hclose) hcolon) hread
  · exact reading_unexpected _

theorem reads_property : ReadsProperty c k s (property below) := by
  unfold property
  refine .bind (reading_takeMark .ellipsis) fun b t ht => ?_
  cases b with
  | true =>
    refine .bind (hbelow.expr 0 t) fun e u he => .pure ⟨he.after ht.1, Nat.zero_le _⟩ ?_
    exact fun hread hmark => append hmark hread
  | false =>
    refine (reads_plainProperty hbelow).mono (fun e us hread heq => ?_)
      fun _ _ h => ⟨h.1.after ht.1, h.2⟩
    have heq : s.rest = t.rest := heq
    exact heq ▸ hread

/-- An arrow function, after its parameters and the arrow. -/
theorem reading_arrowBody {s₀ : State} {start : Span} (hstart : start = s₀.current.span)
    {ps : List Param} (hps : Passes c k s₀ s (paramNodes ps)) (hlt : s₀.current.lo < s.reach) :
    Reading c s (arrowBody below start ps)
      (fun e us => ∀ ts₀, arrowSpelling ps ts₀ s.rest → e.spelling true ts₀ us)
      fun e t => Passes c k s₀ t [.expr e] := by
  unfold arrowBody
  refine .get ?_
  split
  · refine .bind (reads_block hbelow s) fun body t hbody => .spanFrom <| .pure ?_ ?_
    · exact (hps.append hbody).node (hlt.trans_le hbody.onward.reach_le) hstart rfl rfl
        rfl trivial (Node.made_plain rfl)
    · exact fun hread ts₀ hparams => append hparams hread
  · refine .bind (hbelow.expr 0 s) fun body t hbody => .spanFrom <| .pure ?_ ?_
    · exact (hps.append hbody).node (hlt.trans_le hbody.onward.reach_le) hstart rfl rfl
        rfl trivial (Node.made_plain rfl)
    · exact fun hread ts₀ hparams => append hparams hread

omit hbelow in
/-- A token that is an expression by itself. If it is a keyword, it makes the expression. -/
theorem reading_leaf {make : Token → Expr} {kind : TokenKind} (hkind : s.kind = kind)
    (hne : kind ≠ .eof) (herr : kind.isError = false)
    (hread : ∀ us, (make s.current).spelling true (s.current :: us) us)
    (hspan : (make s.current).span = s.current.span) (hparts : (make s.current).parts = [])
    (hcomposite : (Node.expr (make s.current)).isComposite)
    (hproper : (Node.expr (make s.current)).Proper (bytes c.source))
    (hword : ∀ w ∈ (make s.current).words, s.kind = .keyword w) :
    Reading c s (leaf make) (fun e us => e.spelling true s.rest us)
      fun e t => Passes c k s t [.expr e] := by
  unfold leaf
  refine .advance hkind hne herr fun htook => .pure ?_ fun hrest => hrest ▸ hread s.advance.rest
  refine htook.leaf hspan hparts hcomposite hproper ?_
  cases hwords : (make s.current).words with
  | nil => exact Node.made_plain hwords
  | cons w ws =>
    have hmem : w ∈ (make s.current).words := hwords ▸ List.mem_cons_self
    exact Node.made_word ⟨s.current, htook.mem, hword w hmem⟩ hmem rfl

omit hbelow in
/-- A malformed token stands for an expression, but not without a fault. -/
theorem reading_invalid {e : LexError} (hkind : s.kind = .error e) {Q : Expr → List Token → Prop} :
    Reading c s (do
        modify State.skip
        return .invalid s.current.span)
      Q fun e t => Passes c k s t [.expr e] := by
  intro hs
  have htook := took_skip hs (by simp [hkind])
  refine ⟨htook.onward, htook.leaf rfl rfl rfl trivial (Node.made_plain rfl), fun hclean => ?_⟩
  exact absurd hclean (hs.skip_listed (by simp [hkind, TokenKind.isError]))

theorem reads_nameOperand : ReadsExpr c k (nameOperand below) := by
  intro s
  unfold nameOperand
  refine .get ?_
  have hident : Reading c s ident (fun x us => name x s.rest us)
      fun x t => Passes c k s t [.name x] ∧ x.span = s.current.span := by
    unfold ident
    refine .bind (reading_expect (by simp) rfl) fun tok t h => ?_
    exact .pure ⟨h.1.name (.inl h.2), congrArg Token.span h.1.eq⟩ fun h => ⟨tok, h.1, h.2, rfl⟩
  refine .bind hident fun name t hname => ?_
  split
  · refine .mark fun _ u harrow => ?_
    refine (reading_arrowBody hbelow hname.2 (hname.1.onto harrow.onward)
      (hname.1.lt_reach.trans_le harrow.onward.reach_le)).mono
      (fun e us hread harrow hread' => ?_) fun _ _ h => h
    exact hread _ (append (inr (append_given rfl hread')) harrow)
  · exact .pure (hname.1.around rfl rfl rfl trivial (Node.made_plain rfl)) fun hread => hread

omit hbelow in
theorem reads_numberOperand : ReadsExpr c k numberOperand := by
  intro s
  unfold numberOperand
  refine .bind (reading_expect (by simp) rfl) fun tok t h => ?_
  split
  · next n hvalue =>
    exact .pure (h.1.leaf rfl rfl rfl trivial (Node.made_plain rfl))
      fun h => ⟨tok, h.1, h.2, hvalue⟩
  -- a number without a value is a fault, so nothing has to spell it
  · have hleaf : Passes c k s t [.expr (.invalid tok.span)] :=
      h.1.leaf rfl rfl rfl trivial (Node.made_plain rfl)
    refine .bind (reads_report (A := never) _ rfl rfl t) fun _ u hu => ?_
    exact .pure (hleaf.onto hu.onward) fun hnever => absurd hnever id

theorem reading_templateOperand (hkind : s.kind = .template) :
    Reading c s (templateOperand below) (fun e us => e.spelling true s.rest us)
      fun e t => Passes c k s t [.expr e] := by
  intro hs
  have htook := took_template hs hkind
  have herrors : s.advance.errors = s.errors := by
    rcases s.advance_cases with ⟨-, heq⟩ | ⟨rest, -, heq⟩ <;> rw [heq]
  have hexec : exec (templateOperand below) s =
      (some (.template s.current.span ((below.template s.current).run s.advance).1),
        ((below.template s.current).run s.advance).2) := rfl
  rw [hexec, hbelow.template, c.run_template, herrors]
  have hgrown := hbelow.sheet.grown htook.laid hkind htook.mem
  refine ⟨htook.onward, htook.node rfl (hbelow.sheet.inOrder htook.laid hkind) ?_ (by simp) trivial
    (hgrown.mono (List.Subset.refl _) (Nat.zero_le k)), fun hclean => ?_⟩
  · intro m hm
    obtain ⟨e, he, rfl⟩ := List.mem_map.1 hm
    exact hbelow.sheet.laid htook.laid hkind e he
  · have hspelled := hbelow.sheet.spelled htook.laid hkind (List.append_eq_nil_iff.1 hclean).2
    exact ⟨s.current, htook.rest, hkind, hspelled⟩

theorem reads_parenOperand : ReadsExpr c k (parenOperand below) := by
  intro s
  unfold parenOperand
  refine .get <| .mark fun start t hstart => ?_
  split
  · refine .bind (reads_params k t) fun ps u hps => .mark fun _ v hclose => .mark fun _ w harrow => ?_
    have hmoves := hclose.onward.trans harrow.onward
    refine (reading_arrowBody hbelow (congrArg Token.span hstart.eq)
      ((hps.after hstart.onward).onto hmoves) (hstart.lt_reach (hps.onward.trans hmoves))).mono
      (fun e us hread harrow hclose hparams hopen => ?_) fun _ _ h => h
    exact hread _ (append (inl (append (append hopen hparams) hclose)) harrow)
  · refine .bind (hbelow.expr 0 t) fun inner u hinner => .mark fun _ v hclose => ?_
    refine .spanFrom <| .pure ?_ fun hclose hread hopen => append (append hopen hread) hclose
    exact hstart.opens (hinner.onto hclose.onward) rfl rfl rfl trivial (Node.made_plain rfl)

theorem reads_arrayOperand : ReadsExpr c k (arrayOperand below) := by
  intro s
  unfold arrayOperand
  refine .mark fun start t hstart => ?_
  refine .bind (reads_items_node _ (reads_element hbelow) t) fun elements u helements => ?_
  refine .mark fun _ v hclose => .spanFrom <| .pure ?_ fun hclose hread hopen => ?_
  · exact hstart.opens (helements.onto hclose.onward) rfl rfl rfl trivial (Node.made_plain rfl)
  · rw [← elementsSpelling_eq] at hread
    exact append (append hopen hread) hclose

theorem reads_objectOperand : ReadsExpr c k (objectOperand below) := by
  intro s
  unfold objectOperand
  refine .mark fun start t hstart => ?_
  refine .bind (reading_items _ fun _ => reads_property hbelow) fun properties u hproperties => ?_
  refine .mark fun _ v hclose => .spanFrom <| .pure ?_ fun hclose hread hopen => ?_
  · exact hstart.opens (hproperties.1.onto hclose.onward) rfl rfl rfl hproperties.2
      (Node.made_plain rfl)
  · rw [← propertiesSpelling_eq] at hread
    exact append (append hopen hread) hclose

omit hbelow in
/-- The word of an operator before its operand makes the expression, if it is one. -/
theorem made_unary {source : List Char} {tokens : List Token} {tok : Token} (htok : tok ∈ tokens)
    {op : UnaryOp} (hkind : tok.kind = op.token) (span : Span) (e : Expr) :
    (Node.expr (.unary span op e)).Made source tokens k k := by
  cases op with
  | delete => exact Node.made_word ⟨tok, htok, hkind⟩ (by simp) rfl
  | _ => exact Node.made_plain rfl

theorem reads_prefixOperand : ReadsExpr c k (prefixOperand below) := by
  intro s
  unfold prefixOperand
  refine .get ?_
  split
  · next _ op hop =>
    have hkind := TokenKind.eq_token_of_unary? hop
    refine .advance hkind (by cases op <;> simp [UnaryOp.token]) (by cases op <;> rfl)
      fun htook => ?_
    refine .bind (hbelow.expr _ _) fun e t he => .spanFrom <| .pure ?_ fun hread hrest => ?_
    · exact htook.opens he rfl rfl rfl trivial (made_unary htook.mem hkind _ e)
    · exact append ⟨s.current, hrest, hkind⟩ hread
  · next op _ hop =>
    have hkind := TokenKind.eq_token_of_update? hop
    refine .advance hkind (by cases op <;> simp [UpdateOp.token]) (by cases op <;> rfl)
      fun htook => ?_
    refine .bind (hbelow.expr _ _) fun e t he => ?_
    refine .bind (reads_checkTarget e t) fun _ u hu => ?_
    refine .spanFrom <| .pure ?_ fun hcheck hread hrest => ?_
    · exact htook.opens (he.onto hu.onward) rfl rfl rfl trivial (Node.made_plain rfl)
    · exact append (append ⟨s.current, hrest, hkind⟩ hread) hcheck
  · exact fun hs => ⟨hs.reportFound rfl rfl, List.append_ne_nil_of_right_ne_nil _ (by simp)⟩

theorem reads_operand : ReadsExpr c k (operand below) := by
  intro s
  unfold operand
  refine .get ?_
  split
  · exact reads_nameOperand hbelow s
  · exact reads_numberOperand s
  · next h =>
    exact reading_leaf h (by simp) rfl (fun us => ⟨_, rfl, h, rfl⟩) rfl rfl rfl trivial (by simp)
  · next h =>
    exact reading_leaf h (by simp) rfl (fun us => ⟨_, rfl, h, by simp⟩) rfl rfl rfl trivial (by simp)
  · next h => exact reading_templateOperand hbelow h
  · next h =>
    exact reading_leaf h (by simp) rfl (fun us => ⟨_, rfl, h, by simp⟩) rfl rfl rfl trivial (by simp)
  · next h =>
    exact reading_leaf h (by simp) rfl (fun us => ⟨_, rfl, h⟩) rfl rfl rfl trivial (by simp [h])
  · next h =>
    exact reading_leaf h (by simp) rfl (fun us => ⟨_, rfl, h⟩) rfl rfl rfl trivial (by simp [h])
  · next h =>
    exact reading_leaf h (by simp) rfl (fun us => ⟨_, rfl, h⟩) rfl rfl rfl trivial (by simp [h])
  · next h =>
    exact reading_leaf h (by simp) rfl (fun us => ⟨_, rfl, h⟩) rfl rfl rfl trivial (by simp [h])
  · exact reads_parenOperand hbelow s
  · exact reads_arrayOperand hbelow s
  · exact reads_objectOperand hbelow s
  · refine (reads_function hbelow Expr.function Node.expr (fun _ _ _ _ => ?_) s).mono ?_
      fun _ _ h => h
    · exact ⟨rfl, rfl, rfl, trivial, by simp, rfl⟩
    · rintro e us ⟨span, name, ps, body, rfl, hread⟩
      exact hread
  · next h => exact reading_invalid h
  · exact reads_prefixOperand hbelow s

end

/-! ### Operators -/

/-- The operator that is read at a token is the one that the token stands for. -/
theorem State.operator?_kind {op : Infix} (h : s.operator? = some op) :
    s.kind.operator? = some op := by
  unfold State.operator? at h
  split at h
  · next hop =>
    split at h
    · simp at h
    · rw [hop, h]
  · exact h

theorem made_binary {source : List Char} {tokens : List Token} {op : BinaryOp}
    (hop : (Infix.binary op).OccursIn tokens) (span : Span) (lhs rhs : Expr) :
    (Node.expr (.binary span op lhs rhs)).Made source tokens k k := by
  cases op with
  | isIn => exact Node.made_word (hop rfl) (by simp) rfl
  | _ => exact Node.made_plain rfl

/-- What is known of reading what follows an expression, spelled by what is given: a node that starts
with it. -/
abbrev ReadsAfter (c : Sheet) (k : Nat) (s₀ s : State) (given : Spelling) (p : Parser Expr) : Prop :=
  Reading c s p (fun e us => ∀ ts₀, given ts₀ s.rest → e.spelling true ts₀ us)
    fun e t => Passes c k s₀ t [.expr e]

/-- An operator applied to the expression before it, after its token. -/
theorem reading_applied {l : Nat} {s₀ : State} (hbelow : below.Sound c k) (hkl : k ≤ l)
    {op : Infix} (hop : op.OccursIn s₀.rest) {lhs : Expr} (hlhs : Passes c l s₀ s [.expr lhs]) :
    ReadsAfter c l s₀ s (lhs.spelling true ++ op.spelling) (applied below op lhs) := by
  unfold applied
  have hexpr (power : Nat) (s : State) : Reading c s (below.expr power)
      (fun e us => e.spelling true s.rest us) fun e t => Passes c l s t [.expr e] :=
    (hbelow.expr power s).mono (fun _ _ h => h) fun _ _ he => he.mono hkl
  cases op with
  | assign op' =>
    refine .bind (reads_checkTarget lhs s) fun _ t ht => ?_
    refine .bind (hexpr _ t) fun value u hvalue => .spanFrom <| .pure ?_ ?_
    · exact ((hlhs.onto ht.onward).cons hvalue).nodeOnto rfl rfl rfl trivial (Node.made_plain rfl)
    · exact fun hread hcheck ts₀ hop => append (append hop hcheck) hread
  | conditional =>
    refine .bind (hexpr 0 s) fun yes t hyes => .mark fun _ u hcolon => ?_
    refine .bind (hexpr _ u) fun no v hno => .spanFrom <| .pure ?_ ?_
    · exact (hlhs.cons ((hyes.onto hcolon.onward).cons hno)).nodeOnto rfl rfl rfl trivial
        (Node.made_plain rfl)
    · exact fun hread hcolon hread' ts₀ hop => append (append (append hop hread') hcolon) hread
  | binary op' =>
    refine .bind (hexpr _ s) fun rhs t hrhs => .spanFrom <| .pure ?_ ?_
    · exact (hlhs.cons hrhs).nodeOnto rfl rfl rfl trivial (made_binary hop _ lhs rhs)
    · exact fun hread ts₀ hop => append hop hread
  | update op' =>
    refine .bind (reads_checkTarget lhs s) fun _ t ht => .spanFrom <| .pure ?_ ?_
    · exact (hlhs.onto ht.onward).nodeOnto rfl rfl rfl trivial (Node.made_plain rfl)
    · exact fun hcheck ts₀ hop => append hop hcheck
  | member optional =>
    refine .bind (reads_propertyName l s) fun x t hx => .spanFrom <| .pure ?_ ?_
    · exact (hlhs.cons hx).nodeOnto rfl rfl rfl trivial (Node.made_plain rfl)
    · exact fun hread ts₀ hop => append hop hread
  | call optional =>
    refine .bind (reads_items_node _ (reads_element hbelow) s) fun args t hargs => ?_
    refine .mark fun _ u hclose => .spanFrom <| .pure ?_ fun hclose hread ts₀ hop => ?_
    · exact (hlhs.cons ((hargs.mono hkl).onto hclose.onward)).nodeOnto rfl rfl rfl trivial
        (Node.made_plain rfl)
    · rw [← elementsSpelling_eq] at hread
      exact append (append hop hread) hclose
  | index optional =>
    refine .bind (hexpr 0 s) fun index t hindex => .mark fun _ u hclose => .spanFrom <| .pure ?_ ?_
    · exact (hlhs.cons (hindex.onto hclose.onward)).nodeOnto rfl rfl rfl trivial
        (Node.made_plain rfl)
    · exact fun hclose hread ts₀ hop => append (append hop hread) hclose

/-- An operator and what is read after it, or no operator. -/
theorem reading_withOperator {s₀ : State} (power : Nat) {lhs : Expr} {go : Infix → Parser Expr}
    (hlhs : Passes c k s₀ s [.expr lhs])
    (hgo : ∀ op t, op.OccursIn s₀.rest → Passes c k s₀ t [.expr lhs] →
      ReadsAfter c k s₀ t (lhs.spelling true ++ op.spelling) (go op)) :
    ReadsAfter c k s₀ s (lhs.spelling true) (withOperator power lhs go) := by
  unfold withOperator
  refine .get ?_
  split
  · exact .pure hlhs fun ts₀ h => h
  · next op hop =>
    split
    · exact .pure hlhs fun ts₀ h => h
    · have hkind := State.operator?_kind hop
      have htoken := TokenKind.token?_of_operator? hkind
      obtain ⟨hne, herr⟩ := TokenKind.wellFormed_of_operator? hkind
      refine .advance rfl hne herr fun htook => ?_
      -- the operator's token goes behind the spelling of its left side
      refine (hgo op s.advance ?_ (hlhs.onto htook.onward)).mono
        (fun e us hread hrest ts₀ hlhs => ?_) fun _ _ h => h
      · rintro rfl
        exact ⟨s.current, hlhs.onward.suffix.subset htook.mem, (Option.some.inj htoken).symm⟩
      · exact hread ts₀ (append hlhs ⟨s.current, hrest, htoken⟩)

end Parser

end ScriptCheck
