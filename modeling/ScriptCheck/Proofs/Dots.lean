import ScriptCheck.Proofs.ReadProgram

/-!
# Names behind dots

In a script without faults a name stands directly behind every dot, also in the interpolations of its
templates (`dotsNamed_parse`). For the tokens of such a script spell its program, and the only parts
of a program that are spelled with a dot are the members of objects. That holds of all spellings that
are put together from others for which it does (`Spelling.NamesDots`). On the way it is seen that
what can be spelled has no part that could not be read (`Spelling.Needs`). Each way to put spellings
together has a rule for both.
-/

namespace ScriptCheck

open Spelling

/-- Whether a token of a kind stands before the name of a property. -/
def TokenKind.isDot : TokenKind → Bool
  | .punct .dot | .punct .questionDot => true
  | _ => false

theorem TokenKind.isDot_of_name {k : TokenKind} (h : k = .label ∨ k.isKeyword) :
    k.isDot = false ∧ k ≠ .template := by
  cases k with
  | keyword | label => exact ⟨rfl, nofun⟩
  | _ => simp [isKeyword] at h

/-- Tokens with a name behind every dot, also in the interpolations of templates. The flag tells
whether a dot stands before them. -/
inductive DotsNamed : Bool → List Token → Prop
  | nil : DotsNamed false []
  | cons {afterDot : Bool} {t : Token} {ts : List Token}
    (hname : afterDot = true → t.kind = .label ∨ t.kind.isKeyword)
    (hinner : t.kind = .template → ∀ e ∈ t.interpolations,
      DotsNamed false (tokensFrom .normal .none e.lo e.text))
    (h : DotsNamed t.kind.isDot ts) : DotsNamed afterDot (t :: ts)

theorem dotsNamed_cons_iff {afterDot : Bool} {t : Token} {ts : List Token} :
    DotsNamed afterDot (t :: ts) ↔ (afterDot = true → t.kind = .label ∨ t.kind.isKeyword) ∧
      (t.kind = .template → ∀ e ∈ t.interpolations,
        DotsNamed false (tokensFrom .normal .none e.lo e.text)) ∧ DotsNamed t.kind.isDot ts := by
  constructor
  · rintro ⟨⟩
    exact ⟨‹_›, ‹_›, ‹_›⟩
  · rintro ⟨hname, hinner, h⟩
    exact .cons hname hinner h

theorem DotsNamed.append {afterDot : Bool} {ts us : List Token} (h : DotsNamed afterDot ts)
    (h' : DotsNamed false us) : DotsNamed afterDot (ts ++ us) := by
  induction h with
  | nil => exact h'
  | cons hname hinner _ _ ih => exact .cons hname hinner ih

/-- A token that is neither a dot nor a template. -/
theorem dotsNamed_singleton {t : Token} (hdot : t.kind.isDot = false) (hkind : t.kind ≠ .template) :
    DotsNamed false [t] :=
  .cons nofun (fun h => absurd h hkind) (hdot ▸ .nil)

/-- The end of a text is no dot. -/
theorem DotsNamed.tokensFrom {mode : LexMode} {before : Preceding} {lo : Nat} {cs : List Char}
    (h : DotsNamed false (tokensFrom mode before lo cs).dropLast) :
    DotsNamed false (tokensFrom mode before lo cs) := by
  obtain ⟨body, gap, heq, -⟩ := tokensFrom_eq_append mode before lo cs
  rw [heq, List.dropLast_concat] at h
  rw [heq]
  exact h.append (dotsNamed_singleton rfl nofun)

/-! ### Spellings with a name behind every dot -/

namespace Spelling

/-- A part is spelled by tokens with a name behind every dot only. -/
def NamesDots (A : Spelling) : Prop :=
  ∀ ts us, A ts us → ∃ cs, ts = cs ++ us ∧ DotsNamed false cs

/-- A part can be spelled only if it has a property. -/
def Needs (A : Spelling) (P : Prop) : Prop := ∀ ts us, A ts us → P

/-- A part with a property is spelled by tokens with a name behind every dot, and no other part. -/
abbrev Dotted (A : Spelling) (P : Prop) : Prop := A.NamesDots ∧ A.Needs P

variable {A B C : Spelling} {P Q : Prop}

@[simp, grind .]
theorem needs_true : A.Needs True := fun _ _ _ => trivial

@[simp]
theorem needs_and : A.Needs (P ∧ Q) ↔ A.Needs P ∧ A.Needs Q :=
  ⟨fun h => ⟨fun ts us hts => (h ts us hts).1, fun ts us hts => (h ts us hts).2⟩,
    fun h ts us hts => ⟨h.1 ts us hts, h.2 ts us hts⟩⟩

@[grind .]
theorem namesDots_nothing : NamesDots nothing := fun _ _ h => ⟨[], h, .nil⟩

theorem dotted_nothing (h : P) : nothing.Dotted P := ⟨namesDots_nothing, fun _ _ _ => h⟩

@[grind .]
theorem namesDots_never : NamesDots never := nofun

@[grind .]
theorem needs_never : never.Needs P := nofun

@[grind .]
theorem namesDots_given (R : Prop) : NamesDots (given R) := fun _ _ h => ⟨[], h.2, .nil⟩

@[grind .]
theorem NamesDots.append (hA : A.NamesDots) (hB : B.NamesDots) : (A ++ B).NamesDots := by
  rintro ts us ⟨vs, h, h'⟩
  obtain ⟨cs, rfl, hcs⟩ := hA _ _ h
  obtain ⟨ds, rfl, hds⟩ := hB _ _ h'
  exact ⟨cs ++ ds, by rw [List.append_assoc], hcs.append hds⟩

-- a long spelling is taken apart in steps of two
@[grind .]
theorem NamesDots.append_append (hA : A.NamesDots) (hB : B.NamesDots) (hC : C.NamesDots) :
    (A ++ B ++ C).NamesDots :=
  (hA.append hB).append hC

@[grind .]
theorem Needs.left (hA : A.Needs P) (B : Spelling) : (A ++ B).Needs P :=
  fun _ _ ⟨_, h, _⟩ => hA _ _ h

@[grind .]
theorem Needs.left_left (hA : A.Needs P) (B C : Spelling) : (A ++ B ++ C).Needs P :=
  (hA.left B).left C

@[grind .]
theorem Needs.right (hB : B.Needs P) (A : Spelling) : (A ++ B).Needs P :=
  fun _ _ ⟨_, _, h⟩ => hB _ _ h

@[grind .]
theorem NamesDots.union (hA : A.NamesDots) (hB : B.NamesDots) : (A ∪ B).NamesDots :=
  fun ts us h => h.elim (hA ts us) (hB ts us)

@[grind .]
theorem Needs.union (hA : A.Needs P) (hB : B.Needs P) : (A ∪ B).Needs P :=
  fun ts us h => h.elim (hA ts us) (hB ts us)

theorem namesDots_one {R : Token → Prop}
    (h : ∀ t, R t → t.kind.isDot = false ∧ t.kind ≠ .template) : NamesDots (one R) := by
  rintro _ us ⟨t, rfl, ht⟩
  exact ⟨[t], rfl, dotsNamed_singleton (h t ht).1 (h t ht).2⟩

theorem namesDots_kind {k : TokenKind} (hdot : k.isDot = false) (hk : k ≠ .template) :
    NamesDots (kind k) :=
  namesDots_one fun _ ht => ht ▸ ⟨hdot, hk⟩

@[grind .]
theorem namesDots_mark {p : Punct} (hdot : p ≠ .dot) (hdot' : p ≠ .questionDot) :
    NamesDots (mark p) :=
  namesDots_kind (by cases p <;> first | rfl | contradiction) nofun

@[grind .]
theorem namesDots_word (k : Keyword) : NamesDots (word k) := namesDots_kind rfl nofun

@[grind .]
theorem namesDots_propertyName (x : Ident) : NamesDots (propertyName x) :=
  namesDots_one fun _ ht => TokenKind.isDot_of_name ht.1

@[grind .]
theorem namesDots_name (x : Ident) : NamesDots (name x) :=
  namesDots_one fun _ ht => TokenKind.isDot_of_name (.inl ht.1)

@[grind .]
theorem namesDots_contextual (w : String) : NamesDots (contextual w) :=
  namesDots_one fun _ ht => TokenKind.isDot_of_name (.inl ht.1)

@[grind .]
theorem namesDots_text (lit : TextLit) : NamesDots (text lit) :=
  namesDots_one fun t ht => by simp [ht.1, TokenKind.isDot]

@[grind .]
theorem namesDots_perhaps {α : Type} {f : α → Spelling} {o : Option α}
    (h : ∀ a, (f a).NamesDots) : NamesDots (perhaps f o) := by
  cases o with
  | none => exact namesDots_nothing
  | some a => exact h a

@[grind .]
theorem namesDots_terminator : NamesDots terminator :=
  (namesDots_kind (k := .punct .semicolon) rfl nofun).union fun _ _ h => ⟨[], h.1, .nil⟩

@[grind .]
theorem NamesDots.item (hA : A.NamesDots) (hB : B.NamesDots) (isLast : Bool) :
    NamesDots (item A isLast B) := by
  grind [Spelling.item]

@[grind .]
theorem Needs.item (hA : A.Needs P) (isLast : Bool) (B : Spelling) :
    (Spelling.item A isLast B).Needs P :=
  (hA.left_left _ _).union (hA.right _)

@[grind .]
theorem Needs.items (hB : B.Needs P) {isLast : Bool} (hlast : isLast = true → P) :
    (Spelling.item A isLast B).Needs P := by
  refine (hB.right _).union ?_
  rintro ts us ⟨_, ⟨h, -⟩, -⟩
  exact hlast h

@[grind .]
theorem namesDots_separated {α : Type} {f : α → Spelling} (h : ∀ a, (f a).NamesDots)
    (as : List α) : NamesDots (separated f as) := by
  induction as with
  | nil => exact namesDots_nothing
  | cons a as ih => exact (h a).item ih _

/-- A token of an operator is no dot, unless it takes a property. -/
@[grind .]
theorem namesDots_operator (op : Infix) (h : ∀ optional, op ≠ .member optional) :
    NamesDots op.spelling := by
  refine namesDots_one fun t ht => ?_
  cases op with
  | assign op =>
    cases op with
    | assign => exact Option.some.inj ht ▸ ⟨rfl, nofun⟩
    | compound op => cases op <;> first | cases ht | exact Option.some.inj ht ▸ ⟨rfl, nofun⟩
  | binary op | update op => cases op <;> exact Option.some.inj ht ▸ ⟨rfl, nofun⟩
  | conditional => exact Option.some.inj ht ▸ ⟨rfl, nofun⟩
  | call optional | index optional => cases optional <;> exact Option.some.inj ht ▸ ⟨rfl, nofun⟩
  | member optional => exact absurd rfl (h optional)

/-- A part that is spelled by all tokens of a text. -/
theorem NamesDots.whole (hA : A.NamesDots) {mode : LexMode} {lo : Nat} {cs : List Char}
    (h : A (tokensFrom mode .none lo cs).dropLast []) :
    DotsNamed false (tokensFrom mode .none lo cs) := by
  obtain ⟨ts, heq, hts⟩ := hA _ _ h
  rw [List.append_nil] at heq
  exact .tokensFrom (heq ▸ hts)

/-- A property is named behind its dot. -/
@[grind .]
theorem NamesDots.member (hA : A.NamesDots) (optional : Bool) (x : Ident) :
    (A ++ (Infix.member optional).spelling ++ propertyName x).NamesDots := by
  rintro ts us ⟨vs, ⟨ws, h, t, rfl, ht⟩, u, rfl, hname, -⟩
  obtain ⟨cs, rfl, hcs⟩ := hA _ _ h
  have hdot : t.kind ≠ .template := by
    rintro heq
    rw [heq] at ht
    cases ht
  refine ⟨cs ++ [t, u], by simp, hcs.append (.cons nofun (fun h => absurd h hdot) ?_)⟩
  obtain ⟨hu, htemplate⟩ := TokenKind.isDot_of_name hname
  exact .cons (fun _ => hname) (fun h => absurd h htemplate) (hu ▸ .nil)

/-! ### Parts of programs -/

@[grind .]
theorem namesDots_unary (op : UnaryOp) : NamesDots (kind op.token) :=
  namesDots_kind (by cases op <;> rfl) (by cases op <;> nofun)

@[grind .]
theorem namesDots_update (op : UpdateOp) : NamesDots (kind op.token) :=
  namesDots_kind (by cases op <;> rfl) (by cases op <;> nofun)

@[grind .]
theorem NamesDots.paren (hA : A.NamesDots) : (parenSpelling A).NamesDots := by
  grind [parenSpelling]

@[grind .]
theorem Needs.paren (hA : A.Needs P) : (parenSpelling A).Needs P := (hA.right _).left _

@[grind .]
theorem NamesDots.block (hA : A.NamesDots) : (blockSpelling A).NamesDots := by
  grind [blockSpelling]

@[grind .]
theorem Needs.block (hA : A.Needs P) : (blockSpelling A).Needs P := (hA.right _).left _

@[grind .]
theorem namesDots_params (ps : List Param) : (paramListSpelling ps).NamesDots := by
  have hparam (p : Param) : p.spelling.NamesDots := by grind [Param.spelling]
  grind [paramListSpelling, paramsSpelling]

@[grind .]
theorem namesDots_arrow (ps : List Param) : (arrowSpelling ps).NamesDots := by
  unfold arrowSpelling
  grind

@[grind .]
theorem NamesDots.function (hA : A.NamesDots) (fname : Option Ident) (ps : List Param) :
    (functionSpelling (perhaps name fname) ps (functionBodySpelling A)).NamesDots := by
  grind [functionSpelling, functionBodySpelling]

@[grind .]
theorem Needs.function (hA : A.Needs P) (ps : List Param) (fname : Spelling) :
    (functionSpelling fname ps (functionBodySpelling A)).Needs P :=
  .right (hA.block.union ((hA.right _).left _)) _

@[grind .]
theorem namesDots_key (key : PropertyName) : key.spelling.NamesDots := by
  cases key with
  | word x => exact namesDots_propertyName x
  | text lit => exact namesDots_text lit
  | number lit =>
    refine namesDots_one fun t ht => ?_
    rcases ht.1 with hkind | hkind <;> simp [hkind, TokenKind.isDot]

@[grind .]
theorem namesDots_specs {α : Type} {f : α → Spelling} (h : ∀ a, (f a).NamesDots)
    (specs : List α) : (specsSpelling f specs).NamesDots := by
  grind [specsSpelling]

@[grind .]
theorem namesDots_importClause {braces : Bool} (specs : List ImportSpec) :
    (importClauseSpelling braces specs).NamesDots := by
  have hspec (spec : ImportSpec) : spec.spelling.NamesDots := by
    cases spec <;> grind [ImportSpec.spelling, aliasSpelling]
  have hspecs (specs : List ImportSpec) : (importSpecsSpelling specs).NamesDots := by
    unfold importSpecsSpelling
    grind
  unfold importClauseSpelling
  split <;> grind

@[grind .]
theorem namesDots_exportSpec (spec : ExportSpec) : spec.spelling.NamesDots := by
  grind [ExportSpec.spelling, aliasSpelling]

end Spelling

/-! ### Regions of what could be read -/

@[simp]
theorem part_allRead (span : Span) : allRead.part span = True := rfl

@[simp]
theorem PropertyName.regions_allRead (key : PropertyName) : key.Regions allRead := by
  cases key <;> trivial

@[simp]
theorem ImportSpec.regions_allRead (spec : ImportSpec) : spec.Regions allRead := by
  cases spec with
  | named => exact ⟨trivial, fun _ _ => trivial⟩
  | default | namespaceOf => trivial

@[grind .]
theorem exprsRegions_of_isEmpty {es : List Expr} (h : es.isEmpty = true) :
    exprsRegions allRead es :=
  List.isEmpty_iff.1 h ▸ trivial

@[grind .]
theorem propertiesRegions_of_isEmpty {ps : List Property} (h : ps.isEmpty = true) :
    propertiesRegions allRead ps :=
  List.isEmpty_iff.1 h ▸ trivial

/-! ### Statements and expressions -/

section

open List

variable {braces : Bool}

@[grind .]
theorem dotted_declarators {kind : DeclKind} {ds : List Declarator}
    (h : ∀ d ∈ ds, ∀ kind, (d.spelling braces kind).Dotted (d.Regions allRead)) :
    (declaratorsSpelling braces kind ds).Dotted (declaratorsRegions allRead ds) := by
  induction ds with
  | nil => exact ⟨namesDots_never, needs_never⟩
  | cons d rest ih =>
    obtain ⟨hd, hrest⟩ := forall_mem_cons.1 h
    have ih := ih hrest
    cases rest <;> simp only [declaratorsSpelling, declaratorsRegions, Dotted, needs_and] at ih ⊢ <;>
      grind

/-- Both parts of a case, the test if there is one and the body. -/
def SwitchCase.Dotted (braces : Bool) : SwitchCase → Prop
  | .mk _ test body => (optionSpelling braces test).Dotted (optionRegions allRead test) ∧
    (stmtsSpelling braces body).Dotted (stmtsRegions allRead body)

@[grind .]
theorem dotted_cases {cs : List SwitchCase} (h : ∀ c ∈ cs, c.Dotted braces) (hasDefault : Bool) :
    (casesSpelling braces hasDefault cs).Dotted (casesRegions allRead cs) := by
  induction cs generalizing hasDefault with
  | nil => exact dotted_nothing trivial
  | cons c rest ih =>
    obtain ⟨hc, hrest⟩ := forall_mem_cons.1 h
    have ih := ih hrest
    rcases c with ⟨span, _ | test, body⟩ <;>
      simp [SwitchCase.Dotted, casesSpelling, casesRegions, optionSpelling, optionRegions,
        SwitchCase.Regions, Dotted] at hc ih ⊢ <;>
      grind

theorem dotted_template {parts : List Expr}
    (h : ∀ e ∈ parts, (e.spelling braces).Dotted (e.Regions allRead)) :
    Dotted (one fun t => t.kind = .template ∧ partsSpelled braces parts t.interpolations)
      (exprsRegions allRead parts) := by
  have hparts : ∀ es, partsSpelled braces parts es →
      (∀ e ∈ es, DotsNamed false (tokensFrom .normal .none e.lo e.text)) ∧
        exprsRegions allRead parts := by
    induction parts with
    | nil =>
      rintro (_ | _) hspelled
      · exact ⟨nofun, trivial⟩
      · exact absurd hspelled id
    | cons part parts ih =>
      obtain ⟨⟨hpart, hneeds⟩, h⟩ := forall_mem_cons.1 h
      rintro (_ | ⟨e, es⟩) hspelled
      · exact absurd hspelled id
      · obtain ⟨hdots, hread⟩ := ih h es hspelled.2
        exact ⟨forall_mem_cons.2 ⟨hpart.whole hspelled.1, hdots⟩, hneeds _ _ hspelled.1, hread⟩
  refine ⟨?_, fun _ _ ⟨_, _, _, h⟩ => (hparts _ h).2⟩
  rintro _ us ⟨t, rfl, hkind, hspelled⟩
  refine ⟨[t], rfl, .cons nofun (fun _ => (hparts _ hspelled).1) ?_⟩
  rw [hkind]
  exact .nil

/-- All spellings of a statement: alone, after a colon, as a further test, in an export and at the
start of a `for`. -/
@[grind]
def Stmt.Dotted (braces : Bool) (s : Stmt) : Prop :=
  (s.spelling braces).Dotted (s.Regions allRead) ∧
    (s.colonSpelling braces).Dotted (s.Regions allRead) ∧
    (s.branchSpelling braces).Dotted (s.Regions allRead) ∧
    (s.exportSpelling braces).Dotted (s.Regions allRead) ∧
    (initSpelling braces (some s)).Dotted (s.Regions allRead)

attribute [local simp] Spelling.Dotted SwitchCase.Dotted Stmt.Dotted Stmt.spelling
  Stmt.colonSpelling Stmt.branchSpelling Stmt.exportSpelling elseSpelling alternativeSpelling
  stmtsSpelling Declarator.spelling initialSpelling optionSpelling Expr.spelling elementsSpelling
  elementsSpelling_cons Property.spelling propertiesSpelling Stmt.Regions stmtOptionRegions
  stmtsRegions Declarator.Regions optionRegions Expr.Regions exprsRegions Property.Regions
  propertiesRegions paramsRegions ExportSpec.Regions

theorem Stmt.dotted (s : Stmt) : s.Dotted braces := by
  apply @Stmt.rec (Stmt.Dotted braces)
    (fun d => ∀ kind, (d.spelling braces kind).Dotted (d.Regions allRead))
    (SwitchCase.Dotted braces)
    (fun e => (e.spelling braces).Dotted (e.Regions allRead) ∧
      (e.elementSpelling braces).Dotted (e.Regions allRead))
    (fun p => (p.spelling braces).Dotted (p.Regions allRead))
    (fun ds => ∀ d ∈ ds, ∀ kind, (d.spelling braces kind).Dotted (d.Regions allRead))
    (fun ss => (stmtsSpelling braces ss).Dotted (stmtsRegions allRead ss))
    (fun o => (elseSpelling braces o).Dotted (stmtOptionRegions allRead o) ∧
      (alternativeSpelling braces o).Dotted (stmtOptionRegions allRead o) ∧
      (initSpelling braces o).Dotted (stmtOptionRegions allRead o))
    (fun o => (optionSpelling braces o).Dotted (optionRegions allRead o) ∧
      (initialSpelling braces o).Dotted (optionRegions allRead o))
    (fun cs => ∀ c ∈ cs, c.Dotted braces)
    (fun es => (elementsSpelling braces es).Dotted (exprsRegions allRead es) ∧
      ∀ e ∈ es, (e.spelling braces).Dotted (e.Regions allRead))
    (fun ps => (propertiesSpelling braces ps).Dotted (propertiesRegions allRead ps))
  case int | double | string | regexp =>
    intros
    simp only [and_self, Expr.spelling, Expr.elementSpelling]
    refine ⟨namesDots_one fun t ht => ?_, by simp⟩
    simp [ht.1, TokenKind.isDot]
  case template =>
    rintro _ parts ⟨-, ih⟩
    simpa [Expr.elementSpelling] using dotted_template ih
  case update =>
    intro _ _ before _ _
    cases before <;> simp [Expr.elementSpelling] <;> grind
  all_goals
    intros
    first
      | simp; grind
      | simp [Expr.elementSpelling, initSpelling]; grind
      | grind

theorem dotted_stmts (ss : List Stmt) :
    (stmtsSpelling braces ss).Dotted (stmtsRegions allRead ss) := by
  induction ss with
  | nil => exact dotted_nothing trivial
  | cons s rest ih =>
    obtain ⟨⟨hdots, hneeds⟩, -⟩ : s.Dotted braces := s.dotted
    exact ⟨hdots.append ih.1, needs_and.2 ⟨hneeds.left _, ih.2.right _⟩⟩

end

/-! ### Scripts -/

/-- In a script without faults a name stands behind every dot. -/
theorem dotsNamed_parse {mode : LexMode} {source : List Char}
    (hclean : (parse mode source).errors = []) : DotsNamed false (tokenize mode source) := by
  have hspelled := (Parser.got_readScript mode source).reads hclean
  rw [Parser.rest_readScript] at hspelled
  exact (dotted_stmts _).1.whole hspelled

end ScriptCheck
