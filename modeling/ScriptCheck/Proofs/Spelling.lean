import Mathlib.Logic.Relation
import ScriptCheck.Grammar.Program

/-!
# How trees are spelled

The grammar, read from the tree: `Stmt.spelling` and `Expr.spelling` say of which tokens a statement
or an expression can be made. They recurse on the tree and name every token of it in order, by its
kind, a name by its text and a literal by its value. What is left open is only how a statement ends
(`terminator`), a comma after the last item of a list (`separated`), braces or a colon and a closing
word around a body, parentheses around a single parameter of an arrow function and, where `braces`
allows it, empty braces after the default name of an import.

A `Spelling` relates the tokens from the first one of a part on to the tokens that follow the part.
-/

namespace ScriptCheck

/-! ### Spellings -/

/-- Relates the tokens at which a part starts to the tokens left after it. -/
def Spelling : Type := List Token → List Token → Prop

namespace Spelling

variable {B : Spelling}

/-- No token. -/
def nothing : Spelling := fun ts us => ts = us

/-- What cannot be spelled. -/
def never : Spelling := fun _ _ => False

/-- One spelling after another. -/
instance : Append Spelling := ⟨Relation.Comp⟩

/-- Either of two spellings. -/
instance : Union Spelling := ⟨fun A B ts us => A ts us ∨ B ts us⟩

variable {A : Spelling} {ts us : List Token}

theorem append {vs : List Token} (h : A ts us) (h' : B us vs) : (A ++ B) ts vs :=
  ⟨us, h, h'⟩

theorem inl (h : A ts us) : (A ∪ B) ts us := Or.inl h

theorem inr (h : B ts us) : (A ∪ B) ts us := Or.inr h

/-- No token, where a condition holds. -/
def given (P : Prop) : Spelling := fun ts us => P ∧ ts = us

theorem given_of {P Q : Prop} (h : given P ts us) (hPQ : P → Q) : given Q ts us :=
  ⟨hPQ h.1, h.2⟩

theorem append_given {P : Prop} (hP : P) (h : A ts us) : (given P ++ A) ts us :=
  ⟨ts, ⟨hP, rfl⟩, h⟩

theorem of_append_nothing (h : (A ++ nothing) ts us) : A ts us := by
  obtain ⟨_, h, rfl⟩ := h
  exact h

/-- One token with some property. -/
def one (P : Token → Prop) : Spelling := fun ts us => ∃ t, ts = t :: us ∧ P t

/-- A token of a kind. -/
def kind (k : TokenKind) : Spelling := one (·.kind = k)

/-- A mark. -/
def mark (p : Punct) : Spelling := kind (.punct p)

/-- A keyword. -/
def word (k : Keyword) : Spelling := kind (.keyword k)

/-- A name. -/
def name (x : Ident) : Spelling := one fun t => t.kind = .label ∧ x = t.ident

/-- A name that may also be a keyword. -/
def propertyName (x : Ident) : Spelling :=
  one fun t => (t.kind = .label ∨ t.kind.isKeyword) ∧ x = t.ident

/-- A name that is spelled in a certain way. -/
def contextual (w : String) : Spelling := one fun t => t.kind = .label ∧ t.text = w.toList

/-- A string literal. -/
def text (lit : TextLit) : Spelling :=
  one fun t => t.kind = .string ∧ lit.value.toList = stringValue t.text

/-- What may be missing. -/
def perhaps {α : Type} (f : α → Spelling) (o : Option α) : Spelling := o.elim nothing f

/-- What may be missing, together with the token that announces it. -/
theorem perhaps_of_announced {α : Type} {f : α → Spelling} {b : Bool} {o : Option α}
    {vs : List Token} (h : (if b then A else nothing) ts us)
    (h' : (given (o.isSome = b) ++ perhaps f o) us vs) : perhaps (fun a => A ++ f a) o ts vs := by
  obtain ⟨ws, ⟨hb, rfl⟩, ho⟩ := h'
  subst hb
  cases o with
  | none => exact Eq.trans h ho
  | some a => exact ⟨us, h, ho⟩

/-- The semicolon that ends a statement, or nothing before a token that closes the block. -/
def terminator : Spelling :=
  mark .semicolon ∪ fun ts us => ts = us ∧ us.head?.all (·.kind.closesBlock)

/-- An item of a list and what follows it: a comma and further items, or nothing after the last
one. -/
def item (first : Spelling) (isLast : Bool) (further : Spelling) : Spelling :=
  (first ++ mark .comma ++ further) ∪ (given (isLast = true) ++ first)

/-- Items separated by commas. A comma may follow the last one. -/
def separated {α : Type} (f : α → Spelling) : List α → Spelling
  | [] => nothing
  | a :: rest => item (f a) rest.isEmpty (separated f rest)

end Spelling

open Spelling

/-! ### Operators -/

/-- The token of a prefix operator. -/
def UnaryOp.token : UnaryOp → TokenKind
  | .neg => .punct .minus
  | .plus => .punct .plus
  | .not => .punct .bang
  | .bitNot => .punct .tilde
  | .delete => .keyword .deleteKw

/-- The token of an update. -/
def UpdateOp.token : UpdateOp → TokenKind
  | .increment => .punct .plusPlus
  | .decrement => .punct .minusMinus

/-- The token of a binary operator. -/
def BinaryOp.token : BinaryOp → TokenKind
  | .add => .punct .plus
  | .sub => .punct .minus
  | .mul => .punct .star
  | .div => .punct .slash
  | .mod => .punct .percent
  | .exp => .punct .starStar
  | .eq => .punct .eqEq
  | .ne => .punct .bangEq
  | .strictEq => .punct .eqEqEq
  | .strictNe => .punct .bangEqEq
  | .lt => .punct .less
  | .le => .punct .lessEq
  | .gt => .punct .greater
  | .ge => .punct .greaterEq
  | .isIn => .keyword .inKw
  | .bitAnd => .punct .amp
  | .bitOr => .punct .pipe
  | .bitXor => .punct .caret
  | .shl => .punct .shl
  | .shr => .punct .shr
  | .and => .punct .ampAmp
  | .or => .punct .pipePipe
  | .nullish => .punct .questionQuestion

/-- The mark of an assignment after an operation; comparisons have none. -/
def BinaryOp.assignMark? : BinaryOp → Option Punct
  | .add => some .plusAssign
  | .sub => some .minusAssign
  | .mul => some .starAssign
  | .div => some .slashAssign
  | .mod => some .percentAssign
  | .exp => some .starStarAssign
  | .bitAnd => some .ampAssign
  | .bitOr => some .pipeAssign
  | .bitXor => some .caretAssign
  | .shl => some .shlAssign
  | .shr => some .shrAssign
  | .and => some .ampAmpAssign
  | .or => some .pipePipeAssign
  | .nullish => some .questionQuestionAssign
  | _ => none

/-- The mark of an assignment. -/
def AssignOp.mark? : AssignOp → Option Punct
  | .assign => some .assign
  | .compound op => op.assignMark?

/-- The token of what follows an expression. -/
def Infix.token? : Infix → Option TokenKind
  | .assign op => op.mark?.map .punct
  | .conditional => some (.punct .question)
  | .binary op => some op.token
  | .update op => some op.token
  | .member optional => some (.punct (if optional then .questionDot else .dot))
  | .call optional => some (.punct (if optional then .questionParen else .lparen))
  | .index optional => some (.punct (if optional then .questionBrack else .lbrack))

/-- The token of what follows an expression. -/
def Infix.spelling (op : Infix) : Spelling := one fun t => op.token? = some t.kind

variable {k : TokenKind} {ts us : List Token}

/-- An operator is read from its own token only. -/
theorem TokenKind.token?_of_operator? {op : Infix} (h : k.operator? = some op) :
    op.token? = some k := by
  cases k with
  | punct p => cases p <;> cases h <;> rfl
  | keyword w =>
    cases w <;> cases h
    rfl
  | _ => cases h

/-- The token of an operator is neither the end nor malformed. -/
theorem TokenKind.wellFormed_of_operator? {op : Infix} (h : k.operator? = some op) :
    k ≠ .eof ∧ k.isError = false := by
  cases k <;> simp_all [operator?, isError]

theorem TokenKind.eq_token_of_unary? {op : UnaryOp} (h : k.unary? = some op) : k = op.token := by
  cases k with
  | punct p => cases p <;> cases h <;> rfl
  | keyword w =>
    cases w <;> cases h
    rfl
  | _ => cases h

theorem TokenKind.eq_token_of_update? {op : UpdateOp} (h : k.update? = some op) : k = op.token := by
  cases k with
  | punct p => cases p <;> cases h <;> rfl
  | _ => cases h

/-! ### Parts without statements and expressions -/

/-- A parameter. -/
def Param.spelling (p : Param) : Spelling :=
  (if p.rest then mark .ellipsis else nothing) ++ Spelling.name p.name

/-- Parameters. Only the last one may take all remaining arguments. -/
def paramsSpelling (ps : List Param) : Spelling :=
  separated Param.spelling ps ++ given (∀ p ∈ ps.dropLast, p.rest = false)

/-- Parameters in parentheses. -/
def paramListSpelling (ps : List Param) : Spelling :=
  mark .lparen ++ paramsSpelling ps ++ mark .rparen

/-- The parameters of an arrow function. A single one needs no parentheses. -/
def arrowSpelling (ps : List Param) : Spelling :=
  (paramListSpelling ps ∪
    match ps with
    | [p] => given (p.rest = false) ++ name p.name
    | _ => never) ++ mark .arrow

/-- A key of an object that needs no evaluation. -/
def PropertyName.spelling : PropertyName → Spelling
  | .word x => Spelling.propertyName x
  | .text lit => Spelling.text lit
  | .number lit => one fun t => (t.kind = .number ∨ t.kind = .double) ∧ lit.value = t.word

/-- A name, and the name that takes its place. -/
def aliasSpelling (second : Ident → Spelling) (x : Ident) (newName : Option Ident) : Spelling :=
  Spelling.propertyName x ++ perhaps (fun y => contextual "as" ++ second y) newName

/-- Names in braces. -/
def specsSpelling {α : Type} (f : α → Spelling) (specs : List α) : Spelling :=
  mark .lbrace ++ separated f specs ++ mark .rbrace

/-- A name of an import in braces. -/
def ImportSpec.spelling : ImportSpec → Spelling
  | .named x newName => aliasSpelling name x newName
  | _ => never

/-- All names of a module under one name, or names in braces. -/
def importSpecsSpelling : List ImportSpec → Spelling
  | [.namespaceOf x] => mark .star ++ contextual "as" ++ name x
  | specs => specsSpelling ImportSpec.spelling specs

/-- The names that an import binds. Braces without a name after the default one leave no trace in
the tree; `braces` tells whether they are allowed. -/
def importClauseSpelling (braces : Bool) : List ImportSpec → Spelling
  | [.default x] =>
    name x ++ (nothing ∪ (given (braces = true) ++ mark .comma ++ importSpecsSpelling []))
  | .default x :: specs => name x ++ mark .comma ++ importSpecsSpelling specs
  | specs => importSpecsSpelling specs

/-- Names in braces are a spelling of what an import binds. -/
theorem importSpecsSpelling_of_specs {specs : List ImportSpec}
    (h : specsSpelling ImportSpec.spelling specs ts us) : importSpecsSpelling specs ts us := by
  unfold importSpecsSpelling
  split
  · obtain ⟨_, ⟨_, -, hitem⟩, -⟩ := h
    rcases hitem with ⟨_, ⟨_, hnever, -⟩, -⟩ | ⟨_, -, hnever⟩ <;> exact absurd hnever id
  · exact h

/-- What an import binds without a default name is spelled in the same way with one allowed. -/
theorem importClauseSpelling_of_specs {braces : Bool} {specs : List ImportSpec}
    (h : importSpecsSpelling specs ts us) : importClauseSpelling braces specs ts us := by
  rcases specs with _ | ⟨spec, rest⟩
  · exact h
  · cases spec with
    | default x =>
      obtain ⟨_, ⟨_, -, hitem⟩, -⟩ := h
      rcases hitem with ⟨_, ⟨_, hnever, -⟩, -⟩ | ⟨_, -, hnever⟩ <;> exact absurd hnever id
    | named | namespaceOf => exact h

/-- A name of an export in braces. -/
def ExportSpec.spelling (spec : ExportSpec) : Spelling :=
  aliasSpelling Spelling.propertyName spec.name spec.exported

/-! ### Statements and expressions -/

/-- An expression in parentheses. -/
def parenSpelling (e : Spelling) : Spelling := mark .lparen ++ e ++ mark .rparen

/-- A function up to its body. -/
def functionSpelling (name : Spelling) (ps : List Param) (body : Spelling) : Spelling :=
  word .functionKw ++ name ++ paramListSpelling ps ++ body

/-- Statements in braces. -/
def blockSpelling (body : Spelling) : Spelling := mark .lbrace ++ body ++ mark .rbrace

/-- The body of a function, in braces or between a colon and `endfunction`. -/
def functionBodySpelling (body : Spelling) : Spelling :=
  blockSpelling body ∪ (mark .colon ++ body ++ word .endfunctionKw)

mutual

/-- How a statement is spelled. -/
def Stmt.spelling (braces : Bool) : Stmt → Spelling
  | .expr _ value => value.spelling braces ++ terminator
  | .decl _ kind declarators =>
    word kind.keyword ++ declaratorsSpelling braces kind declarators ++ terminator
  | .function _ fname ps body =>
    functionSpelling (perhaps name fname) ps (functionBodySpelling (stmtsSpelling braces body)) ++
      given (fname.isSome = true)
  | .ifElse _ test yes no =>
    (word .ifKw ++ parenSpelling (test.spelling braces) ++ yes.spelling braces ++
        elseSpelling braces no) ∪
      (word .ifKw ++ parenSpelling (test.spelling braces) ++ yes.colonSpelling braces ++
        alternativeSpelling braces no)
  | .whileLoop _ test body =>
    word .whileKw ++ parenSpelling (test.spelling braces) ++
      (body.spelling braces ∪ (body.colonSpelling braces ++ word .endwhileKw))
  | .forLoop _ init test update body =>
    word .forKw ++ mark .lparen ++ initSpelling braces init ++ mark .semicolon ++
      optionSpelling braces test ++ mark .semicolon ++ optionSpelling braces update ++
      mark .rparen ++ (body.spelling braces ∪ (body.colonSpelling braces ++ word .endforKw))
  | .forIn _ kind key value iterable body =>
    word .forKw ++ mark .lparen ++ perhaps (fun k : DeclKind => word k.keyword) kind ++
      perhaps (fun x => name x ++ mark .comma) key ++ name value ++ word .inKw ++
      iterable.spelling braces ++ mark .rparen ++
      (body.spelling braces ∪ (body.colonSpelling braces ++ word .endforKw))
  | .switch _ subject cases =>
    word .switchKw ++ parenSpelling (subject.spelling braces) ++
      blockSpelling (casesSpelling braces false cases)
  | .tryCatch _ block param handler =>
    word .tryKw ++ blockSpelling (stmtsSpelling braces block) ++ word .catchKw ++
      perhaps (fun x => mark .lparen ++ (name x ++ mark .rparen)) param ++
      blockSpelling (stmtsSpelling braces handler)
  | .returns _ value => word .returnKw ++ optionSpelling braces value ++ terminator
  | .breaks _ => word .breakKw ++ terminator
  | .continues _ => word .continueKw ++ terminator
  | .block _ body => blockSpelling (stmtsSpelling braces body)
  | .imports _ specs source =>
    word .importKw ++ importClauseSpelling braces specs ++ contextual "from" ++ text source ++
      terminator
  | .exportDecl _ declaration => word .exportKw ++ declaration.exportSpelling braces
  | .exportDefault _ value =>
    word .exportKw ++ word .defaultKw ++ value.spelling braces ++ terminator
  | .exportNames _ specs source =>
    word .exportKw ++ specsSpelling ExportSpec.spelling specs ++
      perhaps (fun lit => contextual "from" ++ text lit) source ++ terminator
  | .exportAll _ newName source =>
    word .exportKw ++ mark .star ++ perhaps (fun x => contextual "as" ++ name x) newName ++
      contextual "from" ++ text source ++ terminator
  | .empty _ => mark .semicolon

/-- A block as statements after a colon. -/
def Stmt.colonSpelling (braces : Bool) : Stmt → Spelling
  | .block _ body => mark .colon ++ stmtsSpelling braces body
  | _ => never

/-- A further test of an `if` with colons, after its `elif`. -/
def Stmt.branchSpelling (braces : Bool) : Stmt → Spelling
  | .ifElse _ test yes no =>
    parenSpelling (test.spelling braces) ++ yes.colonSpelling braces ++
      alternativeSpelling braces no
  | _ => never

/-- A statement after `export`: a declaration, or a function and a semicolon. -/
def Stmt.exportSpelling (braces : Bool) : Stmt → Spelling
  | .decl _ kind declarators =>
    word kind.keyword ++ declaratorsSpelling braces kind declarators ++ terminator
  | .function _ fname ps body =>
    functionSpelling (perhaps name fname) ps (functionBodySpelling (stmtsSpelling braces body)) ++
      given (fname.isSome = true) ++ mark .semicolon
  | _ => never

/-- The alternative of an `if` without colons. -/
def elseSpelling (braces : Bool) : Option Stmt → Spelling
  | none => nothing
  | some no => word .elseKw ++ no.spelling braces

/-- What follows the first branch of an `if` with colons. -/
def alternativeSpelling (braces : Bool) : Option Stmt → Spelling
  | none => word .endifKw
  | some no =>
    (word .elifKw ++ no.branchSpelling braces) ∪
      (word .elseKw ++ no.colonSpelling braces ++ word .endifKw)

/-- What a `for` with semicolons starts with. -/
def initSpelling (braces : Bool) : Option Stmt → Spelling
  | none => nothing
  | some (.decl _ kind declarators) =>
    word kind.keyword ++ declaratorsSpelling braces kind declarators
  | some (.expr _ value) => value.spelling braces
  | some _ => never

/-- A list of statements. -/
def stmtsSpelling (braces : Bool) : List Stmt → Spelling
  | [] => nothing
  | s :: rest => s.spelling braces ++ stmtsSpelling braces rest

/-- A declared name and its initial value, which a constant needs. -/
def Declarator.spelling (braces : Bool) (kind : DeclKind) : Declarator → Spelling
  | .mk x init =>
    name x ++ initialSpelling braces init ++ given (kind = .constDecl → init.isSome = true)

/-- An initial value. -/
def initialSpelling (braces : Bool) : Option Expr → Spelling
  | none => nothing
  | some value => mark .assign ++ value.spelling braces

/-- Declared names. -/
def declaratorsSpelling (braces : Bool) (kind : DeclKind) : List Declarator → Spelling
  | [] => never
  | [d] => d.spelling braces kind
  | d :: rest => d.spelling braces kind ++ mark .comma ++ declaratorsSpelling braces kind rest

/-- The cases of a switch, at most one of which is the default. -/
def casesSpelling (braces : Bool) (hasDefault : Bool) : List SwitchCase → Spelling
  | [] => nothing
  | .mk _ (some test) body :: rest =>
    word .caseKw ++ test.spelling braces ++ mark .colon ++ stmtsSpelling braces body ++
      casesSpelling braces hasDefault rest
  | .mk _ none body :: rest =>
    word .defaultKw ++ given (hasDefault = false) ++ mark .colon ++ stmtsSpelling braces body ++
      casesSpelling braces true rest

/-- An expression that may be missing. -/
def optionSpelling (braces : Bool) : Option Expr → Spelling
  | none => nothing
  | some value => value.spelling braces

/-- How an expression is spelled. -/
def Expr.spelling (braces : Bool) : Expr → Spelling
  | .ident x => name x
  | .int _ value => one fun t => t.kind = .number ∧ integerValue? t.text = some value
  | .double _ value => one fun t => t.kind = .double ∧ doubleValue t.text = value
  | .string _ value => one fun t => t.kind = .string ∧ stringValue t.text = value.toList
  | .template _ parts =>
    one fun t => t.kind = .template ∧ partsSpelled braces parts t.interpolations
  | .regexp _ pattern flags =>
    one fun t => t.kind = .regexp ∧ regexpValue t.text = (pattern.toList, flags.toList)
  | .bool _ value => word (if value then .trueKw else .falseKw)
  | .null _ => word .nullKw
  | .this _ => word .thisKw
  | .array _ elements => mark .lbrack ++ elementsSpelling braces elements ++ mark .rbrack
  | .object _ properties => mark .lbrace ++ propertiesSpelling braces properties ++ mark .rbrace
  | .spread _ _ => never
  | .unary _ op operand => kind op.token ++ operand.spelling braces
  | .update _ op true target =>
    kind op.token ++ target.spelling braces ++ given (Parser.isTarget target = true)
  | .update _ op false target =>
    target.spelling braces ++ (Infix.update op).spelling ++
      given (Parser.isTarget target = true)
  | .binary _ op lhs rhs =>
    lhs.spelling braces ++ (Infix.binary op).spelling ++ rhs.spelling braces
  | .assign _ op target value =>
    target.spelling braces ++ (Infix.assign op).spelling ++
      given (Parser.isTarget target = true) ++ value.spelling braces
  | .conditional _ test yes no =>
    test.spelling braces ++ Infix.conditional.spelling ++ yes.spelling braces ++ mark .colon ++
      no.spelling braces
  | .call _ callee args optional =>
    callee.spelling braces ++ (Infix.call optional).spelling ++ elementsSpelling braces args ++
      mark .rparen
  | .member _ object property optional =>
    object.spelling braces ++ (Infix.member optional).spelling ++ Spelling.propertyName property
  | .index _ object index optional =>
    object.spelling braces ++ (Infix.index optional).spelling ++ index.spelling braces ++
      mark .rbrack
  | .function _ fname ps body =>
    functionSpelling (perhaps name fname) ps (functionBodySpelling (stmtsSpelling braces body))
  | .arrowExpr _ ps body => arrowSpelling ps ++ body.spelling braces
  | .arrowBlock _ ps body => arrowSpelling ps ++ blockSpelling (stmtsSpelling braces body)
  | .paren _ inner => parenSpelling (inner.spelling braces)
  | .invalid _ => never

/-- The interpolations of a template, each of which is spelled by the tokens of its text. -/
def partsSpelled (braces : Bool) : List Expr → List Excerpt → Prop
  | [], [] => True
  | part :: parts, e :: es =>
    part.spelling braces (tokensFrom .normal .none e.lo e.text).dropLast [] ∧
      partsSpelled braces parts es
  | _, _ => False

/-- Elements of an array or arguments of a call, which may be spread. -/
def elementsSpelling (braces : Bool) : List Expr → Spelling
  | [] => nothing
  | .spread _ value :: rest =>
    item (mark .ellipsis ++ value.spelling braces) rest.isEmpty (elementsSpelling braces rest)
  | e :: rest => item (e.spelling braces) rest.isEmpty (elementsSpelling braces rest)

/-- A property of an object. -/
def Property.spelling (braces : Bool) : Property → Spelling
  | .named key value => key.spelling ++ mark .colon ++ value.spelling braces
  | .computed key value =>
    mark .lbrack ++ key.spelling braces ++ mark .rbrack ++ mark .colon ++ value.spelling braces
  | .shorthand x => name x
  | .spread value => mark .ellipsis ++ value.spelling braces

/-- Properties of an object. -/
def propertiesSpelling (braces : Bool) : List Property → Spelling
  | [] => nothing
  | p :: rest => item (p.spelling braces) rest.isEmpty (propertiesSpelling braces rest)

end

variable {braces : Bool}

/-- A test and its branches with colons, after an `if`. -/
theorem Stmt.spelling_of_branchSpelling {s : Stmt}
    (h : (word .ifKw ++ s.branchSpelling braces) ts us) : s.spelling braces ts us := by
  cases s with
  | ifElse =>
    obtain ⟨_, hword, _, ⟨_, htest, hyes⟩, hno⟩ := h
    exact inr (append (append (append hword htest) hyes) hno)
  | _ =>
    obtain ⟨_, -, hnever⟩ := h
    exact absurd hnever id

theorem optionSpelling_eq (o : Option Expr) :
    optionSpelling braces o = perhaps (Expr.spelling braces) o := by
  cases o <;> rfl

theorem initialSpelling_eq (o : Option Expr) :
    initialSpelling braces o = perhaps (fun e => mark .assign ++ e.spelling braces) o := by
  cases o <;> rfl

theorem elseSpelling_eq (o : Option Stmt) :
    elseSpelling braces o = perhaps (fun s => word .elseKw ++ s.spelling braces) o := by
  cases o <;> rfl

/-- An element of an array or an argument of a call. -/
def Expr.elementSpelling (braces : Bool) : Expr → Spelling
  | .spread _ value => mark .ellipsis ++ value.spelling braces
  | e => e.spelling braces

/-- An expression by itself is an element. -/
theorem Expr.elementSpelling_of_spelling {e : Expr} (h : e.spelling braces ts us) :
    e.elementSpelling braces ts us := by
  cases e with
  | spread => exact absurd h id
  | _ => exact h

theorem elementsSpelling_cons (e : Expr) (rest : List Expr) :
    elementsSpelling braces (e :: rest) =
      item (e.elementSpelling braces) rest.isEmpty (elementsSpelling braces rest) := by
  cases e <;> rfl

theorem elementsSpelling_eq (es : List Expr) :
    elementsSpelling braces es = separated (Expr.elementSpelling braces) es := by
  induction es with
  | nil => rfl
  | cons e rest ih => rw [elementsSpelling_cons, separated, ih]

theorem propertiesSpelling_eq (ps : List Property) :
    propertiesSpelling braces ps = separated (Property.spelling braces) ps := by
  induction ps with
  | nil => rfl
  | cons p rest ih => simp [propertiesSpelling, separated, ih]

end ScriptCheck
