import ScriptCheck.Grammar.Expression

/-!
# Reading statements

One layer of a statement around a `Level`. Loops and branches have bodies in two forms: a single
statement, or statements between a colon and a closing word.
-/

namespace ScriptCheck

/-- The word of a declaration. -/
def DeclKind.keyword : DeclKind → Keyword
  | .letDecl => .letKw
  | .constDecl => .constKw

namespace Parser

/-! ### Declarations -/

/-- A declared name and its initial value. A constant without one is listed. -/
def declarator (below : Level) (kind : DeclKind) : Parser Declarator := do
  let name ← ident
  let hasInit ← takeMark .assign
  let init ← optionally hasInit (below.expr 0)
  reportWhen (kind == .constDecl && init.isNone) name.span .constWithoutInitializer
  return .mk name init

/-- At most `n` declared names, separated by commas. -/
def declaratorsUpTo (below : Level) (kind : DeclKind) : Nat → Parser (List Declarator)
  | 0 => return []
  | n + 1 => do
    let first ← declarator below kind
    if ← takeMark .comma then
      let rest ← declaratorsUpTo below kind n
      return first :: rest
    else
      return [first]

/-- A declaration, whose region ends after `finish`. -/
def declaration (below : Level) (kind : DeclKind) (finish : StateM State Unit) : Parser Stmt := do
  let start ← expectKeyword kind.keyword
  let s ← get
  let declarators ← declaratorsUpTo below kind (s.rest.length + 1)
  finish
  let span ← spanFrom start.span
  return .decl span kind declarators

/-- A statement whose region also covers the semicolon that ends it. -/
def terminated (start : Span) (make : Span → Stmt) : Parser Stmt := do
  terminate
  let span ← spanFrom start
  return make span

/-! ### Branches and loops -/

/-- Statements after a colon, up to one of some tokens, as a block. The region ends with the last
statement. -/
def colonBlock (below : Level) (ends : List TokenKind) : Parser Stmt := do
  let colon ← expectMark .colon
  let body ← statements below.stmt ends
  let span ← spanFrom colon.span
  return .block span body

/-- The body of a loop. In its second form the region ends with the closing word. -/
def loopBody (below : Level) (close : Keyword) : Parser Stmt := do
  let s ← get
  if s.atMark .colon then
    let colon ← expectMark .colon
    let body ← statements below.stmt [.keyword close]
    let _ ← expectKeyword close
    let span ← spanFrom colon.span
    return .block span body
  else
    below.stmt

/-- What follows the first branch of an `if` with colons: a further test, of which `branches` reads
the branches, or the alternative, or nothing, and in any case the end. -/
def colonAlternative (below : Level) (branches : Span → Expr → Parser Stmt) :
    Parser (Option Stmt) := do
  let s ← get
  match s.kind with
  | .keyword .elifKw =>
    let start ← expectKeyword .elifKw
    let test ← parenExpr below
    let no ← branches start.span test
    return some no
  | .keyword .elseKw =>
    let _ ← expectKeyword .elseKw
    let no ← colonBlock below [.keyword .endifKw]
    let _ ← expectKeyword .endifKw
    return some no
  | _ =>
    let _ ← expectKeyword .endifKw
    return none

/-- The branches after the first test of an `if` with colons, with at most `n` further tests. Each
further test is the alternative of the one before it, and all end with `endif`. -/
def colonBranches (below : Level) : Nat → Span → Expr → Parser Stmt
  | 0, _, _ => failure
  | n + 1, start, test => do
    let yes ← colonBlock below [.keyword .elifKw, .keyword .elseKw, .keyword .endifKw]
    let no ← colonAlternative below (colonBranches below n)
    let span ← spanFrom start
    return .ifElse span test yes no

/-- An `if`. -/
def ifStmt (below : Level) : Parser Stmt := do
  let start ← expectKeyword .ifKw
  let test ← parenExpr below
  let s ← get
  if s.atMark .colon then
    colonBranches below (s.rest.length + 1) start.span test
  else
    let yes ← below.stmt
    let hasElse ← takeKeyword .elseKw
    let no ← optionally hasElse below.stmt
    let span ← spanFrom start.span
    return .ifElse span test yes no

/-- A `while`. -/
def whileStmt (below : Level) : Parser Stmt := do
  let start ← expectKeyword .whileKw
  let test ← parenExpr below
  let body ← loopBody below .endwhileKw
  let span ← spanFrom start.span
  return .whileLoop span test body

/-- The declaration that a token starts. -/
def declKind? : TokenKind → Option DeclKind
  | .keyword .letKw => some .letDecl
  | .keyword .constKw => some .constDecl
  | _ => none

/-- Whether one or two names and `in` follow after `skip` tokens, which makes a `for` run over the
values of an expression. -/
def State.atForIn (s : State) (skip : Nat) : Bool :=
  s.ahead skip == .label &&
    (s.ahead (skip + 1) == .keyword .inKw ||
      (s.ahead (skip + 1) == .punct .comma && s.ahead (skip + 2) == .label &&
        s.ahead (skip + 3) == .keyword .inKw))

/-- The word of a declaration, if there is one. -/
def declWord : Option DeclKind → Parser Unit
  | some kind => do
    let _ ← expectKeyword kind.keyword
  | none => return ()

/-- One name, or a key and a value. -/
def forNames : Parser (Option Ident × Ident) := do
  let first ← ident
  if ← takeMark .comma then
    let second ← ident
    return (some first, second)
  else
    return (none, first)

/-- The rest of a `for` over the values of an expression. -/
def forIn (below : Level) (start : Span) (kind : Option DeclKind) : Parser Stmt := do
  declWord kind
  let (key, value) ← forNames
  let _ ← expectKeyword .inKw
  let iterable ← below.expr 0
  let _ ← expectMark .rparen
  let body ← loopBody below .endforKw
  let span ← spanFrom start
  return .forIn span kind key value iterable body

/-- What a `for` with semicolons starts with. -/
def forInit (below : Level) : Parser (Option Stmt) := do
  let s ← get
  match s.kind, declKind? s.kind with
  | .punct .semicolon, _ => return none
  | _, some kind =>
    let decl ← declaration below kind (pure ())
    return some decl
  | _, none =>
    let e ← below.expr 0
    return some (.expr e.span e)

/-- An expression that may be missing before a mark. -/
def exprBefore (below : Level) (mark : Punct) : Parser (Option Expr) := do
  let s ← get
  let e ← optionally (!s.atMark mark) (below.expr 0)
  let _ ← expectMark mark
  return e

/-- A `for`. -/
def forStmt (below : Level) : Parser Stmt := do
  let start ← expectKeyword .forKw
  let _ ← expectMark .lparen
  let s ← get
  let kind := declKind? s.kind
  if s.atForIn (if kind.isSome then 1 else 0) then
    forIn below start.span kind
  else
    let init ← forInit below
    let _ ← expectMark .semicolon
    let test ← exprBefore below .semicolon
    let update ← exprBefore below .rparen
    let body ← loopBody below .endforKw
    let span ← spanFrom start.span
    return .forLoop span init test update body

/-- The body of a case, after its test. -/
def caseBody (below : Level) (start : Span) (test : Option Expr) : Parser SwitchCase := do
  let _ ← expectMark .colon
  let body ← statements below.stmt [.keyword .caseKw, .keyword .defaultKw, .punct .rbrace]
  let span ← spanFrom start
  return .mk span test body

/-- At most `n` cases of a switch, up to the closing brace. A second default is listed. -/
def casesUpTo (below : Level) : Nat → Bool → Parser (List SwitchCase)
  | 0, _ => return []
  | n + 1, hasDefault => do
    let s ← get
    if s.atEnd [.punct .rbrace] then
      return []
    else
      match s.kind with
      | .keyword .caseKw =>
        let start ← expectKeyword .caseKw
        let test ← below.expr 0
        let first ← caseBody below start.span (some test)
        let rest ← casesUpTo below n hasDefault
        return first :: rest
      | .keyword .defaultKw =>
        let start ← expectKeyword .defaultKw
        reportWhen hasDefault start.span .duplicateDefault
        let first ← caseBody below start.span none
        let rest ← casesUpTo below n true
        return first :: rest
      | _ =>
        modify fun s =>
          (s.unexpected [.keyword .caseKw, .keyword .defaultKw, .punct .rbrace]).skip
        casesUpTo below n hasDefault

/-- A `switch`. -/
def switchStmt (below : Level) : Parser Stmt := do
  let start ← expectKeyword .switchKw
  let subject ← parenExpr below
  let _ ← expectMark .lbrace
  let s ← get
  let cases ← casesUpTo below s.rest.length false
  let _ ← expectMark .rbrace
  let span ← spanFrom start.span
  return .switch span subject cases

/-- A name in parentheses. -/
def catchParam : Parser Ident := do
  let name ← ident
  let _ ← expectMark .rparen
  return name

/-- A `try`. -/
def tryStmt (below : Level) : Parser Stmt := do
  let start ← expectKeyword .tryKw
  let body ← block below
  let _ ← expectKeyword .catchKw
  let hasParam ← takeMark .lparen
  let param ← optionally hasParam catchParam
  let handler ← block below
  let span ← spanFrom start.span
  return .tryCatch span body param handler

/-- A `return`. -/
def returnStmt (below : Level) : Parser Stmt := do
  let start ← expectKeyword .returnKw
  let s ← get
  let value ← optionally (!s.atStatementEnd) (below.expr 0)
  terminated start.span fun span => .returns span value

/-! ### Imports and exports -/

/-- A name, and the name that takes its place. -/
def aliased (name other : Parser Ident) : Parser (Ident × Option Ident) := do
  let first ← name
  let hasOther ← takeName "as"
  let second ← optionally hasOther other
  return (first, second)

/-- A name of an import in braces. -/
def importSpec : Parser ImportSpec := do
  let (name, newName) ← aliased propertyName ident
  return .named name newName

/-- A name of an export in braces. -/
def exportSpec : Parser ExportSpec := do
  let (name, newName) ← aliased propertyName propertyName
  return ⟨name, newName⟩

/-- Names in braces. -/
def specs {α : Type} (spec : Parser α) : Parser (List α) := do
  let _ ← expectMark .lbrace
  let names ← items (.punct .rbrace) spec
  let _ ← expectMark .rbrace
  return names

/-- All names of a module under one name, or names in braces. -/
def importSpecs : Parser (List ImportSpec) := do
  if ← takeMark .star then
    expectName "as"
    let name ← ident
    return [.namespaceOf name]
  else
    specs importSpec

/-- The names that an import binds. -/
def importClause : Parser (List ImportSpec) := do
  let s ← get
  if s.kind == .label && !s.atName "from" then
    let name ← ident
    if ← takeMark .comma then
      let more ← importSpecs
      return .default name :: more
    else
      return [.default name]
  else
    importSpecs

/-- An `import`. -/
def importStmt : Parser Stmt := do
  let start ← expectKeyword .importKw
  let names ← importClause
  expectName "from"
  let source ← textLit
  terminated start.span fun span => .imports span names source

/-- An exported declaration, after `export`. -/
def exportedDecl (below : Level) (start : Span) (kind : DeclKind) : Parser Stmt := do
  let inner ← declaration below kind terminate
  let span ← spanFrom start
  return .exportDecl span inner

/-- An exported function, after `export`. Other than a plain function, it ends with a semicolon. -/
def exportedFunction (below : Level) (start : Span) : Parser Stmt := do
  let (name, inner) ←
    function below fun span name ps body => (name, Stmt.function span name ps body)
  reportWhen name.isNone inner.span .anonymousExport
  let _ ← attempt (expectMark .semicolon)
  let span ← spanFrom start
  return .exportDecl span inner

/-- All names of a module, exported again, after `export`. -/
def exportedModule (start : Span) : Parser Stmt := do
  let _ ← expectMark .star
  let hasName ← takeName "as"
  let newName ← optionally hasName ident
  expectName "from"
  let source ← textLit
  terminated start fun span => .exportAll span newName source

/-- Exported names in braces, after `export`. -/
def exportedNames (start : Span) : Parser Stmt := do
  let names ← specs exportSpec
  let hasSource ← takeName "from"
  let source ← optionally hasSource textLit
  terminated start fun span => .exportNames span names source

/-- An `export`. -/
def exportStmt (below : Level) : Parser Stmt := do
  let start ← expectKeyword .exportKw
  let s ← get
  match s.kind with
  | .keyword .letKw => exportedDecl below start.span .letDecl
  | .keyword .constKw => exportedDecl below start.span .constDecl
  | .keyword .functionKw => exportedFunction below start.span
  | .keyword .defaultKw =>
    let _ ← expectKeyword .defaultKw
    let value ← below.expr 0
    terminated start.span fun span => .exportDefault span value
  | .punct .star => exportedModule start.span
  | .punct .lbrace => exportedNames start.span
  | _ =>
    unexpected [.keyword .letKw, .keyword .constKw, .keyword .functionKw, .keyword .defaultKw,
      .punct .lbrace, .punct .star]

/-! ### All statements -/

/-- An expression and its semicolon. -/
def exprStmt (below : Level) : Parser Stmt := do
  let s ← get
  let e ← below.expr 0
  terminated s.current.span fun span => .expr span e

/-- A word and its semicolon. -/
def wordStmt (word : Keyword) (make : Span → Stmt) : Parser Stmt := do
  let start ← expectKeyword word
  terminated start.span make

/-- Statements in braces, as a statement. -/
def blockStmt (below : Level) : Parser Stmt := do
  let s ← get
  let body ← block below
  let span ← spanFrom s.current.span
  return .block span body

/-- A semicolon by itself. -/
def emptyStmt : Parser Stmt := do
  let t ← expectMark .semicolon
  return .empty t.span

/-- A statement. -/
def statement (below : Level) : Parser Stmt := do
  let s ← get
  match s.kind with
  | .keyword .letKw => declaration below .letDecl terminate
  | .keyword .constKw => declaration below .constDecl terminate
  | .keyword .functionKw =>
    if s.ahead 1 == .label then function below .function else exprStmt below
  | .keyword .ifKw => ifStmt below
  | .keyword .whileKw => whileStmt below
  | .keyword .forKw => forStmt below
  | .keyword .switchKw => switchStmt below
  | .keyword .tryKw => tryStmt below
  | .keyword .returnKw => returnStmt below
  | .keyword .breakKw => wordStmt .breakKw .breaks
  | .keyword .continueKw => wordStmt .continueKw .continues
  | .punct .lbrace => blockStmt below
  | .punct .semicolon => emptyStmt
  | .keyword .importKw => importStmt
  | .keyword .exportKw => exportStmt below
  | _ => exprStmt below

end Parser

end ScriptCheck
