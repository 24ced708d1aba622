import ScriptCheck.Grammar.Statement
import ScriptCheck.Token.Lexer

/-!
# Reading programs

`Level.withLeft` is what can be read with some levels of nesting left: with none left everything
fails, and one more level reads one more layer. The state counts the levels in use. Each
interpolation of a template is read on its own, with all levels left; as it is shorter than the
template, the nesting of templates ends too.

Reading never fails as a whole: what is returned is a program for what could be read, with the list
of all faults.
-/

namespace ScriptCheck

namespace Level

/-- No level is left. -/
def bottom (template : Token → StateM Parser.State (List Expr)) : Level where
  stmt := Parser.tooDeep
  expr _ := Parser.tooDeep
  operators power lhs := Parser.withOperator power lhs fun _ => Parser.tooDeep
  template := template

/-- One level more. -/
def above (below : Level) : Level where
  stmt := Parser.nested (Parser.statement below)
  expr power := Parser.nested do
    let lhs ← Parser.operand below
    below.operators power lhs
  operators power lhs := Parser.withOperator power lhs fun op => do
    Parser.descend
    let e ← Parser.applied below op lhs
    below.operators power e
  template := below.template

/-- What can be read with some levels left. -/
def withLeft (template : Token → StateM Parser.State (List Expr)) : Nat → Level
  | 0 => bottom template
  | n + 1 => (withLeft template n).above

end Level

namespace Parser

/-- An expression up to the end. What cannot be read stands at the end of the script, where
`textEnd` is. -/
def wholeExpr (top : Level) (textEnd : Nat) : StateM State Expr := do
  let e ← (top.expr 0).run
  let _ ← (expect .eof).run
  return e.getD (.invalid ⟨textEnd, 0⟩)

/-- The faults of a part that is read on its own are listed where the part stands. -/
def readOnItsOwn {α : Type} (part : StateM State α) (tokens : List Token) : StateM State α := do
  let (a, inner) := part.run (.ofTokens tokens)
  modify fun s => { s with errors := s.errors ++ inner.errors }
  return a

/-- An interpolation, read from the tokens of its text. -/
def interpolation (top : Level) (textEnd : Nat) (e : Excerpt) : StateM State Expr :=
  readOnItsOwn (wholeExpr top textEnd) (tokensFrom .normal .none e.lo e.text)

/-- The interpolations of a template, for templates in each other to a depth of at most `n`. -/
def interpolations (textEnd : Nat) : Nat → Token → StateM State (List Expr)
  | 0, _ => return []
  | n + 1, t =>
    let top := Level.withLeft (interpolations textEnd n) maxNesting
    t.interpolations.mapM (interpolation top textEnd)

/-- What can be read of a script that ends at an offset. No more than that many templates stand in
each other. -/
def top (textEnd : Nat) : Level := Level.withLeft (interpolations textEnd textEnd) maxNesting

end Parser

/-- A program, as far as it could be read, and the faults in its script. -/
structure Parsed where
  program : Program
  errors : List (Located SyntaxError)

/-- Reads the tokens of a script that ends at offset `textEnd`. -/
def parseTokens (textEnd : Nat) (tokens : List Token) : Parsed :=
  let (body, s) := (Parser.statements (Parser.top textEnd).stmt []).run (.ofTokens tokens)
  ⟨⟨body⟩, s.errors⟩

/-- Reads a script. -/
def parse (mode : LexMode) (source : List Char) : Parsed :=
  parseTokens (Text.bytes source) (tokenize mode source)

/-- Reads a script that is a single expression. -/
def parseExpr (source : List Char) : Expr × List (Located SyntaxError) :=
  let textEnd := Text.bytes source
  let (e, s) := (Parser.wholeExpr (Parser.top textEnd) textEnd).run
    (.ofTokens (tokenize .normal source))
  (e, s.errors)

end ScriptCheck
