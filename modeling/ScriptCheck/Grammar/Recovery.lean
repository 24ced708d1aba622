import ScriptCheck.Grammar.State

/-!
# Going on after a fault

Where a statement ends, and where reading goes on if one cannot be read: at a token that always
starts a statement, at the first token of a line, or behind a semicolon. In a list whose items are
separated by commas, reading goes on behind the next comma.
-/

namespace ScriptCheck

/-- Whether a token always starts a statement. -/
def TokenKind.startsStatement : TokenKind → Bool
  | .keyword k =>
    match k with
    | .letKw | .constKw | .functionKw | .ifKw | .forKw | .whileKw | .switchKw | .tryKw | .returnKw
    | .breakKw | .continueKw | .importKw | .exportKw => true
    | _ => false
  | _ => false

/-- Whether a token closes a list of statements, so that no semicolon is needed before it. -/
def TokenKind.closesBlock : TokenKind → Bool
  | .punct .rbrace | .eof => true
  | .keyword k =>
    match k with
    | .endifKw | .endforKw | .endwhileKw | .endfunctionKw | .elifKw | .caseKw | .defaultKw => true
    | _ => false
  | _ => false

namespace Parser.State

/-- Whether a statement without a semicolon ends before the current token. -/
def atBoundary (s : State) : Bool :=
  s.atMark .semicolon || s.kind.closesBlock || s.kind.startsStatement || s.newLine

/-- Whether a `return` before the current token has no value. -/
def atStatementEnd (s : State) : Bool :=
  s.atMark .semicolon || s.kind.closesBlock || s.newLine

/-- Passes a semicolon if it is the current token. -/
def passSemicolon (s : State) : State := if s.atMark .semicolon then s.advance else s

/-- Passes the semicolon that ends a statement. A missing one is listed, but not before a token that
closes the list of statements and not after a malformed token; unless the current token stands on a
new line or starts a statement, the rest of the statement is skipped. -/
def terminate (s : State) : State :=
  if s.atMark .semicolon then s.advance
  else if s.kind.closesBlock || s.afterFault then s
  else
    let t := s.unexpected [.punct .semicolon]
    if s.newLine || s.kind.startsStatement then t
    else (t.skipUntil atBoundary).passSemicolon

/-- Whether reading can go on at the current token after a statement that could not be read. -/
def resumes (ends : List TokenKind) (s : State) : Bool :=
  s.atEnd ends || s.atMark .semicolon || s.kind.startsStatement || s.newLine

/-- Goes on after a statement that could not be read. If no token of it was passed, the first one
is skipped. -/
def recover (ends : List TokenKind) (stuck : Bool) (s : State) : State :=
  let s := (if stuck then s.skip else s).skipUntil (resumes ends)
  if s.atEnd ends then s else s.passSemicolon

/-- Whether a list of items cannot go on behind the current token. -/
def breaksList (close : TokenKind) (s : State) : Bool :=
  s.atEnd [close] || s.atMark .semicolon || s.kind.startsStatement || s.atMark .rbrace

/-- Skips up to the next comma of a list and passes it, if the list can go on. -/
def passComma? (close : TokenKind) (s : State) : Bool × State :=
  let s := s.skipUntil fun s => s.breaksList close || s.atMark .comma
  if s.breaksList close then (false, s) else (true, s.skip)

end Parser.State

namespace Parser

/-- Passes the semicolon that ends a statement. -/
def terminate : StateM State Unit := modify State.terminate

/-- Reads an item of a list, or else the one behind the next comma, and so on for at most `n`
commas. -/
def retrying {α : Type} (close : TokenKind) (item : Parser α) : Nat → Parser α
  | 0 => item
  | n + 1 => do
    match ← attempt item with
    | some a => return a
    | none =>
      if ← modifyGet (·.passComma? close) then
        retrying close item n
      else
        failure

/-- At most `n` items, separated by commas, up to the token that closes the list. -/
def itemsUpTo {α : Type} (close : TokenKind) (item : Parser α) : Nat → Parser (List α)
  | 0 => return []
  | n + 1 => do
    let s ← get
    if s.atEnd [close] then
      return []
    else
      let a ← retrying close item s.rest.length
      if ← takeMark .comma then
        let rest ← itemsUpTo close item n
        return a :: rest
      else
        let s ← get
        if s.kind == close then
          return [a]
        else
          unexpected [.punct .comma, close]

/-- Items separated by commas, up to the token that closes the list. A comma may follow the last
one. The closing token is not passed. -/
def items {α : Type} (close : TokenKind) (item : Parser α) : Parser (List α) := do
  let s ← get
  itemsUpTo close item s.rest.length

/-- At most `n` statements, up to one of some tokens. -/
def statementsUpTo (stmt : Parser Stmt) (ends : List TokenKind) :
    Nat → StateM State (List Stmt)
  | 0 => return []
  | n + 1 => do
    let s ← get
    if s.atEnd ends then
      return []
    else
      match ← stmt.run with
      | some first =>
        let rest ← statementsUpTo stmt ends n
        return first :: rest
      | none =>
        modify fun t => t.recover ends (t.rest.length == s.rest.length)
        statementsUpTo stmt ends n

/-- Statements up to one of some tokens, which is not passed, or to the end. -/
def statements (stmt : Parser Stmt) (ends : List TokenKind) : StateM State (List Stmt) := do
  let s ← get
  statementsUpTo stmt ends s.rest.length

end Parser

end ScriptCheck
