import ScriptCheck.Grammar.Fault
import ScriptCheck.Token.Basic
import ScriptCheck.Tree.Basic

/-!
# The state of reading

A script is read token by token, from the first to the one that marks the end, which is never
passed. Faults are collected in the order they are found and do not stop the reading: a part that
cannot be read fails, and the list of statements around it goes on behind it.

A `Parser` may fail; what never fails is a plain `StateM State`. Both keep the faults found so far.
-/

namespace ScriptCheck

/-- How deep statements and expressions may nest. -/
def maxNesting : Nat := 128

/-- How far a script is read, and the faults found in it. -/
structure Parser.State where
  /-- The tokens that follow, without the end. -/
  rest : List Token
  /-- The token that marks the end. -/
  eof : Token
  /-- The token read last. -/
  last : Option Token
  /-- Whether the current token is malformed and its fault is listed already. -/
  reported : Bool
  /-- How many statements, expressions and operators the current part is nested in. -/
  depth : Nat
  /-- Whether a part was found to be nested too deep. -/
  tooDeep : Bool
  errors : List (Located SyntaxError)

/-- Reads a part of a script, or fails. -/
abbrev Parser := OptionT (StateM Parser.State)

namespace Parser.State

/-- The state before any token is read. The last token of the list marks the end. -/
def ofTokens (tokens : List Token) : State where
  rest := tokens.dropLast
  eof := tokens.getLastD (Token.endOf [])
  last := none
  reported := false
  depth := 0
  tooDeep := false
  errors := []

/-- The token to be read next. -/
def current (s : State) : Token := s.rest.headD s.eof

/-- The kind of the token to be read next. -/
def kind (s : State) : TokenKind := s.current.kind

/-- The kind of the `n`-th token after the current one. -/
def ahead (s : State) (n : Nat) : TokenKind := (s.rest.getD n s.eof).kind

/-- Whether the current token is a mark. -/
def atMark (s : State) (p : Punct) : Bool := s.kind == .punct p

/-- Whether the current token is a name spelled in a certain way. -/
def atName (s : State) (name : String) : Bool :=
  s.kind == .label && s.current.text == name.toList

/-- Whether the current token is the end or one of some kinds. -/
def atEnd (s : State) (ends : List TokenKind) : Bool := ends.contains s.kind || s.kind == .eof

/-- Whether a line ends between the token read last and the current one. -/
def newLine (s : State) : Bool := s.last.isSome && s.current.onNewLine

/-- Whether the token read last is malformed. -/
def afterFault (s : State) : Bool := s.last.any (·.kind.isError)

/-- The region of the token read last, or of the current one if none is read. -/
def lastSpan (s : State) : Span := (s.last.getD s.current).span

/-- Passes the current token. The end is not passed. -/
def advance (s : State) : State :=
  match s.rest with
  | [] => s
  | t :: rest => { s with rest, last := some t, reported := false }

/-- Lists a fault. -/
def report (s : State) (span : Span) (e : SyntaxError) : State :=
  { s with errors := s.errors ++ [⟨span, e⟩] }

/-- Lists the fault of the current token if it is malformed, once. -/
def reportLexical (s : State) : State :=
  match s.kind with
  | .error e =>
    if s.reported then s else { s.report s.current.span (.lexical e) with reported := true }
  | _ => s

/-- Lists a fault about the current token: its own one if it is malformed. -/
def reportCurrent (s : State) (e : SyntaxError) : State :=
  if s.kind.isError then s.reportLexical else s.report s.current.span e

/-- Lists that other kinds of tokens were needed. -/
def unexpected (s : State) (kinds : List TokenKind) : State :=
  s.reportCurrent (.expected kinds s.kind)

/-- Lists that the current part is nested too deep, unless that is listed already. -/
def reportDepth (s : State) : State :=
  if s.tooDeep then s else { s.report s.current.span .nestingTooDeep with tooDeep := true }

/-- Passes the current token without using it; its fault is listed if it is malformed. -/
def skip (s : State) : State := s.reportLexical.advance

/-- Skips at most `n` tokens, up to the first one at which `stop` holds. -/
def skipUpTo (stop : State → Bool) : Nat → State → State
  | 0, s => s
  | n + 1, s => if stop s then s else skipUpTo stop n s.skip

/-- Skips tokens up to the first one at which `stop` holds, or to the end. -/
def skipUntil (stop : State → Bool) (s : State) : State := skipUpTo stop s.rest.length s

end Parser.State

/-! ### Reading single tokens -/

namespace Parser

/-- The outcome of a part that may fail. -/
def attempt {α : Type} (p : Parser α) : Parser (Option α) := OptionT.lift p.run

/-- Passes the current token and answers it. -/
def advance : StateM State Token := do
  let s ← get
  set s.advance
  return s.current

/-- Passes the current token if it is of a kind, and tells whether it is. -/
def take (kind : TokenKind) : StateM State Bool := do
  let s ← get
  if s.kind == kind then
    set s.advance
    return true
  else
    return false

/-- Passes a mark if it is the current token. -/
def takeMark (p : Punct) : StateM State Bool := take (.punct p)

/-- Passes a keyword if it is the current token. -/
def takeKeyword (k : Keyword) : StateM State Bool := take (.keyword k)

/-- Passes a name spelled in a certain way if it is the current token. -/
def takeName (name : String) : StateM State Bool := do
  let s ← get
  if s.atName name then
    set s.advance
    return true
  else
    return false

/-- Lists that other kinds of tokens were needed, and fails. -/
def unexpected {α : Type} (kinds : List TokenKind) : Parser α := do
  modify (·.unexpected kinds)
  failure

/-- Passes a token of a kind, or fails. -/
def expect (kind : TokenKind) : Parser Token := do
  let s ← get
  if s.kind == kind then
    advance
  else
    unexpected [kind]

/-- Passes a mark, or fails. -/
def expectMark (p : Punct) : Parser Token := expect (.punct p)

/-- Passes a keyword, or fails. -/
def expectKeyword (k : Keyword) : Parser Token := expect (.keyword k)

/-- Passes a name spelled in a certain way, or fails. -/
def expectName (name : String) : Parser Unit := do
  let s ← get
  if s.atName name then
    set s.advance
  else
    set (s.reportCurrent (.expectedWord name s.kind))
    failure

/-- Lists that the current part is nested too deep, and fails. -/
def tooDeep {α : Type} : Parser α := do
  modify State.reportDepth
  failure

/-- Goes one level deeper, or fails if there are too many. -/
def descend : Parser Unit := do
  let s ← get
  if s.depth < maxNesting then
    set { s with depth := s.depth + 1 }
  else
    tooDeep

/-- A part that is one level deeper than what stands around it. Whether or not it can be read, the
levels in it are left again. -/
def nested {α : Type} (part : Parser α) : Parser α := do
  let s ← get
  let a ← attempt do
    descend
    part
  modify ({ · with depth := s.depth })
  OptionT.mk (pure a)

/-- A part that is read only where some condition holds. -/
def optionally {α : Type} (here : Bool) (part : Parser α) : Parser (Option α) := do
  if here then
    let a ← part
    return some a
  else
    return none

/-- The region from a start up to the token read last. -/
def spanFrom (start : Span) : StateM State Span := do
  let s ← get
  return start.through s.lastSpan

/-- Lists a fault of a region that is read already. -/
def report (span : Span) (e : SyntaxError) : StateM State Unit := modify (·.report span e)

/-- Lists a fault of a region that is read already, where some condition holds. -/
def reportWhen (faulty : Bool) (span : Span) (e : SyntaxError) : StateM State Unit :=
  if faulty then report span e else pure ()

end Parser

/-- The name that a token stands for. -/
def Token.ident (t : Token) : Ident := ⟨t.word, t.span⟩

namespace Parser

/-- A name. -/
def ident : Parser Ident := do
  let t ← expect .label
  return t.ident

/-- A name that may also be a keyword. -/
def propertyName : Parser Ident := do
  let s ← get
  if s.kind.isKeyword then
    let t ← advance
    return t.ident
  else
    ident

end Parser

end ScriptCheck
