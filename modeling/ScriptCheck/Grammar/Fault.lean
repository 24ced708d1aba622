import ScriptCheck.Token.Kind

/-!
# Faults of grammar

What can be wrong with a script that is read into a tree.
-/

namespace ScriptCheck

/-- A fault found while reading a tree. -/
inductive SyntaxError where
  /-- One of several kinds of tokens was needed. -/
  | expected (kinds : List TokenKind) (found : TokenKind)
  /-- A word that is no keyword was needed. -/
  | expectedWord (word : String) (found : TokenKind)
  | expectedExpression (found : TokenKind)
  | invalidTarget
  | constWithoutInitializer
  | restNotLast
  | duplicateDefault
  | anonymousExport
  | integerOutOfRange
  | nestingTooDeep
  /-- A malformed token. -/
  | lexical (fault : LexError)
  deriving DecidableEq, Repr

namespace SyntaxError

/-- The needed kinds as a message lists them. -/
def expectation : List TokenKind → String
  | [kind] => kind.display
  | kinds => "one of " ++ String.intercalate ", " (kinds.map TokenKind.display)

/-- The message that reports a fault. -/
def message : SyntaxError → String
  | expected kinds found => "expected " ++ expectation kinds ++ ", but got " ++ found.display
  | expectedWord word found => "expected '" ++ word ++ "', but got " ++ found.display
  | expectedExpression found => "expected expression, but got " ++ found.display
  | invalidTarget => "invalid assignment target"
  | constWithoutInitializer => "missing initializer in const declaration"
  | restNotLast => "rest parameter must be the last parameter"
  | duplicateDefault => "multiple default clauses in switch"
  | anonymousExport => "exported functions must be named"
  | integerOutOfRange => "integer literal out of range"
  | nestingTooDeep => "nesting too deep"
  | lexical fault => fault.message

/-- Whether a fault was found in a single token. -/
def isLexical : SyntaxError → Bool
  | lexical _ => true
  | _ => false

end SyntaxError

end ScriptCheck
