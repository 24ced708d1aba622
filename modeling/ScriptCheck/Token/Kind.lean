/-!
# Kinds of tokens

The words, punctuation marks and literals of the scripting language *ucode*. Keywords and
punctuation marks have one written form each, their lexeme; `Keyword.ofWord?` recognises a keyword
and `Punct.read?` the longest mark at the start of a text.

A malformed stretch of text is a token too: its kind says what is wrong with it.
-/

namespace ScriptCheck

/-- The reserved words. -/
inductive Keyword where
  | breakKw | caseKw | catchKw | constKw | continueKw | defaultKw | deleteKw | elifKw | elseKw
  | endforKw | endfunctionKw | endifKw | endwhileKw | exportKw | forKw | functionKw | ifKw
  | importKw | inKw | letKw | returnKw | switchKw | tryKw | whileKw
  | trueKw | falseKw | nullKw | thisKw
  deriving DecidableEq, Repr

namespace Keyword

/-- How a keyword is written. -/
def lexeme : Keyword → String
  | breakKw => "break"
  | caseKw => "case"
  | catchKw => "catch"
  | constKw => "const"
  | continueKw => "continue"
  | defaultKw => "default"
  | deleteKw => "delete"
  | elifKw => "elif"
  | elseKw => "else"
  | endforKw => "endfor"
  | endfunctionKw => "endfunction"
  | endifKw => "endif"
  | endwhileKw => "endwhile"
  | exportKw => "export"
  | forKw => "for"
  | functionKw => "function"
  | ifKw => "if"
  | importKw => "import"
  | inKw => "in"
  | letKw => "let"
  | returnKw => "return"
  | switchKw => "switch"
  | tryKw => "try"
  | whileKw => "while"
  | trueKw => "true"
  | falseKw => "false"
  | nullKw => "null"
  | thisKw => "this"

/-- The name a keyword is listed under. -/
def name : Keyword → String
  | breakKw => "Break"
  | caseKw => "Case"
  | catchKw => "Catch"
  | constKw => "Const"
  | continueKw => "Continue"
  | defaultKw => "Default"
  | deleteKw => "Delete"
  | elifKw => "Elif"
  | elseKw => "Else"
  | endforKw => "EndFor"
  | endfunctionKw => "EndFunction"
  | endifKw => "EndIf"
  | endwhileKw => "EndWhile"
  | exportKw => "Export"
  | forKw => "For"
  | functionKw => "Function"
  | ifKw => "If"
  | importKw => "Import"
  | inKw => "In"
  | letKw => "Let"
  | returnKw => "Return"
  | switchKw => "Switch"
  | tryKw => "Try"
  | whileKw => "While"
  | trueKw => "True"
  | falseKw => "False"
  | nullKw => "Null"
  | thisKw => "This"

/-- The words that are reserved, and the keywords they are read as. -/
def words : List (String × Keyword) :=
  [("break", breakKw), ("case", caseKw), ("catch", catchKw), ("const", constKw),
   ("continue", continueKw), ("default", defaultKw), ("delete", deleteKw), ("elif", elifKw),
   ("else", elseKw), ("endfor", endforKw), ("endfunction", endfunctionKw), ("endif", endifKw),
   ("endwhile", endwhileKw), ("export", exportKw), ("for", forKw), ("function", functionKw),
   ("if", ifKw), ("import", importKw), ("in", inKw), ("let", letKw), ("return", returnKw),
   ("switch", switchKw), ("try", tryKw), ("while", whileKw), ("true", trueKw),
   ("false", falseKw), ("null", nullKw), ("this", thisKw)]

/-- The keyword that a word is read as, if it is one. -/
def ofWord? (word : List Char) : Option Keyword :=
  (words.find? fun e => e.1.toList == word).map Prod.snd

/-- Whether a keyword is a whole expression by itself. -/
def isOperand : Keyword → Bool
  | trueKw | falseKw | nullKw | thisKw => true
  | _ => false

/-- A word is read as a keyword exactly if it is that keyword's lexeme. -/
theorem ofWord?_eq_some_iff {word : List Char} {k : Keyword} :
    ofWord? word = some k ↔ k.lexeme.toList = word := by
  have hwords : ∀ e ∈ words, e.2.lexeme = e.1 := by decide
  constructor
  · intro h
    obtain ⟨e, he, rfl⟩ := Option.map_eq_some_iff.1 h
    rw [hwords e (List.mem_of_find?_eq_some he)]
    simpa using List.find?_some he
  · rintro rfl
    cases k <;> decide

end Keyword

/-- Punctuation marks and operators. -/
inductive Punct where
  | lparen | rparen | lbrack | rbrack | lbrace | rbrace
  | semicolon | comma | colon | question | dot | ellipsis | arrow
  | questionDot | questionParen | questionBrack
  | plus | minus | star | slash | percent | starStar | plusPlus | minusMinus
  | bang | tilde | amp | pipe | caret | shl | shr | ampAmp | pipePipe | questionQuestion
  | eqEq | bangEq | eqEqEq | bangEqEq | less | lessEq | greater | greaterEq
  | assign | plusAssign | minusAssign | starAssign | slashAssign | percentAssign | starStarAssign
  | ampAssign | pipeAssign | caretAssign | shlAssign | shrAssign | ampAmpAssign | pipePipeAssign
  | questionQuestionAssign
  deriving DecidableEq, Repr

namespace Punct

/-- How a mark is written. -/
def lexeme : Punct → String
  | lparen => "("
  | rparen => ")"
  | lbrack => "["
  | rbrack => "]"
  | lbrace => "\x7b"
  | rbrace => "\x7d"
  | semicolon => ";"
  | comma => ","
  | colon => ":"
  | question => "?"
  | dot => "."
  | ellipsis => "..."
  | arrow => "=>"
  | questionDot => "?."
  | questionParen => "?.("
  | questionBrack => "?.["
  | plus => "+"
  | minus => "-"
  | star => "*"
  | slash => "/"
  | percent => "%"
  | starStar => "**"
  | plusPlus => "++"
  | minusMinus => "--"
  | bang => "!"
  | tilde => "~"
  | amp => "&"
  | pipe => "|"
  | caret => "^"
  | shl => "<<"
  | shr => ">>"
  | ampAmp => "&&"
  | pipePipe => "||"
  | questionQuestion => "??"
  | eqEq => "=="
  | bangEq => "!="
  | eqEqEq => "==="
  | bangEqEq => "!=="
  | less => "<"
  | lessEq => "<="
  | greater => ">"
  | greaterEq => ">="
  | assign => "="
  | plusAssign => "+="
  | minusAssign => "-="
  | starAssign => "*="
  | slashAssign => "/="
  | percentAssign => "%="
  | starStarAssign => "**="
  | ampAssign => "&="
  | pipeAssign => "|="
  | caretAssign => "^="
  | shlAssign => "<<="
  | shrAssign => ">>="
  | ampAmpAssign => "&&="
  | pipePipeAssign => "||="
  | questionQuestionAssign => "??="

/-- The name a mark is listed under. -/
def name : Punct → String
  | lparen => "LParen"
  | rparen => "RParen"
  | lbrack => "LBrack"
  | rbrack => "RBrack"
  | lbrace => "LBrace"
  | rbrace => "RBrace"
  | semicolon => "Semicolon"
  | comma => "Comma"
  | colon => "Colon"
  | question => "Question"
  | dot => "Dot"
  | ellipsis => "Ellipsis"
  | arrow => "Arrow"
  | questionDot => "QDot"
  | questionParen => "QLParen"
  | questionBrack => "QLBrack"
  | plus => "Plus"
  | minus => "Minus"
  | star => "Star"
  | slash => "Slash"
  | percent => "Percent"
  | starStar => "StarStar"
  | plusPlus => "PlusPlus"
  | minusMinus => "MinusMinus"
  | bang => "Bang"
  | tilde => "Tilde"
  | amp => "Amp"
  | pipe => "Pipe"
  | caret => "Caret"
  | shl => "Shl"
  | shr => "Shr"
  | ampAmp => "AndAnd"
  | pipePipe => "OrOr"
  | questionQuestion => "Nullish"
  | eqEq => "EqEq"
  | bangEq => "NotEq"
  | eqEqEq => "EqEqEq"
  | bangEqEq => "NotEqEq"
  | less => "Less"
  | lessEq => "LessEq"
  | greater => "Greater"
  | greaterEq => "GreaterEq"
  | assign => "Assign"
  | plusAssign => "PlusAssign"
  | minusAssign => "MinusAssign"
  | starAssign => "StarAssign"
  | slashAssign => "SlashAssign"
  | percentAssign => "PercentAssign"
  | starStarAssign => "StarStarAssign"
  | ampAssign => "AmpAssign"
  | pipeAssign => "PipeAssign"
  | caretAssign => "CaretAssign"
  | shlAssign => "ShlAssign"
  | shrAssign => "ShrAssign"
  | ampAmpAssign => "AndAndAssign"
  | pipePipeAssign => "OrOrAssign"
  | questionQuestionAssign => "NullishAssign"

/-- Every mark, longer ones first. -/
def all : List Punct :=
  [ellipsis, questionParen, questionBrack, eqEqEq, bangEqEq, starStarAssign, shlAssign, shrAssign,
   ampAmpAssign, pipePipeAssign, questionQuestionAssign,
   arrow, questionDot, starStar, plusPlus, minusMinus, shl, shr, ampAmp, pipePipe,
   questionQuestion, eqEq, bangEq, lessEq, greaterEq, plusAssign, minusAssign, starAssign,
   slashAssign, percentAssign, ampAssign, pipeAssign, caretAssign,
   lparen, rparen, lbrack, rbrack, lbrace, rbrace, semicolon, comma, colon, question, dot,
   plus, minus, star, slash, percent, bang, tilde, amp, pipe, caret, less, greater, assign]

/-- The marks of one character. -/
def ofChar? : Char → Option Punct
  | '(' => some lparen
  | ')' => some rparen
  | '[' => some lbrack
  | ']' => some rbrack
  | '\x7b' => some lbrace
  | '\x7d' => some rbrace
  | ';' => some semicolon
  | ',' => some comma
  | ':' => some colon
  | '~' => some tilde
  | '?' => some question
  | '.' => some dot
  | '=' => some assign
  | '!' => some bang
  | '<' => some less
  | '>' => some greater
  | '+' => some plus
  | '-' => some minus
  | '*' => some star
  | '%' => some percent
  | '&' => some amp
  | '|' => some pipe
  | '^' => some caret
  | '/' => some slash
  | _ => none

/-- The marks that one may be the start of, with the text that then follows it. -/
def longer : Punct → List (String × Punct)
  | question => [(".", questionDot), ("?", questionQuestion)]
  | questionDot => [("(", questionParen), ("[", questionBrack)]
  | questionQuestion => [("=", questionQuestionAssign)]
  | dot => [("..", ellipsis)]
  | assign => [("=", eqEq), (">", arrow)]
  | eqEq => [("=", eqEqEq)]
  | bang => [("=", bangEq)]
  | bangEq => [("=", bangEqEq)]
  | less => [("<", shl), ("=", lessEq)]
  | shl => [("=", shlAssign)]
  | greater => [(">", shr), ("=", greaterEq)]
  | shr => [("=", shrAssign)]
  | plus => [("+", plusPlus), ("=", plusAssign)]
  | minus => [("-", minusMinus), ("=", minusAssign)]
  | star => [("*", starStar), ("=", starAssign)]
  | starStar => [("=", starStarAssign)]
  | percent => [("=", percentAssign)]
  | amp => [("&", ampAmp), ("=", ampAssign)]
  | ampAmp => [("=", ampAmpAssign)]
  | pipe => [("|", pipePipe), ("=", pipeAssign)]
  | pipePipe => [("=", pipePipeAssign)]
  | caret => [("=", caretAssign)]
  | slash => [("=", slashAssign)]
  | _ => []

/-- Reads a mark on, if the text behind it goes on with the rest of a longer one. -/
def extend (p : Punct) (cs : List Char) : Punct × List Char :=
  match p.longer.find? fun e => e.1.toList.isPrefixOf cs with
  | some (more, q) => (q, cs.drop more.toList.length)
  | none => (p, cs)

/-- The longest mark that a text starts with: that of its first character, read on twice. -/
def read? : List Char → Option Punct
  | [] => none
  | c :: cs => (ofChar? c).map fun p =>
    let (q, rest) := p.extend cs
    (q.extend rest).1

theorem mem_all (p : Punct) : p ∈ all := by
  cases p <;> decide

/-- No mark is listed before a longer one. -/
theorem all_sorted :
    all.Pairwise fun p q => q.lexeme.toList.length ≤ p.lexeme.toList.length := by
  decide

end Punct

/-- What is wrong with a malformed token. -/
inductive LexError where
  | unexpectedChar
  | unterminatedString
  | unterminatedTemplate
  | unterminatedRegex
  | invalidRegexFlag
  | straySlash
  | unterminatedComment
  | invalidEscape
  | invalidNumber
  deriving DecidableEq, Repr

namespace LexError

/-- The message that reports a malformed token. -/
def message : LexError → String
  | unexpectedChar => "unexpected character"
  | unterminatedString => "unterminated string literal"
  | unterminatedTemplate => "unterminated template literal"
  | unterminatedRegex => "unterminated regular expression literal"
  | invalidRegexFlag => "invalid regular expression flag, expected one of 'g', 'i' or 's'"
  | straySlash => "unexpected '/': not a division, a comment or a regular expression"
  | unterminatedComment => "unterminated block comment"
  | invalidEscape => "invalid escape sequence"
  | invalidNumber => "malformed number literal"

/-- The name a fault is listed under. -/
def name : LexError → String
  | unexpectedChar => "UnexpectedChar"
  | unterminatedString => "UnterminatedString"
  | unterminatedTemplate => "UnterminatedTemplate"
  | unterminatedRegex => "UnterminatedRegex"
  | invalidRegexFlag => "InvalidRegexFlag"
  | straySlash => "StraySlash"
  | unterminatedComment => "UnterminatedComment"
  | invalidEscape => "InvalidEscape"
  | invalidNumber => "InvalidNumber"

end LexError

/-- The kinds of tokens. A `label` is an identifier, a `number` an integer in any radix. -/
inductive TokenKind where
  | keyword (word : Keyword)
  | punct (mark : Punct)
  | label
  | number
  | double
  | string
  | template
  | regexp
  | eof
  | error (fault : LexError)
  deriving DecidableEq, Repr

namespace TokenKind

/-- Whether a token is malformed. -/
def isError : TokenKind → Bool
  | error _ => true
  | _ => false

/-- Whether a token is a reserved word. -/
def isKeyword : TokenKind → Bool
  | keyword _ => true
  | _ => false

/-- Whether a token may be the last one of an expression. A slash after such a token divides; any
other slash opens a regular expression. -/
def endsExpression : TokenKind → Bool
  | keyword k => k.isOperand
  | punct .rparen | punct .rbrack | punct .plusPlus | punct .minusMinus => true
  | label | number | double | string | template | regexp => true
  | _ => false

/-- The written form of the tokens that have only one. -/
def lexeme? : TokenKind → Option String
  | keyword k => some k.lexeme
  | punct p => some p.lexeme
  | _ => none

/-- How a kind is named in messages. -/
def display : TokenKind → String
  | keyword k => "'" ++ k.lexeme ++ "'"
  | punct p => "'" ++ p.lexeme ++ "'"
  | label => "identifier"
  | number => "integer literal"
  | double => "double literal"
  | string => "string literal"
  | template => "template literal"
  | regexp => "regular expression"
  | eof => "end of input"
  | error _ => "invalid token"

/-- The name a kind is listed under. -/
def name : TokenKind → String
  | keyword k => k.name
  | punct p => p.name
  | label => "Label"
  | number => "Number"
  | double => "Double"
  | string => "String"
  | template => "Template"
  | regexp => "Regexp"
  | eof => "Eof"
  | error e => "Error(" ++ e.name ++ ")"

end TokenKind

end ScriptCheck
