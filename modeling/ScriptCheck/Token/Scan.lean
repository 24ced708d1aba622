import ScriptCheck.Text.Blank
import ScriptCheck.Token.Escape
import ScriptCheck.Token.Kind

/-!
# Scanning one token

Each function here looks at a text that starts inside a token and says how many of its characters
still belong to the token, together with the kind of token found. Nothing is ever read twice: the
length alone decides where the next token starts.

Strings and templates are scanned without looking at their values. A backslash takes the next
character with it; that an escape sequence is malformed is only noted. The body of an interpolation
may hold braces, strings and further templates, so the scan of a template keeps the list of what it
stands in.
-/

namespace ScriptCheck

open Text

/-! ### Strings and templates -/

/-- The end of a string or template: how many characters remain to its closing quote, that one
included, and whether they hold a malformed escape sequence. The flag is missing if the literal is
not closed; then the length is that of the part which belongs to it. -/
structure LiteralEnd where
  malformed : Option Bool
  length : Nat
  deriving DecidableEq, Repr

namespace LiteralEnd

/-- The end as seen `n` characters earlier. -/
def shift (n : Nat) (e : LiteralEnd) : LiteralEnd := { e with length := e.length + n }

/-- The end as seen from before an escape sequence. -/
def note (bad : Bool) (e : LiteralEnd) : LiteralEnd :=
  { e with malformed := e.malformed.map (· || bad) }

/-- The kind of a literal with this end: `closed` if nothing is wrong, `unclosed` if it does not
end. -/
def kind (closed : TokenKind) (unclosed : LexError) (e : LiteralEnd) : TokenKind :=
  match e.malformed with
  | none => .error unclosed
  | some true => .error .invalidEscape
  | some false => closed

end LiteralEnd

/-- The end of a string in the text after its opening quote. A line break leaves it unclosed, unless
a backslash stands before it. -/
def stringEnd (quote : Char) : List Char → LiteralEnd
  | [] => ⟨none, 0⟩
  | '\n' :: _ => ⟨none, 0⟩
  | ['\\'] => ⟨none, 1⟩
  | '\\' :: c :: rest =>
    ((stringEnd quote rest).note (!Escape.isValid (c :: rest))).shift 2
  | c :: rest => if c = quote then ⟨some false, 1⟩ else (stringEnd quote rest).shift 1

/-- What a position in a template stands in: the text of a template, the body of an interpolation
with some open braces, or a string in such a body. -/
inductive Enclosure where
  | text
  | body (braces : Nat)
  | quoted (quote : Char)
  deriving DecidableEq, Repr

/-- What the rest of an interpolation stands in after one of its characters. -/
def bodyStep (braces : Nat) (outer : List Enclosure) : Char → List Enclosure
  | '\x7b' => .body (braces + 1) :: outer
  | '\x7d' => if braces = 0 then outer else .body (braces - 1) :: outer
  | '"' => .quoted '"' :: .body braces :: outer
  | '\'' => .quoted '\'' :: .body braces :: outer
  | '`' => .text :: .body braces :: outer
  | _ => .body braces :: outer

/-- The end of a template in a text that stands in the given enclosures, the innermost first. Only
the escape sequences of the outermost template are checked here. -/
def templateEnd : List Enclosure → List Char → LiteralEnd
  | [], _ => ⟨none, 0⟩
  | _ :: _, [] => ⟨none, 0⟩
  | .body braces :: outer, c :: rest => (templateEnd (bodyStep braces outer c) rest).shift 1
  | .quoted _ :: _, ['\\'] => ⟨none, 1⟩
  | .quoted quote :: outer, '\\' :: _ :: rest =>
    (templateEnd (.quoted quote :: outer) rest).shift 2
  | .quoted quote :: outer, c :: rest =>
    (templateEnd (if c = quote || c = '\n' then outer else .quoted quote :: outer) rest).shift 1
  | .text :: outer, '`' :: rest =>
    match outer with
    | [] => ⟨some false, 1⟩
    | _ :: _ => (templateEnd outer rest).shift 1
  | .text :: _, ['\\'] => ⟨none, 1⟩
  | .text :: outer, '\\' :: c :: rest =>
    ((templateEnd (.text :: outer) rest).note
      (outer.isEmpty && !Escape.isValid (c :: rest))).shift 2
  | .text :: outer, '$' :: '\x7b' :: rest =>
    (templateEnd (.body 0 :: .text :: outer) rest).shift 2
  | .text :: outer, _ :: rest => (templateEnd (.text :: outer) rest).shift 1

/-! ### Regular expressions -/

/-- The number of characters through the slash that closes a regular expression, in the text after
its opening slash. A slash in a class of characters does not close it, and no line break may come
before. -/
def regexpLength? (inClass : Bool) : List Char → Option Nat
  | [] => none
  | '\n' :: _ => none
  | ['\\'] => none
  | '\\' :: '\n' :: _ => none
  | '\\' :: _ :: rest => (regexpLength? inClass rest).map (· + 2)
  | '[' :: rest => (regexpLength? true rest).map (· + 1)
  | ']' :: rest => (regexpLength? false rest).map (· + 1)
  | '/' :: rest => if inClass then (regexpLength? inClass rest).map (· + 1) else some 1
  | _ :: rest => (regexpLength? inClass rest).map (· + 1)

/-- A flag of regular expressions. -/
def isRegexpFlag (c : Char) : Bool := c == 'g' || c == 'i' || c == 's'

/-- Scans a regular expression in the text after its opening slash. -/
def scanRegexp (cs : List Char) : TokenKind × Nat :=
  if cs.isEmpty || startsWith isBlank cs then
    (.error .straySlash, 0)
  else
    match regexpLength? false cs with
    | none => (.error .unterminatedRegex, (cs.takeWhile (· != '\n')).length)
    | some n =>
      let flags := (cs.drop n).takeWhile isLetter
      (if flags.all isRegexpFlag then .regexp else .error .invalidRegexFlag, n + flags.length)

/-! ### Numbers and words -/

/-- The number of characters of a class at the start of a text. -/
def runLength (p : Char → Bool) (cs : List Char) : Nat := (cs.takeWhile p).length

/-- A number of which `n` characters of `cs` are read: well formed, unless a word goes on there,
which then belongs to it. -/
def endNumber (kind : TokenKind) (n : Nat) (cs : List Char) : TokenKind × Nat :=
  if startsWith isWordChar (cs.drop n) then
    (.error .invalidNumber, n + runLength isWordChar (cs.drop n))
  else
    (kind, n)

/-- The radix that a letter after a leading zero announces. -/
def radixOf? : Char → Option Nat
  | 'x' | 'X' => some 16
  | 'o' | 'O' => some 8
  | 'b' | 'B' => some 2
  | _ => none

/-- The length of an exponent at the start of a text, its letter and sign included: nothing if no
exponent starts there, zero if it has no digits. -/
def exponentLength? : List Char → Option Nat
  | e :: rest =>
    if e == 'e' || e == 'E' then
      let sign := if startsWith (fun c => c == '+' || c == '-') rest then 1 else 0
      let digits := runLength isDigit (rest.drop sign)
      some (if digits = 0 then 0 else 1 + sign + digits)
    else
      none
  | [] => none

/-- Scans the exponent and the end of a number of which `n` characters of `cs` are read. -/
def scanExponent (kind : TokenKind) (n : Nat) (cs : List Char) : TokenKind × Nat :=
  match exponentLength? (cs.drop n) with
  | none => endNumber kind n cs
  | some 0 => (.error .invalidNumber, n + runLength isWordChar (cs.drop n))
  | some (m + 1) => endNumber .double (n + (m + 1)) cs

/-- Scans a number that starts with a point; `cs` is the text after it. -/
def scanFraction (cs : List Char) : TokenKind × Nat :=
  scanExponent .double (runLength isDigit cs) cs

/-- Scans a decimal number; `cs` is the text after its first digit. -/
def scanDecimal (cs : List Char) : TokenKind × Nat :=
  let n := runLength isDigit cs
  match cs.drop n with
  | '.' :: d :: rest =>
    if isDigit d then scanExponent .double (n + 1 + runLength isDigit (d :: rest)) cs
    else scanExponent .number n cs
  | _ => scanExponent .number n cs

/-- Scans a number with a radix of which a zero and the letter are read. -/
def scanRadix (radix : Nat) (cs : List Char) : TokenKind × Nat :=
  match runLength (isDigitOf radix) cs with
  | 0 => (.error .invalidNumber, runLength isWordChar cs)
  | n + 1 => endNumber .number (n + 1) cs

/-- Scans a number with the given first digit; `cs` is the text after it. -/
def scanNumber (first : Char) (cs : List Char) : TokenKind × Nat :=
  match cs with
  | letter :: rest =>
    match if first = '0' then radixOf? letter else none with
    | some radix =>
      let (kind, n) := scanRadix radix rest
      (kind, n + 1)
    | none => scanDecimal cs
  | [] => (.number, 0)

/-- How the words of a script are read: in raw mode, no word is a keyword. -/
inductive LexMode where
  | normal
  | raw
  deriving DecidableEq, Repr

/-- The kind of a word. -/
def wordKind (mode : LexMode) (word : List Char) : TokenKind :=
  match mode with
  | .raw => .label
  | .normal => ((Keyword.ofWord? word).map TokenKind.keyword).getD .label

/-! ### The token at the start of a text -/

/-- The punctuation mark at the start of a text, read as long as possible. A question mark before a
point and a digit stands alone, since the point belongs to the number. -/
def scanPunct (c : Char) (cs : List Char) : TokenKind × Nat :=
  match c, cs with
  | '?', '.' :: d :: _ =>
    if isDigit d then (.punct .question, 0) else longest
  | _, _ => longest
where
  /-- The longest mark at the start of the text. -/
  longest : TokenKind × Nat :=
    match Punct.read? (c :: cs) with
    | some p => (.punct p, p.lexeme.toList.length - 1)
    | none => (.error .unexpectedChar, 0)

/-- Scans the token at the start of the text `c :: cs`, where no skipped text stands: its kind, and
the number of characters of `cs` that belong to it. A slash divides if `divides` holds, and opens a
regular expression otherwise. -/
def scan (mode : LexMode) (divides : Bool) (c : Char) (cs : List Char) : TokenKind × Nat :=
  if c = '"' || c = '\'' then
    let e := stringEnd c cs
    (e.kind .string .unterminatedString, e.length)
  else if c = '`' then
    let e := templateEnd [.text] cs
    (e.kind .template .unterminatedTemplate, e.length)
  else if isDigit c then
    scanNumber c cs
  else if isWordStart c then
    let n := runLength isWordChar cs
    (wordKind mode (c :: cs.take n), n)
  else if c = '.' && startsWith isDigit cs then
    scanFraction cs
  else if c = '/' && cs.head? = some '*' then
    (.error .unterminatedComment, cs.length)
  else if c = '/' && !divides then
    scanRegexp cs
  else
    scanPunct c cs

end ScriptCheck
