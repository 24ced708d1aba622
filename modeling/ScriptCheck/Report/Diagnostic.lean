import ScriptCheck.Analysis.Finding
import ScriptCheck.Grammar.Fault
import ScriptCheck.Report.Severity
import ScriptCheck.Span

/-!
# Diagnostics

One form for all that is reported about a script, wherever it was found.
-/

namespace ScriptCheck

/-- Where a diagnostic comes from. -/
inductive Origin where
  | lexer | parser | analyzer
  deriving DecidableEq, Repr

/-- An origin as it is shown. -/
def Origin.display : Origin → String
  | lexer => "lexer"
  | parser => "parser"
  | analyzer => "analyzer"

/-- A report about a region of a script. -/
structure Diagnostic where
  severity : Severity
  span : Span
  message : String
  origin : Origin
  deriving DecidableEq, Repr

namespace Diagnostic

/-- The report of a fault of grammar. -/
def ofFault (e : Located SyntaxError) : Diagnostic where
  severity := .error
  span := e.span
  message := e.value.message
  origin := if e.value.isLexical then .lexer else .parser

/-- The report of a finding. -/
def ofFinding (f : Located Finding) : Diagnostic where
  severity := f.value.severity
  span := f.span
  message := f.value.message
  origin := .analyzer

/-- A diagnostic as it is shown. -/
def display (d : Diagnostic) : String := d.severity.display ++ ": " ++ d.message

/-- A diagnostic with its region. -/
def displayWithSpan (d : Diagnostic) : String := d.span.display ++ ": " ++ d.display

end Diagnostic

end ScriptCheck
