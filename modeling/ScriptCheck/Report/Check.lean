import ScriptCheck.Analysis.Program
import ScriptCheck.Report.Suppression

/-!
# Checking a script

Reading and analysing a script in one go.
-/

namespace ScriptCheck

/-- All that is known about a script. -/
structure Checked where
  program : Program
  table : SymbolTable
  /-- In the order of their starts. -/
  diagnostics : List Diagnostic

/-- Checks a script. Diagnostics that start at the same place stay in the order in which they were
found, faults of grammar first. -/
def check (mode : LexMode) (passes : PassSet) (fileExists : String → Bool) (source : List Char) :
    Checked :=
  let tokens := tokenize mode source
  let parsed := parseTokens (Text.bytes source) tokens
  let analysis := Analysis.ofProgram passes fileExists parsed.program
  let diagnostics :=
    parsed.errors.map Diagnostic.ofFault ++ analysis.findings.map Diagnostic.ofFinding
  let sorted := diagnostics.mergeSort fun d d' => d.span.lo ≤ d'.span.lo
  { program := parsed.program
    table := analysis.table
    diagnostics := Suppression.kept source tokens sorted }

end ScriptCheck
