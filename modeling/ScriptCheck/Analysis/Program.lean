import ScriptCheck.Analysis.Lint
import ScriptCheck.Analysis.Visit

/-!
# Analysing a program

An analysis answers the scopes and symbols of a program and what was found in it: first what the
visit found, in its order, then the checks of declarations.
-/

namespace ScriptCheck

/-- The symbols of a program, and what was found in it. -/
structure Analysis where
  table : SymbolTable
  findings : List (Located Finding)

namespace Analysis

/-- The region of a program, from the start of the script to the end of its last statement. -/
def region (program : Program) : Span :=
  .between 0 ((program.body.getLast?.map (·.span.hi)).getD 0)

/-- The outermost place of a program. -/
def outermost (passes : PassSet) (fileExists : String → Bool) : Context where
  passes := passes
  fileExists := fileExists
  scope := SymbolTable.root
  depth := 0
  mayBreak := false
  mayContinue := false

/-- The findings of a pass, if it reports. -/
def whenEnabled (passes : PassSet) (pass : Pass) (findings : List (Located Finding)) :
    List (Located Finding) :=
  if passes.enabled pass then findings else []

/-- What is known after all of a program is visited. -/
def visited (passes : PassSet) (fileExists : String → Bool) (program : Program) : Walk.State :=
  let ctx := outermost passes fileExists
  let visit := Walk.sequence ctx program.body (Walk.stmts ctx program.body)
  (visit.run (.initial (region program))).2

/-- Analyses a program. `fileExists` tells which scripts can be imported. -/
def ofProgram (passes : PassSet) (fileExists : String → Bool) (program : Program) : Analysis :=
  let s := visited passes fileExists program
  { table := s.table
    findings := s.findings ++ whenEnabled passes .unusedVariables s.table.unused ++
      whenEnabled passes .shadowing s.table.shadowing }

end Analysis

end ScriptCheck
