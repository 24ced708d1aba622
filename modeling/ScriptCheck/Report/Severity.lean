/-!
# Severities

How grave a finding is, numbered as editors expect.
-/

namespace ScriptCheck

/-- How grave a finding is. -/
inductive Severity where
  | error | warning | information | hint
  deriving DecidableEq, Repr

namespace Severity

/-- The number of a severity. -/
def code : Severity → Nat
  | error => 1
  | warning => 2
  | information => 3
  | hint => 4

/-- The severity with a number; a hint for all others. -/
def ofCode : Nat → Severity
  | 1 => error
  | 2 => warning
  | 3 => information
  | _ => hint

/-- A severity as it is shown. -/
def display : Severity → String
  | error => "error"
  | warning => "warning"
  | information => "info"
  | hint => "hint"

theorem ofCode_code (s : Severity) : ofCode s.code = s := by
  cases s <;> rfl

end Severity

end ScriptCheck
