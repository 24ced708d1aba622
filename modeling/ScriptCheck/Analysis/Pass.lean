import ScriptCheck.Text.Blank

/-!
# Passes

The findings of an analysis are grouped into passes, which can be switched off and on. A list of
changes, separated by commas, is applied from left to right to the set of all passes: `name`
switches a pass on, `no-name` off, `all` and `no-all` change every pass, and `none` switches every
pass off.
-/

namespace ScriptCheck

open Text

/-- A group of findings. -/
inductive Pass where
  | typeChecking | scopeAnalysis | controlFlow | unusedVariables | shadowing
  deriving DecidableEq, Repr

/-- The pass with a name. Some have a short name too. -/
def Pass.ofName? (name : List Char) : Option Pass :=
  if name = "types".toList ∨ name = "type-checking".toList then some typeChecking
  else if name = "scopes".toList ∨ name = "scope-analysis".toList then some scopeAnalysis
  else if name = "control-flow".toList then some controlFlow
  else if name = "unused".toList ∨ name = "unused-variables".toList then some unusedVariables
  else if name = "shadowing".toList then some shadowing
  else none

/-- Which passes report what they find. -/
structure PassSet where
  typeChecking : Bool
  scopeAnalysis : Bool
  controlFlow : Bool
  unusedVariables : Bool
  shadowing : Bool
  deriving DecidableEq, Repr

namespace PassSet

/-- Every pass in one state. -/
def every (on : Bool) : PassSet := ⟨on, on, on, on, on⟩

/-- All passes. -/
def all : PassSet := every true

/-- No pass. -/
def none : PassSet := every false

/-- Whether a pass reports. -/
def enabled (s : PassSet) : Pass → Bool
  | .typeChecking => s.typeChecking
  | .scopeAnalysis => s.scopeAnalysis
  | .controlFlow => s.controlFlow
  | .unusedVariables => s.unusedVariables
  | .shadowing => s.shadowing

/-- Switches a pass. -/
def set (s : PassSet) (pass : Pass) (on : Bool) : PassSet :=
  match pass with
  | .typeChecking => { s with typeChecking := on }
  | .scopeAnalysis => { s with scopeAnalysis := on }
  | .controlFlow => { s with controlFlow := on }
  | .unusedVariables => { s with unusedVariables := on }
  | .shadowing => { s with shadowing := on }

/-- Switching a pass changes that pass only. -/
theorem enabled_set (s : PassSet) (pass other : Pass) (on : Bool) :
    (s.set pass on).enabled other = if other = pass then on else s.enabled other := by
  cases pass <;> cases other <;> rfl

end PassSet

/-! ### Lists of changes -/

/-- A change to the set of passes. -/
inductive PassChange where
  | every (on : Bool)
  | one (pass : Pass) (on : Bool)
  deriving DecidableEq, Repr

namespace PassChange

/-- A name in a list that is not that of a pass. -/
structure Unknown where
  name : List Char
  deriving DecidableEq, Repr

/-- The message about an unknown name. -/
def Unknown.message (e : Unknown) : String :=
  "unknown analysis pass `" ++ String.ofList e.name ++ "`"

/-- An item of a list without its `no-`, and whether it switches on. -/
def polarity : List Char → List Char × Bool
  | 'n' :: 'o' :: '-' :: name => (name, false)
  | name => (name, true)

/-- The change that an item of a list stands for. -/
def ofItem (item : List Char) : Except Unknown PassChange :=
  if item = "none".toList then .ok (.every false)
  else
    let (name, on) := polarity item
    if name = "all".toList then .ok (.every on)
    else
      match Pass.ofName? name with
      | some pass => .ok (.one pass on)
      | none => .error ⟨name⟩

/-- A set of passes after a change. -/
def apply (s : PassSet) : PassChange → PassSet
  | every on => .every on
  | one pass on => s.set pass on

end PassChange

namespace PassSet

/-- The items of a list: what stands between the commas, without blanks around it, unless nothing
is left. -/
def items (text : List Char) : List (List Char) :=
  ((splitAtChar ',' text).map trim).filter (· ≠ [])

/-- The set of passes that a list of changes leaves on. -/
def read (text : List Char) : Except PassChange.Unknown PassSet :=
  return (← (items text).mapM PassChange.ofItem).foldl PassChange.apply all

end PassSet

end ScriptCheck
