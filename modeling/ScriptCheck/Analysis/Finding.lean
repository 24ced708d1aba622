import ScriptCheck.Analysis.Pass
import ScriptCheck.Report.Severity
import ScriptCheck.Typing.Basic

/-!
# Findings

What an analysis finds wrong or doubtful in a program.
-/

namespace ScriptCheck

/-- Something found in a program. -/
inductive Finding where
  | redeclaration (name : String)
  | undefinedVariable (name : String)
  | assignToConstant (name : String)
  | notExported (name module_ : String)
  | moduleNotFound (source : String)
  | unknownMethod (tag method : String)
  /-- A method of values that a module makes is taken for one of its functions. -/
  | instanceMethod (method tag module_ : String)
  | unknownMember (member module_ : String)
  | notCallable (type : Ty)
  | tooFewArguments (name : String) (expected found : Nat)
  | arithmeticOnCompound (type : Ty)
  | breakOutsideLoop
  | continueOutsideLoop
  | unreachable
  | unused (name : String)
  | shadowing (name : String)
  deriving DecidableEq

namespace Finding

/-- The message that reports a finding. -/
def message : Finding → String
  | redeclaration name => "`" ++ name ++ "` is already declared in this scope"
  | undefinedVariable name => "`" ++ name ++ "` is not defined"
  | assignToConstant name => "cannot assign to constant `" ++ name ++ "`"
  | notExported name m => "`" ++ name ++ "` is not exported by the `" ++ m ++ "` module"
  | moduleNotFound source => "cannot find module `" ++ source ++ "`"
  | unknownMethod tag method => "`" ++ tag ++ "` has no method `" ++ method ++ "`"
  | instanceMethod method tag m =>
    "`" ++ method ++ "` is a method of `" ++ tag ++ "` values, not a function of module `" ++ m ++
      "`"
  | unknownMember member m => "module `" ++ m ++ "` has no member `" ++ member ++ "`"
  | notCallable type => "value of type `" ++ type.display ++ "` is not callable"
  | tooFewArguments name expected found =>
    "`" ++ name ++ "` expects at least " ++ toString expected ++ " argument" ++
      (if expected = 1 then "" else "s") ++ ", but got " ++ toString found
  | arithmeticOnCompound type => "arithmetic on a value of type `" ++ type.display ++ "`"
  | breakOutsideLoop => "`break` outside of a loop or switch"
  | continueOutsideLoop => "`continue` outside of a loop"
  | unreachable => "unreachable code"
  | unused name => "`" ++ name ++ "` is declared but never used"
  | shadowing name => "`" ++ name ++ "` shadows a declaration in an outer scope"

/-- How grave a finding is. -/
def severity : Finding → Severity
  | undefinedVariable _ | arithmeticOnCompound _ | unused _ | shadowing _ => .warning
  | unreachable => .hint
  | _ => .error

/-- The pass that a finding belongs to. -/
def pass : Finding → Pass
  | redeclaration _ | undefinedVariable _ | assignToConstant _ | notExported _ _
  | moduleNotFound _ => .scopeAnalysis
  | unknownMethod _ _ | instanceMethod _ _ _ | unknownMember _ _ | notCallable _
  | tooFewArguments _ _ _ | arithmeticOnCompound _ => .typeChecking
  | breakOutsideLoop | continueOutsideLoop | unreachable => .controlFlow
  | unused _ => .unusedVariables
  | shadowing _ => .shadowing

end Finding

end ScriptCheck
