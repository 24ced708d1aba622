import ScriptCheck.CommandLine.Run

/-!
# The program

Runs the command on the files of the machine.
-/

namespace ScriptCheck.CommandLine

/-- The number of an error about a path, which the machine reports with either sign. -/
def pathErrorCode? : IO.Error → Option Nat
  | .noFileOrDirectory _ code _
  | .inappropriateType _ code _
  | .invalidArgument _ code _ => some code.toInt32.toInt.natAbs
  | _ => none

/-- The reason why a file could not be read. -/
def readFailure (e : IO.Error) : String :=
  match (pathErrorCode? e).bind FileTree.Missing.ofCode? with
  | some missing => missing.message
  | none => toString e

/-- The text of a file, or why there is none. -/
def readScript (path : String) : IO (Except String String) := do
  try
    return .ok (← IO.FS.readFile path)
  catch e =>
    return .error (readFailure e)

/-- Whether there is a file at a path. -/
def isRegularFile (path : String) : IO Bool := do
  try
    let _ ← IO.FS.readBinFile path
    return true
  catch _ =>
    return false

/-- Checks scripts and prints what was found, as long as they can be read. -/
def checkScripts (o : Options) (failed : Bool) : List String → IO UInt32
  | [] => return (codeOf failed).toUInt32
  | path :: rest => do
    match ← readScript path with
    | .error reason =>
      IO.eprint (brokenMessage path reason)
      return brokenCode.toUInt32
    | .ok text =>
      let found ← (importPaths o path text).filterM isRegularFile
      let r := report o found.contains path text
      IO.print r.text
      checkScripts o (failed || r.failed) rest

/-- Runs the command, and answers its code. -/
def runOnMachine (args : List String) : IO UInt32 := do
  match read args with
  | .error _ =>
    IO.eprint helpText
    return brokenCode.toUInt32
  | .ok .help =>
    IO.print helpText
    return successCode.toUInt32
  | .ok .version =>
    IO.print versionText
    return successCode.toUInt32
  | .ok (.run o) => checkScripts o false o.scripts

end ScriptCheck.CommandLine

/-- Runs the command. -/
def main (args : List String) : IO UInt32 := ScriptCheck.CommandLine.runOnMachine args
