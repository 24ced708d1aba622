import ScriptCheck.Text.Blank

/-!
# Sources of imports

An import names a module, or gives the path of a script. A path starts with a slash or with one or
two dots and a slash.
-/

namespace ScriptCheck.Builtin

open Text

/-- Whether the source of an import is a path. -/
def isPath (source : String) : Bool :=
  ["./", "../", "/"].any (·.toList.isPrefixOf source.toList)

/-- The parts of a path that name something: without empty ones and single dots. -/
def pathParts (path : String) : List (List Char) :=
  (splitAtChar '/' path.toList).filter fun part => part != [] && part != ['.']

/-- The extension of scripts. -/
def extension : String := ".uc"

/-- Whether a path ends with the name of a script: a name before the extension. Slashes and single
dots at the end of the path do not count. -/
def isScriptPath (path : String) : Bool :=
  match (pathParts path).getLast? with
  | some name => extension.toList.isSuffixOf name && extension.length < name.length
  | none => false

/-- The path of the script that is imported from a source; nothing for a module. The extension is
added if it is missing. -/
def scriptPath? (source : String) : Option String :=
  if isPath source then
    some (if isScriptPath source then source else source ++ extension)
  else
    none

end ScriptCheck.Builtin
