import ScriptCheck.Text.Blank
import ScriptCheck.Text.Measure

/-!
# Trees of files

A directory with all that is in it, and how paths lead through it. Each part of a path before the
last must lead to a directory; a slash at the end asks for a directory too. What lies outside the
directory holds nothing but directories. Names and paths are bounded in bytes: no file has a longer
name, and no longer path is followed.
-/

namespace ScriptCheck

/-- Why there is no text at a path. -/
inductive FileTree.Missing where
  | notFound
  | notDirectory
  | isDirectory
  | nameTooLong
  deriving DecidableEq, Repr

namespace FileTree.Missing

/-- The number by which the machine reports a missing text. -/
def code : Missing → Nat
  | notFound => 2
  | notDirectory => 20
  | isDirectory => 21
  | nameTooLong => 36

/-- What is wrong at a path. -/
def reason : Missing → String
  | notFound => "No such file or directory"
  | notDirectory => "Not a directory"
  | isDirectory => "Is a directory"
  | nameTooLong => "File name too long"

/-- The message that reports a missing text. -/
def message (m : Missing) : String := m.reason ++ " (os error " ++ toString m.code ++ ")"

/-- The reason with a given number. -/
def ofCode? (code : Nat) : Option Missing :=
  [notFound, notDirectory, isDirectory, nameTooLong].find? (·.code == code)

theorem ofCode?_code (m : Missing) : ofCode? m.code = some m := by cases m <;> rfl

end FileTree.Missing

/-- The files of a directory, each with the names that lead to it and its text. -/
structure FileTree where
  files : List (List (List Char) × String)

namespace FileTree

open Text

/-- The tree of files with given paths. Of two texts at one path, the later one counts. -/
def ofList (files : List (String × String)) : FileTree :=
  ⟨files.reverse.map fun (path, text) =>
    ((splitAtChar '/' path.toList).filter fun part => part != [] && part != ['.'], text)⟩

/-- Where a path leads to. -/
inductive Place where
  | file (text : String)
  | directory (names : List (List Char))
  | outside

/-- Whether some file is below a directory. -/
def hasDirectory (t : FileTree) (names : List (List Char)) : Bool :=
  t.files.any fun (path, _) => names.isPrefixOf path

/-- What the names from the top lead to. -/
def at? (t : FileTree) (names : List (List Char)) : Except Missing Place :=
  match t.files.lookup names with
  | some text => .ok (.file text)
  | none => if t.hasDirectory names then .ok (.directory names) else .error .notFound

/-- The most bytes that a name can have. -/
def maxNameBytes : Nat := 255

/-- The most bytes that a path can have. -/
def maxPathBytes : Nat := 4095

/-- What a name in some directory leads to, if it is not too long. -/
def entry (name : List Char) (found : Except Missing Place) : Except Missing Place :=
  if maxNameBytes < bytes name then .error .nameTooLong else found

/-- Follows one part of a path. -/
def step (t : FileTree) (place : Place) (part : List Char) : Except Missing Place :=
  let isHere := part = [] ∨ part = ['.']
  match place with
  | .file _ => .error .notDirectory
  | .directory names =>
    if isHere then .ok (.directory names)
    else if part = ['.', '.'] then
      .ok (if names = [] then .outside else .directory names.dropLast)
    else entry part (t.at? (names ++ [part]))
  | .outside =>
    if isHere ∨ part = ['.', '.'] then .ok .outside else entry part (.error .notFound)

/-- Where a path leads to. One that starts with a slash starts outside. -/
def resolve (t : FileTree) (path : String) : Except Missing Place :=
  if maxPathBytes < bytes path.toList then .error .nameTooLong
  else
    match path.toList with
    | [] => .error .notFound
    | c :: cs =>
      (splitAtChar '/' (c :: cs)).foldlM t.step (if c = '/' then .outside else .directory [])

/-- The text of the file at a path. -/
def read (t : FileTree) (path : String) : Except Missing String := do
  match ← t.resolve path with
  | .file text => return text
  | _ => .error .isDirectory

/-- Whether there is a file at a path. -/
def isFile (t : FileTree) (path : String) : Bool :=
  match t.resolve path with
  | .ok (.file _) => true
  | _ => false

end FileTree

end ScriptCheck
