import ScriptCheck.CommandLine.FileTree
import ScriptCheck.CommandLine.Options
import ScriptCheck.Report.Check
import ScriptCheck.Text.Quoted
import ScriptCheck.Tree.Outline

/-!
# The command

Checks scripts one after the other and prints what was found. A script that cannot be read ends the
run; what was printed before stays.
-/

namespace ScriptCheck.CommandLine

/-- What was printed for a script, and whether an error was found in it. -/
structure Report where
  text : String
  failed : Bool

/-- A token and its text, on a line. -/
def tokenLine (t : Token) : String := t.display ++ " " ++ Text.quoteString t.word ++ "\n"

/-- A diagnostic with the place where it starts, on a line. Lines and columns count from one. -/
def diagnosticLine (path : String) (source : List Char) (d : Diagnostic) : String :=
  let p := Text.editorPosition source d.span.lo
  path ++ ":" ++ toString (p.line + 1) ++ ":" ++ toString (p.character + 1) ++ ": " ++ d.display ++
    " [" ++ d.origin.display ++ "]\n"

/-- A path read from its end, without the slashes and the parts that stay in place there. -/
def withoutIdleParts : List Char → List Char
  | '/' :: rest => withoutIdleParts rest
  | '.' :: '/' :: rest => withoutIdleParts rest
  | path => path

/-- What stands before a name to lead to the directory of a script: nothing for a script named
alone, and a path that ends with a slash otherwise. -/
def directoryOf (script : String) : String :=
  match script.toList.reverse.dropWhile (· ≠ '/') with
  | [] => ""
  | path => String.ofList ('/' :: withoutIdleParts path).reverse

/-- The path of an import, from where the command runs. The imports of a script are looked up in its
directory. -/
def importPath (script path : String) : String :=
  if path.toList.head? = some '/' then path else directoryOf script ++ path

/-- What is printed for a script. -/
def report (o : Options) (isFile : String → Bool) (path text : String) : Report :=
  let source := text.toList
  let checked := check o.mode o.passes (fun p => isFile (importPath path p)) source
  let tokens := if o.tokens then (tokenize o.mode source).map tokenLine else []
  let tree := if o.tree then [checked.program.outline] else []
  { text := String.join (tokens ++ tree ++ checked.diagnostics.map (diagnosticLine path source))
    failed := checked.diagnostics.any (·.severity == .error) }

/-- The paths of the scripts that a script imports, from where the command runs. -/
def importPaths (o : Options) (path text : String) : List String :=
  let program := (parse o.mode text.toList).program
  (Analysis.ofProgram .all (fun _ => false) program).findings.filterMap fun f =>
    match f.value with
    | .moduleNotFound source => (Builtin.scriptPath? source).map (importPath path)
    | _ => none

/-- What a run leaves behind. The text of errors is not given where it depends on more than the
scripts. -/
structure Outcome where
  stdout : String
  stderr : Option String
  code : Nat

/-- The code of a run in which nothing went wrong. -/
def successCode : Nat := 0

/-- The code of a run that found an error. -/
def failureCode : Nat := 1

/-- The code of a run that did not come to its end. -/
def brokenCode : Nat := 2

/-- The code of a run that came to its end. -/
def codeOf (failed : Bool) : Nat := if failed then failureCode else successCode

/-- The message about a script that cannot be read. -/
def brokenMessage (path reason : String) : String :=
  "failed to run: " ++ path ++ ": " ++ reason ++ "\n"

/-- Checks scripts, after some output. -/
def runFrom (o : Options) (files : FileTree) (stdout : String) (failed : Bool) :
    List String → Outcome
  | [] => ⟨stdout, some "", codeOf failed⟩
  | path :: rest =>
    match files.read path with
    | .error e => ⟨stdout, some (brokenMessage path e.message), brokenCode⟩
    | .ok text =>
      let r := report o files.isFile path text
      runFrom o files (stdout ++ r.text) (failed || r.failed) rest

/-- What the command prints about itself. -/
def helpText : String :=
  "Checks ucode scripts, printing their diagnostics

Usage: ucode-check [OPTIONS] <FILES>...

Arguments:
  <FILES>...  Scripts to check

Options:
      --raw              Lex every bare word as an identifier, as in raw mode templates
      --passes <PASSES>  Analysis passes, as a comma separated list of changes to the default " ++
  "(e.g. \"no-shadowing\" or \"none,types\") [default: all]
      --tokens           Print the tokens of each script
      --ast              Print the syntax tree of each script
  -h, --help             Print help
  -V, --version          Print version
"

/-- The name and the version of the command. -/
def versionText : String := "ucode-check 0.0.1\n"

/-- Runs the command on a tree of files. -/
def run (args : List String) (files : FileTree) : Outcome :=
  match read args with
  | .error _ => ⟨"", none, brokenCode⟩
  | .ok .help => ⟨helpText, some "", successCode⟩
  | .ok .version => ⟨versionText, some "", successCode⟩
  | .ok (.run o) => runFrom o files "" false o.scripts

end ScriptCheck.CommandLine
