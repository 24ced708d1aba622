import ScriptCheck.Analysis.Pass
import ScriptCheck.Token.Scan

/-!
# Options

What the arguments of the command ask for. They are read from left to right; each option may be
given once, in any place, and what follows two hyphens is the name of a script.
-/

namespace ScriptCheck.CommandLine

/-- What to do with which scripts. -/
structure Options where
  scripts : List String
  mode : LexMode
  passes : PassSet
  /-- Whether to print the tokens. -/
  tokens : Bool
  /-- Whether to print the tree. -/
  tree : Bool

/-- What the arguments ask for. -/
inductive Request where
  | help
  | version
  | run (options : Options)

/-- The arguments cannot be understood. -/
structure Misuse where
  deriving DecidableEq, Repr

/-- The options read so far. -/
structure Given where
  scripts : List String
  raw : Bool
  passes : Option PassSet
  tokens : Bool
  tree : Bool

namespace Given

/-- No option is read yet. -/
def nothing : Given := ⟨[], false, none, false, false⟩

/-- Adds a script, whose name is not empty. -/
def addScript (g : Given) (name : String) : Except Misuse Given :=
  if name = "" then .error {} else .ok { g with scripts := g.scripts ++ [name] }

/-- Adds scripts. -/
def addScripts (g : Given) (names : List String) : Except Misuse Given :=
  names.foldlM addScript g

/-- Sets the passes, once. -/
def setPasses (g : Given) (changes : List Char) : Except Misuse Given :=
  match g.passes, PassSet.read changes with
  | none, .ok passes => .ok { g with passes := some passes }
  | _, _ => .error {}

/-- Sets an option without a value, once. -/
def setFlag (g : Given) (name : String) : Except Misuse Given :=
  if name = "--raw" ∧ !g.raw then .ok { g with raw := true }
  else if name = "--tokens" ∧ !g.tokens then .ok { g with tokens := true }
  else if name = "--ast" ∧ !g.tree then .ok { g with tree := true }
  else .error {}

/-- What is asked for once all arguments are read. At least one script is needed. -/
def request (g : Given) : Except Misuse Request :=
  if g.scripts = [] then .error {}
  else .ok (.run
    { scripts := g.scripts
      mode := if g.raw then .raw else .normal
      passes := g.passes.getD .all
      tokens := g.tokens
      tree := g.tree })

end Given

/-- Whether an argument is an option. A single hyphen is the name of a script. -/
def isOption (arg : String) : Bool :=
  match arg.toList with
  | '-' :: _ :: _ => true
  | _ => false

/-- The value that an argument gives to the option for passes. -/
def passesValue? (arg : String) : Option (List Char) :=
  let start := "--passes=".toList
  if start.isPrefixOf arg.toList then some (arg.toList.drop start.length) else none

/-- Reads the arguments after those read so far. -/
def readFrom (g : Given) : List String → Except Misuse Request
  | [] => g.request
  | "--" :: scripts => do
    let g ← g.addScripts scripts
    g.request
  | "--help" :: _ => .ok .help
  | "--version" :: _ => .ok .version
  | "--passes" :: rest =>
    match rest with
    | value :: rest =>
      if isOption value then .error {}
      else do
        let g ← g.setPasses value.toList
        readFrom g rest
    | [] => .error {}
  | arg :: rest =>
    match passesValue? arg, arg.toList with
    | some changes, _ => do
      let g ← g.setPasses changes
      readFrom g rest
    | none, '-' :: 'h' :: _ => .ok .help
    | none, '-' :: 'V' :: _ => .ok .version
    | none, _ => do
      let g ← if isOption arg then g.setFlag arg else g.addScript arg
      readFrom g rest

/-- What the arguments of the command ask for. -/
def read (args : List String) : Except Misuse Request := readFrom .nothing args

end ScriptCheck.CommandLine
