import ScriptCheck.Builtin.Basic

/-!
# Global names

The functions and values that every script can use without an import.
-/

namespace ScriptCheck.Builtin

/-- The functions known to every script. -/
def globals : List Signature := [
  ⟨"print", ["...values"], 0, [.integer]⟩,
  ⟨"printf", ["format", "...args"], 1, [.integer]⟩,
  ⟨"sprintf", ["format", "...args"], 1, [.string]⟩,
  ⟨"warn", ["...values"], 0, [.integer]⟩,
  ⟨"length", ["value"], 1, orNull .integer⟩,
  ⟨"keys", ["object"], 1, orNull .array⟩,
  ⟨"values", ["object"], 1, orNull .array⟩,
  ⟨"exists", ["object", "key"], 2, [.boolean]⟩,
  ⟨"push", ["array", "...values"], 1, [.any]⟩,
  ⟨"pop", ["array"], 1, [.any]⟩,
  ⟨"shift", ["array"], 1, [.any]⟩,
  ⟨"unshift", ["array", "...values"], 1, [.any]⟩,
  ⟨"splice", ["array", "offset", "length", "...values"], 2, [.any]⟩,
  ⟨"slice", ["array", "start", "end"], 1, orNull .array⟩,
  ⟨"join", ["separator", "array"], 2, orNull .string⟩,
  ⟨"split", ["string", "separator", "limit"], 2, orNull .array⟩,
  ⟨"filter", ["array", "callback"], 2, orNull .array⟩,
  ⟨"map", ["array", "callback"], 2, orNull .array⟩,
  ⟨"sort", ["array", "callback"], 1, orNull .array⟩,
  ⟨"reverse", ["value"], 1, [.array, .string, .null]⟩,
  ⟨"uniq", ["array"], 1, orNull .array⟩,
  ⟨"min", ["...values"], 0, [.any]⟩,
  ⟨"max", ["...values"], 0, [.any]⟩,
  ⟨"index", ["haystack", "needle"], 2, orNull .integer⟩,
  ⟨"rindex", ["haystack", "needle"], 2, orNull .integer⟩,
  ⟨"substr", ["string", "offset", "length"], 2, [.string]⟩,
  ⟨"match", ["string", "pattern"], 2, orNull .array⟩,
  ⟨"replace", ["string", "pattern", "replacement", "limit"], 3, [.string]⟩,
  ⟨"uc", ["string"], 1, orNull .string⟩,
  ⟨"lc", ["string"], 1, orNull .string⟩,
  ⟨"trim", ["string", "chars"], 1, [.string]⟩,
  ⟨"ltrim", ["string", "chars"], 1, [.string]⟩,
  ⟨"rtrim", ["string", "chars"], 1, [.string]⟩,
  ⟨"chr", ["...codes"], 0, [.string]⟩,
  ⟨"ord", ["string", "offset"], 1, orNull .integer⟩,
  ⟨"type", ["value"], 1, orNull .string⟩,
  ⟨"int", ["value", "base"], 1, [.integer]⟩,
  ⟨"hex", ["string"], 1, [.integer]⟩,
  ⟨"json", ["value"], 1, [.any]⟩,
  ⟨"b64enc", ["string"], 1, orNull .string⟩,
  ⟨"b64dec", ["string"], 1, orNull .string⟩,
  ⟨"hexenc", ["string"], 1, orNull .string⟩,
  ⟨"hexdec", ["string", "skipchars"], 1, orNull .string⟩,
  ⟨"iptoarr", ["address"], 1, orNull .array⟩,
  ⟨"arrtoip", ["array"], 1, orNull .string⟩,
  ⟨"regexp", ["source", "flags"], 1, [.regexp]⟩,
  ⟨"wildcard", ["subject", "pattern", "nocase"], 2, [.boolean]⟩,
  ⟨"time", [], 0, [.integer]⟩,
  ⟨"localtime", ["epoch"], 0, [.object]⟩,
  ⟨"gmtime", ["epoch"], 0, [.object]⟩,
  ⟨"timelocal", ["datetime"], 1, orNull .integer⟩,
  ⟨"timegm", ["datetime"], 1, orNull .integer⟩,
  ⟨"clock", ["monotonic"], 0, orNull .array⟩,
  ⟨"sleep", ["milliseconds"], 1, [.boolean]⟩,
  ⟨"system", ["command", "timeout"], 1, orNull .integer⟩,
  ⟨"getenv", ["name"], 0, [.string, .object, .null]⟩,
  ⟨"die", ["message"], 0, [.null]⟩,
  ⟨"exit", ["code"], 0, [.null]⟩,
  ⟨"assert", ["condition", "message"], 1, [.any]⟩,
  ⟨"require", ["name"], 1, [.any]⟩,
  ⟨"include", ["path", "scope"], 1, [.null]⟩,
  ⟨"render", ["template", "...args"], 1, [.string]⟩,
  ⟨"loadstring", ["code", "options"], 1, [.function]⟩,
  ⟨"loadfile", ["path", "options"], 1, [.function]⟩,
  ⟨"call", ["func", "ctx", "scope", "...args"], 1, [.any]⟩,
  ⟨"signal", ["signal", "handler"], 1, [.any]⟩,
  ⟨"sourcepath", ["depth", "dironly"], 0, orNull .string⟩,
  ⟨"proto", ["value", "prototype"], 1, [.any]⟩,
  ⟨"gc", ["operation", "argument"], 0, [.any]⟩]

/-- The values known to every script. -/
def globalConstants : List Constant := [
  ⟨"global", .object⟩, ⟨"ARGV", .array⟩, ⟨"NaN", .double⟩, ⟨"Infinity", .double⟩,
  ⟨"REQUIRE_SEARCH_PATH", .array⟩]

/-- The function known to every script under a name. -/
def global? (name : String) : Option Signature := globals.find? (·.name == name)

/-- The value known to every script under a name. -/
def globalConstant? (name : String) : Option Constant := globalConstants.find? (·.name == name)

/-- The names known to every script. -/
def globalNames : List String := globals.map (·.name) ++ globalConstants.map (·.name)

end ScriptCheck.Builtin
