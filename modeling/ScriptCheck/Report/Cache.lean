/-!
# Cached results

The latest result for each document, with the version of the document it belongs to. A result for an
older version than the stored one is refused.
-/

namespace ScriptCheck

/-- A result and the version it belongs to. -/
structure Cache.Entry (α : Type) where
  version : Int
  result : α

/-- The latest result for each document, at most one for each. -/
structure Cache (α : Type) where
  entries : List (String × Cache.Entry α)

namespace Cache

variable {α : Type}

/-- No result is stored. -/
def empty : Cache α := ⟨[]⟩

/-- The entry of a document. -/
def entry? (c : Cache α) (id : String) : Option (Entry α) := c.entries.lookup id

/-- The result stored for a document. -/
def get? (c : Cache α) (id : String) : Option α := (c.entry? id).map Entry.result

/-- The version of the result stored for a document. -/
def version? (c : Cache α) (id : String) : Option Int := (c.entry? id).map Entry.version

/-- Forgets a document. -/
def erase (c : Cache α) (id : String) : Cache α := ⟨c.entries.filter (·.1 != id)⟩

/-- Stores a result, whatever is stored before. -/
def insert (c : Cache α) (id : String) (entry : Entry α) : Cache α :=
  ⟨(id, entry) :: (c.erase id).entries⟩

/-- Whether a result for a version is taken. -/
def accepts (c : Cache α) (id : String) (version : Int) : Bool :=
  (c.version? id).all fun stored => stored ≤ version

/-- Stores a result, if it is not for an older version than the stored one. -/
def publish (c : Cache α) (id : String) (version : Int) (result : α) : Cache α :=
  if c.accepts id version then c.insert id ⟨version, result⟩ else c

/-- The number of documents with a result. -/
def size (c : Cache α) : Nat := c.entries.length

end Cache

end ScriptCheck
