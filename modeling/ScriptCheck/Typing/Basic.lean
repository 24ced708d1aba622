/-!
# Types

The types that are inferred for values. `Ty.unknown` stands for anything that cannot be told. A
value of several types has a union, which `Ty.unionOf` makes: it has at least two alternatives, all
different, and none of them is a union or unknown.
-/

namespace ScriptCheck

/-- The type of a value. -/
inductive Ty where
  | unknown
  | integer
  | double
  | string
  | boolean
  | null
  | regexp
  | array (element : Ty)
  | object
  | function (params : List String) (result : Ty)
  /-- All that a built-in module exports. -/
  | namespaceOf (name : String)
  /-- A value made by a built-in module, with methods that its tag tells. -/
  | resource (tag : String)
  | union (alternatives : List Ty)
  deriving Repr, Inhabited

namespace Ty

/-! ### Equality -/

mutual

/-- Whether two types are equal. -/
def same (s t : Ty) : Bool :=
  match s, t with
  | unknown, unknown | integer, integer | double, double | string, string | boolean, boolean
  | null, null | regexp, regexp | object, object => true
  | array a, array b => same a b
  | function ps a, function qs b => ps == qs && same a b
  | namespaceOf m, namespaceOf n => m == n
  | resource m, resource n => m == n
  | union as, union bs => sameAll as bs
  | _, _ => false

/-- Whether two lists of types are equal. -/
def sameAll (ss ts : List Ty) : Bool :=
  match ss, ts with
  | [], [] => true
  | s :: ss, t :: ts => same s t && sameAll ss ts
  | _, _ => false

end

mutual

theorem same_iff (s t : Ty) : same s t = true ↔ s = t := by
  match s with
  | unknown | integer | double | string | boolean | null | regexp | object =>
    cases t <;> simp [same]
  | array a => cases t <;> simp [same, same_iff a]
  | function ps a => cases t <;> simp [same, same_iff a]
  | namespaceOf m => cases t <;> simp [same]
  | resource m => cases t <;> simp [same]
  | union as => cases t <;> simp [same, sameAll_iff as]

theorem sameAll_iff (ss ts : List Ty) : sameAll ss ts = true ↔ ss = ts := by
  match ss with
  | [] => cases ts <;> simp [sameAll]
  | s :: ss => cases ts <;> simp [sameAll, same_iff s, sameAll_iff ss]

end

instance : DecidableEq Ty := fun s t => decidable_of_iff (same s t = true) (same_iff s t)

/-! ### Unions -/

/-- The alternatives of a union; any other type is its only alternative. -/
def alternatives : Ty → List Ty
  | union ts => ts
  | t => [t]

/-- The type with given alternatives, which are not unions. -/
def ofAlternatives : List Ty → Ty
  | [] => unknown
  | [t] => t
  | ts => union ts

/-- The union of some types, with the alternatives in the order in which they are first seen. If one
of them is unknown, so is the union; the union of no types is unknown as well. -/
def unionOf (ts : List Ty) : Ty :=
  if ts.contains unknown then unknown else ofAlternatives (ts.flatMap alternatives).eraseDups

/-- The union of two types. -/
def join (s t : Ty) : Ty := unionOf [s, t]

/-- A type without its null alternative. -/
def withoutNull (t : Ty) : Ty := unionOf (t.alternatives.filter (· ≠ null))

/-- An integer or a double. -/
def number : Ty := unionOf [integer, double]

/-! ### What values of a type can do -/

/-- Whether all values of a type are numbers. -/
def isNumeric (t : Ty) : Bool :=
  t.alternatives.all fun
    | integer | double => true
    | _ => false

/-- Whether some value of a type may be called. -/
def isCallable (t : Ty) : Bool :=
  t.alternatives.any fun
    | function _ _ | unknown => true
    | _ => false

/-- Whether some value of a type cannot take part in arithmetic. -/
def isCompound (t : Ty) : Bool :=
  t.alternatives.any fun
    | array _ | object | function _ _ | namespaceOf _ => true
    | _ => false

/-- The tags of a type. -/
def resources (t : Ty) : List String :=
  t.alternatives.filterMap fun
    | resource tag => some tag
    | _ => none

/-- What a call returns. -/
def result? : Ty → Option Ty
  | function _ result => some result
  | _ => none

/-! ### Text -/

mutual

/-- A type as it is shown. -/
def display (t : Ty) : String :=
  match t with
  | unknown => "unknown"
  | integer => "integer"
  | double => "double"
  | string => "string"
  | boolean => "boolean"
  | null => "null"
  | regexp => "regexp"
  | array unknown => "array"
  | array element => "array<" ++ display element ++ ">"
  | object => "object"
  | function params result =>
    "function(" ++ String.intercalate ", " params ++ "): " ++ display result
  | namespaceOf name => "module(" ++ name ++ ")"
  | resource tag => tag
  | union ts => String.intercalate " | " (displayAll ts)

/-- Alternatives as they are shown; a function stands in parentheses, so that its result does not
run into the next alternative. -/
def displayAll (ts : List Ty) : List String :=
  match ts with
  | [] => []
  | function params result :: ts =>
    ("(" ++ "function(" ++ String.intercalate ", " params ++ "): " ++ display result ++ ")") ::
      displayAll ts
  | t :: ts => display t :: displayAll ts

end

end Ty

end ScriptCheck
