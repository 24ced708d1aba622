import ScriptCheck.Typing.Basic

/-!
# Signatures

How built-in functions, values and modules are described.
-/

namespace ScriptCheck.Builtin

/-- What a signature says about a value. -/
inductive Shape where
  | any
  | integer
  | double
  /-- An integer or a double. -/
  | number
  | string
  | boolean
  | null
  | regexp
  | array
  | object
  | function
  | resource (tag : String)
  deriving DecidableEq, Repr

/-- The type of the values of a shape. -/
def Shape.ty : Shape → Ty
  | any => .unknown
  | integer => .integer
  | double => .double
  | number => .number
  | string => .string
  | boolean => .boolean
  | null => .null
  | regexp => .regexp
  | array => .array .unknown
  | object => .object
  | function => .function [] .unknown
  | resource tag => .resource tag

/-- The type of a value that has one of some shapes. -/
def tyOf (shapes : List Shape) : Ty := .unionOf (shapes.map Shape.ty)

/-- A shape, or null. -/
def orNull (shape : Shape) : List Shape := [shape, .null]

/-- A value with a tag, or null. -/
def handle (tag : String) : List Shape := orNull (.resource tag)

/-- A function: the names of its parameters, of which a last one with leading dots takes any number
of arguments, how many arguments it needs, and what it returns. -/
structure Signature where
  name : String
  params : List String
  required : Nat
  returns : List Shape
  deriving DecidableEq, Repr

/-- The type of a function. -/
def Signature.ty (f : Signature) : Ty := .function f.params (tyOf f.returns)

/-- A value with a name. -/
structure Constant where
  name : String
  shape : Shape
  deriving DecidableEq, Repr

/-- The type of a value. -/
def Constant.ty (c : Constant) : Ty := tyOf [c.shape]

/-- Integers with names. -/
def integers (names : List String) : List Constant := names.map (⟨·, .integer⟩)

/-- The methods of the values with a tag. -/
structure ObjectType where
  tag : String
  methods : List Signature
  deriving DecidableEq, Repr

/-- A module: what it exports, and the values that it makes. -/
structure Module where
  name : String
  functions : List Signature
  constants : List Constant := []
  objectTypes : List ObjectType := []
  deriving DecidableEq, Repr

namespace Module

/-- The function that a module exports under a name. -/
def function? (m : Module) (name : String) : Option Signature :=
  m.functions.find? (·.name == name)

/-- The value that a module exports under a name. -/
def constant? (m : Module) (name : String) : Option Constant :=
  m.constants.find? (·.name == name)

/-- Whether a module exports a name. -/
def exports (m : Module) (name : String) : Bool :=
  (m.function? name).isSome || (m.constant? name).isSome

/-- The type of what a module exports under a name. -/
def member? (m : Module) (name : String) : Option Ty :=
  (m.function? name).map Signature.ty <|> (m.constant? name).map Constant.ty

/-- The methods of the values with a tag that a module makes. -/
def methods? (m : Module) (tag : String) : Option (List Signature) :=
  (m.objectTypes.find? (·.tag == tag)).map ObjectType.methods

/-- The first of the values that a module makes which have a method. -/
def withMethod? (m : Module) (name : String) : Option ObjectType :=
  m.objectTypes.find? fun o => o.methods.any (·.name == name)

end Module

end ScriptCheck.Builtin
