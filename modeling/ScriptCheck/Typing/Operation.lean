import ScriptCheck.Tree.Operator
import ScriptCheck.Typing.Basic

/-!
# Types of operations

The type of what an operation returns, by the types of its operands.
-/

namespace ScriptCheck.Ty

/-- The result of a sign or an update. -/
def numeric (t : Ty) : Ty := if t = unknown ∨ t.isNumeric then t else number

/-- The result of a unary operator. -/
def unary (op : UnaryOp) (t : Ty) : Ty :=
  match op with
  | .neg | .plus => t.numeric
  | .not | .delete => boolean
  | .bitNot => integer

/-- The result of arithmetic on two types that are not text. -/
def arithmeticNumbers : Ty → Ty → Ty
  | unknown, _ | _, unknown => unknown
  | integer, integer => integer
  | double, double => double
  | _, _ => number

/-- The result of arithmetic. Anything added to a text is a text. -/
def arithmetic (op : BinaryOp) (lhs rhs : Ty) : Ty :=
  if op = .add ∧ (lhs = string ∨ rhs = string) then string else arithmeticNumbers lhs rhs

/-- The result of an operator that does not evaluate its right operand if the left one decides. -/
def shortCircuit (op : BinaryOp) (lhs rhs : Ty) : Ty :=
  match op with
  | .nullish => if lhs = null then rhs else lhs.withoutNull.join rhs
  | _ => lhs.join rhs

/-- The type of what an index selects. -/
def indexed : Ty → Ty
  | array element => element
  | string => string
  | _ => unknown

/-- The type of the elements that a spread value adds to an array. -/
def spreadElement : Ty → Ty
  | array element => element
  | _ => unknown

/-- The types of the names of a loop over the values of an expression: of the first of two names,
and of the second or only one. A loop over an object with one name runs over its keys. -/
def forIn (iterable : Ty) (pair : Bool) : Ty × Ty :=
  match iterable, pair with
  | array element, false => (unknown, element)
  | array element, true => (integer, element)
  | object, false => (unknown, string)
  | object, true => (string, unknown)
  | _, _ => (unknown, unknown)

end ScriptCheck.Ty
