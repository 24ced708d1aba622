/-!
# Operators

The operators of expressions, with the names they are shown by.
-/

namespace ScriptCheck

/-- Operators before one operand. -/
inductive UnaryOp where
  | neg | plus | not | bitNot | delete
  deriving DecidableEq, Repr

/-- Operators that change their operand by one. -/
inductive UpdateOp where
  | increment | decrement
  deriving DecidableEq, Repr

/-- Operators between two operands. -/
inductive BinaryOp where
  | add | sub | mul | div | mod | exp
  | eq | ne | strictEq | strictNe | lt | le | gt | ge | isIn
  | bitAnd | bitOr | bitXor | shl | shr
  | and | or | nullish
  deriving DecidableEq, Repr

/-- Assignment, plain or after an operation on the old value. -/
inductive AssignOp where
  | assign
  | compound (op : BinaryOp)
  deriving DecidableEq, Repr

/-- How a unary operator is shown. -/
def UnaryOp.display : UnaryOp → String
  | neg => "Neg"
  | plus => "Plus"
  | not => "Not"
  | bitNot => "BitNot"
  | delete => "Delete"

/-- How an update is shown. -/
def UpdateOp.display : UpdateOp → String
  | increment => "Increment"
  | decrement => "Decrement"

/-- How a binary operator is shown. -/
def BinaryOp.display : BinaryOp → String
  | add => "Add"
  | sub => "Sub"
  | mul => "Mul"
  | div => "Div"
  | mod => "Mod"
  | exp => "Exp"
  | eq => "Eq"
  | ne => "Ne"
  | strictEq => "StrictEq"
  | strictNe => "StrictNe"
  | lt => "Lt"
  | le => "Le"
  | gt => "Gt"
  | ge => "Ge"
  | isIn => "In"
  | bitAnd => "BitAnd"
  | bitOr => "BitOr"
  | bitXor => "BitXor"
  | shl => "Shl"
  | shr => "Shr"
  | and => "And"
  | or => "Or"
  | nullish => "Nullish"

/-- How an assignment is shown. -/
def AssignOp.display : AssignOp → String
  | assign => "Assign"
  | compound op => "Compound(" ++ op.display ++ ")"

/-- The groups of binary operators, which differ in what they evaluate and answer. -/
inductive BinaryFamily where
  /-- The right operand runs only if the left one does not decide. -/
  | shortCircuit
  | comparison
  | bitwise
  | arithmetic
  deriving DecidableEq, Repr

/-- Whether a binary operator runs its right operand only if the left one does not decide. -/
def BinaryOp.isShortCircuit (op : BinaryOp) : Bool := op == and || op == or || op == nullish

/-- The group of a binary operator. -/
def BinaryOp.family : BinaryOp → BinaryFamily
  | and | or | nullish => .shortCircuit
  | eq | ne | strictEq | strictNe | lt | le | gt | ge | isIn => .comparison
  | bitAnd | bitOr | bitXor | shl | shr => .bitwise
  | add | sub | mul | div | mod | exp => .arithmetic

end ScriptCheck
