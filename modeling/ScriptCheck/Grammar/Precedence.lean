import ScriptCheck.Token.Kind
import ScriptCheck.Tree.Operator

/-!
# Precedence

The operators that follow their first operand, and how strongly they bind. An operator with left
power `l` takes the expression before it as its operand where at least the power `m ≤ l` is asked
for; the operand after it is read with the operator's right power asked for. An operator groups to
the left if its right power is the greater one, and to the right otherwise.
-/

namespace ScriptCheck

/-- What can be applied to an expression before it. -/
inductive Infix where
  | assign (op : AssignOp)
  | conditional
  | binary (op : BinaryOp)
  | update (op : UpdateOp)
  | member (optional : Bool)
  | call (optional : Bool)
  | index (optional : Bool)
  deriving DecidableEq, Repr

/-- The operator that a mark stands for after an expression. -/
def Punct.operator? : Punct → Option Infix
  | .assign => some (.assign .assign)
  | .plusAssign => some (.assign (.compound .add))
  | .minusAssign => some (.assign (.compound .sub))
  | .starAssign => some (.assign (.compound .mul))
  | .slashAssign => some (.assign (.compound .div))
  | .percentAssign => some (.assign (.compound .mod))
  | .starStarAssign => some (.assign (.compound .exp))
  | .ampAssign => some (.assign (.compound .bitAnd))
  | .pipeAssign => some (.assign (.compound .bitOr))
  | .caretAssign => some (.assign (.compound .bitXor))
  | .shlAssign => some (.assign (.compound .shl))
  | .shrAssign => some (.assign (.compound .shr))
  | .ampAmpAssign => some (.assign (.compound .and))
  | .pipePipeAssign => some (.assign (.compound .or))
  | .questionQuestionAssign => some (.assign (.compound .nullish))
  | .question => some .conditional
  | .questionQuestion => some (.binary .nullish)
  | .pipePipe => some (.binary .or)
  | .ampAmp => some (.binary .and)
  | .pipe => some (.binary .bitOr)
  | .caret => some (.binary .bitXor)
  | .amp => some (.binary .bitAnd)
  | .eqEq => some (.binary .eq)
  | .bangEq => some (.binary .ne)
  | .eqEqEq => some (.binary .strictEq)
  | .bangEqEq => some (.binary .strictNe)
  | .less => some (.binary .lt)
  | .lessEq => some (.binary .le)
  | .greater => some (.binary .gt)
  | .greaterEq => some (.binary .ge)
  | .shl => some (.binary .shl)
  | .shr => some (.binary .shr)
  | .plus => some (.binary .add)
  | .minus => some (.binary .sub)
  | .star => some (.binary .mul)
  | .slash => some (.binary .div)
  | .percent => some (.binary .mod)
  | .starStar => some (.binary .exp)
  | .plusPlus => some (.update .increment)
  | .minusMinus => some (.update .decrement)
  | .dot => some (.member false)
  | .questionDot => some (.member true)
  | .lparen => some (.call false)
  | .questionParen => some (.call true)
  | .lbrack => some (.index false)
  | .questionBrack => some (.index true)
  | _ => none

/-- The operator that a token stands for after an expression. -/
def TokenKind.operator? : TokenKind → Option Infix
  | .punct p => p.operator?
  | .keyword .inKw => some (.binary .isIn)
  | _ => none

/-- Left and right power of a binary operator. -/
def BinaryOp.powers : BinaryOp → Nat × Nat
  | .nullish => (5, 6)
  | .or => (7, 8)
  | .and => (9, 10)
  | .bitOr => (11, 12)
  | .bitXor => (13, 14)
  | .bitAnd => (15, 16)
  | .eq | .ne | .strictEq | .strictNe => (17, 18)
  | .lt | .le | .gt | .ge | .isIn => (19, 20)
  | .shl | .shr => (21, 22)
  | .add | .sub => (23, 24)
  | .mul | .div | .mod => (25, 26)
  | .exp => (28, 27)

namespace Infix

/-- Left and right power of what follows an expression. -/
def powers : Infix → Nat × Nat
  | assign _ => (2, 1)
  | conditional => (4, 3)
  | binary op => op.powers
  | update _ => (31, 32)
  | member _ | call _ | index _ => (33, 34)

/-- How strongly an operator binds the expression before it. -/
def left (op : Infix) : Nat := op.powers.1

/-- How strongly an operator binds the expression after it. -/
def right (op : Infix) : Nat := op.powers.2

end Infix

/-- The power asked for in the operand after a prefix operator. -/
def prefixPower : Nat := 29

/-- The unary operator that a token stands for before an expression. -/
def TokenKind.unary? : TokenKind → Option UnaryOp
  | .punct .minus => some .neg
  | .punct .plus => some .plus
  | .punct .bang => some .not
  | .punct .tilde => some .bitNot
  | .keyword .deleteKw => some .delete
  | _ => none

/-- The update that a token stands for before an expression. -/
def TokenKind.update? : TokenKind → Option UpdateOp
  | .punct .plusPlus => some .increment
  | .punct .minusMinus => some .decrement
  | _ => none

end ScriptCheck
