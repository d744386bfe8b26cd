import ScriptFront.Token
/-! The operators of expressions and how tightly they bind. -/
namespace ScriptFront.Syntax

inductive UnaryOp where
  | negate | not | length
deriving DecidableEq

/-- The operations that also have an assignment form, as in `x += 1`. -/
inductive Arithmetic where
  | add | subtract | multiply | divide | modulo | power
deriving DecidableEq

inductive BinaryOp where
  | or | and | equal | notEqual | less | lessEqual | greater | greaterEqual | concat
  | arithmetic (op : Arithmetic)
deriving DecidableEq

def UnaryOp.ofToken? : Token → Option UnaryOp
  | .operator .minus => some .negate
  | .operator .hash => some .length
  | .keyword .not_ => some .not
  | _ => none

def BinaryOp.ofOperator? : Operator → Option BinaryOp
  | .doubleEqual => some .equal
  | .notEqual => some .notEqual
  | .less => some .less
  | .lessEqual => some .lessEqual
  | .greater => some .greater
  | .greaterEqual => some .greaterEqual
  | .doubleDot => some .concat
  | .plus => some (.arithmetic .add)
  | .minus => some (.arithmetic .subtract)
  | .star => some (.arithmetic .multiply)
  | .slash => some (.arithmetic .divide)
  | .percent => some (.arithmetic .modulo)
  | .caret => some (.arithmetic .power)
  | _ => none

def BinaryOp.ofToken? : Token → Option BinaryOp
  | .keyword .or_ => some .or
  | .keyword .and_ => some .and
  | .operator op => ofOperator? op
  | _ => none

/-- The operation of an operator such as `+=`. -/
def Arithmetic.ofAssignment? : Operator → Option Arithmetic
  | .plusEqual => some .add
  | .minusEqual => some .subtract
  | .starEqual => some .multiply
  | .slashEqual => some .divide
  | .percentEqual => some .modulo
  | .caretEqual => some .power
  | _ => none

/-- How tightly an operator binds, from 1 to 6. -/
def BinaryOp.level : BinaryOp → Nat
  | or => 1
  | and => 2
  | equal | notEqual | less | lessEqual | greater | greaterEqual | concat => 3
  | arithmetic .add | arithmetic .subtract => 4
  | arithmetic .multiply | arithmetic .divide | arithmetic .modulo => 5
  | arithmetic .power => 6

/-- `a ^ b ^ c` is `a ^ (b ^ c)`, and so for `..`; all other operators group to the left. -/
def BinaryOp.groupsRight : BinaryOp → Bool
  | concat | arithmetic .power => true
  | _ => false

/-- Operators in the right operand bind tighter than this, or as tightly as the operator itself
where it groups to the right. -/
def BinaryOp.rightFloor (op : BinaryOp) : Nat := if op.groupsRight then op.level - 1 else op.level

/-- Only `^` binds tighter than the unary operators. -/
def UnaryOp.floor : Nat := 5

end ScriptFront.Syntax
