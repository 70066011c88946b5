import LambdaLift.Token.Kind

/-!
# Operators

* `PrefixOp`, `UpdateOp`: the operators before and after one operand.
* `BinaryOp`: the operators between two operands, assignments and the comma included.
* `BinaryOp.level?`: how tightly an operator binds.
* `text?`: the text of an operator that lifted code may contain; the others have none.
-/

namespace LambdaLift

/-- The operators before an operand. -/
inductive PrefixOp
  | not
  | bitNot
  | plus
  | minus
  | increment
  | decrement
  | typeof
  | void
  | delete
deriving DecidableEq, Inhabited

namespace PrefixOp

/-- The token of the operator. -/
def token : PrefixOp → TokenKind
  | not => .punctuator .bang
  | bitNot => .punctuator .tilde
  | plus => .punctuator .plus
  | minus => .punctuator .minus
  | increment => .punctuator .plusPlus
  | decrement => .punctuator .minusMinus
  | typeof => .keyword .typeof_
  | void => .keyword .void_
  | delete => .keyword .delete_

/-- Every operator before an operand. -/
def all : List PrefixOp :=
  [not, bitNot, plus, minus, increment, decrement, typeof, void, delete]

/-- The operator that the token is, before an operand. -/
def ofToken? (t : TokenKind) : Option PrefixOp :=
  all.find? (·.token = t)

/-- The text of the operator. -/
def text (op : PrefixOp) : String :=
  op.token.text?.getD ""

/-- Whether a space must stand between an operator and the text of its operand, so that the two do
not read as another token: always after a word, and between two signs that would join. -/
def needsSpace (op operand : String) : Bool :=
  match op.toList.getLast?, operand.toList.head? with
  | some last, next =>
    last.isAlpha || (last = '+' && next = some '+') || (last = '-' && next = some '-')
  | none, _ => false

end PrefixOp

/-- The operators after an operand. -/
inductive UpdateOp
  | increment
  | decrement
deriving DecidableEq, Inhabited

namespace UpdateOp

/-- The token of the operator. -/
def token : UpdateOp → TokenKind
  | increment => .punctuator .plusPlus
  | decrement => .punctuator .minusMinus

/-- The operator that the token is, after an operand. -/
def ofToken? (t : TokenKind) : Option UpdateOp :=
  [increment, decrement].find? (·.token = t)

/-- The text of the operator. -/
def text (op : UpdateOp) : String :=
  op.token.text?.getD ""

end UpdateOp

/-- The operators between two operands. -/
inductive BinaryOp
  | coalesce
  | or
  | and
  | bitOr
  | bitXor
  | bitAnd
  | equal
  | notEqual
  | strictEqual
  | strictNotEqual
  | less
  | greater
  | lessEqual
  | greaterEqual
  | instanceOf
  | isIn
  | shiftLeft
  | shiftRight
  | shiftRightZero
  | add
  | subtract
  | multiply
  | divide
  | remainder
  | power
  | comma
  | assign
  /-- An assignment that reads its target first, written as the given punctuator. -/
  | compound (p : Punctuator)
deriving DecidableEq, Inhabited

namespace BinaryOp

/-- The token of the operator. -/
def token : BinaryOp → TokenKind
  | coalesce => .punctuator .questionQuestion
  | or => .punctuator .orOr
  | and => .punctuator .andAnd
  | bitOr => .punctuator .bar
  | bitXor => .punctuator .caret
  | bitAnd => .punctuator .ampersand
  | equal => .punctuator .equalEqual
  | notEqual => .punctuator .bangEqual
  | strictEqual => .punctuator .equalEqualEqual
  | strictNotEqual => .punctuator .bangEqualEqual
  | less => .punctuator .less
  | greater => .punctuator .greater
  | lessEqual => .punctuator .lessEqual
  | greaterEqual => .punctuator .greaterEqual
  | instanceOf => .keyword .instanceof_
  | isIn => .keyword .in_
  | shiftLeft => .punctuator .shiftLeft
  | shiftRight => .punctuator .shiftRight
  | shiftRightZero => .punctuator .shiftRightZero
  | add => .punctuator .plus
  | subtract => .punctuator .minus
  | multiply => .punctuator .star
  | divide => .punctuator .slash
  | remainder => .punctuator .percent
  | power => .punctuator .starStar
  | comma => .punctuator .comma
  | assign => .punctuator .equal
  | compound p => .punctuator p

/-- Every operator but the compound assignments. -/
def simple : List BinaryOp :=
  [coalesce, or, and, bitOr, bitXor, bitAnd, equal, notEqual, strictEqual, strictNotEqual, less,
    greater, lessEqual, greaterEqual, instanceOf, isIn, shiftLeft, shiftRight, shiftRightZero, add,
    subtract, multiply, divide, remainder, power, comma, assign]

/-- The operator that the token is, between two operands. -/
def ofToken? (t : TokenKind) : Option BinaryOp :=
  match simple.find? (·.token = t), t with
  | some op, _ => some op
  | none, .punctuator p => if p.isCompoundAssignment then some (compound p) else none
  | none, _ => none

/-- How tightly an operator binds, from `1` up. The comma and the assignments do not take part in
chains of operators and have no level. -/
def level? : BinaryOp → Option Nat
  | coalesce => some 1
  | or => some 2
  | and => some 3
  | bitOr => some 4
  | bitXor => some 5
  | bitAnd => some 6
  | equal | notEqual | strictEqual | strictNotEqual => some 7
  | less | greater | lessEqual | greaterEqual | instanceOf | isIn => some 8
  | shiftLeft | shiftRight | shiftRightZero => some 9
  | add | subtract => some 10
  | multiply | divide | remainder => some 11
  | power => some 12
  | comma | assign | compound _ => none

/-- Plain or compound assignment. -/
def isAssignment : BinaryOp → Bool
  | assign | compound _ => true
  | _ => false

/-- Whether lifted code may contain the operator. -/
def isLiftable : BinaryOp → Bool
  | coalesce | instanceOf | power | compound _ => false
  | _ => true

/-- The text of an operator that lifted code may contain. -/
def text? (op : BinaryOp) : Option String :=
  if op.isLiftable then op.token.text? else none

end BinaryOp

end LambdaLift
