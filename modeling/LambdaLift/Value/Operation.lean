import LambdaLift.Text.Units
import LambdaLift.Value.Basic

/-!
# Operations on values

The operators whose result depends on the values of their operands alone.
-/

namespace LambdaLift

namespace Value

/-- The number of a 32-bit number in two's complement. -/
def ofInt32 (n : Int32) : Value :=
  number (Binary64.ofInt n.toInt)

/-- The number of a 32-bit number without sign. -/
def ofUInt32 (n : UInt32) : Value :=
  number (Binary64.ofInt n.toNat)

/-- The sum. A string or a function makes it the text of both. -/
def add (a b : Value) : Value :=
  match a.withoutFunction, b.withoutFunction with
  | string s, _ => string (s ++ b.text)
  | _, string t => string (a.text ++ t)
  | _, _ => number (a.toNumber + b.toNumber)

/-- Whether the first value comes before the second one: strings by their order as texts, other
values as numbers. There is no order with something that is no number. -/
def less? (a b : Value) : Option Bool :=
  match a, b with
  | string s, string t => some (Units.before s t)
  | _, _ =>
    let x := a.toNumber
    let y := b.toNumber
    if x.isNaN || y.isNaN then none else some (x < y)

/-- How far a shift by the value goes. -/
def shiftCount (v : Value) : UInt32 :=
  v.toUInt32 &&& 31

/-- The result of an operator, or `none` if it does not follow from the values alone: it is not
an operator on values, it is not known, or it fails. -/
def operate? (op : BinaryOp) (a b : Value) : Option Value :=
  match op with
  | .add => some (add a b)
  | .subtract => some (number (a.toNumber - b.toNumber))
  | .multiply => some (number (a.toNumber * b.toNumber))
  | .divide => some (number (a.toNumber / b.toNumber))
  | .remainder => some (number (Binary64.remainder a.toNumber b.toNumber))
  | .equal => some (boolean (looseEquals a b))
  | .notEqual => some (boolean (!looseEquals a b))
  | .strictEqual => some (boolean (strictEquals a b))
  | .strictNotEqual => some (boolean (!strictEquals a b))
  | .less => some (boolean (less? a b == some true))
  | .greater => some (boolean (less? b a == some true))
  | .lessEqual => some (boolean (less? b a == some false))
  | .greaterEqual => some (boolean (less? a b == some false))
  | .bitAnd => some (ofInt32 (a.toInt32 &&& b.toInt32))
  | .bitOr => some (ofInt32 (a.toInt32 ||| b.toInt32))
  | .bitXor => some (ofInt32 (a.toInt32 ^^^ b.toInt32))
  | .shiftLeft => some (ofInt32 (a.toUInt32 <<< b.shiftCount).toInt32)
  | .shiftRight => some (ofInt32 (a.toInt32 >>> b.shiftCount.toInt32))
  | .shiftRightZero => some (ofUInt32 (a.toUInt32 >>> b.shiftCount))
  | .coalesce | .or | .and | .instanceOf | .isIn | .power | .comma | .assign | .compound _ => none

end Value

end LambdaLift
