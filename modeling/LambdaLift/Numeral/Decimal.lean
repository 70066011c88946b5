import LambdaLift.Numeral.Binary64
import LambdaLift.Text.Character

/-!
# Decimal numerals

* `Decimal`: a decimal number, `coefficient * 10 ^ exponent` with a sign.
* `Decimal.read?`: the decimal that a numeral denotes. A numeral is a sign, digits, a point with
  digits and an exponent; sign, point and exponent may be absent, and one of the two runs of digits
  may be empty.
* `Decimal.toFloat`: the double nearest to a decimal.
-/

namespace LambdaLift

/-- The number `coefficient * 10 ^ exponent`, negated if `negative`. -/
structure Decimal where
  negative : Bool
  coefficient : Nat
  exponent : Int
deriving DecidableEq

namespace Decimal

/-- The whole number that a run of decimal digits denotes. -/
def natOfDigits (digits : List Char) : Nat :=
  digits.foldl (fun n c => n * 10 + (c.toNat - '0'.toNat)) 0

/-- A sign, if there is one, and what follows. -/
def takeSign : List Char → Bool × List Char
  | '+' :: cs => (false, cs)
  | '-' :: cs => (true, cs)
  | cs => (false, cs)

/-- The exponent that `cs` spells, which must be all of it; no text is the exponent zero. -/
def readExponent? : List Char → Option Int
  | [] => some 0
  | c :: cs =>
    if c = 'e' || c = 'E' then
      let (negative, digits) := takeSign cs
      if digits.isEmpty || !digits.all Character.isDigit then none
      else if negative then some (-(natOfDigits digits : Int))
      else some (natOfDigits digits)
    else none

/-- The decimal that a numeral denotes, or `none` if the text is not a numeral. -/
def read? (text : List Char) : Option Decimal :=
  let (negative, unsigned) := takeSign text
  let whole := unsigned.takeWhile Character.isDigit
  let (fraction, rest) :=
    match unsigned.dropWhile Character.isDigit with
    | '.' :: cs => (cs.takeWhile Character.isDigit, cs.dropWhile Character.isDigit)
    | cs => ([], cs)
  if whole.isEmpty && fraction.isEmpty then none
  else
    (readExponent? rest).map fun e =>
      ⟨negative, natOfDigits (whole ++ fraction), e - fraction.length⟩

/-- The number of decimal digits of a positive number. -/
def digitCount (n : Nat) : Nat :=
  (Nat.toDigits 10 n).length

/-- The double nearest to the decimal. From `10 ^ 310` on all numbers are infinite and below
`10 ^ (-330)` all are zero, so no larger power of ten is ever formed. -/
def toFloat (d : Decimal) : Float :=
  let size := d.exponent + digitCount d.coefficient
  if d.coefficient = 0 || size < -330 then Binary64.ofRatio d.negative 0 1
  else if 310 < size then Binary64.infinity d.negative
  else
    Binary64.ofRatio d.negative (scale 10 d.coefficient d.exponent) (scale 10 1 (-d.exponent))

end Decimal

end LambdaLift
