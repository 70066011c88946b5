/-!
# Double precision numbers, exactly

Numbers are kept as `Float`, in which the arithmetic of a program runs. What the language asks
beyond that arithmetic is done here on the exact value of a double, a whole number times a power of
two.

* `Magnitude`: a finite magnitude `mantissa * 2 ^ exponent`.
* `Binary64.decode`: a double as its sign and magnitude.
* `Binary64.ofRatio`: the double nearest to a quotient of whole numbers, ties to the even mantissa.
* `Binary64.remainder`: the remainder of truncated division, exact.
* `Binary64.toUInt32`: the whole part modulo `2 ^ 32`.
-/

namespace LambdaLift

/-- The number `n * base ^ e`, or `n` if the exponent is negative. So `n * base ^ e` is in any case
the quotient of `scale base n e` and `scale base 1 (-e)`. -/
def scale (base n : Nat) (e : Int) : Nat :=
  n * Nat.pow base e.toNat

/-- The number `mantissa * 2 ^ exponent`. -/
structure Magnitude where
  mantissa : Nat
  exponent : Int

namespace Magnitude

/-- The magnitude as a fraction in whole numbers. -/
def ratio (x : Magnitude) : Nat × Nat :=
  (scale 2 x.mantissa x.exponent, scale 2 1 (-x.exponent))

end Magnitude

/-- What a double stands for. -/
inductive Binary64
  | nan
  | infinite (negative : Bool)
  | finite (negative : Bool) (magnitude : Magnitude)

namespace Binary64

/-- The bit above the fraction, which is one and not stored in all but the smallest numbers. As a
stored bit it is the last one of the exponent field. -/
def hiddenBit : Nat :=
  0x10000000000000

/-- The bit of the sign. -/
def signBit : Nat :=
  0x8000000000000000

/-- The bits of the exponent field of infinity, in place. -/
def infinityBits : Nat :=
  2047 * hiddenBit

/-- The meaning of a double. -/
def decode (x : Float) : Binary64 :=
  let bits := x.toBits.toNat
  let negative := decide (signBit ≤ bits)
  let field : Nat := bits / hiddenBit % 2048
  let fraction := bits % hiddenBit
  if field = 2047 then
    if fraction = 0 then infinite negative else nan
  else if field = 0 then finite negative ⟨fraction, -1074⟩
  else finite negative ⟨hiddenBit + fraction, (field : Int) - 1075⟩

/-- The double with the given sign and remaining bits. -/
def ofBits (negative : Bool) (bits : Nat) : Float :=
  Float.ofBits (UInt64.ofNat ((if negative then signBit else 0) + bits))

/-- Positive zero. -/
def zero : Float :=
  ofBits false 0

/-- Positive or negative infinity. -/
def infinity (negative : Bool) : Float :=
  ofBits negative infinityBits

/-- The number that is none. -/
def notANumber : Float :=
  ofBits false (infinityBits + hiddenBit / 2)

/-- The double of a small whole number. -/
def ofNat (n : Nat) : Float :=
  (UInt32.ofNat n).toFloat

/-- The greatest `e` with `2 ^ e ≤ num / den`, for positive `num` and `den`: the lengths of the two
numbers leave two candidates. -/
def binaryExponent (num den : Nat) : Int :=
  let e : Int := (num.log2 : Int) - (den.log2 : Int)
  if scale 2 den e ≤ scale 2 num (-e) then e else e - 1

/-- The whole number nearest to `num / den`; a half goes to the even neighbour. -/
def roundDiv (num den : Nat) : Nat :=
  let q := num / den
  let r := num % den
  if den < 2 * r || (2 * r = den && q % 2 = 1) then q + 1 else q

/-- The bits of the double nearest to the positive quotient `num / den`. The last place of the
result is `2 ^ place`; a mantissa that rounds up to `2 ^ 53` carries into the exponent field by
itself, and what is too large becomes infinity. -/
def roundedBits (num den : Nat) : Nat :=
  let place := max (binaryExponent num den - 52) (-1074)
  let mantissa := roundDiv (scale 2 num (-place)) (scale 2 den place)
  min ((place + 1074).toNat * hiddenBit + mantissa) infinityBits

/-- The double nearest to `num / den`, with the given sign; a tie goes to the even mantissa. -/
def ofRatio (negative : Bool) (num den : Nat) : Float :=
  ofBits negative (if num = 0 then 0 else roundedBits num den)

/-- The double of a whole number that is small enough to be exact. -/
def ofInt (n : Int) : Float :=
  ofRatio (n < 0) n.natAbs 1

/-- The remainder of `x / y` rounded toward zero. It has the sign of `x` and is always exact. -/
def remainder (x y : Float) : Float :=
  match decode x, decode y with
  | finite negative a, finite _ b =>
    if b.mantissa = 0 then notANumber
    else
      let e := min a.exponent b.exponent
      let r := scale 2 a.mantissa (a.exponent - e) % scale 2 b.mantissa (b.exponent - e)
      let (num, den) := (Magnitude.mk r e).ratio
      ofRatio negative num den
  | finite .., infinite _ => x
  | _, _ => notANumber

/-- The whole part of a finite double, toward zero; zero for the others. -/
def truncate (x : Float) : Int :=
  match decode x with
  | finite negative a =>
    let whole := a.ratio.1 / a.ratio.2
    if negative then -(whole : Int) else whole
  | _ => 0

/-- The whole part modulo `2 ^ 32`, from zero up. -/
def toUInt32 (x : Float) : UInt32 :=
  UInt32.ofNat (truncate x % 4294967296).toNat

/-- The whole part modulo `2 ^ 32`, in two's complement. -/
def toInt32 (x : Float) : Int32 :=
  (toUInt32 x).toInt32

end Binary64

end LambdaLift
