import LambdaLift.Numeral.Decimal

/-!
# The text of a number

A number is written with the fewest digits that read back as the same double.

* `Shortest.digits`: those digits, and where the point stands.
* `Shortest.numeral`: their layout, plain from `1e-6` up to below `1e21` and with an exponent
  outside.
* `Shortest.ofFloat`: the text of any double.
-/

namespace LambdaLift.Shortest

/-- Decimal digits with the first one before the point, times `10 ^ exponent`. -/
structure Digits where
  digits : List Char
  exponent : Int

/-- The magnitude and the ends of the interval of numbers that round to it, as fractions with one
denominator. Half the distance to the neighbours is two quarters of the last place, and below a
power of two one quarter. -/
structure Interval where
  value : Nat
  low : Nat
  high : Nat
  denominator : Nat
  /-- Whether the ends themselves round to the value, as they do to an even mantissa. -/
  closed : Bool

namespace Interval

/-- The interval of a positive finite double. -/
def ofMagnitude (x : Magnitude) : Interval :=
  let below := if x.mantissa = Binary64.hiddenBit then 1 else 2
  let scaled (n : Nat) := (Magnitude.mk n (x.exponent - 2)).ratio
  { value := (scaled (4 * x.mantissa)).1
    low := (scaled (4 * x.mantissa - below)).1
    high := (scaled (4 * x.mantissa + 2)).1
    denominator := (scaled 1).2
    closed := x.mantissa % 2 = 0 }

/-- The greatest `e` with `10 ^ e` at most the value. -/
def decimalExponent (i : Interval) : Int :=
  let e : Int := (Decimal.digitCount i.value : Int) - (Decimal.digitCount i.denominator : Int)
  if scale 10 i.denominator e ≤ scale 10 i.value (-e) then e else e - 1

/-- Whether `n * 10 ^ place` lies in the interval. -/
def contains (i : Interval) (place : Int) (n : Nat) : Bool :=
  let point := scale 10 n place * i.denominator
  let low := scale 10 i.low (-place)
  let high := scale 10 i.high (-place)
  if i.closed then low ≤ point && point ≤ high else low < point && point < high

/-- The value in units of `10 ^ place`, as a fraction. -/
def inUnits (i : Interval) (place : Int) : Nat × Nat :=
  (scale 10 i.value (-place), scale 10 i.denominator place)

/-- The multiple of `10 ^ place` that lies in the interval and is next to the value, if there is
one. Of two the nearer is taken, and the upper one if they are equally near. -/
def pick? (i : Interval) (place : Int) : Option Nat :=
  let (num, den) := i.inUnits place
  let below := num / den
  match i.contains place below, i.contains place (below + 1) with
  | true, true => some (if den ≤ 2 * (num % den) then below + 1 else below)
  | true, false => some below
  | false, true => some (below + 1)
  | false, false => none

/-- The first of the grids of `10 ^ place`, `10 ^ (place - 1)`, ... that has a point in the
interval, and that point. The last grid tried is cut off instead; a grid of seventeen digits always
has a point, so that does not happen to a double. -/
def search (i : Interval) : Nat → Int → Nat × Int
  | 0, place => ((i.inUnits place).1 / (i.inUnits place).2, place)
  | more + 1, place =>
    match i.pick? place with
    | some n => (n, place)
    | none => search i more (place - 1)

end Interval

/-- The shortest digits of a positive finite double. -/
def digits (x : Magnitude) : Digits :=
  let i := Interval.ofMagnitude x
  let (n, place) := i.search 17 i.decimalExponent
  let all := Nat.toDigits 10 n
  { digits := (all.reverse.dropWhile (· = '0')).reverse
    exponent := place + all.length - 1 }

/-- A run of zeros. -/
def zeros (n : Nat) : List Char :=
  List.replicate n '0'

/-- The layout of digits as a numeral. With the point after `point` digits, a whole number up to
`21` digits is filled up with zeros, a number with a fraction is split at the point, up to five
zeros may follow a leading `0.`, and all else has an exponent with an explicit sign. -/
def numeral (d : Digits) : List Char :=
  let count : Int := d.digits.length
  let point := d.exponent + 1
  if count ≤ point && point ≤ 21 then d.digits ++ zeros (point - count).toNat
  else if 0 < point && point ≤ 21 then
    d.digits.take point.toNat ++ '.' :: d.digits.drop point.toNat
  else if -6 < point && point ≤ 0 then '0' :: '.' :: zeros (-point).toNat ++ d.digits
  else
    let exponent := (if d.exponent < 0 then '-' else '+') :: Nat.toDigits 10 d.exponent.natAbs
    match d.digits with
    | first :: second :: rest => first :: '.' :: second :: rest ++ 'e' :: exponent
    | few => few ++ 'e' :: exponent

/-- The text of a number. Zero has no sign. -/
def ofFloat (x : Float) : String :=
  match Binary64.decode x with
  | .nan => "NaN"
  | .infinite negative => if negative then "-Infinity" else "Infinity"
  | .finite negative m =>
    if m.mantissa = 0 then "0"
    else String.ofList ((if negative then ['-'] else []) ++ numeral (digits m))

end LambdaLift.Shortest
