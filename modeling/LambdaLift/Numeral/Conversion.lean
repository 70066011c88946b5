import LambdaLift.Numeral.Decimal

/-!
# Numbers in strings

The number that a string value converts to. White space around it does not count. A string of
nothing else is zero, and a string that is not a numeral converts to no number.
-/

namespace LambdaLift.Conversion

/-- The text without white space at its ends. -/
def trim (cs : List Char) : List Char :=
  ((cs.dropWhile Character.isMargin).reverse.dropWhile Character.isMargin).reverse

/-- The base of a numeral that starts with a mark for it, and the digits after the mark. -/
def marked? : List Char → Option (Nat × List Char)
  | '0' :: 'x' :: cs | '0' :: 'X' :: cs => some (16, cs)
  | '0' :: 'o' :: cs | '0' :: 'O' :: cs => some (8, cs)
  | '0' :: 'b' :: cs | '0' :: 'B' :: cs => some (2, cs)
  | _ => none

/-- The number that digits in the given base denote. It is summed up digit by digit, with rounding
at each. -/
def ofDigits (base : Nat) (digits : List Char) : Float :=
  let sum := digits.foldlM (fun x c => (Character.digitValue? base c).map fun d =>
    x * Binary64.ofNat base + Binary64.ofNat d) Binary64.zero
  if digits.isEmpty then Binary64.notANumber else sum.getD Binary64.notANumber

/-- The number that a numeral in base ten or the word for infinity denotes, with or without a
sign. -/
def ofDecimal (cs : List Char) : Float :=
  let (negative, unsigned) := Decimal.takeSign cs
  if unsigned = "Infinity".toList then Binary64.infinity negative
  else (Decimal.read? cs).elim Binary64.notANumber Decimal.toFloat

/-- The number that a string converts to. -/
def ofText (s : String) : Float :=
  match trim s.toList with
  | [] => Binary64.zero
  | cs =>
    match marked? cs with
    | some (base, digits) => ofDigits base digits
    | none => ofDecimal cs

end LambdaLift.Conversion
