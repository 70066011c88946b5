/-!
# The order of texts

Texts are ordered by their UTF-16 units. A character beyond the first plane takes two units, which
come before some characters of the first plane.
-/

namespace LambdaLift.Units

/-- The UTF-16 units of a character. -/
def ofChar (c : Char) : List Nat :=
  let n := c.toNat
  if n < 0x10000 then [n]
  else [0xd800 + (n - 0x10000) / 0x400, 0xdc00 + (n - 0x10000) % 0x400]

/-- The UTF-16 units of a text. -/
def ofText (s : String) : List Nat :=
  s.toList.flatMap ofChar

/-- Whether the first text comes before the second one. -/
def before (a b : String) : Bool :=
  ofText a < ofText b

end LambdaLift.Units
