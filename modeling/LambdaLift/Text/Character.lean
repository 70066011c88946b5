import LambdaLift.Text.IdentifierTable

/-!
# Classes of characters

The classes that the lexer and the reading of numbers ask for. A name may contain any character of
the Unicode properties for identifiers (`IdentifierTable`), a dollar sign, an underscore, and, after
its first character, the two zero-width joiners.
-/

namespace LambdaLift.Character

/-- A character that ends a line of source text. -/
def isLineBreak (c : Char) : Bool :=
  c = '\n' || c = '\r' || c = '\u2028' || c = '\u2029'

/-- White space that does not end a line. -/
def isBlank (c : Char) : Bool :=
  c = ' ' || c = '\t' || c = '\x0b' || c = '\x0c' || c = '\u00a0' || c = '\u1680' ||
    ('\u2000' ≤ c && c ≤ '\u200a') || c = '\u202f' || c = '\u205f' || c = '\u3000' ||
    c = '\ufeff'

/-- The Unicode property for white space, line breaks included. -/
def isWhiteSpace (c : Char) : Bool :=
  ('\t' ≤ c && c ≤ '\r') || c = ' ' || c = '\u0085' || c = '\u00a0' || c = '\u1680' ||
    ('\u2000' ≤ c && c ≤ '\u200a') || c = '\u2028' || c = '\u2029' || c = '\u202f' ||
    c = '\u205f' || c = '\u3000'

/-- White space around a numeral in a string value: the byte order mark counts as well. -/
def isMargin (c : Char) : Bool :=
  isWhiteSpace c || c = '\ufeff'

/-- One of the ASCII digits. -/
def isDigit (c : Char) : Bool :=
  '0' ≤ c && c ≤ '9'

/-- One of the ASCII letters. -/
def isLetter (c : Char) : Bool :=
  ('a' ≤ c && c ≤ 'z') || ('A' ≤ c && c ≤ 'Z')

/-- The value of an ASCII digit or letter as a digit in the given base, if it is one. -/
def digitValue? (base : Nat) (c : Char) : Option Nat :=
  let value? :=
    if isDigit c then some (c.toNat - '0'.toNat)
    else if 'a' ≤ c && c ≤ 'z' then some (c.toNat - 'a'.toNat + 10)
    else if 'A' ≤ c && c ≤ 'Z' then some (c.toNat - 'A'.toNat + 10)
    else none
  value?.filter (fun v => v < base)

/-- A digit in base sixteen. -/
def isHexDigit (c : Char) : Bool :=
  (digitValue? 16 c).isSome

/-- A character that can start a name. -/
def isNameStart (c : Char) : Bool :=
  c = '$' || c = '_' || isLetter c || (0x80 ≤ c.toNat && IdentifierTable.isStart c)

/-- A character that can continue a name. -/
def isNamePart (c : Char) : Bool :=
  c = '$' || c = '_' || isLetter c || isDigit c || c = '\u200c' || c = '\u200d' ||
    (0x80 ≤ c.toNat && IdentifierTable.isContinue c)

/-- The scalar value `n` as a character: `none` for a surrogate and beyond the last code point. -/
def ofScalar? (n : Nat) : Option Char :=
  if n < 0xd800 || (0xe000 ≤ n && n ≤ 0x10ffff) then some (Char.ofNat n) else none

end LambdaLift.Character
