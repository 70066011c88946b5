import LambdaLift.Numeral.Decimal
import LambdaLift.Text.Character
import LambdaLift.Token.Lexeme

/-!
# Numbers in source text

* `Number.DecimalLiteral`: the parts of a decimal literal, and `normal`, the numeral they spell.
* `Number.read`: the number at a cursor, in base ten, or in base two, eight or sixteen after a mark.

An underscore may stand anywhere among the digits and does not count.
-/

namespace LambdaLift.Number

/-- A run of digits and underscores: its digits, whether it has underscores, and its end. -/
structure Run where
  digits : List Char
  separated : Bool
  stop : Cursor

/-- The run of digits, in the sense of `isDigit`, at the cursor. -/
def run (isDigit : Char → Bool) (c : Cursor) : Run :=
  let chars := c.rest.takeWhile fun x => isDigit x || x = '_'
  ⟨chars.filter (· ≠ '_'), chars.any (· = '_'), c.skip chars.length⟩

/-- The end of a token that begins as a number and goes on as a name, which is reported. -/
def nameAfter (c : Cursor) : Cursor × List Report :=
  if c.peek?.any Character.isNameStart then
    let stop := c.skipWhile Character.isNamePart
    (stop, [.ofFault (c.spanTo stop) .nameAfterNumber])
  else (c, [])

/-- The token of the number between `start` and `stop`. The value is the text of the number alone,
without a name that is glued to it. -/
def lexeme (start stop : Cursor) (number : Float) (flags : TokenFlags) (reports : List Report) :
    Lexeme :=
  let (stop', more) := nameAfter stop
  { kind := .number
    stop := stop'
    value := start.textTo stop
    number
    flags
    reports := reports ++ more }

/-- The report of a missing digit at a cursor. -/
def missingDigit (c : Cursor) (fault : Fault) : Report :=
  .ofFault ⟨c.offset, 1⟩ fault

/-- The number that digits denote in the given base. The double is rounded after each digit. -/
def floatOfDigits (base : Nat) (digits : List Char) : Float :=
  digits.foldl
    (fun x d => x * Binary64.ofNat base + Binary64.ofNat ((Character.digitValue? base d).getD 0))
    Binary64.zero

/-- A number in the given base after a mark of two characters. -/
def marked (base : Nat) (flags : TokenFlags) (c : Cursor) : Lexeme :=
  let r := run (fun x => (Character.digitValue? base x).isSome) (c.skip 2)
  let fault := if base = 16 then Fault.hexDigitExpected else .digitExpected
  lexeme c r.stop (floatOfDigits base r.digits) { flags with separated := r.separated }
    (if r.digits.isEmpty then [missingDigit r.stop fault] else [])

/-- The digits after a leading zero that make a number in base eight of it: there are some, and
none is an eight or a nine. -/
def legacyOctal? (c : Cursor) : Option (List Char) :=
  let digits := (c.skip 1).rest.takeWhile Character.isDigit
  if digits.isEmpty || digits.any (fun d => '7' < d) then none else some digits

/-- The parts of a decimal literal, each run of digits without its underscores. -/
structure DecimalLiteral where
  whole : List Char
  /-- The digits after the point, if there is one. -/
  fraction : Option (List Char)
  /-- The sign of the exponent, if it is written, and its digits. -/
  exponent : Option (List Char × List Char)

namespace DecimalLiteral

/-- The parts one after another. -/
def text (l : DecimalLiteral) : List Char :=
  l.whole ++ l.fraction.elim [] ('.' :: ·) ++ l.exponent.elim [] fun e => 'e' :: (e.1 ++ e.2)

/-- The text with a zero before a point at its start. -/
def fillWhole : List Char → List Char
  | '.' :: cs => '0' :: '.' :: cs
  | cs => cs

/-- The text with a zero after each point before the mark of an exponent. -/
def fillFraction : List Char → List Char
  | '.' :: 'e' :: cs => '.' :: '0' :: 'e' :: fillFraction cs
  | c :: cs => c :: fillFraction cs
  | [] => []

/-- The text without points at its end. -/
def dropPoints (cs : List Char) : List Char :=
  (cs.reverse.dropWhile (· = '.')).reverse

/-- The numeral that the literal spells: an absent whole part is zero, an absent fraction before an
exponent is zero, and a point without digits after it is dropped. -/
def normal (l : DecimalLiteral) : List Char :=
  dropPoints (fillFraction (fillWhole l.text))

/-- The double nearest to the literal. -/
def toFloat (l : DecimalLiteral) : Float :=
  ((Decimal.read? l.normal).map Decimal.toFloat).getD Binary64.notANumber

end DecimalLiteral

/-- The digits after a point at the cursor, if there is one. -/
def fraction? (c : Cursor) : Option Run :=
  if c.peek? = some '.' then some (run Character.isDigit (c.skip 1)) else none

/-- The sign and the digits of an exponent at the cursor, if there is one. -/
def exponent? (c : Cursor) : Option (List Char × Run) :=
  if c.peek?.any (fun x => x = 'e' || x = 'E') then
    let sign := (c.skip 1).rest.take 1 |>.filter fun x => x = '+' || x = '-'
    some (sign, run Character.isDigit ((c.skip 1).skip sign.length))
  else none

/-- A decimal number. An exponent without digits is reported and taken as zero. -/
def decimal (c : Cursor) : Lexeme :=
  let whole := run Character.isDigit c
  let fraction := fraction? whole.stop
  let beforeMark := fraction.elim whole.stop Run.stop
  let exponent := exponent? beforeMark
  let stop := exponent.elim beforeMark (·.2.stop)
  let literal : DecimalLiteral :=
    { whole := whole.digits
      fraction := fraction.map Run.digits
      exponent := exponent.map fun (sign, power) =>
        (sign, if power.digits.isEmpty then ['0'] else power.digits) }
  lexeme c stop literal.toFloat
    { scientific := exponent.isSome
      separated := whole.separated || fraction.any Run.separated || exponent.any (·.2.separated) }
    (if exponent.any (·.2.digits.isEmpty) then [missingDigit stop .digitExpected] else [])

/-- The number at the cursor, which is at a digit or at a point before a digit. -/
def read (c : Cursor) : Lexeme :=
  match c.rest with
  | '0' :: x :: _ =>
    if x = 'x' || x = 'X' then marked 16 { hexMarked := true } c
    else if x = 'b' || x = 'B' then marked 2 { binaryMarked := true } c
    else if x = 'o' || x = 'O' then marked 8 { octalMarked := true } c
    else
      match legacyOctal? c with
      | some digits =>
        lexeme c (c.skip (digits.length + 1)) (floatOfDigits 8 digits) { octal := true } []
      | none => decimal c
  | _ => decimal c

end LambdaLift.Number
