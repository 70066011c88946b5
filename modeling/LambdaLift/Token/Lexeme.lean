import LambdaLift.Report
import LambdaLift.Token.Cursor
import LambdaLift.Token.Kind

/-!
# Lexemes

* `TokenFlags`: how a token was written.
* `Lexeme`: what a reader of one token finds at a cursor.
-/

namespace LambdaLift

/-- How a token was written. -/
structure TokenFlags where
  /-- A line ends between the token before and this one. -/
  lineBreakBefore : Bool := false
  unterminated : Bool := false
  /-- The number has an exponent. -/
  scientific : Bool := false
  /-- A number with a leading zero in base eight, or a string with an escape in base eight. -/
  octal : Bool := false
  /-- The number starts with `0x`. -/
  hexMarked : Bool := false
  /-- The number starts with `0b`. -/
  binaryMarked : Bool := false
  /-- The number starts with `0o`. -/
  octalMarked : Bool := false
  /-- The number has an underscore between its digits. -/
  separated : Bool := false
  /-- The name is written with an escape. -/
  escapedName : Bool := false
  invalidEscape : Bool := false
deriving DecidableEq, Inhabited

/-- The flags of either. -/
def TokenFlags.or (a b : TokenFlags) : TokenFlags where
  lineBreakBefore := a.lineBreakBefore || b.lineBreakBefore
  unterminated := a.unterminated || b.unterminated
  scientific := a.scientific || b.scientific
  octal := a.octal || b.octal
  hexMarked := a.hexMarked || b.hexMarked
  binaryMarked := a.binaryMarked || b.binaryMarked
  octalMarked := a.octalMarked || b.octalMarked
  separated := a.separated || b.separated
  escapedName := a.escapedName || b.escapedName
  invalidEscape := a.invalidEscape || b.invalidEscape

/-- What stands at a cursor: the kind of token, where it ends, the name or contents with escapes
resolved, the value of a number, and what is wrong with it. -/
structure Lexeme where
  kind : TokenKind
  stop : Cursor
  value : List Char := []
  number : Float := Float.ofBits 0
  flags : TokenFlags := {}
  reports : List Report := []

end LambdaLift
