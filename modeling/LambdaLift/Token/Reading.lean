import LambdaLift.Token.Name
import LambdaLift.Token.Number
import LambdaLift.Token.Quoted

/-!
# Reading one token

* `Punctuator.longest?`: the longest punctuator that a text starts with.
* `Lexeme.read`: the token at a cursor that is past all white space and comments.
-/

namespace LambdaLift

namespace Punctuator

/-- The punctuator that consists of the given characters. -/
def ofChars? (chars : List Char) : Option Punctuator :=
  all.find? (·.text.toList = chars)

/-- The longest punctuator at the start of a text; none has more than four characters. An optional
chain is no punctuator before a digit, where the point belongs to a number. -/
def longest? (cs : List Char) : Option Punctuator :=
  match cs with
  | '?' :: '.' :: d :: _ => if Character.isDigit d then some question else some questionDot
  | _ => [4, 3, 2, 1].findSome? fun n => ofChars? (cs.take n)

end Punctuator

namespace Lexeme

/-- Whether a number starts here: at a digit, or at a point that a digit follows. -/
def startsNumber : List Char → Bool
  | '.' :: d :: _ => Character.isDigit d
  | d :: _ => Character.isDigit d
  | [] => false

/-- Whether a name starts here, be it with an escape. -/
def startsName : List Char → Bool
  | '\\' :: x :: _ => x = 'u'
  | x :: _ => Character.isNameStart x
  | [] => false

/-- The token at the cursor. A character that starts no token is a token of its own and is
reported. -/
def read (c : Cursor) : Lexeme :=
  match c.rest with
  | [] => { kind := .endOfFile, stop := c }
  | x :: _ =>
    if x = '\x27' || x = '\x22' then Quoted.string x c
    else if x = '\x60' then Quoted.templatePiece true c (c.skip 1)
    else if startsNumber c.rest then Number.read c
    else if startsName c.rest then Name.read c
    else
      match Punctuator.longest? c.rest with
      | some p => { kind := .punctuator p, stop := c.skip p.text.length }
      | none =>
        { kind := .unknown
          stop := c.skip 1
          reports := [.ofFault (c.spanTo (c.skip 1)) .invalidCharacter] }

end Lexeme

end LambdaLift
