import LambdaLift.Token.Escape

/-!
# Strings, templates and regular expressions

Readers of the tokens that are delimited by a character of their own.

* `Quoted.string`: a string, between two equal quotes on one line.
* `Quoted.templatePiece`: a template up to its end or its next substitution.
* `Quoted.regex`: a regular expression with its flags.
-/

namespace LambdaLift.Quoted

/-- The inside of a literal as far as it was read. -/
structure Body where
  stop : Cursor
  value : List Char := []
  flags : TokenFlags := {}
  reports : List Report := []
  /-- Whether the body ended as it should. -/
  closed : Bool := true

namespace Body

/-- The body with a character in front. -/
def push (x : Char) (b : Body) : Body :=
  { b with value := x :: b.value }

/-- The body with an escape in front. -/
def escape (e : Escape) (b : Body) : Body :=
  { b with
    value := e.cooked ++ b.value
    flags := e.flags.or b.flags
    reports := e.reports ++ b.reports }

end Body

/-- The inside of a string. It ends at the quote, and unclosed at a line feed, a carriage return or
the end of the text; the other two line breaks may stand in a string. -/
def stringBody (quote : Char) (c : Cursor) : Body :=
  match _ : c.rest with
  | [] => { stop := c, closed := false }
  | x :: _ =>
    if x = quote then { stop := c.skip 1 }
    else if x = '\\' then (stringBody quote (Escape.read c).stop).escape (Escape.read c)
    else if x = '\n' || x = '\r' then { stop := c, closed := false }
    else (stringBody quote (c.skip 1)).push x
termination_by c.rest.length
decreasing_by
  all_goals
    have hpos : 0 < c.rest.length := by simp_all
    have hread := Escape.length_read_le c
    have hskip := Cursor.length_skip c 1
    omega

/-- The token of a literal that began at `start`; one that is not closed is reported. -/
def lexeme (start : Cursor) (kind : TokenKind) (fault : Fault) (b : Body) : Lexeme :=
  { kind
    stop := b.stop
    value := b.value
    flags := { b.flags with unterminated := !b.closed }
    reports := b.reports ++ if b.closed then [] else [.ofFault (start.spanTo b.stop) fault] }

/-- The string whose quote is at the cursor. -/
def string (quote : Char) (c : Cursor) : Lexeme :=
  lexeme c .string .unterminatedString (stringBody quote (c.skip 1))

/-- The inside of a template up to the closing mark, and then `false`, or through the opening of a
substitution, and then `true`. Every way to end a line in it counts as a line feed. -/
def templateBody (c : Cursor) : Body × Bool :=
  match _ : c.rest with
  | [] => ({ stop := c, closed := false }, false)
  | x :: _ =>
    if x = '\x60' then ({ stop := c.skip 1 }, false)
    else if c.startsWith ['$', '\x7b'] then ({ stop := c.skip 2 }, true)
    else if x = '\\' then
      let (b, opened) := templateBody (Escape.read c).stop
      (b.escape (Escape.read c), opened)
    else if x = '\r' then
      let (b, opened) := templateBody (c.skip (if c.startsWith ['\r', '\n'] then 2 else 1))
      (b.push '\n', opened)
    else
      let (b, opened) := templateBody (c.skip 1)
      (b.push x, opened)
termination_by c.rest.length
decreasing_by
  all_goals
    have hpos : 0 < c.rest.length := by simp_all
    have hread := Escape.length_read_le c
    have hone := Cursor.length_skip c 1
    have htwo := Cursor.length_skip c 2
    try split
    all_goals omega

/-- The piece of a template that began at `start` and whose text goes on at `c`. A `first` piece
follows the opening mark, every other one a substitution. -/
def templatePiece (first : Bool) (start c : Cursor) : Lexeme :=
  let (b, opened) := templateBody c
  let kind : TokenKind :=
    match first, opened with
    | true, false => .template
    | true, true => .templateHead
    | false, false => .templateTail
    | false, true => .templateMiddle
  lexeme start kind .unterminatedTemplate b

/-- The number of characters of a regular expression through its closing slash, and whether that
is there. A slash in a character class does not close it, and a backslash takes the next character
along; a line break ends it at once. -/
def regexLength (inClass : Bool) : List Char → Nat × Bool
  | [] => (0, false)
  | x :: xs =>
    if Character.isLineBreak x then (0, false)
    else if x = '\\' then
      match xs with
      | [] => (1, false)
      | y :: ys =>
        if Character.isLineBreak y then (1, false)
        else ((regexLength inClass ys).1 + 2, (regexLength inClass ys).2)
    else if x = '/' && !inClass then (1, true)
    else
      let inClass := x = '[' || (inClass && x ≠ ']')
      ((regexLength inClass xs).1 + 1, (regexLength inClass xs).2)

/-- The regular expression whose first slash is at the cursor. Its value is its text. -/
def regex (c : Cursor) : Lexeme :=
  let inside := c.skip 1
  let (length, closed) := regexLength false inside.rest
  let body := inside.skip length
  let stop := if closed then body.skipWhile Character.isNamePart else body
  lexeme c .regex .unterminatedRegex { stop, value := c.textTo stop, closed }

end LambdaLift.Quoted
