import LambdaLift.Report
import LambdaLift.Text.Character
import LambdaLift.Token.Cursor

/-!
# Between tokens

White space, line breaks and comments separate tokens. `Trivia.skip` passes all of them and tells
whether a line ended on the way.
-/

namespace LambdaLift

/-- What lies between two tokens. -/
structure Trivia where
  stop : Cursor
  /-- Whether a line ends in it, be it in a comment. -/
  lineBreak : Bool := false
  reports : List Report := []

namespace Trivia

/-- The end of a comment that runs to the end of its line. Only a line feed and a carriage return
end such a line. -/
def lineComment (c : Cursor) : Cursor :=
  c.skipWhile fun x => x ≠ '\n' && x ≠ '\r'

/-- The characters before the first `*/`, and whether there is one. -/
def commentBody : List Char → List Char × Bool
  | [] => ([], false)
  | '*' :: '/' :: _ => ([], true)
  | x :: xs => (x :: (commentBody xs).1, (commentBody xs).2)

/-- The comment that starts with the `/*` at the cursor. Without a `*/` it takes the rest of the
text and is reported. -/
def blockComment (c : Cursor) : Trivia :=
  let inside := c.skip 2
  let (body, closed) := commentBody inside.rest
  let stop := inside.skip (body.length + if closed then 2 else 0)
  { stop
    lineBreak := body.any Character.isLineBreak
    reports := if closed then [] else [.ofFault (c.spanTo stop) .unterminatedComment] }

theorem length_blockComment_le (c : Cursor) :
    (blockComment c).stop.rest.length ≤ c.rest.length - 2 := by
  simp only [blockComment, Cursor.length_skip]
  omega

/-- Everything up to the next token. -/
def skip (c : Cursor) : Trivia :=
  match _ : c.rest with
  | [] => { stop := c }
  | x :: _ =>
    if Character.isLineBreak x then { skip (c.skip 1) with lineBreak := true }
    else if c.startsWith ['/', '/'] then skip (lineComment (c.skip 2))
    else if c.startsWith ['/', '*'] then
      let comment := blockComment c
      let more := skip comment.stop
      { stop := more.stop
        lineBreak := comment.lineBreak || more.lineBreak
        reports := comment.reports ++ more.reports }
    else if Character.isBlank x then skip (c.skip 1)
    else { stop := c }
termination_by c.rest.length
decreasing_by
  all_goals
    have hpos : 0 < c.rest.length := by simp_all
    have hline := Cursor.length_skipWhile_le (c.skip 2) fun x => x ≠ '\n' && x ≠ '\r'
    have hblock := length_blockComment_le c
    simp only [lineComment, Cursor.length_skip] at *
    omega

end Trivia

end LambdaLift
