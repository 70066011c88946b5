import LambdaLift.Token.Escape

/-!
# Names in source text

A name is a run of name characters and `\u` escapes. Without an escape it may be a keyword; with
one it never is.
-/

namespace LambdaLift.Name

/-- A name as far as it was read. -/
structure Body where
  stop : Cursor
  value : List Char := []
  escaped : Bool := false
  reports : List Report := []

/-- The name at the cursor. An escape that is invalid or that stands for no name character is
reported and leaves nothing in the name. -/
def body (c : Cursor) : Body :=
  match _ : c.rest with
  | [] => { stop := c }
  | x :: _ =>
    if c.startsWith ['\\', 'u'] then
      let (cooked, stop) := (Escape.unicode (c.skip 2))
      let more := body (Escape.unicode (c.skip 2)).2
      match cooked.filter Character.isNamePart with
      | some y => { more with value := y :: more.value, escaped := true }
      | none =>
        { more with
          escaped := true
          reports := .ofFault (c.spanTo stop) .invalidCharacter :: more.reports }
    else if Character.isNamePart x then
      let more := body (c.skip 1)
      { more with value := x :: more.value }
    else { stop := c }
termination_by c.rest.length
decreasing_by
  all_goals
    have hpos : 0 < c.rest.length := by simp_all
    have hread := Escape.length_unicode_le (c.skip 2)
    have hone := Cursor.length_skip c 1
    have htwo := Cursor.length_skip c 2
    omega

/-- The token of the name at the cursor. -/
def read (c : Cursor) : Lexeme :=
  let b := body c
  let keyword? := if b.escaped then none else Keyword.ofText? (String.ofList b.value)
  { kind := (keyword?.map TokenKind.keyword).getD .identifier
    stop := b.stop
    value := b.value
    flags := { escapedName := b.escaped }
    reports := b.reports }

end LambdaLift.Name
