import LambdaLift.Text.Range

/-!
# Cursors

A cursor is a place in a text together with the characters that are still to be read. What a token
is depends on nothing else, so every reader of a token is a function of a cursor.
-/

namespace LambdaLift

/-- A place in a text: its byte offset and the characters from there on. -/
structure Cursor where
  offset : Nat
  rest : List Char
deriving Inhabited

namespace Cursor

/-- The start of a text. -/
def ofText (text : String) : Cursor :=
  ⟨0, text.toList⟩

/-- The next character. -/
def peek? (c : Cursor) : Option Char :=
  c.rest.head?

/-- Whether the text goes on with the given characters. -/
def startsWith (c : Cursor) (chars : List Char) : Bool :=
  chars.isPrefixOf c.rest

/-- Past the next `n` characters, or at the end of the text. -/
def skip (c : Cursor) (n : Nat) : Cursor :=
  ⟨c.offset + byteLength (c.rest.take n), c.rest.drop n⟩

/-- Past all characters up to the first one that fails `p`. -/
def skipWhile (c : Cursor) (p : Char → Bool) : Cursor :=
  c.skip (c.rest.takeWhile p).length

/-- The characters from the cursor up to the later cursor `stop`. -/
def textTo (c stop : Cursor) : List Char :=
  c.rest.take (c.rest.length - stop.rest.length)

/-- The span from the cursor up to `stop`. -/
def spanTo (c stop : Cursor) : Span :=
  .between c.offset stop.offset

theorem length_skip (c : Cursor) (n : Nat) : (c.skip n).rest.length = c.rest.length - n := by
  simp [skip]

theorem length_skip_le (c : Cursor) (n : Nat) : (c.skip n).rest.length ≤ c.rest.length := by
  simp [length_skip]

theorem length_skipWhile_le (c : Cursor) (p : Char → Bool) :
    (c.skipWhile p).rest.length ≤ c.rest.length :=
  length_skip_le ..

end Cursor

end LambdaLift
