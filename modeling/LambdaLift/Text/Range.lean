/-!
# Places in a text

Every place is a byte offset into the UTF-8 form of the text.

* `Range`: the bytes a node covers, by its two ends.
* `Span`: the bytes a report points at, by start and length.
* `LineMap`: the offsets at which lines start, and `LineMap.locate`, the line and column of an
  offset. Only a line feed ends a line.
-/

namespace LambdaLift

/-- The bytes from `start` up to, and not including, `stop`. -/
structure Range where
  start : Nat
  stop : Nat
deriving DecidableEq, Inhabited

/-- The `length` bytes from `start` on. -/
structure Span where
  start : Nat
  length : Nat
deriving DecidableEq, Inhabited

namespace Span

/-- The span from `start` up to `stop`, empty if `stop` comes first. -/
def between (start stop : Nat) : Span :=
  ⟨start, stop - start⟩

/-- The first offset after the span. -/
def stop (s : Span) : Nat :=
  s.start + s.length

end Span

/-- The range as a span. -/
def Range.span (r : Range) : Span :=
  .between r.start r.stop

/-- The range of no bytes at `offset`. -/
def Range.empty (offset : Nat) : Range :=
  ⟨offset, offset⟩

/-- The number of bytes that `cs` takes in UTF-8. -/
def byteLength : List Char → Nat
  | [] => 0
  | c :: cs => c.utf8Size + byteLength cs

/-- A line and a column, both counted from zero, the column in bytes. -/
structure Location where
  line : Nat
  column : Nat
deriving DecidableEq, Inhabited

/-- The location as readers count it, from one: `line,column`. -/
def Location.text (l : Location) : String :=
  toString (l.line + 1) ++ "," ++ toString (l.column + 1)

/-- The offsets at which the lines of a text start, in increasing order. -/
structure LineMap where
  starts : List Nat

namespace LineMap

/-- The starts of the lines after the first one, in characters that begin at `offset`. -/
def startsAfter (offset : Nat) : List Char → List Nat
  | [] => []
  | c :: cs =>
    let next := offset + c.utf8Size
    if c = '\n' then next :: startsAfter next cs else startsAfter next cs

/-- The first line starts at offset zero, every other one after a line feed. -/
def ofText (text : String) : LineMap :=
  ⟨0 :: startsAfter 0 text.toList⟩

/-- The line that holds `offset` is the last one that starts at or before it. An offset past the
end of the text lies on the last line. -/
def locate (m : LineMap) (offset : Nat) : Location :=
  let passed := m.starts.takeWhile (· ≤ offset)
  ⟨passed.length - 1, offset - passed.getLastD 0⟩

end LineMap

end LambdaLift
