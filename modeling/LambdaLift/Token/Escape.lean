import LambdaLift.Text.Character
import LambdaLift.Token.Lexeme

/-!
# Escapes

* `Escape.unicode`: the part of an escape after `\u`, in strings and in names.
* `Escape.read`: an escape in a string or a template.
-/

namespace LambdaLift

/-- An escape: where it ends, the character it stands for if there is one, and what is wrong. -/
structure Escape where
  stop : Cursor
  cooked : List Char := []
  flags : TokenFlags := {}
  reports : List Report := []

namespace Escape

/-- The character that stands for a surrogate without its partner. -/
def replacement : Char :=
  '\ufffd'

/-- The number that digits of the given base denote. -/
def natOfDigits (base : Nat) (digits : List Char) : Nat :=
  digits.foldl (fun n d => n * base + (Character.digitValue? base d).getD 0) 0

/-- The number in the next `count` characters and the place after them, if all of them are digits
of base sixteen. -/
def hexDigits? (c : Cursor) (count : Nat) : Option (Nat × Cursor) :=
  let digits := c.rest.take count
  if digits.length = count && digits.all Character.isHexDigit then
    some (natOfDigits 16 digits, c.skip count)
  else none

/-- Any number of digits in braces, at the opening one. The digits must be there, be closed, and
denote a scalar value. -/
def braced (c : Cursor) : Option Char × Cursor :=
  let digits := (c.skip 1).rest.takeWhile Character.isHexDigit
  let stop := (c.skip 1).skip digits.length
  if digits.isEmpty || stop.peek? ≠ some '\x7d' then (none, stop)
  else (Character.ofScalar? (natOfDigits 16 digits), stop.skip 1)

/-- The second half of a surrogate pair, if another escape at the cursor is one. -/
def lowSurrogate? (c : Cursor) : Option (Nat × Cursor) :=
  if c.startsWith ['\\', 'u'] then
    (hexDigits? (c.skip 2) 4).filter fun r => 0xdc00 ≤ r.1 && r.1 ≤ 0xdfff
  else none

/-- Four digits, at the first one. Two escapes that make up a surrogate pair are one character, and
a surrogate that stands alone becomes the replacement character. -/
def fourDigits (c : Cursor) : Option Char × Cursor :=
  match hexDigits? c 4 with
  | none => (none, c)
  | some (value, stop) =>
    if 0xd800 ≤ value && value ≤ 0xdbff then
      match lowSurrogate? stop with
      | some (low, stop) =>
        (Character.ofScalar? (0x10000 + (value - 0xd800) * 0x400 + (low - 0xdc00)), stop)
      | none => (some replacement, stop)
    else (some ((Character.ofScalar? value).getD replacement), stop)

/-- What follows `\u`: the character, unless the escape is invalid, and the place after it. -/
def unicode (c : Cursor) : Option Char × Cursor :=
  if c.peek? = some '\x7b' then braced c else fourDigits c

/-- Extends `value` by up to `more` further digits of base eight as long as it stays below `256`. -/
def octalDigits : Nat → Nat → Cursor → Nat × Cursor
  | 0, value, c => (value, c)
  | more + 1, value, c =>
    match c.peek?.bind (Character.digitValue? 8) with
    | some d =>
      if value * 8 + d ≤ 0o377 then octalDigits more (value * 8 + d) (c.skip 1) else (value, c)
    | none => (value, c)

/-- An escape in base eight that starts with the digit `first`, which is before the cursor. -/
def octal (first : Nat) (c : Cursor) : Escape :=
  let (value, stop) := octalDigits 2 first c
  { stop
    cooked := (Character.ofScalar? value).toList
    flags := { octal := true } }

/-- The characters that a letter after the backslash stands for. -/
def letter? : Char → Option Char
  | 'b' => some '\x08'
  | 't' => some '\t'
  | 'n' => some '\n'
  | 'v' => some '\x0b'
  | 'f' => some '\x0c'
  | 'r' => some '\r'
  | _ => none

/-- The escape whose backslash is at the cursor. A backslash before a line end joins two lines and
stands for nothing; a backslash at the end of the text is left to the literal around it. -/
def read (c : Cursor) : Escape :=
  let invalid (stop : Cursor) (fault : Fault) : Escape :=
    { stop
      flags := { invalidEscape := true }
      reports := [.ofFault (c.spanTo stop) fault] }
  match (c.skip 1).peek? with
  | none => { stop := c.skip 1 }
  | some x =>
    let next := c.skip 2
    let digitNext := next.peek?.any Character.isDigit
    match letter? x with
    | some y => { stop := next, cooked := [y] }
    | none =>
      if x = '0' && !digitNext then { stop := next, cooked := ['\x00'] }
      else if x = 'x' then
        match hexDigits? next 2 with
        | some (value, stop) => { stop, cooked := (Character.ofScalar? value).toList }
        | none => invalid next .hexDigitExpected
      else if x = 'u' then
        match unicode next with
        | (some y, stop) => { stop, cooked := [y] }
        | (none, stop) => invalid stop .invalidEscape
      else if let some d := Character.digitValue? 8 x then octal d next
      else if x = '\r' then { stop := if next.peek? = some '\n' then next.skip 1 else next }
      else if Character.isLineBreak x then { stop := next }
      else { stop := next, cooked := [x] }

theorem length_hexDigits?_le {c : Cursor} {count n : Nat} {stop : Cursor}
    (h : hexDigits? c count = some (n, stop)) : stop.rest.length ≤ c.rest.length := by
  simp only [hexDigits?] at h
  split at h
  · cases h
    exact Cursor.length_skip_le ..
  · simp at h

theorem length_lowSurrogate?_le {c : Cursor} {n : Nat} {stop : Cursor}
    (h : lowSurrogate? c = some (n, stop)) : stop.rest.length ≤ c.rest.length := by
  simp only [lowSurrogate?] at h
  split at h
  · obtain ⟨h, -⟩ := Option.filter_eq_some_iff.1 h
    exact Nat.le_trans (length_hexDigits?_le h) (Cursor.length_skip_le ..)
  · simp at h

/-- Reading what follows `\u` never moves back. -/
theorem length_unicode_le (c : Cursor) : (unicode c).2.rest.length ≤ c.rest.length := by
  simp only [unicode]
  split
  · simp only [braced]
    split <;> simp only [Cursor.length_skip] <;> omega
  · simp only [fourDigits]
    split
    · exact Nat.le_refl _
    · rename_i h
      have h₁ := length_hexDigits?_le h
      split
      · split
        · rename_i h'
          have h₂ := length_lowSurrogate?_le h'
          simp only at *
          omega
        · exact h₁
      · exact h₁

theorem length_octalDigits_le (more value : Nat) (c : Cursor) :
    (octalDigits more value c).2.rest.length ≤ c.rest.length := by
  fun_induction octalDigits more value c with
  | case2 more value c d h hle ih => exact Nat.le_trans ih (Cursor.length_skip_le ..)
  | _ => exact Nat.le_refl _

/-- Reading an escape uses up at least the backslash. -/
theorem length_read_le (c : Cursor) : (read c).stop.rest.length ≤ c.rest.length - 1 := by
  have skip_le (n : Nat) (hn : 1 ≤ n) : (c.skip n).rest.length ≤ c.rest.length - 1 := by
    simp only [Cursor.length_skip]; omega
  have next_le := skip_le 2 (by decide)
  simp only [read]
  split
  · exact skip_le 1 (by decide)
  · rename_i x _
    split
    · exact next_le
    · split
      · exact next_le
      split
      · split
        · rename_i h
          exact Nat.le_trans (length_hexDigits?_le h) next_le
        · exact next_le
      split
      · have h := Nat.le_trans (length_unicode_le (c.skip 2)) next_le
        split <;> rename_i heq <;> rw [heq] at h <;> exact h
      split
      · simp only [octal]
        exact Nat.le_trans (length_octalDigits_le ..) next_le
      split
      · split
        · exact Nat.le_trans (Cursor.length_skip_le ..) next_le
        · exact next_le
      · split <;> exact next_le

end Escape

end LambdaLift
