import LambdaLift.Proofs.Token.Stream
import Mathlib.Logic.Function.Iterate

/-!
# Reading moves forward

Every reader ends at a cursor that is reached from its start by passing characters of the text
(`Cursor.Reaches`). So offsets never go back, and they go on exactly by the bytes that were passed.

* `Lexeme.reaches_read`: a token ends at or after its start.
* `Lexer.IsOrdered.start_le_iterate`: the tokens of a text follow one another.
* `Lexer.IsOrdered.start_lt_scan`: the token after a keyword starts later than the keyword.
-/

namespace LambdaLift

namespace Cursor

/-- The second cursor is reached from the first one by passing characters. -/
def Reaches (c d : Cursor) : Prop :=
  ∃ n, d = c.skip n

theorem skip_skip (c : Cursor) (m n : Nat) : (c.skip m).skip n = c.skip (m + n) := by
  simp [skip, List.take_add, byteLength_append, Nat.add_assoc]

theorem Reaches.refl (c : Cursor) : c.Reaches c :=
  ⟨0, (skip_zero c).symm⟩

theorem Reaches.trans {c d e : Cursor} (h : c.Reaches d) (h' : d.Reaches e) : c.Reaches e := by
  obtain ⟨m, rfl⟩ := h
  obtain ⟨n, rfl⟩ := h'
  exact ⟨m + n, skip_skip c m n⟩

theorem reaches_skip (c : Cursor) (n : Nat) : c.Reaches (c.skip n) :=
  ⟨n, rfl⟩

theorem reaches_skipWhile (c : Cursor) (p : Char → Bool) : c.Reaches (c.skipWhile p) :=
  reaches_skip ..

variable {c d : Cursor}

theorem Reaches.offset_le (h : c.Reaches d) : c.offset ≤ d.offset := by
  obtain ⟨n, rfl⟩ := h
  simp [skip]

/-- A cursor with less text after it stands further on. -/
theorem Reaches.offset_lt (h : c.Reaches d) (hrest : d.rest.length < c.rest.length) :
    c.offset < d.offset := by
  obtain ⟨n, rfl⟩ := h
  have hn : n ≠ 0 := by
    rintro rfl
    simp at hrest
  cases hc : c.rest with
  | nil => simp [hc] at hrest
  | cons x xs =>
    obtain ⟨m, rfl⟩ := Nat.exists_eq_succ_of_ne_zero hn
    have hpos : 0 < byteLength (x :: xs.take m) := byteLength_pos
    simp [skip, hc, hpos]

end Cursor

open Cursor

/-! ## Escapes -/

namespace Escape

theorem reaches_hexDigits? {c stop : Cursor} {count n : Nat}
    (h : hexDigits? c count = some (n, stop)) : c.Reaches stop := by
  simp only [hexDigits?] at h
  split at h
  · cases h
    exact reaches_skip ..
  · cases h

theorem reaches_lowSurrogate? {c stop : Cursor} {n : Nat}
    (h : lowSurrogate? c = some (n, stop)) : c.Reaches stop := by
  simp only [lowSurrogate?] at h
  split at h
  · obtain ⟨h, -⟩ := Option.filter_eq_some_iff.1 h
    exact (reaches_skip c 2).trans (reaches_hexDigits? h)
  · cases h

theorem reaches_unicode (c : Cursor) : c.Reaches (unicode c).2 := by
  unfold unicode
  split
  · have hdigits := (reaches_skip c 1).trans
      (reaches_skip _ ((c.skip 1).rest.takeWhile Character.isHexDigit).length)
    simp only [braced]
    split
    · exact hdigits
    · exact hdigits.trans (reaches_skip ..)
  · unfold fourDigits
    split
    · exact .refl c
    · rename_i value stop hfirst
      split
      · split
        · rename_i low stop' hlow
          exact (reaches_hexDigits? hfirst).trans (reaches_lowSurrogate? hlow)
        · exact reaches_hexDigits? hfirst
      · exact reaches_hexDigits? hfirst

theorem reaches_octalDigits (more value : Nat) (c : Cursor) :
    c.Reaches (octalDigits more value c).2 := by
  fun_induction octalDigits more value c with
  | case2 more value c d h hle ih => exact (reaches_skip c 1).trans ih
  | _ => exact .refl _

theorem reaches_read (c : Cursor) : c.Reaches (read c).stop := by
  have hnext := reaches_skip c 2
  unfold read
  split
  · exact reaches_skip c 1
  · rename_i x _
    simp only
    split
    · exact hnext
    split
    · exact hnext
    split
    · split
      · rename_i hdigits
        exact hnext.trans (reaches_hexDigits? hdigits)
      · exact hnext
    split
    · have hunicode := hnext.trans (reaches_unicode (c.skip 2))
      split <;> rename_i heq <;> rw [heq] at hunicode <;> exact hunicode
    split
    · exact hnext.trans (reaches_octalDigits 2 _ _)
    split
    · split
      · exact hnext.trans (reaches_skip ..)
      · exact hnext
    · split <;> exact hnext

end Escape

/-! ## Tokens -/

namespace Quoted

theorem reaches_stringBody (quote : Char) (c : Cursor) : c.Reaches (stringBody quote c).stop := by
  fun_induction stringBody quote c with
  | case1 c | case4 c => exact .refl c
  | case2 c => exact reaches_skip c 1
  | case3 c _ _ _ ih => exact (Escape.reaches_read c).trans ih
  | case5 c _ _ _ _ _ _ ih => exact (reaches_skip c 1).trans ih

theorem reaches_templateBody (c : Cursor) : c.Reaches (templateBody c).1.stop := by
  fun_induction templateBody c with
  | case1 c => exact .refl c
  | case2 c => exact reaches_skip c 1
  | case3 c => exact reaches_skip c 2
  | case4 c _ _ b opened h _ _ ih =>
    rw [h] at ih
    exact (Escape.reaches_read c).trans ih
  | case5 c _ _ b opened h _ _ _ ih =>
    rw [h] at ih
    exact (reaches_skip c _).trans ih
  | case6 c _ _ _ _ _ _ _ b opened h ih =>
    rw [h] at ih
    exact (reaches_skip c 1).trans ih

end Quoted

namespace Number

theorem reaches_run (isDigit : Char → Bool) (c : Cursor) : c.Reaches (run isDigit c).stop :=
  reaches_skip ..

/-- The name after a number only moves on. -/
theorem reaches_lexeme {c start stop : Cursor} (h : c.Reaches stop) (number : Float)
    (flags : TokenFlags) (reports : List Report) :
    c.Reaches (lexeme start stop number flags reports).stop := by
  have hname : stop.Reaches (nameAfter stop).1 := by
    unfold nameAfter
    split
    · exact reaches_skipWhile ..
    · exact .refl stop
  exact h.trans hname

theorem reaches_marked (base : Nat) (flags : TokenFlags) (c : Cursor) :
    c.Reaches (marked base flags c).stop :=
  reaches_lexeme ((reaches_skip c 2).trans (reaches_run ..)) ..

theorem reaches_fraction? (c : Cursor) : c.Reaches ((fraction? c).elim c Run.stop) := by
  unfold fraction?
  split
  · exact (reaches_skip c 1).trans (reaches_run ..)
  · exact .refl c

theorem reaches_exponent? (c : Cursor) : c.Reaches ((exponent? c).elim c (·.2.stop)) := by
  unfold exponent?
  split
  · exact ((reaches_skip c 1).trans (reaches_skip ..)).trans (reaches_run ..)
  · exact .refl c

/-- After its fraction a decimal number only moves on. -/
theorem reaches_decimal_of {c d : Cursor} (h : d.Reaches ((fraction? (run Character.isDigit c).stop).elim
    (run Character.isDigit c).stop Run.stop)) : d.Reaches (decimal c).stop :=
  reaches_lexeme (h.trans (reaches_exponent? _)) ..

theorem reaches_decimal (c : Cursor) : c.Reaches (decimal c).stop :=
  reaches_decimal_of ((reaches_run ..).trans (reaches_fraction? _))

theorem reaches_read (c : Cursor) : c.Reaches (read c).stop := by
  unfold read
  split
  · split
    · exact reaches_marked ..
    split
    · exact reaches_marked ..
    split
    · exact reaches_marked ..
    split
    · exact reaches_lexeme (reaches_skip ..) ..
    · exact reaches_decimal c
  · exact reaches_decimal c

end Number

namespace Name

theorem reaches_body (c : Cursor) : c.Reaches (body c).stop := by
  fun_induction body c with
  | case1 c | case5 c => exact .refl c
  | case2 c _ _ _ _ _ _ _ _ _ _ ih | case3 c _ _ _ _ _ _ _ _ _ ih =>
    exact ((reaches_skip c 2).trans (Escape.reaches_unicode _)).trans ih
  | case4 c _ _ _ _ _ _ ih => exact (reaches_skip c 1).trans ih

/-- A name of at least one character has a width. -/
theorem length_body_lt (c : Cursor) :
    (body c).value ≠ [] → (body c).stop.rest.length < c.rest.length := by
  have hlength (d : Cursor) : (body d).stop.rest.length ≤ d.rest.length := by
    obtain ⟨n, hn⟩ := reaches_body d
    rw [hn]
    exact length_skip_le d n
  have hone := length_skip c 1
  have htwo := length_skip c 2
  have hunicode := Escape.length_unicode_le (c.skip 2)
  fun_cases body c with
  | case1 | case5 => exact fun h => absurd rfl h
  | case2 | case3 =>
    intro _
    have hpos : 0 < c.rest.length := by simp [*]
    exact Nat.lt_of_le_of_lt (hlength (Escape.unicode (c.skip 2)).2) (by omega)
  | case4 =>
    intro _
    have hpos : 0 < c.rest.length := by simp [*]
    exact Nat.lt_of_le_of_lt (hlength (c.skip 1)) (by omega)

end Name

namespace Lexeme

theorem reaches_read (c : Cursor) : c.Reaches (read c).stop := by
  unfold read
  split
  · exact .refl c
  · split
    · exact (reaches_skip c 1).trans (Quoted.reaches_stringBody ..)
    split
    · exact (reaches_skip c 1).trans (Quoted.reaches_templateBody ..)
    split
    · exact Number.reaches_read c
    split
    · exact Name.reaches_body c
    split
    · exact reaches_skip ..
    · exact reaches_skip ..

/-- A keyword has a width. -/
theorem length_read_lt {c : Cursor} {k : Keyword} (h : (read c).kind = .keyword k) :
    (read c).stop.rest.length < c.rest.length := by
  rcases read_cases c with hk | ⟨q, cs, -, -, hk⟩ | hk | ⟨-, hk⟩ | ⟨-, hk⟩ | hk | hk
  · simp [hk] at h
  · simp [hk, Quoted.string, Quoted.lexeme] at h
  · simp [h, TokenKind.isTemplate] at hk
  · simp [hk, Number.kind_read] at h
  · rw [hk] at h ⊢
    apply Name.length_body_lt
    intro hempty
    have hnone : Keyword.ofText? "" = none := by decide
    simp [Name.read, hempty, hnone] at h
  · simp [h, TokenKind.isPunctuator] at hk
  · simp [hk] at h

end Lexeme

/-! ## The tokens of a text -/

namespace Lexer

/-- The current token ends at or after its start, and a keyword has a width. -/
structure IsOrdered (l : Lexer) : Prop where
  start_le : l.start.offset ≤ l.here.offset
  start_lt : ∀ k, l.kind = .keyword k → l.start.offset < l.here.offset

theorem isOrdered_scan (l : Lexer) : l.scan.IsOrdered where
  start_le := (Lexeme.reaches_read _).offset_le
  start_lt _ h := (Lexeme.reaches_read _).offset_lt (Lexeme.length_read_lt h)

variable {l : Lexer}

theorem IsOrdered.iterate (h : l.IsOrdered) (k : Nat) : (scan^[k] l).IsOrdered := by
  cases k with
  | zero => exact h
  | succ k =>
    rw [Function.iterate_succ_apply']
    exact isOrdered_scan _

/-- Tokens further on start at or after the current one. -/
theorem IsOrdered.start_le_iterate (h : l.IsOrdered) (k : Nat) :
    l.start.offset ≤ (scan^[k] l).start.offset := by
  induction k with
  | zero => exact Nat.le_refl _
  | succ k ih =>
    rw [Function.iterate_succ_apply']
    exact (ih.trans (h.iterate k).start_le).trans (here_le_scan_start _).1

/-- The token after a keyword starts later than the keyword. -/
theorem IsOrdered.start_lt_scan (h : l.IsOrdered) {k : Keyword} (hkind : l.kind = .keyword k) :
    l.start.offset < l.scan.start.offset :=
  (h.start_lt k hkind).trans_le (here_le_scan_start l).1

end Lexer

end LambdaLift
