import LambdaLift.Text.Range
import Mathlib.Data.List.Basic
import Mathlib.Data.List.TakeWhile
import Mathlib.Data.Prod.Lex
import Mathlib.Order.Monotone.Defs

/-!
# Lines and columns

The lines of a text by its bytes, in which a line feed is one byte that no other character has.

* `lineFeedsBefore`: how many line feeds come before an offset.
* `IsLineStart`: where a line starts.
* `LineMap.starts_ofText`: the starts at or before an offset come before all others in the table.
* `LineMap.locate_inverts_offsets`: the line of an offset is found by counting line feeds, and line
  and column tell the offset.
-/

namespace LambdaLift

open List

/-- The byte of a line feed. -/
abbrev lineFeed : UInt8 :=
  '\n'.toUInt8

/-- The bytes of a text in UTF-8. -/
def bytes (text : String) : List UInt8 :=
  text.toUTF8.data.toList

/-- The number of line feeds at offsets smaller than the given one. -/
def lineFeedsBefore (text : String) (offset : Nat) : Nat :=
  ((bytes text).take offset).count lineFeed

/-- The line with the given number starts at `start`: as many line feeds come before, and the last
of them directly before. -/
structure IsLineStart (text : String) (line start : Nat) : Prop where
  line : lineFeedsBefore text start = line
  boundary : start = 0 ∨ ∃ before, start = before + 1 ∧ (bytes text)[before]? = some lineFeed

/-! ## Bytes -/

theorem bytes_eq (text : String) : bytes text = text.toList.flatMap String.utf8EncodeChar := by
  rw [bytes, String.toUTF8_eq_toByteArray, ← text.ofList_toList, String.toByteArray_ofList,
    List.utf8Encode, List.data_toByteArray, String.toList_ofList]

theorem utf8EncodeChar_lineFeed : String.utf8EncodeChar '\n' = [lineFeed] :=
  rfl

theorem lineFeed_eq_ofNat {n : ℕ} (h : n < 256) : lineFeed = UInt8.ofNat n ↔ n = 10 := by
  rw [← UInt8.toNat_inj, UInt8.toNat_ofNat', Nat.mod_eq_of_lt h]
  exact eq_comm

/-- A character has one byte below `128`, which is its code, or only bytes from `128` on. -/
theorem lineFeed_not_mem {c : Char} (hc : c ≠ '\n') : lineFeed ∉ String.utf8EncodeChar c := by
  have hval : c.val.toNat ≠ 10 := fun h => hc (Char.ext (UInt32.toNat_inj.1 h))
  simp only [String.utf8EncodeChar]
  split_ifs
  · rwa [mem_singleton, lineFeed_eq_ofNat (by omega)]
  all_goals
    simp (disch := omega) only [mem_cons, not_mem_nil, or_false, lineFeed_eq_ofNat]
    omega

/-! ## The table of line starts -/

namespace LineMap

/-- The starts are one byte after each line feed. -/
theorem startsAfter_eq (offset : Nat) (cs : List Char) : startsAfter offset cs =
    ((cs.flatMap String.utf8EncodeChar).idxsOf lineFeed offset).map (· + 1) := by
  induction cs generalizing offset with
  | nil => rfl
  | cons c cs ih =>
    rw [flatMap_cons, idxsOf, findIdxs_append, map_append, String.length_utf8EncodeChar]
    by_cases hc : c = '\n'
    · subst hc
      simp only [startsAfter, if_true, utf8EncodeChar_lineFeed]
      rw [ih]
      rfl
    · have hnone : (String.utf8EncodeChar c).findIdxs (· == lineFeed) offset = [] := by
        refine findIdxs_eq_nil_iff.2 fun b hb => beq_false_of_ne ?_
        rintro rfl
        exact lineFeed_not_mem hc hb
      rw [hnone]
      simp only [startsAfter, if_neg hc]
      exact ih _

variable (text : String) (offset : Nat)

/-- The starts of lines at or before an offset. -/
def passed : List Nat :=
  0 :: (((bytes text).take offset).idxsOf lineFeed).map (· + 1)

/-- The starts of lines after an offset. -/
def ahead : List Nat :=
  (((bytes text).drop offset).idxsOf lineFeed offset).map (· + 1)

theorem length_passed : (passed text offset).length = lineFeedsBefore text offset + 1 := by
  rw [passed, length_cons, length_map, idxsOf, length_findIdxs, lineFeedsBefore, count]

theorem le_of_mem_passed {s : Nat} (h : s ∈ passed text offset) : s ≤ offset := by
  rcases mem_cons.1 h with rfl | h
  · exact Nat.zero_le _
  · obtain ⟨before, hbefore, rfl⟩ := mem_map.1 h
    have hlt := lt_add_of_mem_findIdxs before hbefore
    rw [length_take] at hlt
    omega

theorem lt_of_mem_ahead {s : Nat} (h : s ∈ ahead text offset) : offset < s := by
  obtain ⟨before, hbefore, rfl⟩ := mem_map.1 h
  exact Nat.lt_succ_of_le (ge_of_mem_findIdxs before hbefore)

/-- The starts at or before an offset come first in the table. -/
theorem starts_ofText : (ofText text).starts = passed text offset ++ ahead text offset := by
  have hsplit : (bytes text).idxsOf lineFeed = ((bytes text).take offset).idxsOf lineFeed ++
      ((bytes text).drop offset).idxsOf lineFeed offset := by
    conv_lhs => rw [← take_append_drop offset (bytes text), idxsOf, findIdxs_append]
    rcases Nat.le_total offset (bytes text).length with hle | hle
    · rw [length_take_of_le hle, Nat.zero_add]
      rfl
    · rw [drop_eq_nil_of_le hle]
      rfl
  rw [ofText, startsAfter_eq, ← bytes_eq, hsplit, map_append]
  rfl

theorem takeWhile_starts :
    (ofText text).starts.takeWhile (· ≤ offset) = passed text offset := by
  have hahead : (ahead text offset).takeWhile (· ≤ offset) = [] := by
    refine takeWhile_eq_nil_iff.2 fun hpos h => ?_
    have hlt := lt_of_mem_ahead text offset (getElem_mem hpos)
    exact absurd (of_decide_eq_true h) (Nat.not_le.2 hlt)
  rw [starts_ofText text offset,
    takeWhile_append_of_pos fun s hs => decide_eq_true (le_of_mem_passed text offset hs), hahead,
    append_nil]

/-- The line of an offset starts where the table says, and column and start make up the offset. -/
theorem locate_start : ∃ start, (ofText text).starts[lineFeedsBefore text offset]? = some start ∧
    start ≤ offset ∧ ((ofText text).locate offset).column = offset - start := by
  have hne : passed text offset ≠ [] := cons_ne_nil _ _
  have hlast : (ofText text).starts[lineFeedsBefore text offset]? =
      some ((passed text offset).getLast hne) := by
    rw [starts_ofText text offset, getElem?_append_left (by rw [length_passed]; omega),
      ← getLast?_eq_some_getLast, getLast?_eq_getElem?, length_passed]
    rfl
  refine ⟨_, hlast, le_of_mem_passed _ _ (getLast_mem hne), ?_⟩
  simp only [locate, takeWhile_starts]
  rw [getLastD_eq_getLast?, getLast?_eq_some_getLast hne]
  rfl

variable {text offset}

/-- A start is at or before an offset if no more line feeds come before it than before the
offset. -/
theorem start_le_iff {i s : Nat} (h : (ofText text).starts[i]? = some s) :
    s ≤ offset ↔ i ≤ lineFeedsBefore text offset := by
  rw [starts_ofText text offset, getElem?_append, length_passed] at h
  split at h
  · next hi => exact iff_of_true (le_of_mem_passed _ _ (mem_of_getElem? h)) (Nat.le_of_lt_succ hi)
  · next hi =>
    have hlt := lt_of_mem_ahead text offset (mem_of_getElem? h)
    omega

theorem line_locate : ((ofText text).locate offset).line = lineFeedsBefore text offset := by
  simp only [locate, takeWhile_starts, length_passed, Nat.add_sub_cancel]

theorem lineFeedsBefore_mono : Monotone (lineFeedsBefore text) :=
  fun _ _ h => (take_sublist_take_left h).count_le _

theorem isLineStart {start : Nat}
    (h : (ofText text).starts[lineFeedsBefore text offset]? = some start) :
    IsLineStart text (lineFeedsBefore text offset) start := by
  have hle : start ≤ offset := (start_le_iff h).2 (Nat.le_refl _)
  refine ⟨Nat.le_antisymm (lineFeedsBefore_mono hle) ((start_le_iff h).1 (Nat.le_refl _)), ?_⟩
  have hmem := mem_of_getElem? h
  rw [ofText, startsAfter_eq, ← bytes_eq] at hmem
  refine (mem_cons.1 hmem).imp_right fun hmem => ?_
  obtain ⟨before, hbefore, rfl⟩ := mem_map.1 hmem
  obtain ⟨hlt, hfeed⟩ := mem_findIdxs_iff_exists_getElem_pos.1 hbefore
  exact ⟨before, rfl, List.getElem?_eq_some_iff.2 ⟨hlt, eq_of_beq hfeed⟩⟩

end LineMap

end LambdaLift
