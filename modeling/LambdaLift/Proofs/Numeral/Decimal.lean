import LambdaLift.Numeral.Decimal
import LambdaLift.Proofs.Numeral.Rounding

/-!
# Decimal numerals

* `Decimal.isNearest_toFloat`: a decimal becomes the double nearest to it.
* `Decimal.Numeral`: the numerals `digits [. digits] [e [sign] digits]` and the numbers that they
  denote. `Decimal.read?_text` says that each is read as the number that it denotes.
-/

namespace LambdaLift

open Character

namespace Decimal

/-! ## Digits -/

theorem natOfDigits_eq (cs : List Char) : natOfDigits cs = Nat.ofDigitChars 10 cs 0 := by
  simp only [natOfDigits, Nat.ofDigitChars, Nat.mul_comm 10]

theorem natOfDigits_append (a b : List Char) :
    natOfDigits (a ++ b) = natOfDigits a * 10 ^ b.length + natOfDigits b := by
  rw [natOfDigits_eq, Nat.ofDigitChars_append, Nat.ofDigitChars_eq_ofDigitChars_zero,
    ← natOfDigits_eq, ← natOfDigits_eq, Nat.mul_comm]

theorem natOfDigits_toDigits (n : ℕ) : natOfDigits (Nat.toDigits 10 n) = n := by
  rw [natOfDigits_eq, Nat.ofDigitChars_ten_toDigits]

theorem isDigit_of_mem_toDigits {n : ℕ} {c : Char} (h : c ∈ Nat.toDigits 10 n) :
    isDigit c = true := by
  have hdigit := Nat.isDigit_of_mem_toDigits (by decide) (by decide) h
  simpa [isDigit, Char.isDigit, Char.le_def] using hdigit

theorem exists_digitCount {n : ℕ} (hn : 0 < n) :
    ∃ k, digitCount n = k + 1 ∧ 10 ^ k ≤ n ∧ n < 10 ^ (k + 1) := by
  have hpos : 0 < digitCount n := Nat.length_toDigits_pos
  refine ⟨digitCount n - 1, by omega, ?_, ?_⟩
  · by_contra hlt
    rcases Nat.eq_zero_or_pos (digitCount n - 1) with hzero | hpos'
    · rw [hzero] at hlt
      omega
    · have := (Nat.length_toDigits_le_iff (by decide) hpos').2 (not_le.1 hlt)
      have hcount : digitCount n ≤ digitCount n - 1 := this
      omega
  · rw [Nat.sub_add_cancel hpos]
    exact (Nat.length_toDigits_le_iff (by decide) hpos).1 le_rfl

/-! ## The nearest double -/

/-- The number that a decimal stands for, without its sign. -/
def magnitude (d : Decimal) : ℚ :=
  d.coefficient * 10 ^ d.exponent

theorem isNearest_toFloat (d : Decimal) :
    Binary64.IsNearest d.negative d.magnitude d.toFloat := by
  obtain ⟨negative, coefficient, exponent⟩ := d
  unfold toFloat magnitude
  simp only
  rcases Nat.eq_zero_or_pos coefficient with rfl | hpos
  · have h := Binary64.isNearest_ofRatio negative 0 (Nat.one_pos)
    simpa using h
  obtain ⟨k, hcount, hlow, hhigh⟩ := exists_digitCount hpos
  have hlow' : (10 : ℚ) ^ (k : ℤ) ≤ coefficient := by
    rw [zpow_natCast]
    exact_mod_cast hlow
  have hhigh' : (coefficient : ℚ) < 10 ^ ((k : ℤ) + 1) := by
    rw [← Nat.cast_succ, zpow_natCast]
    exact_mod_cast hhigh
  have hunit : (0 : ℚ) < 10 ^ exponent := by positivity
  rw [hcount]
  split
  · next hsmall =>
    simp only [hpos.ne', decide_false, Bool.false_or, decide_eq_true_eq] at hsmall
    refine ⟨0, Binary64.nearest_zero ?_, rfl⟩
    have hsize : (10 : ℚ) ^ ((k : ℤ) + 1) * 10 ^ exponent ≤ 10 ^ (-331 : ℤ) := by
      rw [← zpow_add₀ (by norm_num)]
      exact zpow_le_zpow_right₀ (by norm_num) (by push_cast at hsmall; omega)
    have hleast : 2 * (10 : ℚ) ^ (-331 : ℤ) ≤ 2 ^ (-1074 : ℤ) := by
      have hnat : 2 * 2 ^ 1074 ≤ 10 ^ 331 := by decide +kernel
      rw [zpow_neg, zpow_neg, ← div_eq_mul_inv, div_le_iff₀ (by positivity), ← div_eq_inv_mul,
        le_div_iff₀ (by positivity)]
      exact_mod_cast hnat
    rw [Binary64.value_one]
    refine le_trans (mul_le_mul_of_nonneg_left ?_ zero_le_two) hleast
    exact (mul_le_mul_of_nonneg_right hhigh'.le hunit.le).trans hsize
  · split
    · next hlarge =>
      refine ⟨Binary64.infinityBits, Binary64.nearest_infinity ?_, rfl⟩
      have hsize : (10 : ℚ) ^ (310 : ℤ) ≤ 10 ^ (k : ℤ) * 10 ^ exponent := by
        rw [← zpow_add₀ (by norm_num)]
        exact zpow_le_zpow_right₀ (by norm_num) (by push_cast at hlarge; omega)
      have hgreatest : (2 : ℚ) ^ (1024 : ℤ) ≤ 10 ^ (310 : ℤ) := by
        have hnat : 2 ^ 1024 ≤ 10 ^ 310 := by decide +kernel
        exact_mod_cast hnat
      rw [Binary64.value_infinityBits]
      exact hgreatest.trans (hsize.trans (mul_le_mul_of_nonneg_right hlow' hunit.le))
    · have h := Binary64.isNearest_ofRatio negative (scale 10 coefficient exponent)
        (scale_pos (by decide) Nat.one_pos (-exponent) : 0 < scale 10 1 (-exponent))
      rw [scale_div (by decide)] at h
      simpa using h

/-! ## Numerals -/

/-- The decimal with the given digits before and after the point, times a power of ten. -/
def ofParts (negative : Bool) (whole fraction : List Char) (power : ℤ) : Decimal :=
  ⟨negative, natOfDigits (whole ++ fraction), power - fraction.length⟩

theorem magnitude_ofParts (negative : Bool) (whole fraction : List Char) (power : ℤ) :
    (ofParts negative whole fraction power).magnitude =
      (natOfDigits whole + natOfDigits fraction / 10 ^ fraction.length) * 10 ^ power := by
  simp only [magnitude, ofParts, natOfDigits_append]
  rw [zpow_sub₀ (by norm_num), zpow_natCast]
  push_cast
  field_simp

/-- One or more decimal digits. -/
abbrev Digits : Type :=
  { ds : List Char // ds ≠ [] ∧ ∀ c ∈ ds, isDigit c = true }

theorem isDigits_zero : ['0'] ≠ [] ∧ ∀ c ∈ ['0'], isDigit c = true :=
  ⟨List.cons_ne_nil _ _, List.forall_mem_singleton.2 rfl⟩

/-- A numeral without a sign. Its exponent may have one, which is negative or not. -/
structure Numeral where
  whole : Digits
  fraction : Option Digits
  exponent : Option (Option Bool × Digits)

/-- A sign that is written or left out. -/
def signText (sign : Option Bool) : List Char :=
  sign.elim [] fun negative => [if negative then '-' else '+']

namespace Numeral

/-- The digits after the point. -/
def fractionDigits (n : Numeral) : List Char :=
  n.fraction.elim [] (·.1)

/-- The number that an exponent denotes; zero if there is none. -/
def power (exponent : Option (Option Bool × Digits)) : ℤ :=
  exponent.elim 0 fun e => if e.1 = some true then -natOfDigits e.2.1 else natOfDigits e.2.1

/-- The number that the numeral denotes. -/
def value (n : Numeral) : ℚ :=
  (natOfDigits n.whole.1 + natOfDigits n.fractionDigits / 10 ^ n.fractionDigits.length) *
    10 ^ power n.exponent

/-- An exponent as it is written. -/
def exponentText (exponent : Option (Option Bool × Digits)) : List Char :=
  exponent.elim [] fun e => 'e' :: (signText e.1 ++ e.2.1)

/-- The numeral as it is written. -/
def text (n : Numeral) : List Char :=
  n.whole.1 ++ (n.fraction.elim [] ('.' :: ·.1) ++ exponentText n.exponent)

end Numeral

theorem Numeral.value_eq (n : Numeral) : n.value = natOfDigits (n.whole.1 ++ n.fractionDigits) *
    10 ^ (power n.exponent - n.fractionDigits.length) :=
  (magnitude_ofParts false _ _ _).symm

/-- Digits do not begin with a sign. -/
theorem takeSign_signText (sign : Option Bool) (ds : Digits) (cs : List Char) :
    takeSign (signText sign ++ (ds.1 ++ cs)) = (sign == some true, ds.1 ++ cs) := by
  obtain ⟨ds, hne, hds⟩ := ds
  match sign with
  | some true | some false => rfl
  | none =>
    obtain ⟨d, ds, rfl⟩ := List.exists_cons_of_ne_nil hne
    have hd := hds d (List.mem_cons_self ..)
    change takeSign (d :: (ds ++ cs)) = _
    unfold takeSign
    split <;> simp_all [isDigit]

theorem readExponent?_text (exponent : Option (Option Bool × Digits)) :
    readExponent? (Numeral.exponentText exponent) = some (Numeral.power exponent) := by
  rcases exponent with _ | ⟨sign, ds⟩
  · rfl
  · have hsign := takeSign_signText sign ds []
    rw [List.append_nil] at hsign
    have hdigits : (ds.1.isEmpty || !ds.1.all isDigit) = false := by
      simpa [List.isEmpty_iff] using ds.2
    simp only [Numeral.exponentText, Numeral.power, readExponent?, Option.elim_some, hsign, hdigits,
      decide_true, Bool.true_or, if_true, Bool.false_eq_true, if_false, beq_iff_eq]
    split <;> rfl

/-- **Reading numerals.** A numeral is read as the number that it denotes. -/
theorem read?_text (sign : Option Bool) (n : Numeral) : read? (signText sign ++ n.text) =
    some (ofParts (sign == some true) n.whole.1 n.fractionDigits (Numeral.power n.exponent)) := by
  have hpower := readExponent?_text n.exponent
  have hexponent : (Numeral.exponentText n.exponent).takeWhile isDigit = [] ∧
      (Numeral.exponentText n.exponent).dropWhile isDigit =
        Numeral.exponentText n.exponent ∧ ∀ cs, Numeral.exponentText n.exponent ≠ '.' :: cs := by
    rcases n.exponent with _ | e
    · simp [Numeral.exponentText]
    · simp [Numeral.exponentText, show isDigit 'e' = false by decide]
  have hwhole : n.whole.1.isEmpty = false := by simpa using n.whole.2.1
  simp only [read?, Numeral.text, takeSign_signText]
  rw [List.takeWhile_append_of_pos n.whole.2.2, List.dropWhile_append_of_pos n.whole.2.2]
  unfold Numeral.fractionDigits
  rcases n.fraction with _ | f
  · simp only [Option.elim_none, List.nil_append, hexponent]
    split
    · next cs h => exact absurd h (hexponent.2.2 cs)
    · simp [hwhole, hpower, ofParts]
  · have hpoint : isDigit '.' = false := by decide
    simp [hpoint, List.takeWhile_append_of_pos f.2.2, List.dropWhile_append_of_pos f.2.2, hexponent,
      hwhole, hpower, ofParts]

end Decimal

end LambdaLift
