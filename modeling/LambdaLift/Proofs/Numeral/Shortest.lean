import LambdaLift.Numeral.Shortest
import LambdaLift.Proofs.Numeral.Decimal

/-!
# Digits that read back

The digits of a double are those of a number in the interval that rounds to it.

* `Shortest.Fits i bits`: the ends of `i` are at or inside the middles to the neighbours of a double,
  and `i` is wide enough for seventeen digits.
* `Shortest.Fits.search`: on one of seventeen grids a point is found in the interval.
* `Shortest.between_digits`: the digits of a positive double stand for a number that rounds to it.
-/

namespace LambdaLift.Shortest

open Binary64 (Between hiddenBit magnitude magnitude_place value value_place exists_place)
open Decimal (natOfDigits)

/-! ## The interval -/

/-- The lower end. -/
def Interval.lower (i : Interval) : ℚ :=
  i.low / i.denominator

/-- The upper end. -/
def Interval.upper (i : Interval) : ℚ :=
  i.high / i.denominator

/-- The interval is one of numbers that round to the double with the given bits. -/
structure Fits (i : Interval) (bits : ℕ) : Prop where
  denominator : 0 < i.denominator
  value_eq : (i.value / i.denominator : ℚ) = value bits
  lower_pos : 0 < i.lower
  lower_lt : i.lower < value bits
  lt_upper : value bits < i.upper
  /-- Neighbours on a grid of seventeen digits are nearer to each other than the ends. -/
  wide : value bits < 10 ^ 16 * (i.upper - i.lower)
  low : ∀ below, below + 1 = bits → value below + value bits ≤ 2 * i.lower
  high : 2 * i.upper = value bits + value (bits + 1)
  closed : i.closed = true → bits % 2 = 0

variable {i : Interval} {bits n : ℕ} {place : ℤ}

theorem contains_iff (hden : 0 < i.denominator) : i.contains place n = true ↔
    i.lower ≤ n * 10 ^ place ∧ n * 10 ^ place ≤ i.upper ∧
      (i.lower = n * 10 ^ place ∨ n * 10 ^ place = i.upper → i.closed = true) := by
  have hden' : (0 : ℚ) < i.denominator := by exact_mod_cast hden
  have hpoint : (n * 10 ^ place : ℚ) =
      (scale 10 n place * i.denominator : ℕ) / (i.denominator * 10 ^ (-place).toNat) := by
    rw [zpow_eq_div (by norm_num), Nat.cast_mul, cast_scale]
    field_simp
    norm_num
  have hend (a : ℕ) : (a / i.denominator : ℚ) =
      (scale 10 a (-place) : ℕ) / (i.denominator * 10 ^ (-place).toNat) := by
    rw [cast_scale]
    field_simp
    norm_num
  have hunit : (0 : ℚ) < i.denominator * 10 ^ (-place).toNat := by positivity
  rw [Interval.lower, Interval.upper, hpoint, hend, hend, div_le_div_iff_of_pos_right hunit,
    div_le_div_iff_of_pos_right hunit, div_left_inj' hunit.ne', div_left_inj' hunit.ne',
    Nat.cast_le, Nat.cast_le, Nat.cast_inj, Nat.cast_inj]
  unfold Interval.contains
  generalize scale 10 n place * i.denominator = point
  cases i.closed
  · simp
    omega
  · simp

theorem Fits.between (h : Fits i bits) (hcontains : i.contains place n = true) :
    Between (n * 10 ^ place) bits := by
  obtain ⟨hlower, hupper, hclosed⟩ := (contains_iff h.denominator).1 hcontains
  refine ⟨fun below hbelow => (h.low below hbelow).trans (by linarith), ?_, fun htie => ?_⟩
  · rw [← h.high]
    linarith
  · refine h.closed (hclosed ?_)
    rcases htie with ⟨below, hbelow, htie⟩ | htie
    · exact .inl (le_antisymm hlower (by linarith [h.low below hbelow]))
    · exact .inr (by linarith [h.high])

/-- The interval of a double fits, in quarters of the last place. -/
theorem fits_ofMagnitude (hpos : 0 < bits) : Fits (Interval.ofMagnitude (magnitude bits)) bits := by
  obtain ⟨place, mantissa, rfl, hlt, hnormal⟩ := exists_place bits
  have hmantissa : 0 < mantissa := by
    simp only [hiddenBit] at *
    omega
  have hlast : (2 : ℚ) ^ ((place : ℤ) - 1074) = 2 ^ ((place : ℤ) - 1074 - 2) * 4 := by
    rw [zpow_sub₀ two_ne_zero ((place : ℤ) - 1074)]
    norm_num
  have hhere := value_place hlt.le hnormal
  have hnext := value_place hlt (hnormal.imp_right (by omega))
  have hratio (n : ℕ) : (scale 2 n ((place : ℤ) - 1074 - 2) : ℚ) /
      scale 2 1 (-((place : ℤ) - 1074 - 2)) = n * 2 ^ ((place : ℤ) - 1074 - 2) := by
    rw [scale_div two_pos, Nat.cast_one, div_one, Nat.cast_ofNat]
  have hw : (0 : ℚ) < 2 ^ ((place : ℤ) - 1074 - 2) := by positivity
  obtain ⟨gap, hgap, hcases⟩ : ∃ gap : ℕ, gap = (if mantissa = hiddenBit then 1 else 2) ∧
      (gap = 1 ∧ mantissa = hiddenBit ∨ gap = 2 ∧ mantissa ≠ hiddenBit) := by
    refine ⟨_, rfl, ?_⟩
    split <;> simp [*]
  -- Below a power of two the distance may be half of that above it.
  have hbelow (below : ℕ) (heq : below + 1 = place * hiddenBit + mantissa) :
      value below ≤ (4 * mantissa - 2 * gap) * 2 ^ ((place : ℤ) - 1074 - 2) := by
    by_cases hfirst : place = 0 ∨ hiddenBit < mantissa
    · have hvalue := value_place (show mantissa - 1 ≤ 2 * hiddenBit by omega)
        (hfirst.imp_right Nat.le_pred_of_lt)
      rw [show below = place * hiddenBit + (mantissa - 1) by omega, hvalue, hlast,
        Nat.cast_pred hmantissa]
      have hle : (gap : ℚ) ≤ 2 := by
        rcases hcases with ⟨rfl, -⟩ | ⟨rfl, -⟩ <;> norm_num
      nlinarith
    · obtain ⟨hplace, hle⟩ := not_or.1 hfirst
      obtain rfl : mantissa = hiddenBit := by omega
      obtain rfl : gap = 1 := by omega
      obtain ⟨place, rfl⟩ := Nat.exists_eq_succ_of_ne_zero hplace
      have hvalue := value_place (show 2 * hiddenBit - 1 ≤ 2 * hiddenBit by omega)
        (.inr (by decide) : place = 0 ∨ _)
      have hsum : below = place * hiddenBit + (2 * hiddenBit - 1) := by
        rw [Nat.succ_mul] at heq
        omega
      have hhalf : (2 : ℚ) ^ ((place : ℤ) - 1074) = 2 ^ (((place + 1 : ℕ) : ℤ) - 1074 - 2) * 2 := by
        rw [← zpow_add_one₀ two_ne_zero]
        congr 1
        push_cast
        ring
      rw [hsum, hvalue, hhalf, Nat.cast_pred (by decide)]
      push_cast
      apply le_of_eq
      ring
  rw [magnitude_place hlt hnormal]
  rw [hlast] at hhere hnext
  generalize (2 : ℚ) ^ ((place : ℤ) - 1074 - 2) = w at *
  have hpositive : (1 : ℚ) ≤ mantissa := by exact_mod_cast hmantissa
  have hgap' : (1 : ℚ) ≤ gap ∧ (gap : ℚ) ≤ 2 := by
    rcases hcases with ⟨rfl, -⟩ | ⟨rfl, -⟩ <;> norm_num
  have hlower : (Interval.ofMagnitude ⟨mantissa, place - 1074⟩).lower = (4 * mantissa - gap) * w := by
    have hle : gap ≤ 4 * mantissa := by omega
    refine (hratio (4 * mantissa - _)).trans ?_
    rw [← hgap, Nat.cast_sub hle]
    push_cast
    rfl
  have hupper : (Interval.ofMagnitude ⟨mantissa, place - 1074⟩).upper = (4 * mantissa + 2) * w := by
    refine (hratio _).trans ?_
    push_cast
    rfl
  refine ⟨scale_pos two_pos one_pos _, ?_, ?_, ?_, ?_, ?_, ?_, ?_, ?_⟩
  · refine (hratio _).trans ?_
    rw [hhere]
    push_cast
    ring
  · rw [hlower]
    exact mul_pos (by linarith) hw
  · rw [hlower, hhere]
    nlinarith
  · rw [hupper, hhere]
    nlinarith
  · have hsize : (4 * mantissa : ℚ) < 10 ^ 16 * (2 + gap) := by
      have hsize : 4 * mantissa < 10 ^ 16 * (2 + gap) := by
        simp only [hiddenBit] at hlt hcases
        omega
      exact_mod_cast hsize
    rw [hlower, hupper, hhere]
    linarith [mul_pos (sub_pos.2 hsize) hw]
  · intro below heq
    rw [hlower, hhere]
    linarith [hbelow below heq]
  · rw [hupper, hhere, Nat.add_assoc, hnext]
    push_cast
    ring
  · intro hclosed
    have heven : mantissa % 2 = 0 := of_decide_eq_true hclosed
    simp only [hiddenBit]
    omega

/-! ## The search -/

theorem Fits.decimalExponent_le (h : Fits i bits) : (10 : ℚ) ^ i.decimalExponent ≤ value bits := by
  have hpos : 0 < i.value := by
    have hvalue := h.lower_pos.trans h.lower_lt
    rw [← h.value_eq] at hvalue
    refine Nat.pos_of_ne_zero fun hzero => ?_
    simp [hzero] at hvalue
  obtain ⟨a, ha, hlow, hhigh⟩ := Decimal.exists_digitCount hpos
  obtain ⟨b, hb, hlow', hhigh'⟩ := Decimal.exists_digitCount h.denominator
  have hsub : (Decimal.digitCount i.value : ℤ) - Decimal.digitCount i.denominator = a - b := by
    omega
  have hspec := (exponent_spec (by decide) hlow hhigh hlow' hhigh' rfl).1
  rw [h.value_eq] at hspec
  rwa [Interval.decimalExponent, hsub]

theorem contains_of_pick? (h : i.pick? place = some n) : i.contains place n = true := by
  unfold Interval.pick? at h
  simp only at h
  split at h
  · cases h
    split <;> assumption
  all_goals
    cases h
    try assumption

/-- A grid that is finer than the interval has a point in it. -/
theorem Fits.exists_pick? (h : Fits i bits) (hfine : (10 : ℚ) ^ place < i.upper - i.lower) :
    ∃ n, i.pick? place = some n := by
  have hunit : (0 : ℚ) < 10 ^ place := by positivity
  have hscaled := scale_div (show 0 < 10 by decide) i.value i.denominator (-place)
  rw [h.value_eq, neg_neg, zpow_neg, ← div_eq_mul_inv, Nat.cast_ofNat] at hscaled
  -- The two neighbours of the value on the grid.
  have hbelow : (((i.inUnits place).1 / (i.inUnits place).2 : ℕ) : ℚ) * 10 ^ place ≤ value bits := by
    rw [← le_div_iff₀ hunit, ← hscaled]
    exact Nat.cast_div_le
  have habove : value bits < (((i.inUnits place).1 / (i.inUnits place).2 : ℕ) + 1) * 10 ^ place := by
    rw [← div_lt_iff₀ hunit, ← hscaled, ← Nat.floor_div_eq_div (K := ℚ)]
    exact Nat.lt_floor_add_one _
  by_contra hnone
  have hneither : i.contains place ((i.inUnits place).1 / (i.inUnits place).2) = false ∧
      i.contains place ((i.inUnits place).1 / (i.inUnits place).2 + 1) = false := by
    unfold Interval.pick? at hnone
    simp only at hnone
    split at hnone
    all_goals first
      | exact ⟨by assumption, by assumption⟩
      | exact absurd ⟨_, rfl⟩ hnone
  rw [← Bool.not_eq_true, ← Bool.not_eq_true, contains_iff h.denominator,
    contains_iff h.denominator] at hneither
  generalize (i.inUnits place).1 / (i.inUnits place).2 = below at *
  push_cast at hneither
  have hlower : below * 10 ^ place ≤ i.lower := by
    by_contra hlt
    refine hneither.1 ⟨(not_le.1 hlt).le, (hbelow.trans_lt h.lt_upper).le, fun htie => ?_⟩
    rcases htie with htie | htie
    · exact absurd htie.ge hlt
    · exact absurd htie (hbelow.trans_lt h.lt_upper).ne
  have hupper : i.upper ≤ (below + 1) * 10 ^ place := by
    by_contra hlt
    refine hneither.2 ⟨(h.lower_lt.trans habove).le, (not_le.1 hlt).le, fun htie => ?_⟩
    rcases htie with htie | htie
    · exact absurd htie (h.lower_lt.trans habove).ne
    · exact absurd htie.ge hlt
  linarith

theorem contains_search {more : ℕ} (h : ∃ n, i.pick? (place - more) = some n) :
    i.contains (i.search (more + 1) place).2 (i.search (more + 1) place).1 = true := by
  induction more generalizing place with
  | zero =>
    obtain ⟨n, hn⟩ := h
    rw [Nat.cast_zero, sub_zero] at hn
    simpa only [Interval.search, hn] using contains_of_pick? hn
  | succ more ih =>
    rw [Interval.search]
    cases hpick : i.pick? place with
    | some n => exact contains_of_pick? hpick
    | none =>
      refine ih ?_
      rwa [show place - 1 - (more : ℤ) = place - (more + 1 : ℕ) by push_cast; ring]

/-- On one of seventeen grids a point is found. -/
theorem Fits.search (h : Fits i bits) : i.contains (i.search 17 i.decimalExponent).2
    (i.search 17 i.decimalExponent).1 = true := by
  refine contains_search (h.exists_pick? ?_)
  have hlt := h.decimalExponent_le.trans_lt h.wide
  rw [zpow_sub₀ (by norm_num), div_lt_iff₀ (by positivity), mul_comm]
  exact_mod_cast hlt

/-! ## The digits -/

@[simp] theorem length_zeros (z : ℕ) : (zeros z).length = z :=
  List.length_replicate

@[simp] theorem natOfDigits_zeros (z : ℕ) : natOfDigits (zeros z) = 0 := by
  induction z with
  | zero => rfl
  | succ z ih =>
    rw [zeros, List.replicate_succ', Decimal.natOfDigits_append, ← zeros, ih]
    rfl

theorem eq_append_zeros (cs : List Char) :
    ∃ z, cs = (cs.reverse.dropWhile (· = '0')).reverse ++ zeros z := by
  refine ⟨(cs.reverse.takeWhile (· = '0')).length, ?_⟩
  have hzeros : cs.reverse.takeWhile (· = '0') =
      List.replicate (cs.reverse.takeWhile (· = '0')).length '0' :=
    List.eq_replicate_of_mem fun c hc => by simpa using List.all_eq_true.1 List.all_takeWhile c hc
  have hsplit := congrArg List.reverse (List.takeWhile_append_dropWhile (p := (· = '0')) (l := cs.reverse))
  rw [List.reverse_append, List.reverse_reverse, hzeros, List.reverse_replicate] at hsplit
  exact hsplit.symm

/-- **Digits read back.** The digits of a positive double stand for a number between the middles to
its neighbours. -/
theorem between_digits (hpos : 0 < bits) :
    (digits (magnitude bits)).digits ≠ [] ∧
      (∀ c ∈ (digits (magnitude bits)).digits, Character.isDigit c = true) ∧
      Between (natOfDigits (digits (magnitude bits)).digits * 10 ^
        ((digits (magnitude bits)).exponent + 1 - (digits (magnitude bits)).digits.length)) bits := by
  have hfits := fits_ofMagnitude hpos
  have hcontains := hfits.search
  unfold digits
  simp only
  generalize Interval.ofMagnitude (magnitude bits) = i at *
  generalize i.search 17 i.decimalExponent = found at *
  obtain ⟨n, place⟩ := found
  obtain ⟨z, hz⟩ := eq_append_zeros (Nat.toDigits 10 n)
  have hn := Decimal.natOfDigits_toDigits n
  generalize ((Nat.toDigits 10 n).reverse.dropWhile (· = '0')).reverse = ds at hz ⊢
  have hbetween := hfits.between hcontains
  have hpositive := hfits.lower_pos.trans_le ((contains_iff hfits.denominator).1 hcontains).1
  have hsum : natOfDigits ds * 10 ^ z = n := by
    rw [hz, Decimal.natOfDigits_append] at hn
    simpa using hn
  have hlength : (Nat.toDigits 10 n).length = ds.length + z := by
    rw [hz]
    simp
  refine ⟨?_, fun c hc => ?_, ?_⟩
  · rintro rfl
    simp [← hsum, natOfDigits] at hpositive
  · exact Decimal.isDigit_of_mem_toDigits (n := n) (hz ▸ List.mem_append_left _ hc)
  · have hexponent : place + (Nat.toDigits 10 n).length - 1 + 1 - ds.length = place + z := by
      omega
    rw [hexponent, add_comm, zpow_add₀ (by norm_num), ← mul_assoc, zpow_natCast]
    simp only [← hsum] at hbetween
    exact_mod_cast hbetween

end LambdaLift.Shortest
