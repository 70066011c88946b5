import LambdaLift.Numeral.Decimal
import LambdaLift.Proofs.Numeral.Bits

/-!
# Rounding to the nearest double

-/

namespace LambdaLift

/-! ## Scaled numbers -/

theorem cast_scale (base n : ℕ) (e : ℤ) : (scale base n e : ℚ) = n * (base : ℚ) ^ e.toNat := by
  simp [scale]

variable {base a b : ℕ} {e : ℤ}

theorem scale_pos {n : ℕ} (hbase : 0 < base) (hn : 0 < n) (e : ℤ) : 0 < scale base n e :=
  Nat.mul_pos hn (Nat.pow_pos hbase)

/-- A power with its two parts. -/
theorem zpow_eq_div {base : ℚ} (hbase : base ≠ 0) (e : ℤ) :
    base ^ e = base ^ e.toNat / base ^ (-e).toNat := by
  rw [← zpow_natCast, ← zpow_natCast, ← zpow_sub₀ hbase]
  congr 1
  omega

theorem scale_div (hbase : 0 < base) (n d : ℕ) (e : ℤ) :
    (scale base n e : ℚ) / scale base d (-e) = n / d * (base : ℚ) ^ e := by
  rw [cast_scale, cast_scale, zpow_eq_div (by positivity)]
  field_simp

theorem scale_le_scale (hbase : 0 < base) :
    scale base a e ≤ scale base b (-e) ↔ (a : ℚ) * (base : ℚ) ^ e ≤ b := by
  rw [← Nat.cast_le (α := ℚ), cast_scale, cast_scale, zpow_eq_div (by positivity), ← mul_div_assoc,
    div_le_iff₀ (by positivity)]

/-- The lengths of two numbers leave two candidates for the exponent of their quotient. -/
theorem exponent_spec (hbase : 2 ≤ base) {num den : ℕ} (hnum : base ^ a ≤ num)
    (hnum' : num < base ^ (a + 1)) (hden : base ^ b ≤ den) (hden' : den < base ^ (b + 1))
    (he : e = if scale base den (a - b : ℤ) ≤ scale base num (-(a - b : ℤ)) then (a - b : ℤ)
      else (a - b : ℤ) - 1) :
    (base : ℚ) ^ e ≤ num / den ∧ (num / den : ℚ) < (base : ℚ) ^ (e + 1) := by
  have hbase' : (0 : ℚ) < base := by positivity
  have hpos : (0 : ℚ) < den := by
    exact_mod_cast (Nat.pow_pos (by omega)).trans_le hden
  rw [le_div_iff₀ hpos, div_lt_iff₀ hpos]
  split at he
  · next hle =>
    subst he
    rw [scale_le_scale (by omega)] at hle
    refine ⟨by linarith, ?_⟩
    calc (num : ℚ) < (base : ℚ) ^ (a + 1) := by exact_mod_cast hnum'
      _ = (base : ℚ) ^ ((a - b : ℤ) + 1) * (base : ℚ) ^ b := by
        rw [← zpow_natCast, ← zpow_natCast, ← zpow_add₀ hbase'.ne']
        congr 1
        push_cast
        ring
      _ ≤ (base : ℚ) ^ ((a - b : ℤ) + 1) * den := by
        gcongr
        exact_mod_cast hden
  · next hlt =>
    subst he
    rw [scale_le_scale (by omega), not_le] at hlt
    constructor
    · calc (base : ℚ) ^ ((a - b : ℤ) - 1) * den
          ≤ (base : ℚ) ^ ((a - b : ℤ) - 1) * (base : ℚ) ^ (b + 1) := by
            gcongr
            exact_mod_cast hden'.le
        _ = (base : ℚ) ^ a := by
            rw [← zpow_natCast, ← zpow_natCast, ← zpow_add₀ hbase'.ne']
            congr 1
            push_cast
            ring
        _ ≤ num := by exact_mod_cast hnum
    · rw [sub_add_cancel]
      linarith

/-- The number that a magnitude stands for. -/
def Magnitude.value (x : Magnitude) : ℚ :=
  x.mantissa * 2 ^ x.exponent

namespace Binary64

/-! ## The line of doubles -/

/-- The number that bits below the sign stand for. The bits of infinity stand for the number that
would come after the greatest. -/
def value (bits : ℕ) : ℚ :=
  (magnitude bits).value

theorem magnitude_place {place mantissa : ℕ} (hlt : mantissa < 2 * hiddenBit)
    (hnormal : place = 0 ∨ hiddenBit ≤ mantissa) :
    magnitude (place * hiddenBit + mantissa) = ⟨mantissa, place - 1074⟩ := by
  rcases lt_or_ge mantissa hiddenBit with hsmall | hge
  · obtain rfl : place = 0 := hnormal.resolve_right (by omega)
    simp [magnitude, Nat.div_eq_of_lt hsmall]
  · have hfield : (place * hiddenBit + mantissa) / hiddenBit = place + 1 := by
      simp only [hiddenBit] at *
      omega
    have hmantissa : hiddenBit + (place * hiddenBit + mantissa) % hiddenBit = mantissa := by
      simp only [hiddenBit] at *
      omega
    rw [magnitude, hfield, hmantissa, if_neg (Nat.succ_ne_zero _)]
    congr 1
    push_cast
    ring

/-- In the numbers with one distance to the next, and in the one after them, the bits count. -/
theorem value_place {place mantissa : ℕ} (hle : mantissa ≤ 2 * hiddenBit)
    (hnormal : place = 0 ∨ hiddenBit ≤ mantissa) :
    value (place * hiddenBit + mantissa) = mantissa * 2 ^ ((place : ℤ) - 1074) := by
  rcases hle.lt_or_eq with hlt | rfl
  · rw [value, magnitude_place hlt hnormal, Magnitude.value]
  · -- The first of the numbers with twice the distance.
    have hsum : place * hiddenBit + 2 * hiddenBit = (place + 1) * hiddenBit + hiddenBit := by ring
    rw [hsum, value, magnitude_place (by decide) (.inr le_rfl), Magnitude.value]
    push_cast
    rw [add_sub_right_comm, zpow_add_one₀ two_ne_zero]
    ring

theorem exists_place (bits : ℕ) : ∃ place mantissa, bits = place * hiddenBit + mantissa ∧
    mantissa < 2 * hiddenBit ∧ (place = 0 ∨ hiddenBit ≤ mantissa) := by
  refine ⟨bits / hiddenBit - 1, bits - (bits / hiddenBit - 1) * hiddenBit, ?_⟩
  simp only [hiddenBit]
  omega

theorem value_lt_succ (bits : ℕ) : value bits < value (bits + 1) := by
  obtain ⟨place, mantissa, rfl, hlt, hnormal⟩ := exists_place bits
  rw [value_place hlt.le hnormal, Nat.add_assoc,
    value_place (by omega) (hnormal.imp_right fun h => by omega)]
  push_cast
  have hpos : (0 : ℚ) < 2 ^ ((place : ℤ) - 1074) := by positivity
  nlinarith

theorem value_strictMono : StrictMono value :=
  strictMono_nat_of_lt_succ value_lt_succ

theorem value_zero : value 0 = 0 := by
  simp [value, magnitude, Magnitude.value]

theorem value_one : value 1 = 2 ^ (-1074 : ℤ) := by
  simp [value, magnitude, Magnitude.value, hiddenBit]

theorem hiddenBit_eq : (hiddenBit : ℚ) = 2 ^ (52 : ℤ) := by
  rw [hiddenBit]
  norm_num

theorem value_infinityBits : value infinityBits = 2 ^ (1024 : ℤ) := by
  have hvalue : value (2046 * hiddenBit + hiddenBit) = (hiddenBit : ℕ) * 2 ^ ((2046 : ℕ) - 1074 : ℤ) :=
    value_place (by decide) (.inr le_rfl)
  rw [hiddenBit_eq, ← zpow_add₀ two_ne_zero] at hvalue
  exact hvalue

/-! ## The nearest double -/

/-- Of all bits up to those of infinity none stands for a number that is nearer to `q`, and if others
are as near, the bits are even. -/
structure Nearest (q : ℚ) (bits : ℕ) : Prop where
  le : bits ≤ infinityBits
  nearest : ∀ other ≤ infinityBits, |q - value bits| ≤ |q - value other|
  even : ∀ other ≤ infinityBits, other ≠ bits → |q - value bits| = |q - value other| → bits % 2 = 0

variable {q : ℚ} {den : ℕ}

theorem Nearest.unique {a b : ℕ} (ha : Nearest q a) (hb : Nearest q b) : a = b := by
  wlog hlt : a < b generalizing a b
  · rcases Nat.lt_or_ge b a with h | h
    · exact (this hb ha h).symm
    · exact Nat.le_antisymm h (Nat.le_of_not_lt hlt)
  exfalso
  have htie : |q - value a| = |q - value b| :=
    le_antisymm (ha.nearest b hb.le) (hb.nearest a ha.le)
  have haeven := ha.even b hb.le hlt.ne' htie
  have hbeven := hb.even a ha.le hlt.ne htie.symm
  -- Between two even ones lies an odd one, which is nearer to the middle.
  have hbelow : value a < value (a + 1) := value_strictMono (by omega)
  have habove : value (a + 1) < value b := value_strictMono (by omega)
  have hodd := ha.nearest (a + 1) (by have := hb.le; omega)
  rcases abs_cases (q - value a) with ⟨h1, h1'⟩ | ⟨h1, h1'⟩ <;>
    rcases abs_cases (q - value b) with ⟨h2, h2'⟩ | ⟨h2, h2'⟩ <;>
      rcases abs_cases (q - value (a + 1)) with ⟨h3, h3'⟩ | ⟨h3, h3'⟩ <;> linarith

/-- The number lies between the middles to the neighbours of a double, on a middle only if the bits
are even. -/
structure Between (q : ℚ) (bits : ℕ) : Prop where
  low : ∀ below, below + 1 = bits → value below + value bits ≤ 2 * q
  high : 2 * q ≤ value bits + value (bits + 1)
  even : (∃ below, below + 1 = bits ∧ value below + value bits = 2 * q) ∨
    2 * q = value bits + value (bits + 1) → bits % 2 = 0

theorem Between.nearest {bits : ℕ} (h : Between q bits) (hle : bits ≤ infinityBits) :
    Nearest q bits := by
  -- The neighbour on the side of another double is no nearer than it.
  have hside (other : ℕ) (hne : other ≠ bits) : |q - value bits| ≤ |q - value other| ∧
      (|q - value bits| = |q - value other| → bits % 2 = 0) := by
    rcases Nat.lt_or_gt_of_ne hne with hlt | hgt
    · obtain ⟨below, rfl⟩ : ∃ below, bits = below + 1 := ⟨bits - 1, by omega⟩
      have hstep := value_lt_succ below
      have hother : value other ≤ value below := value_strictMono.monotone (by omega)
      have hlow := h.low below rfl
      have hother' : |q - value other| = q - value other := abs_of_nonneg (by linarith)
      rw [hother']
      refine ⟨abs_le.2 ⟨by linarith, by linarith⟩, fun htie => h.even (.inl ⟨below, rfl, ?_⟩)⟩
      rcases abs_cases (q - value (below + 1)) with ⟨habs, -⟩ | ⟨habs, -⟩ <;> linarith
    · have hstep := value_lt_succ bits
      have hother : value (bits + 1) ≤ value other := value_strictMono.monotone (by omega)
      have hhigh := h.high
      have hother' : |q - value other| = value other - q := by
        rw [abs_sub_comm]
        exact abs_of_nonneg (by linarith)
      rw [hother']
      refine ⟨abs_le.2 ⟨by linarith, by linarith⟩, fun htie => h.even (.inr ?_)⟩
      rcases abs_cases (q - value bits) with ⟨habs, -⟩ | ⟨habs, -⟩ <;> linarith
  refine ⟨hle, fun other _ => ?_, fun other _ hne => (hside other hne).2⟩
  by_cases hne : other = bits
  · rw [hne]
  · exact (hside other hne).1

theorem nearest_zero (h : 2 * q ≤ value 1) : Nearest q 0 := by
  refine Between.nearest ⟨by simp, ?_, fun _ => rfl⟩ (Nat.zero_le _)
  rwa [value_zero, zero_add]

/-- What is beyond the number after the greatest double is infinite. -/
theorem nearest_infinity (h : value infinityBits ≤ q) : Nearest q infinityBits := by
  have hbelow {other : ℕ} (hother : other ≤ infinityBits) (hne : other ≠ infinityBits) :
      |q - value infinityBits| < |q - value other| := by
    have hlt : value other < value infinityBits := value_strictMono (by omega)
    rw [abs_of_nonneg (by linarith), abs_of_nonneg (by linarith)]
    linarith
  refine ⟨le_rfl, fun other hother => ?_, fun other hother hne htie => ?_⟩
  · by_cases hne : other = infinityBits
    · rw [hne]
    · exact (hbelow hother hne).le
  · exact absurd htie (hbelow hother hne).ne

theorem Between.nearest_min {bits : ℕ} (h : Between q bits) :
    Nearest q (min bits infinityBits) := by
  rcases Nat.lt_or_ge infinityBits bits with hlt | hle
  · rw [Nat.min_eq_right hlt.le]
    obtain ⟨below, rfl⟩ : ∃ below, bits = below + 1 := ⟨bits - 1, by omega⟩
    have hlow := h.low below rfl
    have hbelow : value infinityBits ≤ value below := value_strictMono.monotone (by omega)
    have hstep := value_lt_succ below
    exact nearest_infinity (by linarith)
  · rw [Nat.min_eq_left hle]
    exact h.nearest hle

/-- The double has the given sign and is nearest to `q` otherwise. -/
def IsNearest (negative : Bool) (q : ℚ) (x : Float) : Prop :=
  ∃ bits, Nearest q bits ∧ x = ofBits negative bits

theorem IsNearest.unique {negative : Bool} {x y : Float} (hx : IsNearest negative q x)
    (hy : IsNearest negative q y) : x = y := by
  obtain ⟨a, ha, rfl⟩ := hx
  obtain ⟨b, hb, rfl⟩ := hy
  rw [ha.unique hb]

/-! ## The rounded quotient -/

theorem binaryExponent_spec {num : ℕ} (hnum : 0 < num) (hden : 0 < den) :
    (2 : ℚ) ^ binaryExponent num den ≤ num / den ∧
      (num / den : ℚ) < 2 ^ (binaryExponent num den + 1) :=
  exponent_spec le_rfl (Nat.log2_self_le hnum.ne') Nat.lt_log2_self (Nat.log2_self_le hden.ne')
    Nat.lt_log2_self rfl

/-- The whole number is at most a half away, and even where it is a half away. -/
structure NearestNat (x : ℚ) (n : ℕ) : Prop where
  low : 2 * (n : ℚ) ≤ 2 * x + 1
  high : 2 * x ≤ 2 * n + 1
  even : 2 * (n : ℚ) = 2 * x + 1 ∨ 2 * x = 2 * n + 1 → n % 2 = 0

theorem nearestNat_roundDiv (num : ℕ) (hden : 0 < den) :
    NearestNat (num / den) (roundDiv num den) := by
  have hsplit := Nat.div_add_mod' num den
  have hmod := Nat.mod_lt num hden
  have hden' : (0 : ℚ) < den := by exact_mod_cast hden
  have hnat : 2 * (roundDiv num den * den) ≤ 2 * num + den ∧
      2 * num ≤ 2 * (roundDiv num den * den) + den ∧
      (2 * (roundDiv num den * den) = 2 * num + den ∨
        2 * num = 2 * (roundDiv num den * den) + den → roundDiv num den % 2 = 0) := by
    unfold roundDiv
    generalize num / den = q at *
    generalize num % den = r at *
    simp only
    split
    · next h =>
      simp only [Bool.or_eq_true, Bool.and_eq_true, decide_eq_true_eq] at h
      rw [Nat.add_mul]
      omega
    · next h =>
      simp only [Bool.or_eq_true, Bool.and_eq_true, decide_eq_true_eq, not_or, not_and] at h
      omega
  generalize roundDiv num den = n at hnat
  obtain ⟨hlow, hhigh, heven⟩ := hnat
  have hnum : (num : ℚ) = num / den * den := by field_simp
  refine ⟨?_, ?_, fun h => heven (h.imp (fun h => ?_) fun h => ?_)⟩
  · have hlow' : (2 : ℚ) * (n * den) ≤ 2 * num + den := by exact_mod_cast hlow
    rw [hnum] at hlow'
    nlinarith
  · have hhigh' : (2 : ℚ) * num ≤ 2 * (n * den) + den := by exact_mod_cast hhigh
    rw [hnum] at hhigh'
    nlinarith
  · have : (2 : ℚ) * (n * den) = 2 * num + den := by
      rw [hnum]
      linear_combination den * h
    exact_mod_cast this
  · have : (2 : ℚ) * num = 2 * (n * den) + den := by
      rw [hnum]
      linear_combination den * h
    exact_mod_cast this

/-- A number that is rounded to the last place of its magnitude lies between the middles to the
neighbours of the double with that mantissa. -/
theorem NearestNat.between {place mantissa : ℕ}
    (h : NearestNat (q / 2 ^ ((place : ℤ) - 1074)) mantissa)
    (hlow : place = 0 ∨ 2 ^ ((place : ℤ) - 1074 + 52) ≤ q)
    (hhigh : q < 2 ^ ((place : ℤ) - 1074 + 53)) :
    Between q (place * hiddenBit + mantissa) := by
  have hunit : (0 : ℚ) < 2 ^ ((place : ℤ) - 1074) := by positivity
  rw [add_comm, zpow_add₀ two_ne_zero, ← hiddenBit_eq] at hlow
  rw [add_comm, zpow_add₀ two_ne_zero, show (53 : ℤ) = 52 + 1 from rfl, zpow_add_one₀ two_ne_zero,
    ← hiddenBit_eq] at hhigh
  have hvalue {n : ℕ} (hle : n ≤ 2 * hiddenBit) (hnormal : place = 0 ∨ hiddenBit ≤ n) :=
    value_place hle hnormal
  generalize (2 : ℚ) ^ ((place : ℤ) - 1074) = u at *
  -- In units of the last place the number is `x`.
  obtain ⟨x, rfl⟩ : ∃ x, q = x * u := ⟨q / u, by field_simp⟩
  rw [mul_div_cancel_right₀ x hunit.ne'] at h
  replace hlow : place = 0 ∨ (hiddenBit : ℚ) ≤ x :=
    hlow.imp_right fun h => le_of_mul_le_mul_right h hunit
  replace hhigh : x < hiddenBit * 2 := lt_of_mul_lt_mul_right hhigh hunit.le
  have hle : mantissa ≤ 2 * hiddenBit := by
    have : 2 * (mantissa : ℚ) < 2 * (2 * hiddenBit) + 1 := by linarith [h.low]
    have : 2 * mantissa < 2 * (2 * hiddenBit) + 1 := by exact_mod_cast this
    omega
  have hnormal : place = 0 ∨ hiddenBit ≤ mantissa := by
    refine hlow.imp_right fun hlow => ?_
    have : 2 * (hiddenBit : ℚ) ≤ 2 * mantissa + 1 := by linarith [h.high]
    have : 2 * hiddenBit ≤ 2 * mantissa + 1 := by exact_mod_cast this
    omega
  have hhere := hvalue hle hnormal
  have hbelow {below : ℕ} (heq : below + 1 = place * hiddenBit + mantissa) :
      x < mantissa → value below = (mantissa - 1) * u := by
    intro hlt
    have hpos : 1 ≤ mantissa := by
      have hbit : 0 < hiddenBit := by decide
      rcases hnormal with rfl | hnormal <;> omega
    have hnormal' : place = 0 ∨ hiddenBit ≤ mantissa - 1 := by
      refine hlow.imp_right fun hlow => ?_
      have : hiddenBit < mantissa := by exact_mod_cast hlow.trans_lt hlt
      omega
    have hvalue' := hvalue (by omega) hnormal'
    rw [show below = place * hiddenBit + (mantissa - 1) by omega, hvalue']
    push_cast [hpos]
    rfl
  have habove (hlt : (mantissa : ℚ) < x) :
      value (place * hiddenBit + mantissa + 1) = (mantissa + 1) * u := by
    have : mantissa < hiddenBit * 2 := by exact_mod_cast hlt.trans hhigh
    rw [Nat.add_assoc, hvalue (by omega) (hnormal.imp_right fun h => by omega)]
    push_cast
    rfl
  have hstep := value_lt_succ (place * hiddenBit + mantissa)
  refine ⟨fun below heq => ?_, ?_, ?_⟩
  · rcases lt_or_ge x mantissa with hlt | hge
    · rw [hbelow heq hlt, hhere]
      nlinarith [h.low]
    · have hbelow' := value_lt_succ below
      rw [heq] at hbelow'
      nlinarith
  · rcases lt_or_ge (mantissa : ℚ) x with hlt | hge
    · rw [habove hlt, hhere]
      nlinarith [h.high]
    · nlinarith
  · intro htie
    have heven : mantissa % 2 = 0 := by
      rcases htie with ⟨below, heq, htie⟩ | htie
      · have hlt : x < mantissa := by
          by_contra hge
          have hbelow' := value_lt_succ below
          rw [heq] at hbelow'
          nlinarith
        rw [hbelow heq hlt, hhere] at htie
        exact h.even (.inl (mul_right_cancel₀ hunit.ne' (by linear_combination htie)))
      · have hlt : (mantissa : ℚ) < x := by
          by_contra hge
          nlinarith
        rw [habove hlt, hhere] at htie
        exact h.even (.inr (mul_right_cancel₀ hunit.ne' (by linear_combination htie)))
    simp only [hiddenBit]
    omega

theorem nearest_roundedBits {num : ℕ} (hnum : 0 < num) (hden : 0 < den) :
    Nearest (num / den) (roundedBits num den) := by
  obtain ⟨hlow, hhigh⟩ := binaryExponent_spec hnum hden
  unfold roundedBits
  simp only
  generalize hp : max (binaryExponent num den - 52) (-1074) = p
  obtain ⟨place, rfl⟩ : ∃ place : ℕ, p = place - 1074 := ⟨(p + 1074).toNat, by omega⟩
  have hround := nearestNat_roundDiv (scale 2 num (-((place : ℤ) - 1074)))
    (scale_pos two_pos hden ((place : ℤ) - 1074))
  have hscale := scale_div two_pos num den (-((place : ℤ) - 1074))
  rw [neg_neg, zpow_neg] at hscale
  rw [hscale] at hround
  rw [sub_add_cancel, Int.toNat_natCast]
  refine (NearestNat.between hround ?_ ?_).nearest_min
  · rcases Nat.eq_zero_or_pos place with hzero | hpos
    · exact .inl hzero
    · refine .inr (le_trans (zpow_le_zpow_right₀ one_le_two ?_) hlow)
      omega
  · refine hhigh.trans_le (zpow_le_zpow_right₀ one_le_two ?_)
    omega

theorem isNearest_ofRatio (negative : Bool) (num : ℕ) (hden : 0 < den) :
    IsNearest negative (num / den) (ofRatio negative num den) := by
  rcases Nat.eq_zero_or_pos num with rfl | hnum
  · refine ⟨0, nearest_zero ?_, rfl⟩
    rw [Nat.cast_zero, zero_div, mul_zero, ← value_zero]
    exact value_strictMono.monotone (Nat.zero_le 1)
  · refine ⟨_, nearest_roundedBits hnum hden, ?_⟩
    rw [ofRatio, if_neg hnum.ne']

end Binary64

end LambdaLift
