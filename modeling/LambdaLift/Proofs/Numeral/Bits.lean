import LambdaLift.Numeral.Binary64
import Mathlib

/-!
# Doubles and their bits

A double is known by its bits, and of the patterns that stand for no number only one is in use.

* `Binary64.toBits_float_ofBits`: bits are found again in their double.
* `Binary64.magnitude bits`: the magnitude that the bits below the sign stand for.
* `Binary64.eq_notANumber_or_ofBits`: every double is no number, or is given by a sign and bits up
  to those of infinity, and `Binary64.decode_ofBits` says what it stands for.
-/

namespace LambdaLift

namespace Binary64

/-! ## Patterns -/

open Float.Model (Format)
open Float.Model.UnpackedFloat

theorem toNat_unpackExponent (b : BitVec 64) :
    (@unpackExponent Format.binary64 b).toNat = b.toNat / 2 ^ 52 % 2 ^ 11 := by
  simp [unpackExponent, BitVec.extractLsb_toNat, Nat.shiftRight_eq_div_pow]

theorem toNat_unpackMantissa (b : BitVec 64) :
    (@unpackMantissa Format.binary64 b).toNat = b.toNat % 2 ^ 52 := by
  simp [unpackMantissa, BitVec.extractLsb_toNat]

/-- A pattern is found again in the double that it is for. Of those for no number this holds of
one. -/
theorem toBits_float_ofBits {a : UInt64} (h : Format.binary64.Valid a.toBitVec) :
    (Float.ofBits a).toBits = a :=
  congrArg UInt64.ofBitVec (pack_unpack_of_valid h)

/-! ## What bits stand for -/

/-- The magnitude that the bits below the sign stand for. -/
def magnitude (bits : Nat) : Magnitude :=
  if bits / hiddenBit = 0 then ⟨bits, -1074⟩
  else ⟨hiddenBit + bits % hiddenBit, (bits / hiddenBit : Nat) - 1075⟩

/-- The bits of the sign. -/
def signBits (negative : Bool) : Nat :=
  if negative then signBit else 0

theorem toNat_toBits_ofBits (negative : Bool) {bits : Nat} (h : bits ≤ infinityBits) :
    (ofBits negative bits).toBits.toNat = signBits negative + bits := by
  have hlt : signBits negative + bits < 2 ^ 64 := by
    cases negative <;> simp [signBits, signBit, infinityBits, hiddenBit] at h ⊢ <;> omega
  have hnat : (UInt64.ofNat (signBits negative + bits)).toNat = signBits negative + bits := by
    rw [UInt64.toNat_ofNat', Nat.mod_eq_of_lt hlt]
  have hvalid : Format.binary64.Valid (UInt64.ofNat (signBits negative + bits)).toBitVec := by
    refine ⟨fun hfield hfraction => absurd ?_ hfraction⟩
    apply BitVec.eq_of_toNat_eq
    have hfield' := congrArg BitVec.toNat hfield
    rw [toNat_unpackExponent] at hfield'
    rw [toNat_unpackMantissa]
    simp only [UInt64.toNat_toBitVec, hnat] at hfield' ⊢
    cases negative <;> simp [signBits, signBit, infinityBits, hiddenBit] at h hfield' ⊢ <;> omega
  exact (congrArg UInt64.toNat (toBits_float_ofBits hvalid)).trans hnat

theorem decode_ofBits (negative : Bool) {bits : Nat} (h : bits < infinityBits) :
    decode (ofBits negative bits) = finite negative (magnitude bits) := by
  have hsign : decide (signBit ≤ signBits negative + bits) = negative := by
    cases negative <;> simp [signBits, signBit, infinityBits, hiddenBit] at h ⊢
    omega
  have hfield : (signBits negative + bits) / hiddenBit % 2048 = bits / hiddenBit := by
    cases negative <;> simp [signBits, signBit, infinityBits, hiddenBit] at h ⊢ <;> omega
  have hfraction : (signBits negative + bits) % hiddenBit = bits % hiddenBit := by
    cases negative <;> simp [signBits, signBit, hiddenBit]
    omega
  have hlt : bits / hiddenBit ≠ 2047 := by
    simp [infinityBits, hiddenBit] at h ⊢
    omega
  simp only [decode, toNat_toBits_ofBits negative (Nat.le_of_lt h), hsign, hfield, hfraction, if_neg hlt,
    magnitude]
  split
  · next hzero => rw [Nat.mod_eq_of_lt (by simpa [Nat.div_eq_zero_iff, hiddenBit] using hzero)]
  · rfl

theorem decode_infinity (negative : Bool) : decode (infinity negative) = infinite negative := by
  have hbits := toNat_toBits_ofBits negative (Nat.le_refl infinityBits)
  simp only [decode, infinity, hbits]
  cases negative <;> rfl

/-- Every double is none, or is given by a sign and bits up to those of infinity. -/
theorem eq_notANumber_or_ofBits (x : Float) : x = notANumber ∨
    ∃ negative bits, bits ≤ infinityBits ∧ x = ofBits negative bits := by
  have hx := Float.ofBits_toBits x
  have hlt := x.toBits.toNat_lt
  by_cases hnan : x.toBits.toNat / hiddenBit % 2048 = 2047 ∧ x.toBits.toNat % hiddenBit ≠ 0
  · left
    have hbits : x.toBits.toBitVec = packedNaN Format.binary64 := by
      refine x.toModel.valid.eq_packedNaN (BitVec.eq_of_toNat_eq ?_) fun hzero => hnan.2 ?_
      · rw [toNat_unpackExponent]
        exact hnan.1
      · have hzero := congrArg BitVec.toNat hzero
        rw [toNat_unpackMantissa] at hzero
        exact hzero
    rw [← hx, ← UInt64.ofBitVec_toBitVec x.toBits, hbits]
    rfl
  · right
    refine ⟨decide (signBit ≤ x.toBits.toNat), x.toBits.toNat % signBit, ?_, ?_⟩
    · simp [hiddenBit, signBit, infinityBits] at hnan ⊢
      omega
    · -- Nothing is lost by taking the bit of the sign off.
      have hbits : (if decide (signBit ≤ x.toBits.toNat) then signBit else 0) +
          x.toBits.toNat % signBit = x.toBits.toNat := by
        by_cases hsign : signBit ≤ x.toBits.toNat <;> simp [hsign] <;>
          simp only [signBit] at hsign ⊢ <;> omega
      rw [ofBits, hbits, UInt64.ofNat_toNat, hx]

theorem eq_ofBits_of_decode {x : Float} {negative : Bool} {m : Magnitude}
    (h : decode x = finite negative m) :
    ∃ bits, bits < infinityBits ∧ x = ofBits negative bits ∧ m = magnitude bits := by
  rcases eq_notANumber_or_ofBits x with rfl | ⟨negative', bits, hle, rfl⟩
  · cases h
  · rcases Nat.lt_or_eq_of_le hle with hlt | rfl
    · rw [decode_ofBits negative' hlt] at h
      cases h
      exact ⟨bits, hlt, rfl, rfl⟩
    · have hinfinite := decode_infinity negative'
      rw [infinity, h] at hinfinite
      cases hinfinite

end Binary64

end LambdaLift
