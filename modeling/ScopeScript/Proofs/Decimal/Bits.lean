import Mathlib
import ScopeScript.Decimal.Binary64

set_option autoImplicit false

namespace ScopeScript.Binary64

open Float.Model.UnpackedFloat
open Float.Model (Format)

theorem toNat_unpackMantissa (b : BitVec Format.binary64.numBits) :
    (unpackMantissa b).toNat = b.toNat % 2 ^ 52 := by
  simp [unpackMantissa]

theorem toNat_unpackExponent (b : BitVec Format.binary64.numBits) :
    (unpackExponent b).toNat = b.toNat / 2 ^ 52 % 2 ^ 11 := by
  simp [unpackExponent, Nat.shiftRight_eq_div_pow]

variable {c : Nat}

theorem isNaNBits_of_le (le : c ≤ infinityCode) (b : BitVec Format.binary64.numBits)
    (bits : b.toNat = c) : isNaNBits b = false := by
  by_contra nan
  obtain ⟨special, fraction⟩ : unpackExponent b = -1#_ ∧ unpackMantissa b ≠ 0#_ := by
    simpa [isNaNBits] using nan
  have exponent := congrArg BitVec.toNat special
  rw [toNat_unpackExponent, bits] at exponent
  change c / 2 ^ 52 % 2 ^ 11 = 2047 at exponent
  change c ≤ 2047 * 2 ^ 52 at le
  refine fraction (BitVec.eq_of_toNat_eq ?_)
  rw [toNat_unpackMantissa, bits]
  change c % 2 ^ 52 = 0
  omega

theorem toBits_ofCode (le : c ≤ infinityCode) : (ofCode false c).toBits.toNat = c := by
  have bound : c < 2 ^ 64 := by
    have limit : infinityCode < 2 ^ 64 := by decide
    omega
  have kept : (UInt64.ofNat c).toBitVec.toNat = c := Nat.mod_eq_of_lt bound
  have made : (ofCode false c).toBits.toBitVec =
      pack Format.binary64 (unpack Format.binary64 (UInt64.ofNat c).toBitVec) := by
    unfold ofCode
    rw [if_neg (by decide), Nat.zero_add]
    rfl
  have number := isNaNBits_of_le le _ kept
  have same : (ofCode false c).toBits.toBitVec = (UInt64.ofNat c).toBitVec := by
    rw [made, pack_unpack, number]
    rfl
  rwa [← same] at kept

theorem code_ofCode (le : c ≤ infinityCode) : code (ofCode false c) = c := by
  have bound : infinityCode < signWeight := by decide
  rw [code, toBits_ofCode le, Nat.mod_eq_of_lt (by omega)]

theorem isNegative_ofCode (le : c ≤ infinityCode) : isNegative (ofCode false c) = false := by
  have bound : infinityCode < signWeight := by decide
  rw [isNegative, toBits_ofCode le]
  exact decide_eq_false (by omega)

theorem ofCode_code (x : Float) : ofCode (isNegative x) (code x) = x := by
  have bits : (if isNegative x then signWeight else 0) + code x = x.toBits.toNat := by
    have bound : x.toBits.toNat < 2 * signWeight := x.toBits.toNat_lt
    unfold isNegative code
    split
    next negative =>
      have le := of_decide_eq_true negative
      rw [Nat.mod_eq_sub_mod le, Nat.mod_eq_of_lt (by omega)]
      omega
    next positive =>
      rw [Nat.zero_add, Nat.mod_eq_of_lt (Nat.not_le.mp fun le => positive (decide_eq_true le))]
  rw [ofCode, bits, UInt64.ofNat_toNat, Float.ofBits_toBits]

theorem eq_notANumber {x : Float} (beyond : infinityCode < code x) : x = notANumber := by
  have number := x.toModel.valid.eq_packedNaN
  have kept : x.toModel.toBits.toBitVec.toNat = x.toBits.toNat := rfl
  have wide : x.toBits.toNat < 2 ^ 64 := x.toBits.toNat_lt
  have past : infinityCode < x.toBits.toNat % 2 ^ 63 := beyond
  have limit : infinityCode = 2047 * 2 ^ 52 := rfl
  have canonical : x.toModel.toBits.toBitVec = packedNaN Format.binary64 := by
    refine number (BitVec.eq_of_toNat_eq ?_) fun none => ?_
    · rw [toNat_unpackExponent, kept]
      change x.toBits.toNat / 2 ^ 52 % 2 ^ 11 = 2047
      omega
    · have fraction := congrArg BitVec.toNat none
      rw [toNat_unpackMantissa, kept] at fraction
      change x.toBits.toNat % 2 ^ 52 = 0 at fraction
      omega
  apply Float.toBits_inj.mp
  apply UInt64.toBitVec_inj.mp
  exact canonical.trans (by decide)

end ScopeScript.Binary64
