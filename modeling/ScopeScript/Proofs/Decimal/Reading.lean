import Mathlib.Algebra.Order.Field.Power
import ScopeScript.Decimal.Numeral
import ScopeScript.Proofs.Decimal.Bits
import ScopeScript.Proofs.Decimal.Rounding

set_option autoImplicit false

namespace ScopeScript

def Decimal.value (d : Decimal) : ℚ := d.coefficient * 10 ^ d.exponent

def Numeral.value (whole fraction : List Char) : ℚ :=
  ofDigits whole + ofDigits fraction / 10 ^ fraction.length

structure Binary64.Nearest (q : ℚ) (x : Float) : Prop where
  positive : isNegative x = false
  nearest : IsNearest q (code x)

theorem Binary64.Nearest.unique {q : ℚ} {x y : Float} (h : Nearest q x) (h' : Nearest q y) :
    x = y := by
  rw [← ofCode_code x, ← ofCode_code y, h.positive, h'.positive, h.nearest.unique h'.nearest]

-- Powers of ten.

namespace Decimal

theorem below_pos (g : Int) : 0 < below g := Nat.pow_pos (by decide)

theorem zpow_eq (g : Int) : (10 : ℚ) ^ g = above g / below g := by
  unfold above below
  rcases Int.le_total 0 g with pos | neg
  · obtain ⟨n, rfl⟩ := Int.eq_ofNat_of_zero_le pos
    simp
  · obtain ⟨n, same⟩ := Int.eq_ofNat_of_zero_le (Int.neg_nonneg_of_nonpos neg)
    obtain rfl : g = -(n : Int) := by omega
    simp

theorem value_eq (d : Decimal) : d.value =
    (d.coefficient * above d.exponent : Nat) / (below d.exponent : Nat) := by
  rw [value, zpow_eq]
  push_cast
  ring

theorem digitCount_bounds {n : Nat} (pos : n ≠ 0) :
    10 ^ (digitCount n - 1) ≤ n ∧ n < 10 ^ digitCount n := by
  have some_digit : 0 < digitCount n := Nat.length_toDigits_pos
  have fits := @Nat.length_toDigits_le_iff 10 n
  refine ⟨?_, (fits (by decide) some_digit).mp le_rfl⟩
  by_cases one : digitCount n = 1
  · rw [one]
    exact Nat.one_le_iff_ne_zero.mpr pos
  by_contra below
  have fewer := (fits (k := digitCount n - 1) (by decide) (by omega)).mpr (Nat.lt_of_not_le below)
  change digitCount n ≤ digitCount n - 1 at fewer
  omega

theorem value_bounds {d : Decimal} (pos : d.coefficient ≠ 0) :
    let size := d.exponent + (digitCount d.coefficient : Int)
    (10 : ℚ) ^ (size - 1) ≤ d.value ∧ d.value < 10 ^ size := by
  obtain ⟨low, high⟩ := digitCount_bounds pos
  have some_digit : 1 ≤ digitCount d.coefficient := Nat.length_toDigits_pos
  have power : (0 : ℚ) < 10 ^ d.exponent := by positivity
  have low' : (10 : ℚ) ^ (digitCount d.coefficient - 1) ≤ d.coefficient := by exact_mod_cast low
  have high' : (d.coefficient : ℚ) < 10 ^ digitCount d.coefficient := by exact_mod_cast high
  have first : d.exponent + (digitCount d.coefficient : Int) - 1 =
      (digitCount d.coefficient - 1 : Nat) + d.exponent := by omega
  have last : d.exponent + (digitCount d.coefficient : Int) =
      (digitCount d.coefficient : Nat) + d.exponent := by omega
  dsimp only
  rw [first, last, zpow_add₀ (by norm_num), zpow_add₀ (by norm_num), zpow_natCast, zpow_natCast]
  exact ⟨mul_le_mul_of_nonneg_right low' power.le, mul_lt_mul_of_pos_right high' power⟩

end Decimal

namespace Numeral

open Decimal Binary64

theorem two_mul_unitsPerOne_lt : (2 * unitsPerOne : ℚ) < below (-324) := by
  have least : 2 * unitsPerOne < below (-324) := by decide +kernel
  exact_mod_cast least

theorem units_infinityCode_lt : (units infinityCode : ℚ) < above 309 * unitsPerOne := by
  have beyond : units infinityCode < above 309 * unitsPerOne := by decide +kernel
  rw [← Nat.cast_mul]
  exact Nat.cast_lt.mpr beyond

theorem isNearest_nearestCode (d : Decimal) : IsNearest d.value (nearestCode d) := by
  unfold nearestCode
  dsimp only
  by_cases none : d.coefficient = 0
  · rw [if_pos (.inl none)]
    have zero : d.value = 0 := by rw [Decimal.value, none, Nat.cast_zero, zero_mul]
    rw [zero]
    exact isNearest_zero le_rfl (by rw [zero_mul]; exact one_half_pos)
  obtain ⟨low, high⟩ := value_bounds none
  split
  -- Below `10 ^ -324` all is nearest to zero, and from `10 ^ 309` on to infinity.
  next small =>
    have tiny := small.resolve_left none
    have power := zpow_le_zpow_right₀ (a := (10 : ℚ)) (by norm_num) (Int.le_sub_one_of_lt tiny)
    have whole : above (-324) = 1 := rfl
    change _ ≤ (10 : ℚ) ^ (-324 : Int) at power
    rw [zpow_eq (-324), whole, Nat.cast_one] at power
    have nonneg : 0 ≤ d.value := (zpow_pos (by norm_num) _).le.trans low
    have scale_pos : (0 : ℚ) < below (-324) := Nat.cast_pos.mpr (below_pos _)
    have under : d.value * below (-324) < 1 := (lt_div_iff₀ scale_pos).mp (high.trans_le power)
    refine isNearest_zero nonneg ?_
    linarith [mul_le_mul_of_nonneg_left two_mul_unitsPerOne_lt.le nonneg]
  split
  next big =>
    have power := zpow_le_zpow_right₀ (a := (10 : ℚ)) (by norm_num) (Int.le_sub_one_of_lt big)
    have whole : below 309 = 1 := rfl
    rw [zpow_eq 309, whole, Nat.cast_one, div_one] at power
    have past := mul_le_mul_of_nonneg_right (power.trans low) (Nat.cast_nonneg unitsPerOne)
    exact isNearest_infinityCode (units_infinityCode_lt.trans_le past)
  · rw [value_eq]
    exact isNearest_nearest _ (below_pos _)

theorem ofDigits_append (xs ys : List Char) :
    ofDigits (xs ++ ys) = ofDigits xs * 10 ^ ys.length + ofDigits ys := by
  have fold (n : Nat) : ys.foldl (fun n c => 10 * n + digitValue c) n =
      n * 10 ^ ys.length + ofDigits ys := by
    unfold ofDigits
    induction ys generalizing n with
    | nil => simp
    | cons c ys ih =>
      rw [List.foldl_cons, List.foldl_cons, ih, ih (10 * 0 + digitValue c), List.length_cons]
      ring
  rw [ofDigits, List.foldl_append]
  exact fold _

theorem value_decimal (whole fraction : List Char) :
    (decimal whole fraction 0).value = value whole fraction := by
  have power : (10 : ℚ) ^ fraction.length ≠ 0 := by positivity
  rw [Decimal.value, decimal, value, ofDigits_append, zero_sub, zpow_neg, zpow_natCast]
  push_cast
  field_simp

theorem nearest_ofParts (whole fraction : List Char) :
    Nearest (value whole fraction) (ofParts whole fraction) := by
  have found := isNearest_nearestCode (decimal whole fraction 0)
  rw [value_decimal] at found
  refine ⟨isNegative_ofCode found.le, ?_⟩
  rw [ofParts, code_ofCode found.le]
  exact found

end Numeral

end ScopeScript
