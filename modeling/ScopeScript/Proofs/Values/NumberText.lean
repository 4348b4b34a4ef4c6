import ScopeScript.Proofs.Decimal.Positional
import ScopeScript.Value

set_option autoImplicit false

namespace ScopeScript

/-- How a double is written: with the fewest digits that are read back as it, and of those with the
nearest, without an exponent and without a zero that could be left out. -/
def Decimal.Written (x : Float) (text : String) : Prop :=
  match Binary64.view x with
  | .notANumber => text = "NaN"
  | .infinite negative => text = signed negative ['i', 'n', 'f']
  | .finite negative c =>
    ∃ d digits, IsShortest c d ∧ Numeral.Spells digits d.value ∧ text = signed negative digits

namespace Binary64

variable {x : Float} {c n : Nat} {q : ℚ} {negative : Bool}

theorem view_eq_finite (seen : view x = .finite negative c) :
    isNegative x = negative ∧ code x = c ∧ c < infinityCode := by
  unfold view at seen
  split at seen
  next lt =>
    obtain ⟨rfl, rfl⟩ := View.finite.inj seen
    exact ⟨rfl, rfl, lt⟩
  next => split at seen <;> cases seen

theorem view_eq_infinite (seen : view x = .infinite negative) :
    isNegative x = negative ∧ code x = infinityCode := by
  unfold view at seen
  split at seen
  next => cases seen
  next =>
    split at seen
    next same =>
      obtain rfl := View.infinite.inj seen
      exact ⟨rfl, same⟩
    next => cases seen

theorem view_eq_notANumber (seen : view x = .notANumber) : infinityCode < code x := by
  unfold view at seen
  split at seen
  next => cases seen
  next ge =>
    split at seen
    next => cases seen
    next other => omega

def amount (x : Float) : ℚ :=
  if isNegative x then -value (code x) else value (code x)

theorem value_of_whole (whole : units c = n * unitsPerOne) : value c = n := by
  rw [value, whole, Nat.cast_mul, mul_div_cancel_right₀ _ (Nat.cast_pos.mpr unitsPerOne_pos).ne']

theorem integral?_eq_some (found : integral? x = some (negative, n)) :
    isNegative x = negative ∧ code x < infinityCode ∧ units (code x) = n * unitsPerOne := by
  unfold integral? at found
  split at found
  next seen =>
    obtain ⟨sign, same, finite⟩ := view_eq_finite seen
    split at found
    next whole =>
      obtain ⟨rfl, rfl⟩ := Prod.mk.inj (Option.some.inj found)
      rw [same]
      exact ⟨sign, finite, (Nat.div_mul_cancel (Nat.dvd_of_mod_eq_zero whole)).symm⟩
    next => cases found
  next => cases found

theorem units_succ_le (small : units c ≤ span * unitsPerOne) :
    units (c + 1) ≤ units c + unitsPerOne := by
  obtain ⟨e, m, rfl, normal, lt⟩ := exists_significand c
  have here := units_eq normal lt.le
  have next : units (e * span + (m + 1)) = (m + 1) * 2 ^ e :=
    units_eq (normal.imp_right (Nat.le_succ_of_le ·)) lt
  have step : 2 ^ e ≤ unitsPerOne := by
    rcases normal with rfl | normal
    · rw [Nat.pow_zero]
      exact unitsPerOne_pos
    · rw [here] at small
      have bound := (Nat.mul_le_mul_right (2 ^ e) normal).trans small
      exact Nat.le_of_mul_le_mul_left bound (by decide)
  rw [Nat.add_assoc, next, here, Nat.succ_mul]
  exact Nat.add_le_add_left step _

theorem IsNearest.within_half (near : IsNearest q c) (pos : 0 < c) (finite : c < infinityCode)
    (whole : units c = n * unitsPerOne) (small : n ≤ span) : |q - n| ≤ 1 / 2 := by
  have scale : (0 : ℚ) < unitsPerOne := Nat.cast_pos.mpr unitsPerOne_pos
  have least : units c ≤ span * unitsPerOne := whole.trans_le (Nat.mul_le_mul_right _ small)
  have after := units_succ_le least
  have before := units_succ_le ((units_strictMono.monotone (Nat.sub_le c 1)).trans least)
  rw [Nat.sub_add_cancel pos] at before
  obtain ⟨low, high, -⟩ := near.between pos finite
  generalize unitsPerOne = one at *
  have after' : (units (c + 1) : ℚ) ≤ units c + one := by exact_mod_cast after
  have before' : (units c : ℚ) ≤ units (c - 1) + one := by exact_mod_cast before
  have here : (units c : ℚ) = n * one := by exact_mod_cast whole
  rw [abs_le]
  constructor
  · refine le_of_mul_le_mul_right ?_ scale
    linarith
  · refine le_of_mul_le_mul_right ?_ scale
    linarith

end Binary64

namespace Decimal

open Binary64

variable {x : Float} {d : Decimal} {c n : Nat}

theorem value_natural (n : Nat) : value ⟨n, 0⟩ = n := by
  rw [value, zpow_zero, mul_one]

theorem IsShortest.value_whole (shortest : IsShortest c d) (pos : 0 < c) (finite : c < infinityCode)
    (whole : units c = n * unitsPerOne) (small : n ≤ span) : d.value = n := by
  have same := value_of_whole whole
  have near : IsNearest (value ⟨n, 0⟩) c := by
    rw [value_natural, ← same]
    exact isNearest_value finite.le
  by_cases le : digitCount n ≤ digitCount d.coefficient
  · have closest := (shortest.closest ⟨n, 0⟩ near le).1
    rw [value_natural, same, sub_self, abs_zero] at closest
    exact sub_eq_zero.mp (abs_nonpos_iff.mp closest)
  have half := abs_le.mp (shortest.readsBack.within_half pos finite whole small)
  have some_digit : 1 ≤ digitCount d.coefficient := Nat.length_toDigits_pos
  rcases lt_or_ge d.exponent 0 with negative | whole_exponent
  · -- With fewer digits and some of them behind the point it is below the leading digit.
    obtain ⟨j, digits⟩ := Nat.exists_eq_add_of_le (show 2 ≤ digitCount n by omega)
    have nonzero : n ≠ 0 := coefficient_ne_zero pos finite near
    have low := (digitCount_bounds nonzero).1
    have high := (value_bounds (coefficient_ne_zero pos finite shortest.readsBack)).2
    have order := zpow_le_zpow_right₀ (a := (10 : ℚ)) (by norm_num)
      (show d.exponent + (digitCount d.coefficient : Int) ≤ j by omega)
    rw [show digitCount n - 1 = j + 1 by omega, Nat.pow_succ] at low
    have low' : (10 ^ j * 10 : ℚ) ≤ n := by exact_mod_cast low
    have one : (1 : ℚ) ≤ 10 ^ j := one_le_pow₀ (by norm_num)
    rw [zpow_natCast] at order
    linarith
  · obtain ⟨k, power⟩ := Int.eq_ofNat_of_zero_le whole_exponent
    have integer : d.value = (d.coefficient * 10 ^ k : Nat) := by
      rw [value, power, zpow_natCast]
      push_cast
      rfl
    rw [integer] at half ⊢
    have above : ((d.coefficient * 10 ^ k : Nat) : ℚ) < n + 1 := by linarith
    have below : (n : ℚ) < (d.coefficient * 10 ^ k : Nat) + 1 := by linarith
    norm_cast at above below ⊢
    omega

theorem spells_natural (n : Nat) : Numeral.Spells (Nat.toDigits 10 n) n := by
  have spelled : Numeral.Spells (positional ⟨n, 0⟩) (value ⟨n, 0⟩) :=
    spells_positional (fun _ => rfl) fun negative => absurd negative (lt_irrefl 0)
  rw [value_natural] at spelled
  have digits : positional ⟨n, 0⟩ = Nat.toDigits 10 n := List.append_nil _
  rwa [digits] at spelled

theorem positional_ofCode_whole (finite : c < infinityCode) (whole : units c = n * unitsPerOne)
    (small : n ≤ span) : (ofCode .up c).positional = Nat.toDigits 10 n := by
  have same : (ofCode .up c).value = n := by
    rcases Nat.eq_zero_or_pos c with rfl | pos
    · have zero : n = 0 :=
        (Nat.mul_eq_zero.mp (whole.symm.trans (units_of_lt (by decide)))).resolve_right
          unitsPerOne_pos.ne'
      rw [zero]
      exact value_natural 0
    · exact (isShortest_ofCode finite).value_whole pos finite whole small
  exact (spells_ofCode finite).unique (same.symm ▸ spells_natural n)

theorem written_iff {text : String} : Written x text ↔ text = plain x := by
  unfold Written plain
  cases seen : view x with
  | notANumber => exact Iff.rfl
  | infinite negative => exact Iff.rfl
  | finite negative c =>
    obtain ⟨-, -, finite⟩ := view_eq_finite seen
    constructor
    · rintro ⟨d, digits, shortest, spelled, rfl⟩
      rw [shortest.value_eq (isShortest_ofCode finite)] at spelled
      rw [spelled.unique (spells_ofCode finite)]
    · rintro rfl
      exact ⟨_, _, isShortest_ofCode finite, spells_ofCode finite, rfl⟩

end Decimal

namespace Value

open Binary64 Decimal

variable {x : Float} {n : Nat} {negative : Bool}

theorem toInt_truncate (found : integral? x = some (negative, n)) (small : n < wholeLimit) :
    (truncate x).toInt = if negative then -(n : Int) else n := by
  obtain ⟨rfl, finite, whole⟩ := integral?_eq_some found
  have limit : wholeLimit = 1000000000000000 := rfl
  have quotient : units (code x) / unitsPerOne = n := by
    rw [whole, Nat.mul_div_cancel _ unitsPerOne_pos]
  have seen : view x = .finite (isNegative x) (code x) := if_pos finite
  rw [truncate, seen]
  dsimp only
  rw [quotient]
  have low : Int64.minValue.toInt = -9223372036854775808 := rfl
  have high : Int64.maxValue.toInt = 9223372036854775807 := rfl
  refine Int64.toInt_ofIntClamp ?_ ?_ <;> split <;> omega

theorem toString_truncate (found : integral? x = some (negative, n)) (small : n < wholeLimit)
    (signed_zero : negative = true → n ≠ 0) :
    toString (truncate x) = signed negative (Nat.toDigits 10 n) := by
  change toString (truncate x).toInt = _
  rw [toInt_truncate found small]
  cases negative with
  | false => rfl
  | true =>
    obtain ⟨m, rfl⟩ := Nat.exists_eq_succ_of_ne_zero (signed_zero rfl)
    rw [if_pos rfl, signed, if_pos rfl, ← List.singleton_append, String.ofList_append]
    rfl

theorem numberText_eq_plain (x : Float) : numberText x = plain x := by
  unfold numberText
  cases found : integral? x with
  | none => rfl
  | some whole =>
    obtain ⟨negative, n⟩ := whole
    dsimp only
    split
    next small =>
      obtain ⟨rfl, finite, whole⟩ := integral?_eq_some found
      have seen : view x = .finite (isNegative x) (code x) := if_pos finite
      have limit : wholeLimit ≤ span := by decide
      rw [plain, seen]
      dsimp only
      rw [positional_ofCode_whole finite whole (small.le.trans limit)]
      split
      next zero =>
        -- The integer has lost the sign of the zero.
        obtain ⟨negative, zero⟩ := (Bool.and_eq_true _ _).mp zero
        rw [negative, eq_of_beq zero]
        rfl
      next other =>
        exact toString_truncate found small fun negative zero => other (by rw [negative, zero]; rfl)
    next => rfl

/--
Each double is written by the rule for doubles, whichever way its text is made. When the text is
made from an integer, this integer is the number and has room in 64 bits.
-/
theorem numberText_written (x : Float) :
    numberText x = plain x ∧ (∀ text, Written x text ↔ text = numberText x) ∧
      ∀ negative n, integral? x = some (negative, n) → n < wholeLimit →
        ((truncate x).toInt : ℚ) = amount x ∧ -2 ^ 63 ≤ amount x ∧ amount x < 2 ^ 63 := by
  refine ⟨numberText_eq_plain x, fun text => numberText_eq_plain x ▸ written_iff,
    fun negative n found small => ?_⟩
  have exactly : ((truncate x).toInt : ℚ) = amount x := by
    obtain ⟨rfl, -, whole⟩ := integral?_eq_some found
    rw [toInt_truncate found small, amount, value_of_whole whole]
    split <;> simp
  rw [← exactly]
  exact ⟨rfl, by exact_mod_cast Int64.minValue_le_toInt _, by exact_mod_cast Int64.toInt_lt _⟩

theorem numberText_written_minus_three :
    integral? (-3) = some (true, 3) ∧ 3 < wholeLimit ∧ Written (-3) "-3" ∧
      ((truncate (-3)).toInt : ℚ) = amount (-3) := by
  obtain ⟨-, written, exactly⟩ := numberText_written (-3)
  have found : integral? (-3) = some (true, 3) := by decide +kernel
  have small : 3 < wholeLimit := by decide
  exact ⟨found, small, (written "-3").mpr (by decide +kernel), (exactly true 3 found small).1⟩

end Value

end ScopeScript
