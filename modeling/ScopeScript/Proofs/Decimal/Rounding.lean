import Mathlib.Algebra.Order.Field.Basic
import Mathlib.Algebra.Order.Ring.Rat
import Mathlib.Data.Rat.Cast.Order
import Mathlib.Tactic.FieldSimp
import Mathlib.Tactic.Linarith
import Mathlib.Tactic.NormNum
import Mathlib.Tactic.Positivity
import Mathlib.Tactic.Ring
import ScopeScript.Decimal.Binary64

set_option autoImplicit false

namespace ScopeScript.Binary64

theorem unitsPerOne_pos : 0 < unitsPerOne := by
  decide +kernel

def value (c : Nat) : ℚ := units c / unitsPerOne

/-- The double with code `c` is the nearest one to `q`, a half to the even neighbour. -/
structure IsNearest (q : ℚ) (c : Nat) : Prop where
  le : c ≤ infinityCode
  closest : ∀ d ≤ infinityCode, |q - value c| ≤ |q - value d|
  even : ∀ d ≤ infinityCode, d ≠ c → |q - value d| = |q - value c| → c % 2 = 0

-- The magnitudes, as multiples of the least one.

theorem units_eq {e m : Nat} (normal : e = 0 ∨ span ≤ m) (le : m ≤ 2 * span) :
    units (e * span + m) = m * 2 ^ e := by
  have pos : 0 < span := by decide
  by_cases low : m < span
  · obtain rfl : e = 0 := normal.resolve_right (by omega)
    rw [Nat.zero_mul, Nat.zero_add, units_of_lt low, Nat.pow_zero, Nat.mul_one]
  obtain ⟨r, rfl⟩ := Nat.exists_eq_add_of_le (Nat.le_of_not_lt low)
  have split : e * span + (span + r) = r + (e + 1) * span := by ring
  rw [split, units_of_le (by nlinarith), Nat.add_mul_mod_self_right, Nat.add_mul_div_right _ _ pos]
  by_cases last : r = span
  · subst last
    rw [Nat.mod_self, Nat.div_self pos, Nat.add_zero,
      show 1 + (e + 1) - 1 = e + 1 by omega, Nat.pow_eq, Nat.pow_succ]
    ring
  · have inside : r < span := by omega
    rw [Nat.mod_eq_of_lt inside, Nat.div_eq_of_lt inside, Nat.zero_add, Nat.add_sub_cancel,
      Nat.pow_eq]

theorem exists_significand (c : Nat) :
    ∃ e m, c = e * span + m ∧ (e = 0 ∨ span ≤ m) ∧ m < 2 * span := by
  have pos : 0 < span := by decide
  by_cases low : c < span
  · exact ⟨0, c, by simp, .inl rfl, by omega⟩
  · have whole := Nat.div_add_mod c span
    have first : 1 ≤ c / span := (Nat.one_le_div_iff pos).mpr (by omega)
    obtain ⟨k, quotient⟩ := Nat.exists_eq_add_of_le first
    refine ⟨k, span + c % span, ?_, .inr (by omega), ?_⟩
    · rw [quotient] at whole
      linarith
    · have := Nat.mod_lt c pos
      omega

theorem units_strictMono : StrictMono units := by
  apply strictMono_nat_of_lt_succ
  intro c
  obtain ⟨e, m, rfl, normal, lt⟩ := exists_significand c
  rw [Nat.add_assoc, units_eq normal (by omega), units_eq (normal.imp_right (by omega)) (by omega)]
  exact Nat.mul_lt_mul_of_pos_right (Nat.lt_succ_self m) (Nat.two_pow_pos e)

theorem units_above {e m d : Nat} (normal : e = 0 ∨ span ≤ m) (le : m ≤ 2 * span)
    (lt : e * span + m < d) : m * 2 ^ e + 2 ^ e ≤ units d := by
  refine Nat.le_trans ?_ (units_strictMono.monotone lt)
  rw [Nat.succ_eq_add_one, Nat.add_assoc]
  by_cases last : m = 2 * span
  · -- The last significand is the first one of the next exponent, where the steps are longer.
    subst last
    have next : e * span + (2 * span + 1) = (e + 1) * span + (span + 1) := by ring
    rw [next, units_eq (.inr (by omega)) (by decide)]
    have bigger : (span + 1) * 2 ^ (e + 1) = 2 * span * 2 ^ e + 2 * 2 ^ e := by ring
    omega
  · rw [units_eq (normal.imp_right (by omega)) (by omega)]
    exact (Nat.succ_mul m (2 ^ e)).ge

theorem units_below {e m d : Nat} (inside : e = 0 ∨ span < m) (le : m ≤ 2 * span)
    (lt : d < e * span + m) : units d + 2 ^ e ≤ m * 2 ^ e := by
  have pos : 0 < m := by
    rcases inside with rfl | inside
    · omega
    · omega
  obtain ⟨k, rfl⟩ := Nat.exists_eq_add_of_le pos
  have before : units d ≤ units (e * span + k) := units_strictMono.monotone (by omega)
  rw [units_eq (inside.imp_right (by omega)) (by omega)] at before
  have step : (1 + k) * 2 ^ e = k * 2 ^ e + 2 ^ e := by ring
  simp only [Nat.succ_eq_add_one, Nat.zero_add]
  omega

-- Rounding to a natural number.

theorem roundHalfEven_spec (num : Nat) {den : Nat} (pos : 0 < den) :
    2 * num ≤ (2 * roundHalfEven num den + 1) * den ∧
      2 * roundHalfEven num den * den ≤ 2 * num + den ∧
      (2 * num = (2 * roundHalfEven num den + 1) * den ∨
        2 * roundHalfEven num den * den = 2 * num + den → roundHalfEven num den % 2 = 0) := by
  have whole := Nat.div_add_mod num den
  have small := Nat.mod_lt num pos
  unfold roundHalfEven
  generalize num / den = q at *
  generalize num % den = r at *
  subst whole
  dsimp only
  have expand (n : Nat) : (2 * n + 1) * den = 2 * (den * n) + den := by ring
  have expand' (n : Nat) : 2 * n * den = 2 * (den * n) := by ring
  simp only [expand, expand']
  split
  · omega
  split
  · have next : den * (q + 1) = den * q + den := Nat.mul_succ den q
    omega
  · have half : 2 * r = den := by omega
    rcases Nat.mod_two_eq_zero_or_one q with even | odd
    · rw [even, Nat.add_zero]
      omega
    · have next : den * (q + 1) = den * q + den := Nat.mul_succ den q
      rw [odd]
      omega

theorem abs_sub_roundHalfEven (num : Nat) {den : Nat} (pos : 0 < den) :
    |(num / den : ℚ) - roundHalfEven num den| ≤ 1 / 2 ∧
      (|(num / den : ℚ) - roundHalfEven num den| = 1 / 2 → roundHalfEven num den % 2 = 0) := by
  obtain ⟨high, low, even⟩ := roundHalfEven_spec num pos
  generalize roundHalfEven num den = r at *
  have den_pos : (0 : ℚ) < den := Nat.cast_pos.mpr pos
  have high' : (2 * num : ℚ) ≤ (2 * r + 1) * den := by exact_mod_cast high
  have low' : (2 * r * den : ℚ) ≤ 2 * num + den := by exact_mod_cast low
  have quotient : |(num / den : ℚ) - r| = |(num : ℚ) - r * den| / den := by
    rw [← abs_of_pos den_pos, ← abs_div, abs_of_pos den_pos, sub_div,
      mul_div_cancel_right₀ _ den_pos.ne']
  rw [quotient, div_le_iff₀ den_pos, div_eq_iff den_pos.ne']
  refine ⟨abs_le.mpr ⟨by linarith, by linarith⟩, fun half => even ?_⟩
  rcases abs_eq_abs.mp (half.trans (abs_of_pos (by linarith)).symm) with above | below
  · left
    have same : (2 * num : ℚ) = (2 * r + 1) * den := by linarith
    exact_mod_cast same
  · right
    have same : (2 * r * den : ℚ) = 2 * num + den := by linarith
    exact_mod_cast same

-- Distances, with the fraction as a multiple of the least magnitude.

section

variable {x : ℚ} {e m : Nat}

theorem nearer_of_step {u v step : ℚ} (half : |x - u| ≤ step / 2) (apart : step ≤ |u - v|) :
    |x - u| ≤ |x - v| ∧ (|x - v| = |x - u| → |x - u| = step / 2) := by
  -- A number within half a step of `u` is at least the other half away from `v`.
  have triangle := abs_sub_le u x v
  rw [abs_sub_comm u x] at triangle
  constructor
  · linarith
  · intro same
    linarith

theorem closest_of_significand (normal : e = 0 ∨ span ≤ m) (le : m ≤ 2 * span)
    (half : |x - m * 2 ^ e| ≤ 2 ^ e / 2) (least : e = 0 ∨ (span * 2 ^ e : ℚ) ≤ x)
    (even : |x - m * 2 ^ e| = 2 ^ e / 2 → m % 2 = 0) (d : Nat) :
    |x - units (e * span + m)| ≤ |x - units d| ∧
      (d ≠ e * span + m → |x - units d| = |x - units (e * span + m)| →
        (e * span + m) % 2 = 0) := by
  have step : (0 : ℚ) < 2 ^ e := by positivity
  have span_even : span % 2 = 0 := by decide
  have even_code : m % 2 = 0 → (e * span + m) % 2 = 0 := fun h => by
    rw [Nat.add_mod, Nat.mul_mod, span_even, h]
    simp
  have here : (units (e * span + m) : ℚ) = m * 2 ^ e := by
    rw [units_eq normal le]
    push_cast
    ring
  rw [here]
  -- A magnitude that is a step away is no closer, and as close just to the middle between both.
  have of_step (apart : 2 ^ e ≤ |(m * 2 ^ e - units d : ℚ)|) :
      |x - m * 2 ^ e| ≤ |x - units d| ∧ (d ≠ e * span + m →
        |x - units d| = |x - m * 2 ^ e| → (e * span + m) % 2 = 0) := by
    obtain ⟨closer, middle⟩ := nearer_of_step half apart
    exact ⟨closer, fun _ same => even_code (even (middle same))⟩
  rcases Nat.lt_trichotomy d (e * span + m) with lt | rfl | gt
  · by_cases inside : e = 0 ∨ span < m
    · have apart : (units d + 2 ^ e : ℚ) ≤ m * 2 ^ e := by
        exact_mod_cast units_below inside le lt
      exact of_step (le_abs.mpr (.inl (by linarith)))
    · -- The steps below the least significand of an exponent are shorter, but the fraction is not
      -- below it.
      obtain ⟨e_pos, first⟩ := not_or.mp inside
      obtain rfl : m = span := Nat.le_antisymm (Nat.le_of_not_lt first) (normal.resolve_left e_pos)
      have above := least.resolve_left e_pos
      have below : (units d : ℚ) < span * 2 ^ e := by
        rw [← here]
        exact_mod_cast units_strictMono lt
      rw [abs_of_nonneg (by linarith), abs_of_nonneg (by linarith)]
      exact ⟨by linarith, fun _ same => absurd same (by linarith)⟩
  · exact ⟨by rw [here], fun other => absurd rfl other⟩
  · have apart : (m * 2 ^ e + 2 ^ e : ℚ) ≤ units d := by exact_mod_cast units_above normal le gt
    exact of_step (le_abs.mpr (.inr (by linarith)))

end

section

variable {q : ℚ} {c d : Nat}

theorem abs_sub_value_mul (q : ℚ) (d : Nat) :
    |q - value d| * unitsPerOne = |q * unitsPerOne - units d| := by
  have pos : (0 : ℚ) < unitsPerOne := Nat.cast_pos.mpr unitsPerOne_pos
  rw [← abs_of_pos pos, ← abs_mul, abs_of_pos pos, sub_mul, value, div_mul_cancel₀ _ pos.ne']

theorem abs_sub_value_le_iff : |q - value c| ≤ |q - value d| ↔
    |q * unitsPerOne - units c| ≤ |q * unitsPerOne - units d| := by
  rw [← abs_sub_value_mul, ← abs_sub_value_mul,
    mul_le_mul_iff_left₀ (Nat.cast_pos.mpr unitsPerOne_pos)]

theorem abs_sub_value_eq_iff : |q - value c| = |q - value d| ↔
    |q * unitsPerOne - units c| = |q * unitsPerOne - units d| := by
  rw [← abs_sub_value_mul, ← abs_sub_value_mul,
    mul_left_inj' (Nat.cast_pos.mpr unitsPerOne_pos).ne']

theorem isNearest_infinityCode (beyond : (units infinityCode : ℚ) < q * unitsPerOne) :
    IsNearest q infinityCode := by
  have further {d : Nat} (lt : d < infinityCode) :
      |q * unitsPerOne - units infinityCode| < |q * unitsPerOne - units d| := by
    have lower : (units d : ℚ) < units infinityCode := by exact_mod_cast units_strictMono lt
    rw [abs_of_pos (by linarith), abs_of_pos (by linarith)]
    linarith
  refine ⟨le_rfl, fun d le => abs_sub_value_le_iff.mpr ?_, fun d le other same => ?_⟩
  · rcases Nat.lt_or_eq_of_le le with lt | rfl
    · exact (further lt).le
    · exact le_rfl
  · have lt := Nat.lt_of_le_of_ne le other
    exact absurd (abs_sub_value_eq_iff.mp same) (further lt).ne'

theorem isNearest_min
    (closest : ∀ d, |q * unitsPerOne - units c| ≤ |q * unitsPerOne - units d| ∧
      (d ≠ c → |q * unitsPerOne - units d| = |q * unitsPerOne - units c| → c % 2 = 0)) :
    IsNearest q (min c infinityCode) := by
  by_cases finite : c ≤ infinityCode
  · rw [Nat.min_eq_left finite]
    exact ⟨finite, fun d _ => abs_sub_value_le_iff.mpr (closest d).1,
      fun d _ other same => (closest d).2 other (abs_sub_value_eq_iff.mp same)⟩
  · rw [Nat.min_eq_right (Nat.le_of_not_le finite)]
    have higher : (units infinityCode : ℚ) < units c := by
      exact_mod_cast units_strictMono (Nat.lt_of_not_le finite)
    apply isNearest_infinityCode
    by_contra within
    have nearer := (closest infinityCode).1
    rw [abs_of_nonpos (by linarith), abs_of_nonpos (by linarith)] at nearer
    linarith

theorem isNearest_zero (nonneg : 0 ≤ q) (small : q * unitsPerOne < 1 / 2) : IsNearest q 0 := by
  have zero : (units 0 : ℚ) = 0 := by rw [units_of_lt (by decide), Nat.cast_zero]
  have pos : (0 : ℚ) < unitsPerOne := Nat.cast_pos.mpr unitsPerOne_pos
  refine isNearest_min (c := 0) fun d => ⟨?_, fun _ _ => rfl⟩
  rcases Nat.eq_zero_or_pos d with rfl | positive
  · exact le_rfl
  have one : (1 : ℚ) ≤ units d := by
    have step : units 0 + 1 ≤ units d := units_strictMono positive
    exact_mod_cast le_trans (Nat.le_add_left 1 _) step
  rw [zero, sub_zero, abs_of_nonneg (mul_nonneg nonneg pos.le), abs_sub_comm,
    abs_of_nonneg (by linarith)]
  linarith

theorem value_strictMono : StrictMono value := by
  intro c d lt
  have pos : (0 : ℚ) < unitsPerOne := Nat.cast_pos.mpr unitsPerOne_pos
  have units_lt : (units c : ℚ) < units d := by exact_mod_cast units_strictMono lt
  exact (div_lt_div_iff_of_pos_right pos).mpr units_lt

theorem IsNearest.not_lt (h : IsNearest q c) (h' : IsNearest q d) : ¬c < d := by
  intro lt
  have same : |q - value c| = |q - value d| := le_antisymm (h.closest d h'.le) (h'.closest c h.le)
  have values := value_strictMono lt
  have middle : q - value c = -(q - value d) := by
    rcases abs_eq_abs.mp same with equal | opposite
    · linarith
    · exact opposite
  -- The number stands in the middle of both, and there is a code between them or one is odd.
  by_cases next : c + 1 = d
  · have c_even := h.even d h'.le (Nat.ne_of_gt lt) same.symm
    have d_even := h'.even c h.le (Nat.ne_of_lt lt) same
    omega
  · have above := value_strictMono (Nat.lt_succ_self c)
    have below := value_strictMono (show c + 1 < d by omega)
    have closer : |q - value (c + 1)| < |q - value c| := by
      rw [abs_of_nonneg (show 0 ≤ q - value c by linarith)]
      exact abs_lt.mpr ⟨by linarith, by linarith⟩
    have le := h'.le
    exact absurd (h.closest (c + 1) (by omega)) (not_le.mpr closer)

theorem IsNearest.unique (h : IsNearest q c) (h' : IsNearest q d) : c = d :=
  Nat.le_antisymm (Nat.le_of_not_lt (h'.not_lt h)) (Nat.le_of_not_lt (h.not_lt h'))

end

theorem exponent_bounds (num : Nat) {den e : Nat} (pos : 0 < den)
    (exponent : Nat.log2 (num / den) - 52 = e) :
    num < 2 * span * (den * 2 ^ e) ∧ (e = 0 ∨ span * (den * 2 ^ e) ≤ num) := by
  constructor
  · have bits : num / den < 2 ^ (52 + e + 1) :=
      Nat.lt_of_lt_of_le Nat.lt_log2_self (Nat.pow_le_pow_right Nat.two_pos (by omega))
    have weight : 2 * span * (den * 2 ^ e) = 2 ^ (52 + e + 1) * den := by
      rw [span, Nat.pow_eq]
      ring
    rw [weight]
    exact (Nat.div_lt_iff_lt_mul pos).mp bits
  · by_cases least : e = 0
    · exact .inl least
    right
    have some_bit : num / den ≠ 0 := by
      intro zero
      rw [zero] at exponent
      exact least exponent.symm
    have bits : 2 ^ (52 + e) ≤ num / den := by
      have all : Nat.log2 (num / den) = 52 + e := by omega
      exact all ▸ Nat.log2_self_le some_bit
    have weight : span * (den * 2 ^ e) = 2 ^ (52 + e) * den := by
      rw [span, Nat.pow_eq]
      ring
    rw [weight]
    exact (Nat.le_div_iff_mul_le pos).mp bits

theorem closest_roundHalfEven (num : Nat) {den e m : Nat} (pos : 0 < den)
    (exponent : Nat.log2 (num / den) - 52 = e) (rounded : roundHalfEven num (den * 2 ^ e) = m)
    (d : Nat) :
    |(num / den : ℚ) - units (e * span + m)| ≤ |(num / den : ℚ) - units d| ∧
      (d ≠ e * span + m → |(num / den : ℚ) - units d| = |(num / den : ℚ) - units (e * span + m)| →
        (e * span + m) % 2 = 0) := by
  have step_pos : 0 < den * 2 ^ e := Nat.mul_pos pos (Nat.two_pow_pos e)
  obtain ⟨lt, ge⟩ := exponent_bounds num pos exponent
  obtain ⟨high, low, -⟩ := roundHalfEven_spec num step_pos
  obtain ⟨half, even⟩ := abs_sub_roundHalfEven num step_pos
  rw [rounded] at high low half even
  have le : m ≤ 2 * span := by
    by_contra more
    nlinarith
  have normal : e = 0 ∨ span ≤ m := by
    refine ge.imp_right fun ge => ?_
    by_contra less
    nlinarith
  have den_pos : (0 : ℚ) < den := Nat.cast_pos.mpr pos
  have step : (0 : ℚ) < 2 ^ e := by positivity
  have distance : |(num / den : ℚ) - m * 2 ^ e| =
      |(num / (den * 2 ^ e : Nat) : ℚ) - m| * 2 ^ e := by
    rw [← abs_of_pos step, ← abs_mul, abs_of_pos step]
    push_cast
    field_simp
  refine closest_of_significand normal le ?_ ?_ ?_ d
  · rw [distance]
    linarith [mul_le_mul_of_nonneg_right half step.le]
  · refine ge.imp_right fun ge => (le_div_iff₀ den_pos).mpr ?_
    have cast : (span * (den * 2 ^ e) : ℚ) ≤ num := by exact_mod_cast ge
    linarith
  · intro same
    rw [distance] at same
    refine even (mul_right_cancel₀ step.ne' ?_)
    linarith

theorem isNearest_nearest (num : Nat) {den : Nat} (pos : 0 < den) :
    IsNearest (num / den) (nearest num den) := by
  have scaled : (num / den : ℚ) * unitsPerOne = (num * unitsPerOne : Nat) / den := by
    push_cast
    ring
  apply isNearest_min
  rw [scaled]
  exact closest_roundHalfEven _ pos rfl rfl

end ScopeScript.Binary64
