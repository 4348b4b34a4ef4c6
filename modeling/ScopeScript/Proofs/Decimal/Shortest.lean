import ScopeScript.Proofs.Decimal.Printing

set_option autoImplicit false

namespace ScopeScript

namespace Binary64

variable {q r : ℚ} {c : Nat}

theorem middle_le_of_nearer {x a b : ℚ} (lt : a < b) (nearer : |x - b| ≤ |x - a|) :
    a + b ≤ 2 * x := by
  by_contra below
  rcases abs_cases (x - b) with ⟨same, _⟩ | ⟨same, _⟩ <;>
    rcases abs_cases (x - a) with ⟨same', _⟩ | ⟨same', _⟩ <;> linarith

theorem le_middle_of_nearer {x a b : ℚ} (lt : a < b) (nearer : |x - a| ≤ |x - b|) :
    2 * x ≤ a + b := by
  by_contra above
  rcases abs_cases (x - b) with ⟨same, _⟩ | ⟨same, _⟩ <;>
    rcases abs_cases (x - a) with ⟨same', _⟩ | ⟨same', _⟩ <;> linarith

theorem abs_sub_eq_of_middle {x a b : ℚ} (middle : 2 * x = a + b) : |x - a| = |x - b| := by
  rw [show x - a = -(x - b) by linarith, abs_neg]

theorem IsNearest.between (near : IsNearest q c) (pos : 0 < c) (finite : c < infinityCode) :
    (units (c - 1) + units c : ℚ) ≤ 2 * (q * unitsPerOne) ∧
      2 * (q * unitsPerOne) ≤ units c + units (c + 1) ∧
      (2 * (q * unitsPerOne) = units (c - 1) + units c ∨
        2 * (q * unitsPerOne) = units c + units (c + 1) → c % 2 = 0) := by
  have before : (units (c - 1) : ℚ) < units c := by
    exact_mod_cast units_strictMono (Nat.sub_lt pos Nat.one_pos)
  have after : (units c : ℚ) < units (c + 1) := by
    exact_mod_cast units_strictMono (Nat.lt_succ_self c)
  refine ⟨middle_le_of_nearer before (abs_sub_value_le_iff.mp (near.closest (c - 1) (by omega))),
    le_middle_of_nearer after (abs_sub_value_le_iff.mp (near.closest (c + 1) finite)), ?_⟩
  rintro (low | high)
  · exact near.even (c - 1) (by omega) (by omega)
      (abs_sub_value_eq_iff.mpr (abs_sub_eq_of_middle low))
  · exact near.even (c + 1) finite (by omega)
      (abs_sub_value_eq_iff.mpr (abs_sub_eq_of_middle high).symm)

theorem IsNearest.of_between (near : IsNearest q c) (pos : 0 < c) (finite : c < infinityCode)
    (between : q ≤ r ∧ r ≤ value c ∨ value c ≤ r ∧ r ≤ q) : IsNearest r c := by
  have scale : (0 : ℚ) < unitsPerOne := Nat.cast_pos.mpr unitsPerOne_pos
  have here : value c * unitsPerOne = units c := div_mul_cancel₀ _ scale.ne'
  have before : (units (c - 1) : ℚ) < units c := by
    exact_mod_cast units_strictMono (Nat.sub_lt pos Nat.one_pos)
  have after : (units c : ℚ) < units (c + 1) := by
    exact_mod_cast units_strictMono (Nat.lt_succ_self c)
  obtain ⟨low, high, ends⟩ := near.between pos finite
  rcases between with ⟨above, below⟩ | ⟨above, below⟩
  · have first := mul_le_mul_of_nonneg_right above scale.le
    have second := mul_le_mul_of_nonneg_right below scale.le
    refine isNearest_of_between finite (by linarith) (by linarith) fun other => ends (.inl ?_)
    rcases other with equal | equal <;> linarith
  · have first := mul_le_mul_of_nonneg_right above scale.le
    have second := mul_le_mul_of_nonneg_right below scale.le
    refine isNearest_of_between finite (by linarith) (by linarith) fun other => ends (.inr ?_)
    rcases other with equal | equal <;> linarith

theorem units_wide (pos : 0 < c) :
    2 * units c + 10 ^ 16 * units (c - 1) ≤ 10 ^ 16 * units (c + 1) := by
  obtain ⟨e, m, rfl, normal, lt⟩ := exists_significand c
  have here := units_eq normal lt.le
  have after := units_above normal lt.le (Nat.lt_succ_self (e * span + m))
  have size : span = 4503599627370496 := by decide
  have step : m * 2 ^ e ≤ 2 * span * 2 ^ e := Nat.mul_le_mul_right _ lt.le
  by_cases inside : e = 0 ∨ span < m
  · have before := units_below inside lt.le (Nat.sub_lt pos Nat.one_pos)
    rw [here]
    rw [size] at step
    change m * 2 ^ e + 2 ^ e ≤ units (e * span + m + 1) at after
    omega
  · -- The step below the least significand of an exponent is half as long.
    obtain ⟨-, first⟩ := not_or.mp inside
    have least : m ≤ span := Nat.le_of_not_lt first
    have short : m * 2 ^ e ≤ span * 2 ^ e := Nat.mul_le_mul_right _ least
    have before : units (e * span + m - 1) < units (e * span + m) :=
      units_strictMono (Nat.sub_lt pos Nat.one_pos)
    rw [here] at before ⊢
    rw [size] at short
    change m * 2 ^ e + 2 ^ e ≤ units (e * span + m + 1) at after
    omega

end Binary64

namespace Decimal

open Binary64

variable {tie : Tie} {c d D : Nat} {g : Int}

/-- The shortest decimal that rounds to a double: none with fewer digits does, and of those with as
many none is closer to the double or as close and greater. -/
structure IsShortest (c : Nat) (d : Decimal) : Prop where
  readsBack : IsNearest d.value c
  fewest : ∀ d' : Decimal, IsNearest d'.value c →
    digitCount d.coefficient ≤ digitCount d'.coefficient
  closest : ∀ d' : Decimal, IsNearest d'.value c →
    digitCount d'.coefficient ≤ digitCount d.coefficient →
    |d.value - Binary64.value c| ≤ |d'.value - Binary64.value c| ∧
      (|d.value - Binary64.value c| = |d'.value - Binary64.value c| → d'.value ≤ d.value)

theorem IsShortest.value_eq {d d' : Decimal} (h : IsShortest c d) (h' : IsShortest c d') :
    d.value = d'.value := by
  have fewer := h.fewest d' h'.readsBack
  have fewer' := h'.fewest d h.readsBack
  obtain ⟨closer, least⟩ := h.closest d' h'.readsBack fewer'
  obtain ⟨closer', least'⟩ := h'.closest d h.readsBack fewer
  exact le_antisymm (least' (le_antisymm closer' closer)) (least (le_antisymm closer closer'))

theorem IsShortest.last {d : Decimal} (h : IsShortest c d) (pos : d.coefficient ≠ 0) :
    d.coefficient % 10 ≠ 0 := by
  intro zero
  have same := value_dropZero d
  have le : 10 ≤ d.coefficient := by omega
  have longer : digitCount d.coefficient = digitCount (d.coefficient / 10) + 1 := by
    unfold digitCount
    rw [Nat.toDigits_of_base_le (by decide) le, List.length_append, List.length_singleton]
  have fewest := h.fewest d.dropZero (same ▸ h.readsBack)
  rw [dropZero, if_pos zero] at fewest
  dsimp only at fewest
  omega

-- One grid.

theorem value_mono {d D : Nat} (g : Int) (le : d ≤ D) : value ⟨d, g⟩ ≤ value ⟨D, g⟩ := by
  have power : (0 : ℚ) < 10 ^ g := zpow_pos (by norm_num) g
  exact mul_le_mul_of_nonneg_right (by exact_mod_cast le) power.le

theorem value_succ (d : Nat) (g : Int) : value ⟨d + 1, g⟩ = value ⟨d, g⟩ + 10 ^ g := by
  simp only [value]
  push_cast
  ring

theorem value_le_iff : value ⟨d, g⟩ ≤ Binary64.value c ↔ d ≤ gridFloor c g := by
  have scale : (0 : ℚ) < unitsPerOne := Nat.cast_pos.mpr unitsPerOne_pos
  have low : (0 : ℚ) < below g := Nat.cast_pos.mpr (below_pos g)
  have pos : 0 < above g * unitsPerOne := Nat.mul_pos (Nat.pow_pos (by decide)) unitsPerOne_pos
  rw [gridFloor, Nat.le_div_iff_mul_le pos, value_eq, Binary64.value, div_le_div_iff₀ low scale,
    ← Nat.mul_assoc]
  generalize unitsPerOne = one at *
  norm_cast

theorem roundsTo_iff (pos : 0 < c) (finite : c < infinityCode) :
    roundsTo c d g = true ↔ IsNearest (value ⟨d, g⟩) c := by
  refine ⟨isNearest_of_roundsTo finite, fun near => ?_⟩
  have scale : (0 : ℚ) < below g := Nat.cast_pos.mpr (below_pos g)
  have twice : 2 * (value ⟨d, g⟩ * unitsPerOne) =
      (d * above g * (2 * unitsPerOne) : Nat) / (below g : ℚ) := by
    rw [value_eq]
    push_cast
    ring
  obtain ⟨low, high, ends⟩ := near.between pos finite
  unfold roundsTo
  dsimp only
  rw [twice] at low high ends
  generalize d * above g * (2 * unitsPerOne) = candidate at *
  rw [le_div_iff₀ scale] at low
  rw [div_le_iff₀ scale] at high
  rw [div_eq_iff scale.ne', div_eq_iff scale.ne'] at ends
  have low' : (units (c - 1) + units c) * below g ≤ candidate := by exact_mod_cast low
  have high' : candidate ≤ (units c + units (c + 1)) * below g := by exact_mod_cast high
  split
  · exact decide_eq_true ⟨low', high'⟩
  next odd =>
    refine decide_eq_true ⟨lt_of_le_of_ne low' fun equal => odd (ends (.inl ?_)),
      lt_of_le_of_ne high' fun equal => odd (ends (.inr ?_))⟩
    · exact_mod_cast equal.symm
    · exact_mod_cast equal

section

variable (pos : 0 < c) (finite : c < infinityCode)

include pos finite

theorem roundsTo_neighbour (near : IsNearest (value ⟨D, g⟩) c) :
    (D ≤ gridFloor c g → roundsTo c (gridFloor c g) g = true) ∧
      (gridFloor c g < D → roundsTo c (gridFloor c g + 1) g = true) := by
  rw [roundsTo_iff pos finite, roundsTo_iff pos finite]
  refine ⟨fun le => near.of_between pos finite (.inl ⟨value_mono g le, value_le_iff.mpr le_rfl⟩),
    fun lt => near.of_between pos finite (.inr ⟨?_, value_mono g lt⟩)⟩
  exact le_of_not_ge fun le => absurd (value_le_iff.mp le) (Nat.not_succ_le_self _)

theorem isSome_onGrid? (tie : Tie) (near : IsNearest (value ⟨D, g⟩) c) :
    (onGrid? tie c g).isSome := by
  obtain ⟨lower, upper⟩ := roundsTo_neighbour pos finite near
  unfold onGrid?
  dsimp only
  rcases Nat.lt_or_ge (gridFloor c g) D with lt | le
  · rw [upper lt]
    cases roundsTo c (gridFloor c g) g <;> rfl
  · rw [lower le]
    cases roundsTo c (gridFloor c g + 1) g <;> rfl

end

theorem nearer_spec (c : Nat) (g : Int) :
    let v := Binary64.value c
    let d := gridFloor c g
    nearer .up c d g = d ∧ v - value ⟨d, g⟩ < value ⟨d + 1, g⟩ - v ∨
      nearer .up c d g = d + 1 ∧ value ⟨d + 1, g⟩ - v ≤ v - value ⟨d, g⟩ := by
  dsimp only
  generalize gridFloor c g = d
  have scale : (0 : ℚ) < unitsPerOne := Nat.cast_pos.mpr unitsPerOne_pos
  have low : (0 : ℚ) < below g := Nat.cast_pos.mpr (below_pos g)
  have middle : 2 * Binary64.value c < value ⟨d, g⟩ + value ⟨d + 1, g⟩ ↔
      2 * units c * below g < (2 * d + 1) * above g * unitsPerOne := by
    have sum : value ⟨d, g⟩ + value ⟨d + 1, g⟩ = ((2 * d + 1) * above g : Nat) / (below g : ℚ) := by
      rw [value_eq, value_eq]
      push_cast
      ring
    rw [sum, Binary64.value, mul_div_assoc', div_lt_div_iff₀ scale low]
    generalize unitsPerOne = one at *
    norm_cast
  unfold nearer
  dsimp only
  split
  next under =>
    have under := middle.mpr under
    exact .inl ⟨rfl, by linarith⟩
  next above =>
    have above := mt middle.mp above
    exact .inr ⟨by split <;> rfl, by linarith⟩

theorem closest_onGrid? (pos : 0 < c) (finite : c < infinityCode)
    (found : onGrid? .up c g = some d) (near : IsNearest (value ⟨D, g⟩) c) :
    |value ⟨d, g⟩ - Binary64.value c| ≤ |value ⟨D, g⟩ - Binary64.value c| ∧
      (|value ⟨d, g⟩ - Binary64.value c| = |value ⟨D, g⟩ - Binary64.value c| →
        value ⟨D, g⟩ ≤ value ⟨d, g⟩) := by
  have lower := value_le_iff.mpr (le_refl (gridFloor c g))
  have upper : Binary64.value c < value ⟨gridFloor c g + 1, g⟩ :=
    lt_of_not_ge fun le => absurd (value_le_iff.mp le) (Nat.not_succ_le_self _)
  have choice := nearer_spec c g
  obtain ⟨rounds, rounds'⟩ := roundsTo_neighbour pos finite near
  unfold onGrid? at found
  dsimp only at found choice
  -- The neighbour on the side of the multiple is no further away, and it rounds to the double too.
  rcases Nat.lt_or_ge (gridFloor c g) D with lt | le
  · have beyond := value_mono g (Nat.succ_le_of_lt lt)
    rw [rounds' lt] at found
    rw [abs_of_pos (a := value ⟨D, g⟩ - _) (by linarith)]
    cases first : roundsTo c (gridFloor c g) g with
    | true =>
      rw [first] at found
      obtain rfl := Option.some.inj found
      rcases choice with ⟨same, closer⟩ | ⟨same, closer⟩
      · rw [same, abs_of_nonpos (by linarith)]
        exact ⟨by linarith, fun equal => by linarith⟩
      · rw [same, abs_of_pos (by linarith)]
        exact ⟨by linarith, fun equal => by linarith⟩
    | false =>
      rw [first] at found
      obtain rfl := Option.some.inj found
      rw [abs_of_pos (by linarith)]
      exact ⟨by linarith, fun equal => by linarith⟩
  · have within := value_mono g le
    rw [rounds le] at found
    rw [abs_of_nonpos (a := value ⟨D, g⟩ - _) (by linarith)]
    cases second : roundsTo c (gridFloor c g + 1) g with
    | true =>
      rw [second] at found
      obtain rfl := Option.some.inj found
      rcases choice with ⟨same, closer⟩ | ⟨same, closer⟩
      · rw [same, abs_of_nonpos (by linarith)]
        exact ⟨by linarith, fun equal => by linarith⟩
      · rw [same, abs_of_pos (by linarith)]
        exact ⟨by linarith, fun equal => by linarith⟩
    | false =>
      rw [second] at found
      obtain rfl := Option.some.inj found
      rw [abs_of_nonpos (by linarith)]
      exact ⟨by linarith, fun equal => by linarith⟩

-- All grids.

theorem units_pos (pos : 0 < c) : 0 < units c :=
  Nat.lt_of_le_of_lt (Nat.zero_le _) (units_strictMono pos)

theorem magnitude_bounds (pos : 0 < c) :
    (10 : ℚ) ^ (magnitude c - 1) ≤ Binary64.value c ∧
      Binary64.value c < (10 : ℚ) ^ magnitude c := by
  have some_unit := units_pos pos
  have whole := Nat.div_mul_le_self (units c) unitsPerOne
  have next := Nat.lt_mul_div_succ (units c) unitsPerOne_pos
  have part := Nat.div_mul_le_self (unitsPerOne - 1) (units c)
  have last := Nat.lt_mul_div_succ (unitsPerOne - 1) some_unit
  have one_pos := unitsPerOne_pos
  unfold magnitude Binary64.value
  dsimp only
  generalize unitsPerOne = one at *
  generalize units c = u at *
  have one_pos' : (0 : ℚ) < one := Nat.cast_pos.mpr one_pos
  have some_unit' : (0 : ℚ) < u := Nat.cast_pos.mpr some_unit
  split
  next less =>
    have fraction : u < one := by
      rw [less] at next
      omega
    have nonzero : (one - 1) / u ≠ 0 := Nat.ne_of_gt (Nat.div_pos (by omega) some_unit)
    obtain ⟨low, high⟩ := digitCount_bounds nonzero
    have some_digit : 1 ≤ digitCount ((one - 1) / u) := Nat.length_toDigits_pos
    generalize (one - 1) / u = q at *
    obtain ⟨j, digits⟩ := Nat.exists_eq_add_of_le some_digit
    rw [digits] at low high ⊢
    have low' : u * 10 ^ j < one := by
      have := Nat.mul_le_mul_left u (show 10 ^ j ≤ q by simpa using low)
      rw [Nat.mul_comm q u] at part
      omega
    have high' : one ≤ u * 10 ^ (1 + j) := by
      have := Nat.mul_le_mul_left u (Nat.succ_le_of_lt high)
      change u * (q + 1) ≤ _ at this
      omega
    have exponent : (1 - ((1 + j : Nat) : Int)) = -(j : Int) := by omega
    have exponent' : -(j : Int) - 1 = -((1 + j : Nat) : Int) := by omega
    rw [exponent, exponent', zpow_neg, zpow_neg, zpow_natCast, zpow_natCast, le_div_iff₀ one_pos',
      div_lt_iff₀ one_pos', inv_mul_le_iff₀ (by positivity), lt_inv_mul_iff₀ (by positivity)]
    constructor
    · rw [mul_comm]
      exact_mod_cast high'
    · rw [mul_comm]
      exact_mod_cast low'
  next more =>
    obtain ⟨low, high⟩ := digitCount_bounds more
    have some_digit : 1 ≤ digitCount (u / one) := Nat.length_toDigits_pos
    generalize u / one = q at *
    obtain ⟨j, digits⟩ := Nat.exists_eq_add_of_le some_digit
    rw [digits] at low high ⊢
    have exponent : ((1 + j : Nat) : Int) - 1 = (j : Int) := by omega
    rw [exponent, zpow_natCast, zpow_natCast, le_div_iff₀ one_pos', div_lt_iff₀ one_pos']
    have low' : 10 ^ j * one ≤ u :=
      (Nat.mul_le_mul_right one (show 10 ^ j ≤ q by simpa using low)).trans whole
    have high' : u < 10 ^ (1 + j) * one := by
      refine Nat.lt_of_lt_of_le next ?_
      rw [Nat.mul_comm one]
      exact Nat.mul_le_mul_right one high
    constructor
    · exact_mod_cast low'
    · exact_mod_cast high'

section

variable (pos : 0 < c) (finite : c < infinityCode)

include pos finite

theorem isSome_seventeen (tie : Tie) : (onGrid? tie c (magnitude c - 17)).isSome := by
  have scale : (0 : ℚ) < unitsPerOne := Nat.cast_pos.mpr unitsPerOne_pos
  have here : Binary64.value c * unitsPerOne = units c := div_mul_cancel₀ _ scale.ne'
  have before : (units (c - 1) : ℚ) < units c := by
    exact_mod_cast units_strictMono (Nat.sub_lt pos Nat.one_pos)
  have after : (units c : ℚ) < units (c + 1) := by
    exact_mod_cast units_strictMono (Nat.lt_succ_self c)
  have wide : (2 * units c + 10 ^ 16 * units (c - 1) : ℚ) ≤ 10 ^ 16 * units (c + 1) := by
    exact_mod_cast units_wide pos
  have first := (magnitude_bounds pos).1
  have power : magnitude c - 1 = (16 : Nat) + (magnitude c - 17) := by omega
  rw [power, zpow_add₀ (by norm_num), zpow_natCast] at first
  generalize magnitude c - 17 = g at *
  have lower := value_le_iff.mpr (le_refl (gridFloor c g))
  have upper : Binary64.value c < value ⟨gridFloor c g + 1, g⟩ :=
    lt_of_not_ge fun le => absurd (value_le_iff.mp le) (Nat.not_succ_le_self _)
  by_contra none
  have far : ¬IsNearest (value ⟨gridFloor c g, g⟩) c :=
    fun near => none (isSome_onGrid? pos finite tie near)
  have far' : ¬IsNearest (value ⟨gridFloor c g + 1, g⟩) c :=
    fun near => none (isSome_onGrid? pos finite tie near)
  have strict : value ⟨gridFloor c g, g⟩ < Binary64.value c :=
    lt_of_le_of_ne lower fun same => far (same ▸ isNearest_value finite.le)
  -- The lower multiple has seventeen digits, so the double is above `10 ^ 16` steps.
  have many : 10 ^ 16 ≤ gridFloor c g := by
    refine value_le_iff.mp (le_of_eq_of_le ?_ first)
    rw [value]
    norm_num
  have least := value_mono g many
  rw [show value ⟨10 ^ 16, g⟩ = 10 ^ 16 * 10 ^ g by rw [value]; norm_num] at least
  have next := value_succ (gridFloor c g) g
  generalize value ⟨gridFloor c g, g⟩ = l at *
  generalize value ⟨gridFloor c g + 1, g⟩ = h at *
  have strict' := mul_lt_mul_of_pos_right strict scale
  have upper' := mul_lt_mul_of_pos_right upper scale
  have least' := mul_le_mul_of_nonneg_right least scale.le
  have outside : 2 * (l * unitsPerOne) ≤ units (c - 1) + units c := by
    by_contra above
    exact far (isNearest_of_between finite (by linarith) (by linarith) fun ends => by
      rcases ends with equal | equal <;> linarith)
  have outside' : units c + units (c + 1) ≤ 2 * (h * unitsPerOne) := by
    by_contra under
    exact far' (isNearest_of_between finite (by linarith) (by linarith) fun ends => by
      rcases ends with equal | equal <;> linarith)
  rw [next] at outside'
  linarith

theorem coefficient_ne_zero {d : Decimal} (near : IsNearest d.value c) : d.coefficient ≠ 0 := by
  intro zero
  have some_unit : (0 : ℚ) < units c := Nat.cast_pos.mpr (units_pos pos)
  have nonneg : (0 : ℚ) ≤ units (c - 1) := Nat.cast_nonneg _
  have low := (near.between pos finite).1
  rw [value, zero, Nat.cast_zero, zero_mul, zero_mul, mul_zero] at low
  linarith

theorem exists_multiple {d : Decimal} {j : Nat} (near : IsNearest d.value c)
    (le : digitCount d.coefficient ≤ j) : ∃ D, let r := value ⟨D, magnitude c - j⟩
      d.value ≤ r ∧ r ≤ Binary64.value c ∨ Binary64.value c ≤ r ∧ r ≤ d.value := by
  have some_digit : 1 ≤ digitCount d.coefficient := Nat.length_toDigits_pos
  obtain ⟨low, high⟩ := value_bounds (coefficient_ne_zero pos finite near)
  obtain ⟨first, last⟩ := magnitude_bounds pos
  have power (n : Nat) : value ⟨10 ^ n, magnitude c - j⟩ = 10 ^ (n + (magnitude c - j)) := by
    rw [value, zpow_add₀ (by norm_num), zpow_natCast]
    push_cast
    rfl
  rcases Int.lt_trichotomy (d.exponent + (digitCount d.coefficient : Int)) (magnitude c)
    with less | same | more
  · have order := zpow_le_zpow_right₀ (a := (10 : ℚ)) (by norm_num) (Int.le_sub_one_of_lt less)
    refine ⟨10 ^ (j - 1), .inl ?_⟩
    rw [power, show ((j - 1 : Nat) : Int) + (magnitude c - j) = magnitude c - 1 by omega]
    exact ⟨(high.trans_le order).le, first⟩
  · refine ⟨d.coefficient * 10 ^ (j - digitCount d.coefficient), ?_⟩
    have kept : value ⟨d.coefficient * 10 ^ (j - digitCount d.coefficient), magnitude c - j⟩ =
        d.value := by
      rw [value, value, show d.exponent = (j - digitCount d.coefficient : Nat) + (magnitude c - j)
        by omega, zpow_add₀ (by norm_num), zpow_natCast]
      push_cast
      ring
    rw [kept]
    exact (le_total d.value (Binary64.value c)).imp (⟨le_rfl, ·⟩) (⟨·, le_rfl⟩)
  · have order := zpow_le_zpow_right₀ (a := (10 : ℚ)) (by norm_num) (Int.le_sub_one_of_lt more)
    refine ⟨10 ^ j, .inr ?_⟩
    rw [power, show (j : Int) + (magnitude c - j) = magnitude c by omega]
    exact ⟨last.le, order.trans low⟩

end

theorem exists_shortest (found : (onGrid? tie c (magnitude c - 17)).isSome) :
    ∃ i d, onGrid? tie c (magnitude c - (i + 1 : Nat)) = some d ∧
      (∀ j < i, onGrid? tie c (magnitude c - (j + 1 : Nat)) = none) ∧
      shortest tie c = dropZero ⟨d, magnitude c - (i + 1 : Nat)⟩ := by
  unfold shortest
  dsimp only
  cases search : (List.range 17).findSome? _ with
  | none =>
    have last := List.findSome?_eq_none_iff.mp search 16 (by decide)
    have missed : onGrid? tie c (magnitude c - 17) = none := Option.map_eq_none_iff.mp last
    rw [missed] at found
    cases found
  | some decimal =>
    obtain ⟨before, i, rest, grids, candidate, missed⟩ := List.findSome?_eq_some_iff.mp search
    obtain ⟨d, grid, rfl⟩ := Option.map_eq_some_iff.mp candidate
    refine ⟨i, d, grid, fun j less => ?_, rfl⟩
    have sorted : (before ++ i :: rest).Pairwise (· < ·) := grids ▸ List.pairwise_lt_range
    have later := (List.pairwise_cons.mp (List.pairwise_append.mp sorted).2.1).1
    have reach : i < 17 := List.mem_range.mp (grids ▸ by simp)
    have numbered : j ∈ before ++ i :: rest := grids ▸ List.mem_range.mpr (less.trans reach)
    have member : j ∈ before := by
      rcases List.mem_append.mp numbered with first | last
      · exact first
      · rcases List.mem_cons.mp last with rfl | last
        · exact absurd less (Nat.lt_irrefl j)
        · exact absurd (later j last) (Nat.lt_asymm less)
    exact Option.map_eq_none_iff.mp (missed j member)

theorem digitCount_dropZero {i : Nat} (pos : 0 < c)
    (found : onGrid? tie c (magnitude c - (i + 1 : Nat)) = some d) :
    digitCount (dropZero ⟨d, magnitude c - (i + 1 : Nat)⟩).coefficient ≤ i + 1 := by
  have under : gridFloor c (magnitude c - (i + 1 : Nat)) < 10 ^ (i + 1) := by
    refine lt_of_not_ge fun le => absurd (value_le_iff.mpr le) (not_le_of_gt ?_)
    refine (magnitude_bounds pos).2.trans_eq ?_
    rw [value]
    push_cast
    rw [← zpow_natCast, ← zpow_add₀ (by norm_num)]
    congr 1
    push_cast
    ring
  have le : d ≤ gridFloor c (magnitude c - (i + 1 : Nat)) + 1 := by
    unfold onGrid? at found
    dsimp only at found
    split at found
    · obtain rfl := Option.some.inj found
      rcases nearer_eq_or tie c (gridFloor c (magnitude c - (i + 1 : Nat)))
        (magnitude c - (i + 1 : Nat)) with same | same <;> omega
    · obtain rfl := Option.some.inj found
      omega
    · obtain rfl := Option.some.inj found
      omega
    · cases found
  have tens := Nat.pow_succ 10 i
  refine (Nat.length_toDigits_le_iff (by decide) (Nat.succ_pos i)).mpr ?_
  unfold dropZero
  dsimp only
  split <;> dsimp only <;> omega

theorem isShortest_shortest (pos : 0 < c) (finite : c < infinityCode) :
    IsShortest c (shortest .up c) := by
  obtain ⟨i, d, found, missed, written⟩ := exists_shortest (isSome_seventeen pos finite .up)
  have digits := digitCount_dropZero pos found
  refine ⟨isNearest_shortest .up finite, fun d' near => ?_, fun d' near le => ?_⟩
  · by_contra fewer
    rw [written] at fewer
    have some_digit : 1 ≤ digitCount d'.coefficient := Nat.length_toDigits_pos
    obtain ⟨D, beside⟩ := exists_multiple pos finite near le_rfl
    have offered := isSome_onGrid? pos finite .up (near.of_between pos finite beside)
    have none := missed (digitCount d'.coefficient - 1) (by omega)
    rw [Nat.sub_add_cancel some_digit] at none
    rw [none] at offered
    cases offered
  · rw [written] at le
    obtain ⟨D, beside⟩ := exists_multiple pos finite near (le.trans digits)
    obtain ⟨closer, least⟩ :=
      closest_onGrid? pos finite found (near.of_between pos finite beside)
    rw [written, value_dropZero]
    generalize value ⟨D, magnitude c - (i + 1 : Nat)⟩ = r at *
    rcases beside with ⟨low, high⟩ | ⟨low, high⟩
    · rw [abs_of_nonpos (a := r - _) (by linarith)] at closer least
      rw [abs_of_nonpos (a := d'.value - _) (by linarith)]
      exact ⟨by linarith, fun same => by linarith [least (by linarith)]⟩
    · rw [abs_of_nonneg (a := r - _) (by linarith)] at closer least
      rw [abs_of_nonneg (a := d'.value - _) (by linarith)]
      exact ⟨by linarith, fun same => by linarith [least (by linarith)]⟩

theorem isShortest_ofCode (finite : c < infinityCode) : IsShortest c (ofCode .up c) := by
  unfold ofCode
  split
  next zero =>
    subst zero
    have nothing : value ⟨0, 0⟩ = Binary64.value 0 := by
      rw [value, Binary64.value, units_of_lt (by decide), Nat.cast_zero, zero_mul, zero_div]
    have exact_zero : |value ⟨0, 0⟩ - Binary64.value 0| = 0 := by rw [nothing, sub_self, abs_zero]
    refine ⟨nothing ▸ isNearest_value finite.le, fun d' _ => Nat.length_toDigits_pos,
      fun d' near le => ⟨exact_zero ▸ abs_nonneg _, fun same => ?_⟩⟩
    rw [exact_zero] at same
    exact (sub_eq_zero.mp (abs_eq_zero.mp same.symm)).le.trans nothing.ge
  next nonzero => exact isShortest_shortest (Nat.pos_of_ne_zero nonzero) finite

end Decimal

end ScopeScript
