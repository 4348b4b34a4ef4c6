import ScopeScript.Decimal.Notation
import ScopeScript.Proofs.Decimal.Reading

set_option autoImplicit false

namespace ScopeScript

namespace Binary64

variable {q : ℚ} {c : Nat}

theorem isNearest_of_between (finite : c < infinityCode)
    (low : (units (c - 1) + units c : ℚ) ≤ 2 * (q * unitsPerOne))
    (high : 2 * (q * unitsPerOne) ≤ units c + units (c + 1))
    (ends : 2 * (q * unitsPerOne) = units (c - 1) + units c ∨
      2 * (q * unitsPerOne) = units c + units (c + 1) → c % 2 = 0) : IsNearest q c := by
  rw [← Nat.min_eq_left finite.le]
  refine isNearest_min fun d => ?_
  generalize q * unitsPerOne = x at *
  rcases Nat.lt_trichotomy d c with lt | rfl | gt
  · have before : (units d : ℚ) ≤ units (c - 1) := by
      exact_mod_cast units_strictMono.monotone (Nat.le_sub_one_of_lt lt)
    have rise : (units d : ℚ) < units c := by exact_mod_cast units_strictMono lt
    rw [abs_of_nonneg (show 0 ≤ x - units d by linarith)]
    refine ⟨abs_le.mpr ⟨by linarith, by linarith⟩, fun _ same => ends (.inl ?_)⟩
    rcases eq_or_eq_neg_of_abs_eq same.symm with equal | opposite
    · linarith
    · linarith
  · exact ⟨le_rfl, fun other => absurd rfl other⟩
  · have after : (units (c + 1) : ℚ) ≤ units d := by
      exact_mod_cast units_strictMono.monotone (Nat.succ_le_of_lt gt)
    have rise : (units c : ℚ) < units d := by exact_mod_cast units_strictMono gt
    rw [abs_of_nonpos (show x - units d ≤ 0 by linarith)]
    refine ⟨abs_le.mpr ⟨by linarith, by linarith⟩, fun _ same => ends (.inr ?_)⟩
    rcases eq_or_eq_neg_of_abs_eq same.symm with equal | opposite
    · linarith
    · linarith

theorem isNearest_value (le : c ≤ infinityCode) : IsNearest (value c) c := by
  have here : |value c - value c| = 0 := by rw [sub_self, abs_zero]
  refine ⟨le, fun d _ => here ▸ abs_nonneg _, fun d _ other same => ?_⟩
  have equal : value c = value d := sub_eq_zero.mp (abs_eq_zero.mp (same.trans here))
  exact absurd (value_strictMono.injective equal).symm other

end Binary64

namespace Decimal

open Binary64

variable {tie : Tie} {c d : Nat} {g : Int}

theorem isNearest_of_roundsTo (finite : c < infinityCode) (rounds : roundsTo c d g = true) :
    IsNearest (value ⟨d, g⟩) c := by
  have scale : (0 : ℚ) < below g := Nat.cast_pos.mpr (below_pos g)
  have twice : 2 * (value ⟨d, g⟩ * unitsPerOne) =
      (d * above g * (2 * unitsPerOne) : Nat) / (below g : ℚ) := by
    rw [value_eq]
    push_cast
    ring
  unfold roundsTo at rounds
  dsimp only at rounds
  generalize d * above g * (2 * unitsPerOne) = candidate at *
  apply isNearest_of_between finite <;> rw [twice]
  · rw [le_div_iff₀ scale]
    have low : (units (c - 1) + units c) * below g ≤ candidate := by
      split at rounds
      · exact (of_decide_eq_true rounds).1
      · exact (of_decide_eq_true rounds).1.le
    exact_mod_cast low
  · rw [div_le_iff₀ scale]
    have high : candidate ≤ (units c + units (c + 1)) * below g := by
      split at rounds
      · exact (of_decide_eq_true rounds).2
      · exact (of_decide_eq_true rounds).2.le
    exact_mod_cast high
  · rw [div_eq_iff scale.ne', div_eq_iff scale.ne']
    intro ends
    by_contra odd
    rw [if_neg odd] at rounds
    obtain ⟨low, high⟩ := of_decide_eq_true rounds
    rcases ends with equal | equal
    · exact low.ne' (by exact_mod_cast equal)
    · exact high.ne (by exact_mod_cast equal)

theorem nearer_eq_or (tie : Tie) (c d : Nat) (g : Int) :
    nearer tie c d g = d ∨ nearer tie c d g = d + 1 := by
  unfold nearer
  dsimp only
  split
  · exact .inl rfl
  split
  · exact .inr rfl
  cases tie with
  | up => exact .inr rfl
  | toEven =>
    rcases Nat.mod_two_eq_zero_or_one d with even | odd
    · exact .inl (congrArg (d + ·) even)
    · exact .inr (congrArg (d + ·) odd)

theorem roundsTo_of_onGrid? (found : onGrid? tie c g = some d) : roundsTo c d g = true := by
  unfold onGrid? at found
  dsimp only at found
  split at found
  next first second =>
    obtain rfl := Option.some.inj found
    rcases nearer_eq_or tie c (gridFloor c g) g with same | same
    · exact same.symm ▸ first
    · exact same.symm ▸ second
  next first _ => exact Option.some.inj found ▸ first
  next _ second => exact Option.some.inj found ▸ second
  · cases found

theorem value_dropZero (d : Decimal) : d.dropZero.value = d.value := by
  unfold dropZero
  split
  next zero =>
    obtain ⟨n, tens⟩ := Nat.dvd_of_mod_eq_zero zero
    rw [value, value, tens, Nat.mul_div_cancel_left n (by decide), zpow_add_one₀ (by norm_num)]
    push_cast
    ring
  · rfl

theorem value_fives (u n : Nat) : value ⟨u * Nat.pow 5 n, -n⟩ = u / Nat.pow 2 n := by
  have tens : (10 : ℚ) ^ n = 5 ^ n * 2 ^ n := by
    rw [← mul_pow]
    norm_num
  rw [value, zpow_neg, zpow_natCast, tens, Nat.pow_eq, Nat.pow_eq]
  push_cast
  field_simp

theorem value_exact (c : Nat) : (exact c).value = Binary64.value c := by
  have exponent : (-1074 : Int) = -(1074 : Nat) := rfl
  unfold exact Binary64.value unitsPerOne
  rw [exponent]
  generalize 1074 = n
  exact value_fives (units c) n

theorem isNearest_shortest (tie : Tie) (finite : c < infinityCode) :
    IsNearest (shortest tie c).value c := by
  unfold shortest
  rw [value_dropZero]
  cases found : (List.range 17).findSome? _ with
  | none => exact value_exact c ▸ isNearest_value finite.le
  | some written =>
    obtain ⟨i, -, candidate⟩ := List.exists_of_findSome?_eq_some found
    obtain ⟨d, grid, rfl⟩ := Option.map_eq_some_iff.mp candidate
    exact isNearest_of_roundsTo finite (roundsTo_of_onGrid? grid)

theorem isNearest_ofCode (tie : Tie) (finite : c < infinityCode) :
    IsNearest (ofCode tie c).value c := by
  unfold ofCode
  split
  next zero =>
    have nothing : value ⟨0, 0⟩ = Binary64.value c := by
      rw [zero, value, Binary64.value, units_of_lt (by decide), Nat.cast_zero, zero_mul, zero_div]
    exact nothing ▸ isNearest_value finite.le
  · exact isNearest_shortest tie finite

-- The characters.

theorem ofDigits_toDigits (n : Nat) : Numeral.ofDigits (Nat.toDigits 10 n) = n :=
  Nat.ofDigitChars_toDigits (by decide) (by decide)

theorem ofDigits_zeros (n : Nat) : Numeral.ofDigits (List.replicate n '0') = 0 := by
  induction n with
  | zero => rfl
  | succ n ih =>
    rw [List.replicate_succ']
    rw [Numeral.ofDigits_append, ih]
    rfl

theorem isDigit_zeros (n : Nat) : ∀ c ∈ List.replicate n '0', c.isDigit = true :=
  fun _ mem => (List.eq_of_mem_replicate mem) ▸ rfl

theorem isDigit_digits (d : Decimal) : ∀ c ∈ d.digits, c.isDigit = true :=
  fun _ mem => Nat.isDigit_of_mem_toDigits (by decide) (by decide) mem

end Decimal

end ScopeScript
