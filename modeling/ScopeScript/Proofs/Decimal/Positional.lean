import ScopeScript.Proofs.Decimal.Shortest

set_option autoImplicit false

namespace ScopeScript

namespace Numeral

def written (whole fraction : List Char) : List Char :=
  if fraction = [] then whole else whole ++ '.' :: fraction

/-- The digits before and after the point of a number: no zero leads but that of a number below one,
and none ends the fraction. -/
structure Canonical (whole fraction : List Char) : Prop where
  whole_digits : ∀ c ∈ whole, c.isDigit = true
  fraction_digits : ∀ c ∈ fraction, c.isDigit = true
  some_digit : whole ≠ []
  first : whole.head? = some '0' → whole = ['0']
  last : fraction.getLast? ≠ some '0'

def Spells (text : List Char) (q : ℚ) : Prop :=
  ∃ whole fraction, Canonical whole fraction ∧ text = written whole fraction ∧
    value whole fraction = q

-- Digits.

theorem digitValue_lt {c : Char} (digit : c.isDigit = true) : digitValue c < 10 := by
  obtain ⟨-, high⟩ := (Bool.and_eq_true _ _).mp digit
  have bound : c.toNat ≤ 57 := of_decide_eq_true high
  have zero : '0'.toNat = 48 := rfl
  unfold digitValue
  omega

theorem digitValue_inj {c c' : Char} (digit : c.isDigit = true) (digit' : c'.isDigit = true)
    (same : digitValue c = digitValue c') : c = c' := by
  obtain ⟨low, -⟩ := (Bool.and_eq_true _ _).mp digit
  obtain ⟨low', -⟩ := (Bool.and_eq_true _ _).mp digit'
  have bound : 48 ≤ c.toNat := of_decide_eq_true low
  have bound' : 48 ≤ c'.toNat := of_decide_eq_true low'
  have zero : '0'.toNat = 48 := rfl
  unfold digitValue at same
  exact Char.toNat_inj.mp (by omega)

theorem ofDigits_concat (cs : List Char) (c : Char) :
    ofDigits (cs ++ [c]) = ofDigits cs * 10 + digitValue c := by
  have one : ofDigits [c] = digitValue c := Nat.zero_add _
  rw [ofDigits_append, one]
  rfl

theorem ofDigits_lt {cs : List Char} (digits : ∀ c ∈ cs, c.isDigit = true) :
    ofDigits cs < 10 ^ cs.length := by
  induction cs using List.reverseRecOn with
  | nil => exact Nat.one_pos
  | append_singleton cs c ih =>
    obtain ⟨before, digit⟩ := List.forall_mem_append.mp digits
    have small := digitValue_lt (digit c List.mem_cons_self)
    have fits := ih before
    rw [ofDigits_concat, List.length_append, List.length_singleton, Nat.pow_succ]
    omega

theorem eq_of_ofDigits_eq {cs cs' : List Char} (digits : ∀ c ∈ cs, c.isDigit = true)
    (digits' : ∀ c ∈ cs', c.isDigit = true) (length : cs.length = cs'.length)
    (same : ofDigits cs = ofDigits cs') : cs = cs' := by
  induction cs using List.reverseRecOn generalizing cs' with
  | nil => exact (List.length_eq_zero_iff.mp length.symm).symm
  | append_singleton cs c ih =>
    cases cs' using List.reverseRecOn with
    | nil =>
      rw [List.length_append] at length
      cases length
    | append_singleton cs' c' =>
      obtain ⟨before, digit⟩ := List.forall_mem_append.mp digits
      obtain ⟨before', digit'⟩ := List.forall_mem_append.mp digits'
      have digit := digit c List.mem_cons_self
      have digit' := digit' c' List.mem_cons_self
      have small := digitValue_lt digit
      have small' := digitValue_lt digit'
      rw [ofDigits_concat, ofDigits_concat] at same
      rw [List.length_append, List.length_append] at length
      rw [ih before before' (Nat.add_right_cancel length) (by omega),
        digitValue_inj digit digit' (by omega)]

theorem le_ofDigits_of_first {cs : List Char} (digits : ∀ c ∈ cs, c.isDigit = true)
    (some_digit : cs ≠ []) (first : cs.head? ≠ some '0') : 10 ^ (cs.length - 1) ≤ ofDigits cs := by
  obtain ⟨c, rest, rfl⟩ := List.exists_cons_of_ne_nil some_digit
  have positive : 1 ≤ digitValue c := by
    refine Nat.one_le_iff_ne_zero.mpr fun zero => first ?_
    have same : c = '0' := digitValue_inj (digits c List.mem_cons_self) rfl zero
    rw [same]
    rfl
  have split : ofDigits (c :: rest) = digitValue c * 10 ^ rest.length + ofDigits rest := by
    have one : ofDigits [c] = digitValue c := Nat.zero_add _
    rw [← List.singleton_append, ofDigits_append, one]
  have least := Nat.mul_le_mul_right (10 ^ rest.length) positive
  rw [split, List.length_cons, Nat.add_sub_cancel]
  omega

theorem getLast?_eq_zero_iff {cs : List Char} (digits : ∀ c ∈ cs, c.isDigit = true)
    (some_digit : cs ≠ []) : cs.getLast? = some '0' ↔ ofDigits cs % 10 = 0 := by
  cases cs using List.reverseRecOn with
  | nil => exact absurd rfl some_digit
  | append_singleton before c =>
    have digit := digits c (List.mem_append_right _ List.mem_cons_self)
    have small := digitValue_lt digit
    rw [List.getLast?_concat, ofDigits_concat, Option.some_inj]
    constructor
    · rintro rfl
      exact Nat.mul_mod_left _ _
    · intro tens
      exact digitValue_inj digit rfl (show digitValue c = 0 by omega)

-- Canonical texts.

namespace Canonical

variable {w w' f f' : List Char}

theorem length_whole_le (h : Canonical w f) (h' : Canonical w' f')
    (same : ofDigits w = ofDigits w') : w.length ≤ w'.length := by
  by_cases zero : w.head? = some '0'
  · rw [h.first zero]
    exact List.length_pos_iff.mpr h'.some_digit
  · have low := le_ofDigits_of_first h.whole_digits h.some_digit zero
    have high := ofDigits_lt h'.whole_digits
    have powers : 10 ^ (w.length - 1) < 10 ^ w'.length := by omega
    have order := (Nat.pow_lt_pow_iff_right (by decide)).mp powers
    omega

theorem length_fraction_le (h : Canonical w f)
    (same : ofDigits f * 10 ^ f'.length = ofDigits f' * 10 ^ f.length) :
    f.length ≤ f'.length := by
  by_contra more
  obtain ⟨k, length⟩ := Nat.exists_eq_add_of_lt (Nat.lt_of_not_le more)
  have tens : ofDigits f = 10 * (ofDigits f' * 10 ^ k) := by
    apply Nat.eq_of_mul_eq_mul_right (show 0 < 10 ^ f'.length by positivity)
    rw [same, length]
    ring
  refine h.last ((getLast?_eq_zero_iff h.fraction_digits ?_).mpr ?_)
  · rintro rfl
    cases length
  · rw [tens]
    exact Nat.mul_mod_right _ _

end Canonical

theorem Spells.unique {text text' : List Char} {q : ℚ} (h : Spells text q) (h' : Spells text' q) :
    text = text' := by
  obtain ⟨w, f, canonical, rfl, here⟩ := h
  obtain ⟨w', f', canonical', rfl, here'⟩ := h'
  have low : (0 : ℚ) ≤ ofDigits f / 10 ^ f.length := by positivity
  have low' : (0 : ℚ) ≤ ofDigits f' / 10 ^ f'.length := by positivity
  have high : (ofDigits f : ℚ) / 10 ^ f.length < 1 := by
    rw [div_lt_one (by positivity)]
    exact_mod_cast ofDigits_lt canonical.fraction_digits
  have high' : (ofDigits f' : ℚ) / 10 ^ f'.length < 1 := by
    rw [div_lt_one (by positivity)]
    exact_mod_cast ofDigits_lt canonical'.fraction_digits
  unfold value at here here'
  have whole : ofDigits w = ofDigits w' := by
    have first : (ofDigits w : ℚ) < ofDigits w' + 1 := by linarith
    have second : (ofDigits w' : ℚ) < ofDigits w + 1 := by linarith
    norm_cast at first second
    omega
  have fraction : ofDigits f * 10 ^ f'.length = ofDigits f' * 10 ^ f.length := by
    have same : (ofDigits f : ℚ) / 10 ^ f.length = ofDigits f' / 10 ^ f'.length := by
      rw [whole] at here
      linarith
    rw [div_eq_div_iff (by positivity) (by positivity)] at same
    exact_mod_cast same
  have length := le_antisymm (canonical.length_fraction_le fraction)
    (canonical'.length_fraction_le fraction.symm)
  rw [length] at fraction
  rw [eq_of_ofDigits_eq canonical.whole_digits canonical'.whole_digits
      (le_antisymm (canonical.length_whole_le canonical' whole)
        (canonical'.length_whole_le canonical whole.symm)) whole,
    eq_of_ofDigits_eq canonical.fraction_digits canonical'.fraction_digits length
      (Nat.eq_of_mul_eq_mul_right (by positivity) fraction)]

end Numeral

namespace Decimal

open Numeral

theorem head?_toDigits {n : Nat} (pos : n ≠ 0) : (Nat.toDigits 10 n).head? ≠ some '0' := by
  intro zero
  have digits : ∀ c ∈ Nat.toDigits 10 n, c.isDigit = true :=
    fun _ mem => Nat.isDigit_of_mem_toDigits (by decide) (by decide) mem
  have kept := ofDigits_toDigits n
  obtain ⟨rest, written⟩ := List.head?_eq_some_iff.mp zero
  rw [written] at digits kept
  have same : ofDigits rest = n := by
    have nothing : ofDigits ['0'] = 0 := ofDigits_zeros 1
    rw [← kept, ← List.singleton_append, ofDigits_append, nothing, Nat.zero_mul, Nat.zero_add]
  have small := same ▸ ofDigits_lt fun c mem => digits c (List.mem_cons_of_mem _ mem)
  -- The other digits are enough, so the first one is not among those written.
  have some_digit : 0 < rest.length := by
    by_contra none
    rw [Nat.eq_zero_of_not_pos none] at small
    omega
  have fewer := (Nat.length_toDigits_le_iff (by decide) some_digit).mpr small
  rw [written, List.length_cons] at fewer
  omega

theorem value_parts {d : Decimal} {whole fraction : List Char}
    (digits : ofDigits (whole ++ fraction) = d.coefficient)
    (places : (fraction.length : Int) = -d.exponent) : Numeral.value whole fraction = d.value := by
  rw [← value_decimal, decimal, digits, places, sub_neg_eq_add, zero_add]

theorem spells_positional {d : Decimal} (zero : d.coefficient = 0 → d.exponent = 0)
    (last : d.exponent < 0 → d.coefficient % 10 ≠ 0) : Spells d.positional d.value := by
  have some_digit : d.digits ≠ [] := List.length_pos_iff.mp Nat.length_toDigits_pos
  have digits := isDigit_digits d
  have whole : ofDigits d.digits = d.coefficient := ofDigits_toDigits d.coefficient
  unfold positional
  dsimp only
  split
  next none =>
    obtain ⟨n, power⟩ := Int.eq_ofNat_of_zero_le (show 0 ≤ d.exponent by omega)
    refine ⟨d.digits ++ List.replicate n '0', [],
      ⟨List.forall_mem_append.mpr ⟨digits, isDigit_zeros _⟩, List.forall_mem_nil _,
        List.append_ne_nil_of_left_ne_nil some_digit _, fun first => ?_, by simp⟩, ?_, ?_⟩
    · by_cases nothing : d.coefficient = 0
      · have none : n = 0 := by
          have := zero nothing
          omega
        rw [none, Decimal.digits, nothing]
        rfl
      · rw [List.head?_append_of_ne_nil _ some_digit] at first
        exact absurd first (head?_toDigits nothing)
    · rw [power, Int.toNat_natCast]
      rfl
    · rw [Numeral.value, ofDigits_append, whole, ofDigits_zeros, Decimal.value, power]
      simp [ofDigits]
  next places =>
  have negative : d.exponent < 0 := by omega
  have nonzero : d.coefficient ≠ 0 := fun none => last negative (by rw [none])
  have end_digit : d.digits.getLast? ≠ some '0' := fun ends =>
    last negative (whole ▸ (getLast?_eq_zero_iff digits some_digit).mp ends)
  split
  next few =>
    have split := List.take_append_drop (d.digits.length - (-d.exponent).toNat) d.digits
    have some_place : d.digits.drop (d.digits.length - (-d.exponent).toNat) ≠ [] := by
      rw [Ne, List.drop_eq_nil_iff]
      omega
    refine ⟨d.digits.take (d.digits.length - (-d.exponent).toNat), _,
      ⟨fun c mem => digits c (List.mem_of_mem_take mem),
        fun c mem => digits c (List.mem_of_mem_drop mem), ?_, fun first => ?_, ?_⟩,
      (if_neg some_place).symm, value_parts (split.symm ▸ whole) ?_⟩
    · rw [Ne, List.take_eq_nil_iff]
      exact not_or.mpr ⟨by omega, some_digit⟩
    · rw [List.head?_take, if_neg (by omega)] at first
      exact absurd first (head?_toDigits nonzero)
    · rw [List.getLast?_drop, if_neg (by omega)]
      exact end_digit
    · rw [List.length_drop]
      omega
  next many =>
    have some_place : List.replicate ((-d.exponent).toNat - d.digits.length) '0' ++ d.digits ≠ [] :=
      List.append_ne_nil_of_right_ne_nil _ some_digit
    refine ⟨['0'], _, ⟨List.forall_mem_singleton.mpr rfl,
      List.forall_mem_append.mpr ⟨isDigit_zeros _, digits⟩, List.cons_ne_nil _ _, fun _ => rfl, ?_⟩,
      (if_neg some_place).symm, value_parts ?_ ?_⟩
    · rw [List.getLast?_append_of_ne_nil _ some_digit]
      exact end_digit
    · have zero : ofDigits ['0'] = 0 := ofDigits_zeros 1
      rw [ofDigits_append, ofDigits_append, whole, ofDigits_zeros, zero]
      simp only [Nat.zero_mul, Nat.zero_add]
    · rw [List.length_append, List.length_replicate]
      omega

theorem spells_ofCode {c : Nat} (finite : c < Binary64.infinityCode) :
    Spells (ofCode .up c).positional (ofCode .up c).value := by
  rcases Nat.eq_zero_or_pos c with rfl | pos
  · exact spells_positional (fun _ => rfl) fun negative => absurd negative (by decide)
  · have shortest := isShortest_ofCode finite
    have nonzero := coefficient_ne_zero pos finite shortest.readsBack
    exact spells_positional (fun zero => absurd zero nonzero) fun _ => shortest.last nonzero

end Decimal

end ScopeScript
