import ScopeScript.Proofs.Decimal.Positional
import ScopeScript.Proofs.Scanning.Munch
import ScopeScript.Syntax.PrefixForm

set_option autoImplicit false

namespace ScopeScript

open Numeral

theorem Lexicon.isToken_spells {text : List Char} {q : ℚ} {x : Float}
    (spelled : Spells text q) (nearest : Binary64.Nearest q x) : IsToken (.number x) text := by
  obtain ⟨whole, fraction, canonical, rfl, rfl⟩ := spelled
  unfold written
  split
  next none => exact .whole canonical.some_digit canonical.whole_digits (none ▸ nearest)
  next places =>
    exact .fractional canonical.some_digit canonical.whole_digits places canonical.fraction_digits
      nearest

structure Binary64.Measure (x : Float) : Prop where
  positive : isNegative x = false
  finite : code x < infinityCode

namespace PrefixForm

open Lexicon Binary64

variable {x : Float}

theorem isToken_whole (measure : Measure x) {n : Nat} (whole : units (code x) = n * unitsPerOne) :
    IsToken (.number x) (Nat.toDigits 10 n ++ ['.', '0']) := by
  have written : Numeral.value (Nat.toDigits 10 n) ['0'] = Binary64.value (code x) := by
    have scale : (unitsPerOne : ℚ) ≠ 0 := (Nat.cast_pos.mpr unitsPerOne_pos).ne'
    have zero : ofDigits ['0'] = 0 := Decimal.ofDigits_zeros 1
    rw [Numeral.value, Decimal.ofDigits_toDigits, Binary64.value, whole, zero, Nat.cast_mul,
      mul_div_cancel_right₀ _ scale, Nat.cast_zero, zero_div, add_zero]
  refine .fractional (List.length_pos_iff.mp Nat.length_toDigits_pos)
    (fun _ mem => Nat.isDigit_of_mem_toDigits (by decide) (by decide) mem)
    (List.cons_ne_nil _ _) (List.forall_mem_singleton.mpr rfl) ?_
  rw [written]
  exact ⟨measure.positive, isNearest_value measure.finite.le⟩

theorem isToken_number (measure : Measure x) : IsToken (.number x) (number x).toList := by
  have finite : view x = .finite false (code x) := by
    rw [view, if_pos measure.finite, measure.positive]
  unfold number integral?
  rw [finite]
  dsimp only
  by_cases whole : units (code x) % unitsPerOne = 0
  · rw [if_pos whole]
    dsimp only [Decimal.signed]
    rw [if_neg (by simp), String.toList_ofList]
    exact isToken_whole measure (Nat.div_mul_cancel (Nat.dvd_of_mod_eq_zero whole)).symm
  · rw [if_neg whole]
    dsimp only [Decimal.plain]
    rw [finite]
    dsimp only [Decimal.signed]
    rw [if_neg (by simp), String.toList_ofList]
    exact isToken_spells (Decimal.spells_ofCode measure.finite)
      ⟨measure.positive, Decimal.isNearest_ofCode .up measure.finite⟩

end PrefixForm

end ScopeScript
