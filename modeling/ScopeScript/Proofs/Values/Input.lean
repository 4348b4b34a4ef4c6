import ScopeScript.Proofs.Values.NumberText

set_option autoImplicit false

namespace ScopeScript

namespace Text

theorem dropWhile_isBlank {cs : List Char} (printed : ∀ c ∈ cs, isBlank c = false) :
    cs.dropWhile isBlank = cs := by
  cases cs with
  | nil => rfl
  | cons c cs => exact List.dropWhile_cons_of_neg (by simp [printed c List.mem_cons_self])

theorem trim_eq_self {cs : List Char} (printed : ∀ c ∈ cs, isBlank c = false) : trim cs = cs := by
  rw [trim, dropWhile_isBlank printed,
    dropWhile_isBlank fun c mem => printed c (List.mem_reverse.mp mem), List.reverse_reverse]

theorem isBlank_of_isDigit {c : Char} (digit : c.isDigit = true) : isBlank c = false := by
  obtain ⟨low, high⟩ := (Bool.and_eq_true _ _).mp digit
  have low : 48 ≤ c.toNat := of_decide_eq_true low
  have high : c.toNat ≤ 57 := of_decide_eq_true high
  simp only [isBlank, Bool.or_eq_false_iff, Bool.and_eq_false_iff, decide_eq_false_iff_not,
    beq_eq_false_iff_ne]
  omega

end Text

namespace Numeral

open Binary64

variable {whole fraction digits : List Char} {q : ℚ} {c : Nat}

theorem toLower_of_isDigit {c : Char} (digit : c.isDigit = true) : c.toLower = c := by
  refine Char.toLower_eq_of_not_isUpper fun upper => ?_
  obtain ⟨-, high⟩ := (Bool.and_eq_true _ _).mp digit
  obtain ⟨low, -⟩ := of_decide_eq_true upper
  have high : c.toNat ≤ 57 := of_decide_eq_true high
  have low : 65 ≤ c.toNat := low
  omega

theorem lower_ne {c : Char} {rest : List Char} {word : String} (digit : c.isDigit = true)
    (letter : ∀ d ∈ word.toList.head?, d.isDigit = false) :
    String.ofList ((c :: rest).map Char.toLower) ≠ word := by
  rintro rfl
  have first := letter c (by
    rw [String.toList_ofList, List.map_cons, toLower_of_isDigit digit]
    rfl)
  rw [digit] at first
  cases first

theorem exists_first_written (some_digit : whole ≠ []) (all : ∀ c ∈ whole, c.isDigit = true)
    (fraction : List Char) : ∃ c rest, written whole fraction = c :: rest ∧ c.isDigit = true := by
  obtain ⟨c, rest, rfl⟩ := List.exists_cons_of_ne_nil some_digit
  have digit := all c List.mem_cons_self
  unfold written
  split
  · exact ⟨c, rest, rfl, digit⟩
  · exact ⟨c, _, rfl, digit⟩

namespace Canonical

theorem exists_first (canonical : Canonical whole fraction) :
    ∃ c rest, written whole fraction = c :: rest ∧ c.isDigit = true :=
  exists_first_written canonical.some_digit canonical.whole_digits fraction

theorem isBlank (canonical : Canonical whole fraction) :
    ∀ c ∈ written whole fraction, Text.isBlank c = false := by
  have whole_printed := fun c mem => Text.isBlank_of_isDigit (canonical.whole_digits c mem)
  have fraction_printed := fun c mem => Text.isBlank_of_isDigit (canonical.fraction_digits c mem)
  unfold written
  split
  · exact whole_printed
  · exact List.forall_mem_append.mpr
      ⟨whole_printed, List.forall_mem_cons.mpr ⟨rfl, fraction_printed⟩⟩

end Canonical

theorem magnitude?_written (some_digit : whole ≠ []) (all : ∀ c ∈ whole, c.isDigit = true)
    (all' : ∀ c ∈ fraction, c.isDigit = true) :
    magnitude? (written whole fraction) = some (decimal whole fraction 0) := by
  have some_digit : whole.isEmpty = false := List.isEmpty_eq_false_iff.mpr some_digit
  have point : Char.isDigit '.' = false := rfl
  unfold magnitude? written
  split
  next none =>
    rw [List.takeWhile_eq_self_iff.mpr all, List.dropWhile_eq_nil_iff.mpr all, none]
    simp [some_digit, power?]
  next some =>
    rw [List.takeWhile_append_of_pos all, List.dropWhile_append_of_pos all]
    simp [point, some_digit, power?, List.takeWhile_eq_self_iff.mpr all',
      List.dropWhile_eq_nil_iff.mpr all']

theorem read?_of_magnitude? (negative : Bool) {d : Decimal}
    (begins : ∃ c rest, digits = c :: rest ∧ c.isDigit = true)
    (found : magnitude? digits = some d) :
    read? (Decimal.signed negative digits).toList = some (ofCode negative (nearestCode d)) := by
  obtain ⟨first, rest, begins, digit⟩ := begins
  have separated : sign (Decimal.signed negative digits).toList = (negative, digits) := by
    rw [Decimal.signed, String.toList_ofList]
    cases negative with
    | true => rfl
    | false =>
      rw [if_neg Bool.false_ne_true, begins]
      unfold sign
      split
      next minus =>
        obtain ⟨rfl, -⟩ := List.cons.inj minus
        cases digit
      next plus =>
        obtain ⟨rfl, -⟩ := List.cons.inj plus
        cases digit
      · rfl
  unfold read?
  rw [separated]
  dsimp only
  rw [found, begins, if_neg, if_neg, Option.map_some]
  · exact lower_ne digit (by simp)
  · exact not_or.mpr ⟨lower_ne digit (by simp), lower_ne digit (by simp)⟩

theorem read?_signed (negative : Bool) (spelled : Spells digits q) (near : IsNearest q c) :
    read? (Decimal.signed negative digits).toList = some (ofCode negative c) := by
  obtain ⟨whole, fraction, canonical, rfl, rfl⟩ := spelled
  have read : nearestCode (decimal whole fraction 0) = c := by
    have found := isNearest_nearestCode (decimal whole fraction 0)
    rw [value_decimal] at found
    exact found.unique near
  have found := magnitude?_written canonical.some_digit canonical.whole_digits
    canonical.fraction_digits
  rw [read?_of_magnitude? negative canonical.exists_first found, read]

theorem read?_written (some_digit : whole ≠ []) (all : ∀ c ∈ whole, c.isDigit = true)
    (all' : ∀ c ∈ fraction, c.isDigit = true) :
    read? (written whole fraction) = some (ofParts whole fraction) := by
  have begins := exists_first_written some_digit all fraction
  have read := read?_of_magnitude? false begins (magnitude?_written some_digit all all')
  rwa [Decimal.signed, String.toList_ofList] at read

end Numeral

namespace Decimal

open Binary64

theorem isBlank_plain (x : Float) : ∀ c ∈ (plain x).toList, Text.isBlank c = false := by
  unfold plain
  cases seen : view x with
  | notANumber => simp [Text.isBlank]
  | infinite negative => cases negative <;> simp [signed, Text.isBlank]
  | finite negative c =>
    obtain ⟨-, -, finite⟩ := view_eq_finite seen
    obtain ⟨whole, fraction, canonical, digits, -⟩ := spells_ofCode finite
    dsimp only
    rw [signed, String.toList_ofList, digits]
    cases negative with
    | false => exact canonical.isBlank
    | true => exact List.forall_mem_cons.mpr ⟨rfl, canonical.isBlank⟩

theorem read?_plain (x : Float) : Numeral.read? (plain x).toList = some x := by
  have made := ofCode_code x
  unfold plain
  cases seen : view x with
  | notANumber =>
    rw [eq_notANumber (view_eq_notANumber seen)]
    rfl
  | infinite negative =>
    obtain ⟨rfl, same⟩ := view_eq_infinite seen
    rw [same] at made
    dsimp only
    generalize isNegative x = negative at made ⊢
    rw [← made, signed, String.toList_ofList]
    cases negative <;> rfl
  | finite negative c =>
    obtain ⟨rfl, rfl, finite⟩ := view_eq_finite seen
    have read := Numeral.read?_signed (isNegative x) (spells_ofCode finite)
      (isNearest_ofCode .up finite)
    rwa [made] at read

end Decimal

namespace Value

theorem ofInput_numberText (x : Float) : ofInput (numberText x) = .number x := by
  rw [numberText_eq_plain, ofInput, Text.trim_eq_self (Decimal.isBlank_plain x),
    Decimal.read?_plain]

theorem ofInput_bool (b : Bool) : ofInput (text (.bool b)) = .bool b := by
  cases b <;> rfl

theorem ofInput_cases (s : String) :
    (∃ x, ofInput s = .number x) ∨ (∃ b, ofInput s = .bool b) ∨ ofInput s = .string s := by
  unfold ofInput
  dsimp only
  split
  next x _ => exact .inl ⟨x, rfl⟩
  next =>
    split
    · exact .inr (.inl ⟨true, rfl⟩)
    split
    · exact .inr (.inl ⟨false, rfl⟩)
    · exact .inr (.inr rfl)

/-- What is read as a value is read as the same value again once it is printed, and so is every
number and every truth value. -/
theorem ofInput_text :
    (∀ s, ofInput (ofInput s).text = ofInput s) ∧
      (∀ x, ofInput (text (.number x)) = .number x) ∧
      ∀ b, ofInput (text (.bool b)) = .bool b := by
  refine ⟨fun s => ?_, ofInput_numberText, ofInput_bool⟩
  rcases ofInput_cases s with ⟨x, number⟩ | ⟨b, truth⟩ | itself
  · rw [number]
    exact ofInput_numberText x
  · rw [truth]
    exact ofInput_bool b
  · rw [itself]
    exact itself

example : (ofInput " -0.50e1\t").text = "-5" := by decide +kernel

end Value

end ScopeScript
