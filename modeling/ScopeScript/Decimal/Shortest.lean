import ScopeScript.Decimal.Binary64

set_option autoImplicit false

/-!
The shortest decimal that reads back as a given double, and of those the nearest to it.

For one digit, two digits and so on the two neighbours of the number on the grid of that many digits
are tested against the interval of fractions that round to the number. The first grid that meets the
interval wins. All of it is exact arithmetic on natural numbers.
-/

namespace ScopeScript

structure Decimal where
  coefficient : Nat
  exponent : Int
  deriving DecidableEq

namespace Decimal

def digits (d : Decimal) : List Char :=
  Nat.toDigits 10 d.coefficient

def digitCount (n : Nat) : Nat :=
  (Nat.toDigits 10 n).length

inductive Tie where
  | up
  | toEven
  deriving DecidableEq

def above (g : Int) : Nat := Nat.pow 10 g.toNat

def below (g : Int) : Nat := Nat.pow 10 (-g).toNat

/--
Whether `d * 10 ^ g` rounds to the double with code `c`. The ends of the interval lie halfway to the
neighbouring doubles, and belong to it if the significand is even.
-/
def roundsTo (c d : Nat) (g : Int) : Bool :=
  let candidate := d * above g * (2 * Binary64.unitsPerOne)
  let low := (Binary64.units (c - 1) + Binary64.units c) * below g
  let high := (Binary64.units c + Binary64.units (c + 1)) * below g
  if c % 2 = 0 then decide (low ≤ candidate ∧ candidate ≤ high)
  else decide (low < candidate ∧ candidate < high)

def gridFloor (c : Nat) (g : Int) : Nat :=
  Binary64.units c * below g / (above g * Binary64.unitsPerOne)

def nearer (tie : Tie) (c d : Nat) (g : Int) : Nat :=
  let middle := (2 * d + 1) * above g * Binary64.unitsPerOne
  let number := 2 * Binary64.units c * below g
  if number < middle then d
  else if middle < number then d + 1
  else match tie with
    | .up => d + 1
    | .toEven => d + d % 2

def onGrid? (tie : Tie) (c : Nat) (g : Int) : Option Nat :=
  let d := gridFloor c g
  match roundsTo c d g, roundsTo c (d + 1) g with
  | true, true => some (nearer tie c d g)
  | true, false => some d
  | false, true => some (d + 1)
  | false, false => none

def magnitude (c : Nat) : Int :=
  let whole := Binary64.units c / Binary64.unitsPerOne
  if whole = 0 then 1 - digitCount ((Binary64.unitsPerOne - 1) / Binary64.units c)
  else digitCount whole

def dropZero (d : Decimal) : Decimal :=
  if d.coefficient % 10 = 0 then ⟨d.coefficient / 10, d.exponent + 1⟩ else d

def exact (c : Nat) : Decimal :=
  ⟨Binary64.units c * Nat.pow 5 1074, -1074⟩

/--
The shortest decimal for the positive double with code `c`. Seventeen digits always suffice. A
candidate of one digit may be ten, which is one with a zero.
-/
def shortest (tie : Tie) (c : Nat) : Decimal :=
  let k := magnitude c
  let found := (List.range 17).findSome? fun i =>
    (onGrid? tie c (k - (i + 1 : Nat))).map fun d => ⟨d, k - (i + 1 : Nat)⟩
  dropZero (found.getD (exact c))

end Decimal

end ScopeScript
