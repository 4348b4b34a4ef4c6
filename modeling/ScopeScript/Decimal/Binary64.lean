set_option autoImplicit false

/-!
Double-precision numbers as exact multiples of the least positive one.

A number without its sign is named by its *code*: the 63 bits below the sign, read as a natural
number. Codes are ordered as the magnitudes are, so the neighbours of a number are the codes before
and after it, and rounding a fraction is finding a code.
-/

namespace ScopeScript.Binary64

def signWeight : Nat := Nat.pow 2 63

/-- How many numbers share an exponent. -/
def span : Nat := Nat.pow 2 52

def code (x : Float) : Nat :=
  x.toBits.toNat % signWeight

def isNegative (x : Float) : Bool :=
  decide (signWeight ≤ x.toBits.toNat)

def infinityCode : Nat := 2047 * span

/-- How many times the least positive number `2 ^ -1074` the number with code `c` is. -/
def units (c : Nat) : Nat :=
  if c < span then c else (span + c % span) * Nat.pow 2 (c / span - 1)

def unitsPerOne : Nat := Nat.pow 2 1074

def ofCode (negative : Bool) (c : Nat) : Float :=
  Float.ofBits (UInt64.ofNat ((if negative then signWeight else 0) + c))

def notANumber : Float :=
  ofCode false (infinityCode + span / 2)

/-- What a double stands for. A finite magnitude is `units code / unitsPerOne`. -/
inductive View where
  | notANumber
  | infinite (negative : Bool)
  | finite (negative : Bool) (code : Nat)
  deriving DecidableEq

def view (x : Float) : View :=
  if code x < infinityCode then .finite (isNegative x) (code x)
  else if code x = infinityCode then .infinite (isNegative x)
  else .notANumber

def roundHalfEven (num den : Nat) : Nat :=
  let quotient := num / den
  let twice := 2 * (num % den)
  if twice < den then quotient
  else if den < twice then quotient + 1
  else quotient + quotient % 2

/--
The code of the number nearest to `num / den`, a half to the even neighbour. The step between
neighbours is `2 ^ e` units, where the quotient has `e` bits more than the 53 of a significand. A
significand that rounds up to 54 bits carries into the exponent by itself.
-/
def nearest (num den : Nat) : Nat :=
  let scaled := num * unitsPerOne
  let e := Nat.log2 (scaled / den) - 52
  min (e * span + roundHalfEven scaled (den * Nat.pow 2 e)) infinityCode

theorem units_of_lt {c : Nat} (h : c < span) : units c = c :=
  if_pos h

theorem units_of_le {c : Nat} (h : span ≤ c) :
    units c = (span + c % span) * Nat.pow 2 (c / span - 1) :=
  if_neg (Nat.not_lt.mpr h)

def integral? (x : Float) : Option (Bool × Nat) :=
  match view x with
  | .finite negative c =>
    if units c % unitsPerOne = 0 then some (negative, units c / unitsPerOne) else none
  | _ => none

def truncate (x : Float) : Int64 :=
  match view x with
  | .notANumber => 0
  | .infinite negative => if negative then Int64.minValue else Int64.maxValue
  | .finite negative c =>
    let n : Int := (units c / unitsPerOne : Nat)
    Int64.ofIntClamp (if negative then -n else n)

end ScopeScript.Binary64
