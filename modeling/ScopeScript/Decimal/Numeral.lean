import ScopeScript.Decimal.Shortest

set_option autoImplicit false

namespace ScopeScript.Numeral

def digitValue (c : Char) : Nat :=
  c.toNat - '0'.toNat

def ofDigits (cs : List Char) : Nat :=
  cs.foldl (fun n c => 10 * n + digitValue c) 0

/--
The code of the double nearest to a decimal number. Below `10 ^ -324` all is zero and from
`10 ^ 309` on all is infinite, so powers of ten stay within reach of the range.
-/
def nearestCode (d : Decimal) : Nat :=
  let size := d.exponent + (Decimal.digitCount d.coefficient : Int)
  if d.coefficient = 0 ∨ size < -323 then 0
  else if 309 < size then Binary64.infinityCode
  else Binary64.nearest (d.coefficient * Decimal.above d.exponent) (Decimal.below d.exponent)

def decimal (whole fraction : List Char) (power : Int) : Decimal :=
  ⟨ofDigits (whole ++ fraction), power - (fraction.length : Int)⟩

def ofParts (whole fraction : List Char) : Float :=
  Binary64.ofCode false (nearestCode (decimal whole fraction 0))

def sign : List Char → Bool × List Char
  | '-' :: rest => (true, rest)
  | '+' :: rest => (false, rest)
  | rest => (false, rest)

def power? : List Char → Option Int
  | [] => some 0
  | c :: rest =>
    if c = 'e' ∨ c = 'E' then
      let (negative, digits) := sign rest
      if digits.isEmpty || !digits.all Char.isDigit then none
      else some (if negative then -(ofDigits digits : Int) else ofDigits digits)
    else none

def magnitude? (cs : List Char) : Option Decimal :=
  let whole := cs.takeWhile Char.isDigit
  let rest := cs.dropWhile Char.isDigit
  let (fraction, tail) := match rest with
    | '.' :: r => (r.takeWhile Char.isDigit, r.dropWhile Char.isDigit)
    | r => ([], r)
  if whole.isEmpty && fraction.isEmpty then none
  else (power? tail).map (decimal whole fraction)

def read? (text : List Char) : Option Float :=
  let (negative, cs) := sign text
  let word := String.ofList (cs.map Char.toLower)
  if word = "inf" ∨ word = "infinity" then
    some (Binary64.ofCode negative Binary64.infinityCode)
  else if word = "nan" then
    some Binary64.notANumber
  else (magnitude? cs).map fun d => Binary64.ofCode negative (nearestCode d)

end ScopeScript.Numeral
