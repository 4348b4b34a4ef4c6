import ScopeScript.Decimal.Shortest

set_option autoImplicit false

namespace ScopeScript.Decimal

def positional (d : Decimal) : List Char :=
  let ds := d.digits
  let places := (-d.exponent).toNat
  if places = 0 then ds ++ List.replicate d.exponent.toNat '0'
  else if places < ds.length then
    ds.take (ds.length - places) ++ '.' :: ds.drop (ds.length - places)
  else '0' :: '.' :: List.replicate (places - ds.length) '0' ++ ds

def positionalWithPoint (d : Decimal) : List Char :=
  if 0 ≤ d.exponent then d.positional ++ ['.', '0'] else d.positional

def scientific (d : Decimal) : List Char :=
  let ds := d.digits
  let power := d.exponent + (ds.length : Int) - 1
  let fraction := if ds.length ≤ 1 then [] else '.' :: ds.drop 1
  let sign := if power < 0 then '-' else '+'
  ds.take 1 ++ fraction ++ 'e' :: sign :: Nat.toDigits 10 power.natAbs

def signed (negative : Bool) (text : List Char) : String :=
  String.ofList (if negative then '-' :: text else text)

def wholeLimit : Nat := Nat.pow 10 15

def ofCode (tie : Tie) (c : Nat) : Decimal :=
  if c = 0 then ⟨0, 0⟩ else shortest tie c

def plain (x : Float) : String :=
  match Binary64.view x with
  | .notANumber => "NaN"
  | .infinite negative => signed negative ['i', 'n', 'f']
  | .finite negative c => signed negative (ofCode .up c).positional

end ScopeScript.Decimal
