import ScopeScript.Decimal.Binary64

set_option autoImplicit false

namespace ScopeScript.Binary64

/--
What is left of `a` after taking away `b` as often as it goes, toward zero. It is a multiple of the
step of the smaller operand and no larger than it, so a double holds it exactly.
-/
def remainder (a b : Float) : Float :=
  match view a, view b with
  | .finite negative x, .finite _ y =>
    if units y = 0 then notANumber
    else ofCode negative (nearest (units x % units y) unitsPerOne)
  | .finite _ _, .infinite _ => a
  | _, _ => notANumber

end ScopeScript.Binary64
