set_option autoImplicit false

namespace ScopeScript.Text

abbrev CharRange := Nat × Nat

def CharRange.has (r : CharRange) (c : Char) : Bool :=
  r.1 ≤ c.toNat && c.toNat ≤ r.2

def inRanges (rs : List CharRange) (c : Char) : Bool :=
  rs.any fun r => r.has c

end ScopeScript.Text
