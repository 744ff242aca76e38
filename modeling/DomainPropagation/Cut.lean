/-! Cuts: restrictions on the values of one variable. -/

namespace DomainPropagation

inductive Cut
  | atLeast (bound : Int)
  | atMost (bound : Int)
  | without (value : Int)
  | within (lower upper : Int)
deriving DecidableEq

namespace Cut

def exactly (v : Int) : Cut := .within v v

end Cut

end DomainPropagation
