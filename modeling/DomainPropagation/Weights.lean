import DomainPropagation.Table

/-! Weights: how often each variable was blamed for a failure. -/

namespace DomainPropagation

structure Weights where
  table : Table Var Nat := {}
deriving DecidableEq

namespace Weights

def grow (w : Weights) : Weights := ⟨w.table.push 0⟩

def get (w : Weights) (x : Var) : Except Misuse Nat := w.table.get x

def increase (w : Weights) (x : Var) : Except Misuse Weights :=
  return ⟨← w.table.set x ((← w.table.get x) + 1)⟩

end Weights

end DomainPropagation
