import DomainPropagation.Event
import DomainPropagation.Key

/-! Which changes of which variable a propagator cares about: a default, and exceptions for single
variables in either mode. -/

namespace DomainPropagation

/-- Of two exceptions for one variable the newer counts, and the lists hold the newest first. -/
structure Sensitivities where
  default : Sensitivity
  enforcing : List (Var × Sensitivity) := []
  refuting : List (Var × Sensitivity) := []
deriving DecidableEq

namespace Sensitivities

def exceptions (s : Sensitivities) : Mode → List (Var × Sensitivity)
  | .enforce => s.enforcing
  | .refute => s.refuting

def of (s : Sensitivities) (m : Mode) (x : Var) : Sensitivity :=
  ((s.exceptions m).lookup x).getD s.default

def set (s : Sensitivities) (m : Mode) (x : Var) (need : Sensitivity) : Sensitivities :=
  match m with
  | .enforce => { s with enforcing := (x, need) :: s.enforcing }
  | .refute => { s with refuting := (x, need) :: s.refuting }

def setBoth (s : Sensitivities) (x : Var) (need : Sensitivity) : Sensitivities :=
  (s.set .enforce x need).set .refute x need

theorem of_set (s : Sensitivities) (m n : Mode) (x y : Var) (need : Sensitivity) :
    (s.set m x need).of n y = if n = m ∧ y = x then need else s.of n y := by
  cases m <;> cases n <;> by_cases h : y = x <;>
    simp [of, set, exceptions, List.lookup_cons, beq_eq_false_iff_ne.2, h]

end Sensitivities

end DomainPropagation
