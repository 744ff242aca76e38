import DomainPropagation.Agenda
import DomainPropagation.Sensitivities
import DomainPropagation.Step

/-! Propagators: a constraint's consistency step, together with what a store has to know to run it
when it is due. -/

namespace DomainPropagation

inductive Wiring
  | watch (x : Var) (need : Sensitivity)
  | unwatch (x : Var)
  | schedule
  | count
deriving DecidableEq

def Wiring.registration? : Wiring → Option (Var × Sensitivity)
  | .watch x need => some (x, need)
  | _ => none

/-- `satisfied` tells whether the constraint is known to hold. By default a propagator watches its
whole scope, is due at once, counts as a constraint, leaves its whole scope when it is entailed, and
blames its whole scope for its failures. -/
structure Propagator where
  name : String
  serial : Serial
  description : String
  scope : List Var
  sensitivities : Sensitivities
  priority : Priority := .veryLow
  step : Step Unit
  satisfied : Domains → Except Misuse Bool
  attach : List Wiring :=
    scope.map (fun x => .watch x (sensitivities.of .enforce x)) ++ [.schedule, .count]
  detach : List Wiring := scope.map .unwatch
  blamed : List Var := scope

def Propagator.registrations (p : Propagator) : List (Var × Sensitivity) :=
  p.attach.filterMap Wiring.registration?

structure Reifiable extends Propagator where
  refuteStep : Step Unit
  refuted : Domains → Except Misuse Bool

end DomainPropagation
