import DomainPropagation.Constraint.Count
import DomainPropagation.Constraint.Greater
import DomainPropagation.Constraint.Reified

/-! The constraints that come with the library, what they mean, and their propagators. -/

namespace DomainPropagation

inductive Constraint
  | count (c : Count)
  | greater (g : Greater)
  | reified (serial : Serial) (inner : Greater) (truth : Var)

namespace Constraint

def Holds (a : Assignment) : Constraint → Prop
  | .count c => c.Holds a
  | .greater g => g.Holds a
  | .reified serial inner truth => (Reified.mk serial inner.toReifiable truth).Holds inner.Holds a

def propagator : Constraint → Propagator
  | .count c => c.toPropagator
  | .greater g => g.toReifiable.toPropagator
  | .reified serial inner truth => (Reified.mk serial inner.toReifiable truth).toPropagator

end Constraint

end DomainPropagation
