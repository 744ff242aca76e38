import DomainPropagation.Assignment
import DomainPropagation.Propagator

/-! The constraint that a variable is greater than a constant; its negation is that it is at most the
constant. Only bounds matter to either. -/

namespace DomainPropagation

structure Greater where
  serial : Serial
  var : Var
  constant : Int
  sensitivities : Sensitivities := ⟨.bounds, [], []⟩

namespace Greater

def Holds (g : Greater) (a : Assignment) : Prop := g.constant < a g.var

def withSensitivity (g : Greater) (m : Mode) (need : Sensitivity) : Greater :=
  { g with sensitivities := g.sensitivities.set m g.var need }

def description (g : Greater) : String :=
  s!"XgtC{g.serial} : XgtC({g.var}, {g.constant} )"

/-- Nothing is greater than the greatest value, so then there is no bound to ask for. -/
def step (g : Greater) : Step Unit :=
  if maxValue ≤ g.constant then .fail g.var else .restrict g.var (.atLeast (g.constant + 1))

def refuteStep (g : Greater) : Step Unit := .restrict g.var (.atMost g.constant)

def satisfied (g : Greater) (s : Domains) : Except Misuse Bool :=
  return decide (g.constant < (← s.lower g.var))

def refuted (g : Greater) (s : Domains) : Except Misuse Bool :=
  return decide ((← s.upper g.var) ≤ g.constant)

def toReifiable (g : Greater) : Reifiable where
  name := "XgtC"
  serial := g.serial
  description := g.description
  scope := [g.var]
  sensitivities := g.sensitivities
  priority := .high
  step := g.step
  satisfied := g.satisfied
  refuteStep := g.refuteStep
  refuted := g.refuted

end Greater

end DomainPropagation
