import DomainPropagation.Assignment
import DomainPropagation.Propagator

/-! The constraint that a 0/1 variable tells whether another constraint holds. -/

namespace DomainPropagation

structure Reified where
  serial : Serial
  inner : Reifiable
  truth : Var

namespace Reified

def Holds (r : Reified) (inner : Assignment → Prop) (a : Assignment) : Prop :=
  (a r.truth = 0 ∨ a r.truth = 1) ∧ (a r.truth = 1 ↔ inner a)

def scope (r : Reified) : List Var :=
  if r.truth ∈ r.inner.scope then r.inner.scope else r.inner.scope ++ [r.truth]

def description (r : Reified) : String :=
  s!"Reified{r.serial} : Reified({r.inner.description}, {r.truth} )"

/-- Either mode of the inner constraint may come to be enforced, so the more sensitive one counts. -/
def sensitivities (r : Reified) : Sensitivities :=
  let both (x : Var) := max (r.inner.sensitivities.of .enforce x) (r.inner.sensitivities.of .refute x)
  let s := r.inner.scope.foldl (fun s x => s.setBoth x (both x)) ⟨.every, [], []⟩
  if r.truth ∈ r.inner.scope then s.setBoth r.truth .every else s

def enforceInner (r : Reified) : Step Unit := do
  r.inner.step
  if ← Step.ask r.inner.satisfied then Step.declareEntailed

def refuteInner (r : Reified) : Step Unit := do
  r.inner.refuteStep
  if ← Step.ask r.inner.refuted then Step.declareEntailed

def inferTruth (r : Reified) : Step Unit := do
  if ← Step.ask r.inner.satisfied then
    Step.restrict r.truth (.exactly 1)
    Step.declareEntailed
  else if ← Step.ask r.inner.refuted then
    Step.restrict r.truth (.exactly 0)
    Step.declareEntailed

def step (r : Reified) : Step Unit := do
  Step.restrict r.truth (.within 0 1)
  let truth ← Step.ask (·.get r.truth)
  if truth.isFixedTo 1 then r.enforceInner
  else if truth.isFixedTo 0 then r.refuteInner
  else r.inferTruth

def satisfied (r : Reified) (s : Domains) : Except Misuse Bool := do
  let truth ← s.get r.truth
  if truth.isFixedTo 1 then r.inner.satisfied s
  else if truth.isFixedTo 0 then r.inner.refuted s
  else return false

def toPropagator (r : Reified) : Propagator where
  name := "Reified"
  serial := r.serial
  description := r.description
  scope := r.scope
  sensitivities := r.sensitivities
  priority := r.inner.priority
  step := r.step
  satisfied := r.satisfied

end Reified

end DomainPropagation
