import DomainPropagation.Proofs.Filters

/-! What a store relies on when it runs a propagator only if something that it watches has changed: a quiet
propagator is told of every change that matters to it, of those it makes itself too, and what is settled
stays settled. -/

namespace DomainPropagation

namespace Propagator

variable {p : Propagator} {s t u : Domains} {h : Handle} {x : Var} {B : Box}

def need (p : Propagator) (x : Var) : Sensitivity := p.sensitivities.of .enforce x

/-- The propagator keeps the defaults of what it requests when it is attached and detached. -/
structure Standard (p : Propagator) : Prop where
  attach : p.attach = p.scope.map (fun x => .watch x (p.need x)) ++ [.schedule, .count]
  detach : p.detach = p.scope.map .unwatch

theorem Standard.registrations (hp : p.Standard) :
    p.registrations = p.scope.map fun x => (x, p.need x) := by
  rw [Propagator.registrations, hp.attach, List.filterMap_append, List.filterMap_map]
  change p.scope.filterMap (fun x => some (x, p.need x)) ++ [] = _
  rw [List.append_nil, List.filterMap_eq_map']

def Quiet (p : Propagator) (h : Handle) (s : Domains) : Prop :=
  p.step.start h s = .ok ⟨s, false, .ok ()⟩

/-- The constraint holds whatever values are still chosen, and running the propagator says so. -/
def Settled (p : Propagator) (h : Handle) (s : Domains) : Prop :=
  ∀ t : Domains, t.WellFormed → t.Knows p.scope → (∀ x ∈ p.scope, t.box x ⊆ s.box x) →
    p.step.start h t = .ok ⟨t, true, .ok ()⟩

def Unnoticed (p : Propagator) (s t : Domains) : Prop :=
  ∀ x ∈ p.scope, t.box x ⊆ s.box x ∧ ¬ (p.need x).Tells (s.box x) (t.box x)

structure Attentive (p : Propagator) : Prop where
  quiet : ∀ {h : Handle} {s t : Domains}, s.WellFormed → t.WellFormed → s.Knows p.scope → t.Knows p.scope →
    p.Unnoticed s t → p.Quiet h s → p.Quiet h t
  told : ∀ {h : Handle} {s t : Domains}, s.WellFormed → s.Knows p.scope →
    p.step.start h s = .ok ⟨t, false, .ok ()⟩ → t = s ∨ ¬ p.Unnoticed s t
  settled : ∀ {h : Handle} {s t : Domains}, s.WellFormed → s.Knows p.scope →
    p.step.start h s = .ok ⟨t, true, .ok ()⟩ → p.Settled h t

structure Total (p : Propagator) : Prop where
  step : ∀ (h : Handle) (s : Domains), s.WellFormed → s.Knows p.scope → ∃ o, p.step.start h s = .ok o
  blamed : ∀ x ∈ p.blamed, x ∈ p.scope

def Keeps (p : Propagator) (B : Box) : Prop :=
  ∀ (h : Handle) (s : Domains), s.WellFormed → s.Knows p.scope → B ≤ s.box →
    (∀ x : Var, x.index < s.count → (B x).Nonempty) →
    ∃ t e, p.step.start h s = .ok ⟨t, e, .ok ()⟩ ∧ B ≤ t.box

theorem Unnoticed.of_eq (h : ∀ x ∈ p.scope, t.box x = s.box x) : p.Unnoticed s t :=
  fun x hx => ⟨(h x hx).le, fun ht => ht.ne (h x hx).symm⟩

theorem Settled.mono (hs : p.Settled h s) (ht : ∀ x ∈ p.scope, t.box x ⊆ s.box x) : p.Settled h t :=
  fun u hu hk hle => hs u hu hk fun x hx => (hle x hx).trans (ht x hx)

end Propagator

end DomainPropagation
