import DomainPropagation.Domains

/-! Assignments of values to variables, which are what constraints and domains speak about. -/

namespace DomainPropagation

abbrev Assignment := Var → Int

def Domains.Admits (s : Domains) (a : Assignment) : Prop :=
  ∀ x d, s.get x = .ok d → a x ∈ d

end DomainPropagation
