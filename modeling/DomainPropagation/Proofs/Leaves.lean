import DomainPropagation.Proofs.Confluence
import DomainPropagation.Proofs.Entailing

/-! Leaves of a search. Once propagation has succeeded and all variables that matter are fixed, their values are a
solution, and the store finds that they are. -/

namespace DomainPropagation

namespace Store

variable {s : Store} {cs : List Constraint} {c : Constraint} {o : Options} {floor : Nat} {failed : Bool}
  {r : Reply (Except Conflict Unit)} {P : Propagator → Prop}

end Store

end DomainPropagation
