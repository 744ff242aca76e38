import DomainPropagation.Proofs.Outcomes

/-! Steps of the counting constraint one after the other, for a counter that is not counted itself and subjects that
can be counted. Cutting the counter to the possible counts can land on a hole and so let the next step decide the
subjects, but after that nothing is left to do; and without holes the first step has done it all. -/

namespace DomainPropagation

namespace Count

variable {c : Count} {B : Box} {s : Domains} {h : Handle} {o : Outcome Unit} {l u : Int}

section

variable (hr : c.InRange) (hk : c.counter ∉ c.subjects) (hd : ¬ c.Decides B)
include hk hd

include hr

end

end Count

end DomainPropagation
