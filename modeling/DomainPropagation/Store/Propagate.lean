import DomainPropagation.Store.Effort

/-! Propagation: turn after turn, until no propagator is due or one fails. -/

namespace DomainPropagation

namespace Store

def propagate (s : Store) : Except Misuse (Reply (Except Conflict Unit)) :=
  match _ : s.turn with
  | .error m => .error m
  | .ok ⟨.idle, t, log⟩ => .ok ⟨.ok (), t, log⟩
  | .ok ⟨.failed c, t, log⟩ => .ok ⟨.error c, t, log⟩
  | .ok ⟨.ran, t, log⟩ => (·.prepend log) <$> t.propagate
termination_by s.effort
decreasing_by exact effort_turn ‹_› rfl

end Store

end DomainPropagation
