import DomainPropagation.Event
import DomainPropagation.Table

/-! Pending events: the changes of variables that nobody has been told of yet, each once and in the
order in which they first happened. -/

namespace DomainPropagation

/-- `seen` says for each variable which of its events are in the list. -/
structure Pending where
  seen : Table Var EventSet := {}
  events : Array (Event × Var) := #[]
deriving DecidableEq

namespace Pending

def grow (p : Pending) : Pending := { p with seen := p.seen.push ∅ }

def note (p : Pending) (e : Event) (x : Var) : Except Misuse Pending := do
  let es ← p.seen.get x
  if e ∈ es then return p
  return { seen := p.seen.modify x fun _ => es.insert e, events := p.events.push (e, x) }

def drain (p : Pending) : List (Event × Var) × Pending :=
  (p.events.toList, { seen := p.events.foldl (fun t (e, x) => t.modify x (·.erase e)) p.seen })

def clear (p : Pending) : Pending := { seen := p.seen.map fun _ => ∅ }

end Pending

end DomainPropagation
