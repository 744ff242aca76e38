import DomainPropagation.Pending

/-! Pending events handed out one after another. An event keeps its mark until it is handed out, and the mark is looked
up anew for each. -/

namespace DomainPropagation

namespace Pending

def unmark (seen : Table Var EventSet) (e : Event) (x : Var) : Except Misuse (Table Var EventSet) := do
  let es ← seen.get x
  seen.set x (es.erase e)

def handOut (seen : Table Var EventSet) :
    List (Event × Var) → Except Misuse (List (Event × Var) × Table Var EventSet)
  | [] => .ok ([], seen)
  | (e, x) :: rest => do
    let (handed, seen) ← handOut (← unmark seen e x) rest
    return ((e, x) :: handed, seen)

def drainStepwise (p : Pending) : Except Misuse (List (Event × Var) × Pending) := do
  let (handed, seen) ← handOut p.seen p.events.toList
  return (handed, { seen })

end Pending

end DomainPropagation
