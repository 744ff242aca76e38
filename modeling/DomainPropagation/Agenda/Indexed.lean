import DomainPropagation.Agenda
import DomainPropagation.Table

/-! Agendas with an index: a mark for every propagator that is due, and a heap of the ranks at which some
propagator is, so that no lane has to be searched for either. -/

namespace DomainPropagation

/-- Of a heap only its least entry is asked for, so `ranks` lists the entries in any order. -/
structure IndexedAgenda where
  lanes : List (List Handle)
  marks : Table Handle Bool := {}
  ranks : List Nat := []
deriving DecidableEq

namespace IndexedAgenda

def withLevels (n : Nat) : IndexedAgenda := { lanes := List.replicate n [] }

def contains (a : IndexedAgenda) (h : Handle) : Bool := (a.marks.get? h).getD false

def push (a : IndexedAgenda) (h : Handle) (rank : Nat) : Except Misuse IndexedAgenda :=
  if a.contains h then .ok a
  else do
    let marks ← (a.marks.reserve h false).set h true
    match a.lanes[rank]? with
    | none => .error .indexOutOfBounds
    | some lane =>
      let ranks := if lane = [] then rank :: a.ranks else a.ranks
      return { lanes := a.lanes.modify rank (· ++ [h]), marks, ranks }

def pop (a : IndexedAgenda) : Except Misuse (Option Handle × IndexedAgenda) :=
  match a.ranks.min? with
  | none => .ok (none, a)
  | some rank =>
    match a.lanes[rank]? with
    | none => .error .indexOutOfBounds
    | some [] => .ok (none, a)
    | some (h :: lane) => do
      let marks ← a.marks.set h false
      let ranks := if lane = [] then a.ranks.erase rank else a.ranks
      return (some h, { lanes := a.lanes.modify rank List.tail, marks, ranks })

def clearLane (lanes : List (List Handle)) (rank : Nat) : Except Misuse (List (List Handle)) :=
  if rank < lanes.length then .ok (lanes.modify rank fun _ => []) else .error .indexOutOfBounds

def clear (a : IndexedAgenda) : Except Misuse IndexedAgenda := do
  return { lanes := ← a.ranks.foldlM clearLane a.lanes, marks := a.marks.map fun _ => false }

end IndexedAgenda

end DomainPropagation
