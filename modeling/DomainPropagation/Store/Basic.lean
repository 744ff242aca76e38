import DomainPropagation.Propagator
import DomainPropagation.Record
import DomainPropagation.Watchers
import DomainPropagation.Weights

/-! Stores: the variables, the propagators imposed on them, and what there is to be propagated. -/

namespace DomainPropagation

structure Options where
  trackWeights : Bool := false
deriving DecidableEq

structure Imposed where
  propagator : Propagator
  entailed : Bool := false

/-- `suspended` holds, newest first, what was due when each level below the current one was left, and
`entailments` the propagators entailed so far, so that both can be put back. -/
structure Store where
  options : Options := {}
  domains : Domains := {}
  watchers : Watchers := {}
  agenda : Agenda := .withLevels Priority.levels
  imposed : Table Handle Imposed := {}
  entailments : Trail Handle := {}
  suspended : List (List Handle) := []
  serials : Supply Serial := {}
  live : Nat := 0
  weights : Weights := {}

structure Reply (α : Type) where
  value : α
  store : Store
  log : List Record := []

namespace Reply

variable {α β : Type}

def map (f : α → β) (r : Reply α) : Reply β := { r with value := f r.value }

def prepend (log : List Record) (r : Reply α) : Reply α := { r with log := log ++ r.log }

end Reply

namespace Store

def level (s : Store) : Nat := s.domains.level

def newSerial (s : Store) : Reply Serial :=
  ⟨s.serials.next.1, { s with serials := s.serials.next.2 }, []⟩

def addDomain (s : Store) (d : Domain) : Reply Var :=
  ⟨s.domains.table.nextKey,
    { s with domains := s.domains.add d, watchers := s.watchers.grow, weights := s.weights.grow }, []⟩

def newVariable (s : Store) (lower upper : Int) : Reply (Except ModelError Var) :=
  if lower ≤ upper then
    let r := s.addDomain (.interval lower upper)
    ⟨.ok r.value, r.store, r.log⟩
  else ⟨.error .emptyDomain, s, []⟩

def newSparseVariable (s : Store) (values : List Int) : Except Misuse (Reply (Except ModelError Var)) :=
  if s.level = 0 then
    match Domain.ofValues? values with
    | some d =>
      let r := s.addDomain d
      .ok ⟨.ok r.value, r.store, r.log⟩
    | none => .ok ⟨.error .emptyDomain, s, []⟩
  else .error .sparseAboveRoot

def cut (s : Store) (x : Var) (c : Cut) : Except Misuse (Reply Status) := do
  let w ← s.domains.cut x c
  return ⟨w.status, { s with domains := w.domains }, []⟩

def schedule (s : Store) (h : Handle) : Except Misuse Store := do
  let p := (← s.imposed.get h).propagator
  return { s with agenda := ← s.agenda.push h p.priority.rank }

def scheduleAll (s : Store) (hs : List Handle) : Except Misuse Store := hs.foldlM schedule s

def watchAll (s : Store) (h : Handle) (rs : List (Var × Sensitivity)) : Except Misuse Store := do
  return { s with watchers := ← rs.foldlM (fun w (x, need) => w.watch x h need.events) s.watchers }

def wire (s : Store) (h : Handle) : Wiring → Except Misuse Store
  | .watch x need => return { s with watchers := ← s.watchers.watch x h need.events }
  | .unwatch x => return { s with watchers := ← s.watchers.unwatch x h }
  | .schedule => s.schedule h
  | .count => return { s with live := s.live + 1 }

def wireAll (s : Store) (h : Handle) (ws : List Wiring) : Except Misuse Store :=
  ws.foldlM (·.wire h ·) s

def impose (s : Store) (p : Propagator) : Except Misuse (Reply (Except ModelError Handle)) :=
  match p.scope.find? fun x => s.domains.count ≤ x.index with
  | some x => .ok ⟨.error (.unknownVariable x), s, []⟩
  | none => do
    let h := s.imposed.nextKey
    let s ← { s with imposed := s.imposed.push ⟨p, false⟩ }.wireAll h p.attach
    return ⟨.ok h, s, [.imposed p.description h]⟩

def propagator (s : Store) (h : Handle) : Except Misuse Propagator :=
  return (← s.imposed.get h).propagator

def isEntailed (s : Store) (h : Handle) : Except Misuse Bool := return (← s.imposed.get h).entailed

def allSatisfied (s : Store) : Except Misuse Bool :=
  s.imposed.toList.allM (·.propagator.satisfied s.domains)

def entailedHandles (s : Store) : List Handle :=
  s.imposed.keys.filter fun h => (s.imposed.get? h).any (·.entailed)

def rehearse (s : Store) (h : Handle) (step : Step Unit) : Except Misuse (Reply (Outcome Unit)) := do
  let r ← step.start h s.domains
  return ⟨r, { s with domains := r.domains }, []⟩

end Store

end DomainPropagation
