import DomainPropagation.Cut
import DomainPropagation.Domain
import DomainPropagation.Pending
import DomainPropagation.Trail

/-! The domains of all variables. Every change is recorded on a trail, so that it can be undone when
its level is left, and noted as pending events, so that others can be told of it. -/

namespace DomainPropagation

/-- What a change needs to be undone: the bounds before it, and the value it took out, if any. -/
structure Change where
  var : Var
  lower : Int
  upper : Int
  removed : Option Int
deriving DecidableEq

def Change.revert (c : Change) (d : Domain) : Domain :=
  let d := { d with lower := c.lower, upper := c.upper }
  match c.removed with
  | none => d
  | some v => d.setFlag v true

structure Domains where
  table : Table Var Domain := {}
  trail : Trail Change := {}
  pending : Pending := {}
deriving DecidableEq

structure Written where
  domains : Domains
  status : Status

def Written.andThen (w : Written) (next : Domains → Except Misuse Written) : Except Misuse Written :=
  match w.status with
  | .ok () => next w.domains
  | .error _ => .ok w

namespace Domains

def count (s : Domains) : Nat := s.table.size

def level (s : Domains) : Nat := s.trail.level

def get (s : Domains) (x : Var) : Except Misuse Domain := s.table.get x

def lower (s : Domains) (x : Var) : Except Misuse Int := return (← s.get x).lower

def upper (s : Domains) (x : Var) : Except Misuse Int := return (← s.get x).upper

def contains (s : Domains) (x : Var) (v : Int) : Except Misuse Bool := return (← s.get x).contains v

def isFixed (s : Domains) (x : Var) : Except Misuse Bool := return (← s.get x).isFixed

def isFixedTo (s : Domains) (x : Var) (v : Int) : Except Misuse Bool :=
  return (← s.get x).isFixedTo v

def size (s : Domains) (x : Var) : Except Misuse Nat := return (← s.get x).size

def add (s : Domains) (d : Domain) : Domains :=
  { s with table := s.table.push d, pending := s.pending.grow }

def addInterval (s : Domains) (lower upper : Int) : Except Misuse Domains :=
  if lower ≤ upper then .ok (s.add (.interval lower upper)) else .error .emptyInterval

def unchanged (s : Domains) : Written := ⟨s, .ok ()⟩

def refused (s : Domains) (x : Var) : Written := ⟨s, .error ⟨x⟩⟩

/-- Takes a value out of a starting domain. Nothing can return to before the root level, so this
leaves no record, and it concerns nobody, so it raises no event. -/
def removeInitial (s : Domains) (x : Var) (v : Int) : Except Misuse Written :=
  if s.level = 0 then do
    let d ← s.get x
    if v ∈ d then
      match d.erase? v with
      | none => return s.refused x
      | some new => return unchanged { s with table := s.table.modify x fun _ => new }
    else return s.unchanged
  else .error .initialAboveRoot

def replace (s : Domains) (x : Var) (old new : Domain) (removed : Option Int) (events : List Event) :
    Except Misuse Written := do
  let events := if new.isFixed then events ++ [.assign] else events
  let pending ← events.foldlM (·.note · x) s.pending
  let table := s.table.modify x fun _ => new
  return unchanged { table, trail := s.trail.push ⟨x, old.lower, old.upper, removed⟩, pending }

def cutBelow (s : Domains) (x : Var) (bound : Int) : Except Misuse Written := do
  let d ← s.get x
  if bound ≤ d.lower then return s.unchanged
  else
    match d.firstFrom? bound with
    | none => return s.refused x
    | some lower => s.replace x d { d with lower } none [.lower]

def cutAbove (s : Domains) (x : Var) (bound : Int) : Except Misuse Written := do
  let d ← s.get x
  if d.upper ≤ bound then return s.unchanged
  else
    match d.lastUpTo? bound with
    | none => return s.refused x
    | some upper => s.replace x d { d with upper } none [.upper]

def cutOut (s : Domains) (x : Var) (v : Int) : Except Misuse Written := do
  let d ← s.get x
  if v ∈ d then
    match d.erase? v with
    | none => return s.refused x
    | some new =>
      let moved := (if v = d.lower then [.lower] else []) ++ if v = d.upper then [.upper] else []
      s.replace x d new (some v) (.removal :: moved)
  else return s.unchanged

/-- Both bounds are moved, or neither. -/
def cutAround (s : Domains) (x : Var) (lower upper : Int) : Except Misuse Written := do
  let d ← s.get x
  if (d.firstFrom? lower).any (decide <| · ≤ upper) then
    (← s.cutBelow x lower).andThen (·.cutAbove x upper)
  else return s.refused x

def cut (s : Domains) (x : Var) : Cut → Except Misuse Written
  | .atLeast b => s.cutBelow x b
  | .atMost b => s.cutAbove x b
  | .without v => s.cutOut x v
  | .within l u => s.cutAround x l u

def openLevel (s : Domains) : Domains := { s with trail := s.trail.openLevel }

def undo (table : Table Var Domain) (c : Change) : Table Var Domain :=
  table.modify c.var c.revert

def backTo (s : Domains) (target : Nat) : Except Misuse Domains := do
  let (undone, trail) ← s.trail.backTo target
  return { table := undone.foldl undo s.table, trail, pending := s.pending.clear }

end Domains

end DomainPropagation
