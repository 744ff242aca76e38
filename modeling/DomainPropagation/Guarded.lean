import DomainPropagation.Domains

/-! The operations on domains with all their accesses and sums checked. A flag is read and written only where there
is one, a sum is a 32-bit number, and a search that has to find a value says so when it finds none. -/

namespace DomainPropagation

/-- How an operation can break down. The first four are not for its caller to prevent. -/
inductive Fault
  | noFlag
  | overflow
  | noValue
  | assertion
  | misuse (m : Misuse)
deriving DecidableEq

namespace Guarded

abbrev lift {α : Type} (r : Except Misuse α) : Except Fault α := r.mapError .misuse

def word (v : Int) : Except Fault Int :=
  if minValue ≤ v ∧ v ≤ maxValue then .ok v else .error .overflow

def assert (b : Bool) : Except Fault Unit := if b then .ok () else .error .assertion

def readFlag (d : Domain) (v : Int) : Except Fault Bool :=
  if d.origin ≤ v ∧ d.offset v < d.present.size then .ok (d.flag v) else .error .noFlag

def writeFlag (d : Domain) (v : Int) (b : Bool) : Except Fault Domain :=
  if d.origin ≤ v ∧ d.offset v < d.present.size then .ok (d.setFlag v b) else .error .noFlag

def contains (d : Domain) (v : Int) : Except Fault Bool :=
  if d.lower ≤ v ∧ v ≤ d.upper then readFlag d v else .ok false

def held (d : Domain) : List Int → Except Fault (List Int)
  | [] => .ok []
  | v :: vs => do
    let b ← contains d v
    let vs ← held d vs
    return if b then v :: vs else vs

def values (d : Domain) : Except Fault (List Int) :=
  held d ((List.range (d.upper + 1 - d.lower).toNat).map fun i : Nat => d.lower + i)

def seekUp (d : Domain) : Nat → Int → Except Fault (Option Int)
  | 0, _ => .ok none
  | n + 1, v => do if ← contains d v then return some v else seekUp d n (v + 1)

def seekDown (d : Domain) : Nat → Int → Except Fault (Option Int)
  | 0, _ => .ok none
  | n + 1, v => do if ← contains d v then return some v else seekDown d n (v - 1)

def firstFrom (d : Domain) (v : Int) : Except Fault (Option Int) :=
  seekUp d (d.upper + 1 - max v d.lower).toNat (max v d.lower)

def lastUpTo (d : Domain) (v : Int) : Except Fault (Option Int) :=
  seekDown d (min v d.upper + 1 - d.lower).toNat (min v d.upper)

def leaveLower (d : Domain) (v : Int) : Except Fault Domain :=
  if v = d.lower then do
    match ← firstFrom d (← word (v + 1)) with
    | some lower => return { d with lower }
    | none => .error .noValue
  else .ok d

def leaveUpper (d : Domain) (v : Int) : Except Fault Domain :=
  if v = d.upper then do
    match ← lastUpTo d (← word (v - 1)) with
    | some upper => return { d with upper }
    | none => .error .noValue
  else .ok d

def erase (d : Domain) (v : Int) : Except Fault Domain := do
  let d ← writeFlag d v false
  let d ← leaveLower d v
  leaveUpper d v

def removeInitial (s : Domains) (x : Var) (v : Int) : Except Fault Written :=
  if s.level = 0 then do
    let d ← lift (s.get x)
    if ← contains d v then
      if d.isFixed then return s.refused x
      else
        let new ← erase d v
        return Domains.unchanged { s with table := s.table.modify x fun _ => new }
    else return s.unchanged
  else .error (.misuse .initialAboveRoot)

def cutBelow (s : Domains) (x : Var) (bound : Int) : Except Fault Written := do
  let d ← lift (s.get x)
  if bound ≤ d.lower then return s.unchanged
  else
    match ← firstFrom d bound with
    | none => return s.refused x
    | some lower => lift (s.replace x d { d with lower } none [.lower])

def cutAbove (s : Domains) (x : Var) (bound : Int) : Except Fault Written := do
  let d ← lift (s.get x)
  if d.upper ≤ bound then return s.unchanged
  else
    match ← lastUpTo d bound with
    | none => return s.refused x
    | some upper => lift (s.replace x d { d with upper } none [.upper])

def cutOut (s : Domains) (x : Var) (v : Int) : Except Fault Written := do
  let d ← lift (s.get x)
  if ← contains d v then
    if d.isFixed then return s.refused x
    else
      let new ← erase d v
      let moved := (if v = d.lower then [.lower] else []) ++ if v = d.upper then [.upper] else []
      let w ← lift (s.replace x d new (some v) (.removal :: moved))
      assert (← contains new new.lower)
      assert (← contains new new.upper)
      return w
  else return s.unchanged

def cutAround (s : Domains) (x : Var) (lower upper : Int) : Except Fault Written := do
  let d ← lift (s.get x)
  if (← firstFrom d (max lower d.lower)).any (decide <| · ≤ upper) then
    let w ← cutBelow s x lower
    match w.status with
    | .ok () => cutAbove w.domains x upper
    | .error _ => return w
  else return s.refused x

def cut (s : Domains) (x : Var) : Cut → Except Fault Written
  | .atLeast b => cutBelow s x b
  | .atMost b => cutAbove s x b
  | .without v => cutOut s x v
  | .within l u => cutAround s x l u

def undo (table : Table Var Domain) (c : Change) : Except Fault (Table Var Domain) := do
  let d ← lift (table.get c.var)
  let d : Domain := { d with lower := c.lower, upper := c.upper }
  let d ← match c.removed with
    | none => .ok d
    | some v => writeFlag d v true
  return table.modify c.var fun _ => d

def backTo (s : Domains) (target : Nat) : Except Fault Domains := do
  let (undone, trail) ← lift (s.trail.backTo target)
  return { table := ← undone.foldlM undo s.table, trail, pending := s.pending.clear }

end Guarded

end DomainPropagation
