import DomainPropagation.Guarded
import DomainPropagation.Store.Basic

/-! New variables with given values, with all accesses and sums checked. The interval around the values is walked
through beside the sorted list of them, and what is not on the list is taken out of it. -/

namespace DomainPropagation

namespace Guarded

def listed (values : List Int) : List Int := values.mergeSort.eraseReps

def visit (listed : List Int) (x : Var) (v : Int) (next : Nat) (s : Domains) : Except Fault (Nat × Written) :=
  match listed[next]? with
  | none => .error (.misuse .indexOutOfBounds)
  | some w => if v = w then .ok (next + 1, s.unchanged) else return (next, ← removeInitial s x v)

def sweep (listed : List Int) (x : Var) : Nat → Int → Nat → Domains → Except Fault Written
  | 0, v, next, s => Prod.snd <$> visit listed x v next s
  | n + 1, v, next, s => do
    let (next, w) ← visit listed x v next s
    match w.status with
    | .ok () => sweep listed x n (← word (v + 1)) next w.domains
    | .error _ => return w

def newSparseVariable (s : Store) (values : List Int) : Except Fault (Reply (Except ModelError Var)) :=
  if s.level = 0 then
    match (listed values).head?, (listed values).getLast? with
    | some lower, some upper =>
      let r := s.newVariable lower upper
      match r.value with
      | .error e => return ⟨.error e, r.store, r.log⟩
      | .ok x => do
        let w ← sweep (listed values) x (upper - lower).toNat lower 0 r.store.domains
        let store := { r.store with domains := w.domains }
        match w.status with
        | .ok () => return ⟨.ok x, store, r.log⟩
        | .error _ => return ⟨.error .emptyDomain, store, r.log⟩
    | _, _ => return ⟨.error .emptyDomain, s, []⟩
  else .error (.misuse .sparseAboveRoot)

end Guarded

end DomainPropagation
