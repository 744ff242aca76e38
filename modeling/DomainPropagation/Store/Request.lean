import DomainPropagation.Store.Backtrack

/-! Requests: all that can be asked of a store from outside, and the stores that this leads to. -/

namespace DomainPropagation

inductive Request
  | newVariable (lower upper : Int)
  | newSparseVariable (values : List Int)
  | newSerial
  | impose (p : Propagator)
  | cut (x : Var) (c : Cut)
  | openLevel
  | backtrack (target : Nat)
  | propagate

inductive Answer
  | variable (r : Except ModelError Var)
  | serial (c : Serial)
  | propagator (r : Except ModelError Handle)
  | cut (status : Status)
  | done
  | propagated (r : Except Conflict Unit)

namespace Store

def perform (s : Store) : Request → Except Misuse (Reply Answer)
  | .newVariable lower upper => .ok ((s.newVariable lower upper).map .variable)
  | .newSparseVariable values => (·.map .variable) <$> s.newSparseVariable values
  | .newSerial => .ok (s.newSerial.map .serial)
  | .impose p => (·.map .propagator) <$> s.impose p
  | .cut x c => (·.map .cut) <$> s.cut x c
  | .openLevel => return ⟨.done, ← s.openLevel, []⟩
  | .backtrack target => (·.map fun () => .done) <$> s.backtrack target
  | .propagate => (·.map .propagated) <$> s.propagate

inductive Leads (ok : Store → Request → Prop) (s : Store) : Store → Prop
  | refl : Leads ok s s
  | perform {t : Store} {q : Request} {r : Reply Answer} :
      Leads ok s t → ok t q → t.perform q = .ok r → Leads ok s r.store

end Store

end DomainPropagation
