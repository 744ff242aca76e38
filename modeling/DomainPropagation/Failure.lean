import DomainPropagation.Key

/-! The ways in which a request can fail: a domain runs empty, a model is refused, or a caller
breaks a precondition. -/

namespace DomainPropagation

structure Wipeout where
  var : Var
deriving DecidableEq

def Wipeout.message (w : Wipeout) : String :=
  s!"the domain of {w.var} would become empty"

abbrev Status := Except Wipeout Unit

structure Conflict where
  handle : Handle
  var : Var
deriving DecidableEq

def Conflict.message (c : Conflict) : String :=
  s!"{c.handle} emptied the domain of {c.var}"

inductive ModelError
  | emptyDomain
  | unknownVariable (x : Var)
deriving DecidableEq

def ModelError.message : ModelError → String
  | .emptyDomain => "cannot create a variable with an empty domain"
  | .unknownVariable x => s!"{x} does not belong to this store"

/-- A broken precondition. No operation continues after one. -/
inductive Misuse
  | indexOutOfBounds
  | emptyInterval
  | sparseAboveRoot
  | initialAboveRoot
  | levelNotBelow (current target : Nat)
  | backtrackNotBelow (current target : Nat)
  | entailedButScheduled (h : Handle)
deriving DecidableEq

def Misuse.message : Misuse → String
  | .indexOutOfBounds => "index out of bounds"
  | .emptyInterval => "assertion failed"
  | .sparseAboveRoot => "sparse variables can only be created at the root level"
  | .initialAboveRoot => "initial values can only be removed at the root level"
  | .levelNotBelow current target =>
    s!"can only synchronise to a level below the current level {current}, got {target}"
  | .backtrackNotBelow current target =>
    s!"cannot backtrack to level {target} from level {current}"
  | .entailedButScheduled h => s!"{h} is entailed but was scheduled for propagation"

@[simp] theorem ok_bind {ε α β : Type} (a : α) (f : α → Except ε β) : (Except.ok a >>= f) = f a := rfl

theorem bind_eq_ok_iff {ε α β : Type} {r : Except ε α} {f : α → Except ε β} {b : β} :
    (r >>= f) = .ok b ↔ ∃ a, r = .ok a ∧ f a = .ok b := by
  cases r with
  | error e => exact ⟨(nomatch ·), fun ⟨_, h, _⟩ => nomatch h⟩
  | ok a => exact ⟨fun h => ⟨a, rfl, h⟩, fun ⟨_, h, hf⟩ => by cases h; exact hf⟩

theorem map_eq_ok_iff {ε α β : Type} {x : Except ε α} {f : α → β} {b : β} :
    f <$> x = .ok b ↔ ∃ a, x = .ok a ∧ f a = b := by
  cases x with
  | error e => exact ⟨nofun, nofun⟩
  | ok a => simp [Functor.map, Except.map]

theorem exists_ok_of_any {ε α : Type} {r : Except ε α} {f : α → Bool} (h : r.toOption.any f = true) :
    ∃ a, r = .ok a ∧ f a = true := by
  cases r with
  | error e => cases h
  | ok a => exact ⟨a, rfl, h⟩

end DomainPropagation
