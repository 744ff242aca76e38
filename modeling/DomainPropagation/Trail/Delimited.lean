import DomainPropagation.Failure

/-! Trails with a count of their levels, and with the place where each level ends. -/

namespace DomainPropagation

/-- `entries` holds the oldest first; `ends` holds, again oldest first, how many entries there were when each level
below the current one was left. -/
structure DelimitedTrail (α : Type) where
  level : Nat := 0
  ends : List Nat := []
  entries : List α := []
deriving DecidableEq

namespace DelimitedTrail

variable {α : Type}

def push (t : DelimitedTrail α) (a : α) : DelimitedTrail α := { t with entries := t.entries ++ [a] }

def openLevel (t : DelimitedTrail α) : DelimitedTrail α :=
  { t with level := t.level + 1, ends := t.ends ++ [t.entries.length] }

def drain (entries : List α) (start : Nat) : Except Misuse (List α × List α) :=
  if start ≤ entries.length then .ok ((entries.drop start).reverse, entries.take start) else .error .indexOutOfBounds

def backTo (t : DelimitedTrail α) (target : Nat) : Except Misuse (List α × DelimitedTrail α) :=
  if target < t.level then
    match t.ends[target]? with
    | none => .error .indexOutOfBounds
    | some start => do
      let (undone, entries) ← drain t.entries start
      return (undone, ⟨target, t.ends.take target, entries⟩)
  else .error (.levelNotBelow t.level target)

end DelimitedTrail

end DomainPropagation
