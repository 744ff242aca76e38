import DomainPropagation.Failure

/-! Trails: a history of entries cut into levels, of which the newest can be taken back. -/

namespace DomainPropagation

/-- `entries` holds the newest first; `marks` holds, again newest first, how many entries there were
when each level below the current one was left. -/
structure Trail (α : Type) where
  entries : List α := []
  marks : List Nat := []
deriving DecidableEq

namespace Trail

variable {α : Type}

def length (t : Trail α) : Nat := t.entries.length

def level (t : Trail α) : Nat := t.marks.length

def push (t : Trail α) (a : α) : Trail α := { t with entries := a :: t.entries }

def openLevel (t : Trail α) : Trail α := { t with marks := t.length :: t.marks }

def backTo (t : Trail α) (target : Nat) : Except Misuse (List α × Trail α) :=
  if target < t.level then
    let marks := t.marks.drop (t.level - target - 1)
    let undone := t.length - marks.headD 0
    .ok (t.entries.take undone, ⟨t.entries.drop undone, marks.tail⟩)
  else .error (.levelNotBelow t.level target)

end Trail

end DomainPropagation
