import DomainPropagation.Failure

/-! Agendas: the propagators that are due, each at most once, first by priority and then by the order
in which they became due. -/

namespace DomainPropagation

inductive Priority
  | high
  | medium
  | low
  | veryLow
deriving DecidableEq

namespace Priority

def rank : Priority → Nat
  | .high => 0
  | .medium => 1
  | .low => 2
  | .veryLow => 3

def levels : Nat := 4

theorem rank_lt_levels (p : Priority) : p.rank < levels := by
  cases p <;> decide

end Priority

/-- One lane for each priority, the most urgent first. -/
structure Agenda where
  lanes : List (List Handle)
deriving DecidableEq

namespace Agenda

def withLevels (n : Nat) : Agenda := ⟨List.replicate n []⟩

def toList (a : Agenda) : List Handle := a.lanes.flatten

def contains (a : Agenda) (h : Handle) : Bool := a.lanes.any (·.contains h)

/-- What is already due keeps its place, whatever priority it is asked for again. -/
def push (a : Agenda) (h : Handle) (rank : Nat) : Except Misuse Agenda :=
  if a.contains h then .ok a
  else if rank < a.lanes.length then .ok ⟨a.lanes.modify rank (· ++ [h])⟩
  else .error .indexOutOfBounds

def popLane? : List (List Handle) → Option (Handle × List (List Handle))
  | [] => none
  | [] :: lanes => (popLane? lanes).map fun (h, rest) => (h, [] :: rest)
  | (h :: lane) :: lanes => some (h, lane :: lanes)

def pop? (a : Agenda) : Option (Handle × Agenda) :=
  (popLane? a.lanes).map fun (h, lanes) => (h, ⟨lanes⟩)

def clear (a : Agenda) : Agenda := ⟨a.lanes.map fun _ => []⟩

theorem contains_iff {a : Agenda} {h : Handle} : a.contains h = true ↔ h ∈ a.toList := by
  simp [contains, toList]

theorem toList_clear (a : Agenda) : a.clear.toList = [] := by
  simp [clear, toList]

theorem popLane?_eq (lanes : List (List Handle)) :
    (popLane? lanes).map (fun (h, rest) => h :: rest.flatten) =
      if lanes.flatten = [] then none else some lanes.flatten := by
  induction lanes with
  | nil => rfl
  | cons lane lanes ih =>
    cases lane with
    | nil => simpa [popLane?, Option.map_map, Function.comp_def] using ih
    | cons h lane => simp [popLane?]

theorem toList_of_pop? {a b : Agenda} {h : Handle} (hp : a.pop? = some (h, b)) :
    a.toList = h :: b.toList := by
  obtain ⟨⟨g, rest⟩, hl, he⟩ := Option.map_eq_some_iff.1 hp
  cases he
  have := popLane?_eq a.lanes
  rw [hl] at this
  by_cases hn : a.lanes.flatten = [] <;> simp_all [toList]

end Agenda

end DomainPropagation
