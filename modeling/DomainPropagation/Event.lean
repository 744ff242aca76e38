/-! Domain events, sets of them, and how sensitive a watcher is to them. -/

namespace DomainPropagation

inductive Event
  | assign
  | lower
  | upper
  | removal
deriving DecidableEq

namespace Event

def all : List Event := [.assign, .lower, .upper, .removal]

end Event

structure EventSet where
  assign : Bool := false
  lower : Bool := false
  upper : Bool := false
  removal : Bool := false
deriving DecidableEq

namespace EventSet

def contains (es : EventSet) : Event → Bool
  | .assign => es.assign
  | .lower => es.lower
  | .upper => es.upper
  | .removal => es.removal

instance : Membership Event EventSet := ⟨fun es e => es.contains e = true⟩

instance (e : Event) (es : EventSet) : Decidable (e ∈ es) :=
  inferInstanceAs (Decidable (es.contains e = true))

instance : EmptyCollection EventSet := ⟨{}⟩

def update (es : EventSet) (e : Event) (present : Bool) : EventSet :=
  match e with
  | .assign => { es with assign := present }
  | .lower => { es with lower := present }
  | .upper => { es with upper := present }
  | .removal => { es with removal := present }

def insert (es : EventSet) (e : Event) : EventSet := es.update e true

def erase (es : EventSet) (e : Event) : EventSet := es.update e false

instance : Union EventSet :=
  ⟨fun a b => ⟨a.assign || b.assign, a.lower || b.lower, a.upper || b.upper, a.removal || b.removal⟩⟩

instance : Inter EventSet :=
  ⟨fun a b => ⟨a.assign && b.assign, a.lower && b.lower, a.upper && b.upper, a.removal && b.removal⟩⟩

def ofList (l : List Event) : EventSet := l.foldl insert ∅

def toList (es : EventSet) : List Event := Event.all.filter es.contains

def size (es : EventSet) : Nat := es.toList.length

theorem mem_update {es : EventSet} {e f : Event} {b : Bool} :
    f ∈ es.update e b ↔ if f = e then b = true else f ∈ es := by
  cases e <;> cases f <;> simp [Membership.mem, contains, update]

@[simp] theorem mem_insert {es : EventSet} {e f : Event} : f ∈ es.insert e ↔ f = e ∨ f ∈ es := by
  rw [insert, mem_update]
  split <;> simp_all

@[simp] theorem mem_erase {es : EventSet} {e f : Event} : f ∈ es.erase e ↔ f ≠ e ∧ f ∈ es := by
  rw [erase, mem_update]
  split <;> simp_all

@[simp] theorem not_mem_empty (e : Event) : e ∉ (∅ : EventSet) := by
  cases e <;> simp [Membership.mem, contains, EmptyCollection.emptyCollection]

@[simp] theorem mem_union {a b : EventSet} {e : Event} : e ∈ a ∪ b ↔ e ∈ a ∨ e ∈ b := by
  cases e <;> simp [Membership.mem, contains, Union.union]

@[simp] theorem mem_inter {a b : EventSet} {e : Event} : e ∈ a ∩ b ↔ e ∈ a ∧ e ∈ b := by
  cases e <;> simp [Membership.mem, contains, Inter.inter]

end EventSet

inductive Sensitivity
  | never
  | bounds
  | every
deriving DecidableEq

namespace Sensitivity

def rank : Sensitivity → Nat
  | .never => 0
  | .bounds => 1
  | .every => 2

instance : Ord Sensitivity := ⟨fun a b => compare a.rank b.rank⟩

instance : Max Sensitivity := ⟨fun a b => if a.rank ≤ b.rank then b else a⟩

/-- Fixing a variable always moves a bound, so a watcher of bounds also hears of assignments. -/
def events : Sensitivity → EventSet
  | .never => ∅
  | .bounds => { assign := true, lower := true, upper := true }
  | .every => { assign := true, lower := true, upper := true, removal := true }

end Sensitivity

inductive Mode
  | enforce
  | refute
deriving DecidableEq

end DomainPropagation
