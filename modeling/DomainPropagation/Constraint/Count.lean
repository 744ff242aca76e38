import DomainPropagation.Assignment
import DomainPropagation.Propagator
import DomainPropagation.Record

/-! The counting constraint: the counter is the number of subjects that take a value. A variable may be
several subjects, and then counts as often; the counter may be a subject itself. -/

namespace DomainPropagation

structure Count where
  serial : Serial
  subjects : List Var
  counter : Var
  value : Int
  sensitivities : Sensitivities := ⟨.every, [], []⟩

namespace Count

def Holds (c : Count) (a : Assignment) : Prop :=
  a c.counter = c.subjects.countP (a · == c.value)

def withSensitivity (c : Count) (x : Var) (need : Sensitivity) : Count :=
  { c with sensitivities := c.sensitivities.set .enforce x need }

def scope (c : Count) : List Var := (c.subjects ++ [c.counter]).eraseDups

def remarks (c : Count) : List Record :=
  if c.subjects.isEmpty then [.countsNothing c.serial] else []

def description (c : Count) : String :=
  let subjects := ", ".intercalate (c.subjects.map toString)
  s!"Count{c.serial} : count({c.value},[{subjects}], {c.counter} )"

/-- How many subjects take the value for certain, and how many may or may not, both counted as values are. -/
def tally (c : Count) (s : Domains) : Except Misuse (Int × Int) := do
  let ds ← c.subjects.mapM s.get
  return (wrap (ds.countP fun d => d.contains c.value && d.isFixed),
    wrap (ds.countP fun d => d.contains c.value && !d.isFixed))

def cutUndecided (c : Count) (cut : Cut) : Step Unit :=
  c.subjects.forM fun x => do
    let d ← Step.ask (·.get x)
    if !d.isFixed && d.contains c.value then Step.restrict x cut

/-- If the counter needs every subject that can take the value, or has no room for one more, then the
undecided subjects are decided. Else the counter is cut to what is still possible. -/
def step (c : Count) : Step Unit := do
  let (sure, maybe) ← Step.ask c.tally
  let able := wrap (sure + maybe)
  let d ← Step.ask (·.get c.counter)
  if able = d.lower then
    c.cutUndecided (.exactly c.value)
    Step.restrict c.counter (.exactly able)
    Step.declareEntailed
  else if sure = d.upper then
    c.cutUndecided (.without c.value)
    Step.restrict c.counter (.exactly sure)
    Step.declareEntailed
  else
    Step.restrict c.counter (.within sure able)

/-- Undecided subjects are taken not to count, so the answer is only final once there are none. -/
def satisfied (c : Count) (s : Domains) : Except Misuse Bool := do
  let d ← s.get c.counter
  if d.isFixed then
    let ds ← c.subjects.mapM s.get
    return (ds.countP (·.isFixedTo c.value) : Int) == d.lower
  else return false

def toPropagator (c : Count) : Propagator where
  name := "Count"
  serial := c.serial
  description := c.description
  scope := c.scope
  sensitivities := c.sensitivities
  priority := .medium
  step := c.step
  satisfied := c.satisfied

end Count

end DomainPropagation
