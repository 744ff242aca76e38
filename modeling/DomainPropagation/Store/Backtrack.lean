import DomainPropagation.Store.Propagate

/-! Levels: changes made after a level was opened are undone by going back below it. -/

namespace DomainPropagation

namespace Store

/-- Opens a level. What is due now is remembered, to be due again when this level is returned to: it is
handed out once and made due anew. -/
def openLevel (s : Store) : Except Misuse Store := do
  let s ← s.wake
  let due := s.agenda.toList
  let s ← scheduleAll { s with agenda := s.agenda.clear } due
  return { s with
    domains := s.domains.openLevel
    entailments := s.entailments.openLevel
    suspended := due :: s.suspended }

def reinstate (s : Store) (h : Handle) : Except Misuse Store := do
  let i ← s.imposed.get h
  let s := { s with imposed := s.imposed.modify h ({ · with entailed := false }), live := s.live + 1 }
  s.watchAll h i.propagator.registrations

/-- Returns to a lower level: its domains, its entailments, and what was due when it was left. What
became due since then is forgotten. -/
def backtrack (s : Store) (target : Nat) : Except Misuse (Reply Unit) :=
  if target < s.level then do
    let log := [.backtracked s.level target s.domains.trail.length]
    let domains ← s.domains.backTo target
    let (undone, entailments) ← s.entailments.backTo target
    let suspended := s.suspended.drop (s.suspended.length - target - 1)
    let s ← undone.foldlM reinstate { s with domains, entailments }
    let s ← scheduleAll { s with agenda := s.agenda.clear, suspended := suspended.tail } (suspended.headD [])
    return ⟨(), s, log⟩
  else .error (.backtrackNotBelow s.level target)

end Store

end DomainPropagation
