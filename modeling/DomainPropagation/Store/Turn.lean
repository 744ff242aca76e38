import DomainPropagation.Store.Basic

/-! Turns of propagation: propagators that watch the latest changes become due, and the first that is
due is run. -/

namespace DomainPropagation

namespace Store

def wake (s : Store) : Except Misuse Store := do
  let (events, pending) := s.domains.pending.drain
  let due ← events.mapM fun (e, x) => s.watchers.affected e x
  scheduleAll { s with domains := { s.domains with pending } } due.flatten

def entail (s : Store) (h : Handle) (p : Propagator) : Except Misuse (Reply Unit) := do
  let s ← s.wireAll h p.detach
  let imposed := s.imposed.modify h ({ · with entailed := true })
  let s := { s with imposed, entailments := s.entailments.push h, live := s.live - 1 }
  return ⟨(), s, [.entailed p.description s.level]⟩

/-- After a failure nothing is due and nothing is pending, but the domains stay as they are. -/
def fail (s : Store) (p : Propagator) (x : Var) : Except Misuse (Reply Unit) := do
  let weights ← if s.options.trackWeights then p.blamed.foldlM (·.increase ·) s.weights else pure s.weights
  let domains := { s.domains with pending := s.domains.pending.clear }
  return ⟨(), { s with agenda := s.agenda.clear, domains, weights }, [.emptied p.description x]⟩

inductive Turn
  | idle
  | ran
  | failed (c : Conflict)

def runPropagator (s : Store) (h : Handle) : Except Misuse (Reply Turn) := do
  let i ← s.imposed.get h
  if i.entailed then .error (.entailedButScheduled h)
  else
    let r ← i.propagator.step.start h s.domains
    let s := { s with domains := r.domains }
    let log := [.ran i.propagator.description]
    match r.result with
    | .error w =>
      let f ← s.fail i.propagator w.var
      return ⟨.failed ⟨h, w.var⟩, f.store, log ++ f.log⟩
    | .ok () =>
      if r.entailed then
        let e ← s.entail h i.propagator
        return ⟨.ran, e.store, log ++ e.log⟩
      else return ⟨.ran, s, log⟩

def turn (s : Store) : Except Misuse (Reply Turn) := do
  let s ← s.wake
  match s.agenda.pop? with
  | none => return ⟨.idle, s, []⟩
  | some (h, agenda) => runPropagator { s with agenda } h

end Store

end DomainPropagation
