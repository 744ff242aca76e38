import DomainPropagation.Proofs.Calls
import DomainPropagation.Proofs.Runs

/-! Stores that do not track weights. They do what they would do if they tracked them, but for the weights. -/

namespace DomainPropagation

theorem bind_comm {ε α β γ : Type} {r : Except ε α} {k : α → Except ε γ} {k' : α → Except ε β} {f : β → γ}
    (h : ∀ a, k a = f <$> k' a) : (r >>= k) = f <$> (r >>= k') := by
  cases r with
  | error e => rfl
  | ok a => exact h a

theorem bind_map_comm {ε α α' β γ : Type} {r : Except ε α} {r' : Except ε α'} {g : α → α'} {k : α' → Except ε γ}
    {k' : α → Except ε β} {f : β → γ} (hr : r' = g <$> r) (h : ∀ a, k (g a) = f <$> k' a) :
    (r' >>= k) = f <$> (r >>= k') := by
  subst hr
  cases r with
  | error e => rfl
  | ok a => exact h a

theorem foldlM_comm {ε σ α : Type} {f : σ → σ} {step : σ → α → Except ε σ}
    (h : ∀ s a, step (f s) a = f <$> step s a) (s : σ) (l : List α) : l.foldlM step (f s) = f <$> l.foldlM step s := by
  induction l generalizing s with
  | nil => rfl
  | cons a l ih =>
    rw [List.foldlM_cons, List.foldlM_cons, h]
    cases step s a with
    | error e => rfl
    | ok t => exact ih t

def Reply.onStore {α : Type} (f : Store → Store) (r : Reply α) : Reply α := { r with store := f r.store }

def Weights.zeros (w : Weights) : Weights := ⟨w.table.map fun _ => 0⟩

theorem Weights.zeros_grow (w : Weights) : w.grow.zeros = w.zeros.grow := by
  rw [zeros, grow, grow, mk.injEq, Table.mk.injEq]
  exact Array.map_push ..

theorem Weights.get_zeros {w : Weights} {x : Var} (hx : x.index < w.table.size) : w.zeros.get x = .ok 0 := by
  obtain ⟨n, hn⟩ := Table.lt_size_iff (k := x).1 hx
  exact Table.get_eq_ok_iff.2 (Table.get?_map.trans (congrArg (Option.map _) hn))

theorem Weights.zeros_congr {v w : Weights} (h : v.table.size = w.table.size) : v.zeros = w.zeros := by
  rw [zeros, zeros, mk.injEq, Table.map, Table.map, Table.mk.injEq]
  apply Array.ext
  · rw [Array.size_map, Array.size_map]
    exact h
  · intro i hi hj
    rw [Array.getElem_map, Array.getElem_map]

namespace Store

variable {s t : Store} {h : Handle} {p : Propagator} {k : Nat} {q : Request}

/-- The store as it would be without weight tracking. -/
def untracked (s : Store) : Store := { s with options := ⟨false⟩, weights := s.weights.zeros }

theorem schedule_untracked (s : Store) (h : Handle) : s.untracked.schedule h = untracked <$> s.schedule h := by
  rw [schedule, schedule]
  exact bind_comm fun i => bind_comm fun a => rfl

theorem scheduleAll_untracked (s : Store) (hs : List Handle) :
    s.untracked.scheduleAll hs = untracked <$> s.scheduleAll hs := foldlM_comm schedule_untracked s hs

theorem watchAll_untracked (s : Store) (h : Handle) (rs : List (Var × Sensitivity)) :
    s.untracked.watchAll h rs = untracked <$> s.watchAll h rs := by
  rw [watchAll, watchAll]
  exact bind_comm fun w => rfl

theorem wire_untracked (h : Handle) (s : Store) (w : Wiring) : s.untracked.wire h w = untracked <$> s.wire h w := by
  cases w with
  | watch x need =>
    rw [wire, wire]
    exact bind_comm fun w => rfl
  | unwatch x =>
    rw [wire, wire]
    exact bind_comm fun w => rfl
  | schedule => exact schedule_untracked s h
  | count => rfl

theorem wireAll_untracked (s : Store) (h : Handle) (ws : List Wiring) :
    s.untracked.wireAll h ws = untracked <$> s.wireAll h ws := foldlM_comm (wire_untracked h) s ws

theorem wake_untracked (s : Store) : s.untracked.wake = untracked <$> s.wake := by
  rw [wake, wake]
  exact bind_comm fun due => scheduleAll_untracked { s with domains := { s.domains with pending := _ } } due.flatten

theorem entail_untracked (s : Store) (h : Handle) (p : Propagator) :
    s.untracked.entail h p = Reply.onStore untracked <$> s.entail h p := by
  rw [entail, entail]
  exact bind_map_comm (wireAll_untracked s h p.detach) fun t => rfl

theorem fail_untracked (hp : ∀ x ∈ p.blamed, x.index < s.weights.table.size) (x : Var) :
    s.untracked.fail p x = Reply.onStore untracked <$> s.fail p x := by
  have huntracked : s.untracked.fail p x = .ok ⟨(), { s.untracked with
      agenda := s.agenda.clear
      domains := { s.domains with pending := s.domains.pending.clear } }, [.emptied p.description x]⟩ := rfl
  rw [huntracked, fail]
  split
  · obtain ⟨w, hw⟩ := increaseAll_total hp
    rw [hw, untracked, ← Weights.zeros_congr (increaseAll_size hw)]
    rfl
  · rfl

theorem runPropagator_untracked (hp : ∀ i, s.imposed.get? h = some i →
      ∀ x ∈ i.propagator.blamed, x.index < s.weights.table.size) :
    s.untracked.runPropagator h = Reply.onStore untracked <$> s.runPropagator h := by
  rw [runPropagator, runPropagator]
  change (s.imposed.get h >>= _) = _
  cases hi : s.imposed.get h with
  | error m => rfl
  | ok i =>
    rw [ok_bind, ok_bind]
    split
    · rfl
    refine bind_comm fun o => ?_
    obtain ⟨D, e, r⟩ := o
    let t : Store := { s with domains := D }
    cases r with
    | error w =>
      exact bind_map_comm (fail_untracked (s := t) (hp i (Table.get?_of_get hi)) w.var) fun f => rfl
    | ok u =>
      cases e with
      | false => rfl
      | true => exact bind_map_comm (entail_untracked t h i.propagator) fun e => rfl

theorem WellFormed.blamed_lt (hs : s.WellFormed) (ht : ∀ h p, s.propagator? h = some p → p.Total)
    (hp : s.propagator? h = some p) : ∀ x ∈ p.blamed, x.index < s.weights.table.size := by
  intro x hx
  rw [hs.weights]
  exact (hs.attached.standard h p hp).2 x ((ht h p hp).blamed x hx)

theorem WellFormed.turn_untracked (hs : s.WellFormed) (ht : ∀ h p, s.propagator? h = some p → p.Total) :
    s.untracked.turn = Reply.onStore untracked <$> s.turn := by
  rw [Store.turn, Store.turn]
  cases hw : s.wake with
  | error m =>
    rw [wake_untracked, hw]
    rfl
  | ok w =>
    obtain ⟨hwf, -, -, heq⟩ := hs.woken hw
    have hagenda : w.untracked.agenda = w.agenda := rfl
    have hw' : s.untracked.wake = .ok w.untracked := by
      rw [wake_untracked, hw]
      rfl
    rw [hw', ok_bind, ok_bind, hagenda]
    cases w.agenda.pop? with
    | none => rfl
    | some p =>
      obtain ⟨h, a⟩ := p
      refine runPropagator_untracked (s := { w with agenda := a }) fun i hi => ?_
      refine hwf.blamed_lt (fun g p hp => ht g p ?_) (propagator?_of_get? hi)
      rw [heq] at hp
      exact hp

theorem WellFormed.propagate_untracked (hs : s.WellFormed) (ht : ∀ h p, s.propagator? h = some p → p.Total) :
    s.untracked.propagate = Reply.onStore untracked <$> s.propagate := by
  induction s using propagate.induct with
  | case1 s m h =>
    rw [propagate_eq, propagate_eq, hs.turn_untracked ht, h]
    rfl
  | case2 s t log h =>
    rw [propagate_eq, propagate_eq, hs.turn_untracked ht, h]
    rfl
  | case3 s c t log h =>
    rw [propagate_eq, propagate_eq, hs.turn_untracked ht, h]
    rfl
  | case4 s t log h ih =>
    have hcont := hs.continues_turn h
    have hturn : s.untracked.turn = .ok ⟨.ran, t.untracked, log⟩ := by
      rw [hs.turn_untracked ht, h]
      rfl
    rw [propagate_of_ran hturn, propagate_of_ran h, ih (hs.turn h) (hcont.imposed ▸ ht)]
    cases t.propagate <;> rfl

theorem impose_untracked (s : Store) (p : Propagator) :
    s.untracked.impose p = Reply.onStore untracked <$> s.impose p := by
  have hdomains : s.untracked.domains = s.domains := rfl
  rw [impose, impose, hdomains]
  cases p.scope.find? fun x => s.domains.count ≤ x.index with
  | some x => rfl
  | none => exact bind_map_comm (wireAll_untracked { s with imposed := s.imposed.push ⟨p, false⟩ } _ _) fun t => rfl

theorem openLevel_untracked (s : Store) : s.untracked.openLevel = untracked <$> s.openLevel := by
  rw [openLevel, openLevel]
  refine bind_map_comm (wake_untracked s) fun w => ?_
  exact bind_map_comm (scheduleAll_untracked { w with agenda := w.agenda.clear } _) fun t => rfl

theorem reinstate_untracked (s : Store) (h : Handle) : s.untracked.reinstate h = untracked <$> s.reinstate h := by
  rw [reinstate, reinstate]
  refine bind_comm fun i => ?_
  exact watchAll_untracked { s with
    imposed := s.imposed.modify h ({ · with entailed := false }), live := s.live + 1 } h i.propagator.registrations

theorem backtrack_untracked (s : Store) (k : Nat) :
    s.untracked.backtrack k = Reply.onStore untracked <$> s.backtrack k := by
  rw [backtrack, backtrack]
  change (if k < s.level then _ else _) = _
  split
  · refine bind_comm fun D => bind_comm fun p => ?_
    obtain ⟨undone, E⟩ := p
    refine bind_map_comm (foldlM_comm reinstate_untracked { s with domains := D, entailments := E } undone) fun t => ?_
    exact bind_map_comm (scheduleAll_untracked { t with agenda := t.agenda.clear, suspended := _ } _) fun t => rfl
  · rfl

theorem addDomain_untracked (s : Store) (d : Domain) :
    s.untracked.addDomain d = (s.addDomain d).onStore untracked := by
  rw [addDomain, addDomain, Reply.onStore, untracked, untracked, Weights.zeros_grow]

theorem newVariable_untracked (s : Store) (l u : Int) :
    s.untracked.newVariable l u = (s.newVariable l u).onStore untracked := by
  rw [newVariable, newVariable, addDomain_untracked]
  split <;> rfl

theorem newSparseVariable_untracked (s : Store) (vs : List Int) :
    s.untracked.newSparseVariable vs = Reply.onStore untracked <$> s.newSparseVariable vs := by
  rw [newSparseVariable, newSparseVariable]
  change (if s.level = 0 then _ else _) = _
  split
  · cases Domain.ofValues? vs with
    | none => rfl
    | some d =>
      simp only [addDomain_untracked]
      rfl
  · rfl

theorem WellFormed.perform_untracked (hs : s.WellFormed) (ht : ∀ h p, s.propagator? h = some p → p.Total)
    (q : Request) : s.untracked.perform q = Reply.onStore untracked <$> s.perform q := by
  cases q with
  | newVariable l u =>
    rw [Store.perform, newVariable_untracked]
    rfl
  | newSparseVariable vs =>
    rw [Store.perform, newSparseVariable_untracked, Store.perform]
    cases s.newSparseVariable vs <;> rfl
  | newSerial => rfl
  | impose p =>
    rw [Store.perform, impose_untracked, Store.perform]
    cases s.impose p <;> rfl
  | cut x c =>
    have hcut : s.untracked.cut x c = Reply.onStore untracked <$> s.cut x c := by
      rw [Store.cut, Store.cut]
      exact bind_comm fun w => rfl
    rw [Store.perform, hcut, Store.perform]
    cases s.cut x c <;> rfl
  | openLevel =>
    rw [Store.perform, Store.perform]
    exact bind_map_comm (openLevel_untracked s) fun t => rfl
  | backtrack k =>
    rw [Store.perform, backtrack_untracked, Store.perform]
    cases s.backtrack k <;> rfl
  | propagate =>
    rw [Store.perform, hs.propagate_untracked ht, Store.perform]
    cases s.propagate <;> rfl

end Store

end DomainPropagation
