import DomainPropagation.Slack
import DomainPropagation.Store.Turn

/-! Propagation ends: each turn lowers the slack of the domains, the number of active propagators, or
the length of the agenda, and raises none that comes before the one it lowers. -/

namespace DomainPropagation

namespace Store

theorem schedule_eq {s t : Store} {h : Handle} (hs : s.schedule h = .ok t) :
    t = { s with agenda := t.agenda } := by
  obtain ⟨i, -, hi⟩ := bind_eq_ok_iff.1 hs
  obtain ⟨a, -, ha⟩ := bind_eq_ok_iff.1 hi
  cases ha
  rfl

theorem scheduleAll_eq {hs : List Handle} {s t : Store} (h : s.scheduleAll hs = .ok t) :
    t = { s with agenda := t.agenda } := by
  induction hs generalizing s with
  | nil => cases h; rfl
  | cons p hs ih =>
    rw [scheduleAll, List.foldlM_cons] at h
    obtain ⟨u, hu, ht⟩ := bind_eq_ok_iff.1 h
    rw [ih ht, schedule_eq hu]

theorem wire_eq {s t : Store} {h : Handle} {w : Wiring} (hw : s.wire h w = .ok t) :
    t = { s with watchers := t.watchers, agenda := t.agenda, live := t.live } := by
  cases w with
  | watch x need => obtain ⟨a, -, ha⟩ := bind_eq_ok_iff.1 hw; cases ha; rfl
  | unwatch x => obtain ⟨a, -, ha⟩ := bind_eq_ok_iff.1 hw; cases ha; rfl
  | schedule => rw [schedule_eq hw]
  | count => cases hw; rfl

theorem wireAll_eq {ws : List Wiring} {s t : Store} {h : Handle} (hw : s.wireAll h ws = .ok t) :
    t = { s with watchers := t.watchers, agenda := t.agenda, live := t.live } := by
  induction ws generalizing s with
  | nil => cases hw; rfl
  | cons w ws ih =>
    rw [wireAll, List.foldlM_cons] at hw
    obtain ⟨u, hu, ht⟩ := bind_eq_ok_iff.1 hw
    rw [ih ht, wire_eq hu]

theorem entail_eq {s : Store} {h : Handle} {p : Propagator} {r : Reply Unit} (he : s.entail h p = .ok r) :
    r.store = { s with
      watchers := r.store.watchers
      agenda := r.store.agenda
      imposed := s.imposed.modify h ({ · with entailed := true })
      entailments := s.entailments.push h
      live := r.store.live } := by
  obtain ⟨t, ht, hr⟩ := bind_eq_ok_iff.1 he
  cases hr
  rw [wireAll_eq ht]

theorem wake_eq {s t : Store} (h : s.wake = .ok t) :
    t = { s with domains := { s.domains with pending := s.domains.pending.drain.2 }, agenda := t.agenda } := by
  obtain ⟨due, -, hd⟩ := bind_eq_ok_iff.1 h
  exact scheduleAll_eq hd

theorem agenda_wake {s t : Store} (h : s.wake = .ok t) (hp : s.domains.pending.events = #[]) :
    t.agenda = s.agenda := by
  obtain ⟨due, hd, hs⟩ := bind_eq_ok_iff.1 h
  have : due = [] := by
    simp only [hp, List.mapM_nil] at hd
    cases hd
    rfl
  subst this
  cases hs
  rfl

def active (s : Store) : Nat := s.imposed.sum fun i => if i.entailed then 0 else 1

def effort (s : Store) : Nat × Nat × Nat := (s.domains.slack, s.active, s.agenda.toList.length)

theorem active_entail {s : Store} {h : Handle} {p : Propagator} {i : Imposed} {r : Reply Unit}
    (hi : s.imposed.get h = .ok i) (hn : i.entailed = false) (he : s.entail h p = .ok r) :
    r.store.domains = s.domains ∧ r.store.active < s.active := by
  rw [entail_eq he]
  have := Table.sum_modify hi ({ · with entailed := true }) fun i => if i.entailed then 0 else 1
  refine ⟨rfl, ?_⟩
  simp only [hn, active] at this ⊢
  simp at this
  omega

theorem progress_runPropagator {s : Store} {h : Handle} {r : Reply Turn}
    (hr : s.runPropagator h = .ok r) (hv : r.value = .ran) :
    r.store.domains.slack < s.domains.slack ∨
      r.store.domains = s.domains ∧ (r.store.active < s.active ∨ r.store = s) := by
  obtain ⟨i, hi, hr⟩ := bind_eq_ok_iff.1 hr
  split at hr
  · cases hr
  · next hn =>
    obtain ⟨o, ho, hr⟩ := bind_eq_ok_iff.1 hr
    have hs := Step.run_eq_or_slack_lt ho
    split at hr
    · obtain ⟨f, -, hf⟩ := bind_eq_ok_iff.1 hr
      cases hf
      cases hv
    · split at hr
      · obtain ⟨e, he, hf⟩ := bind_eq_ok_iff.1 hr
        cases hf
        obtain ⟨hd, ha⟩ := active_entail (s := { s with domains := o.domains }) hi (by simpa using hn) he
        simp only at hd ha ⊢
        rcases hs with hs | hs
        · exact .inr ⟨hd.trans hs, .inl ha⟩
        · exact .inl (hd ▸ hs)
      · cases hr
        rcases hs with hs | hs
        · exact .inr ⟨hs, .inr (by simp [hs])⟩
        · exact .inl hs

theorem effort_turn {s : Store} {r : Reply Turn} (h : s.turn = .ok r) (hv : r.value = .ran) :
    Prod.Lex (· < ·) (Prod.Lex (· < ·) (· < ·)) r.store.effort s.effort := by
  obtain ⟨t, ht, hr⟩ := bind_eq_ok_iff.1 h
  have hw := wake_eq ht
  split at hr
  · cases hr
    cases hv
  · next g agenda hp =>
    have hl : t.agenda.toList.length = agenda.toList.length + 1 := by
      simp [Agenda.toList_of_pop? hp]
    have hsum : t.domains.slack = 5 * s.domains.table.sum Domain.slack := by
      rw [hw]
      simp [Domains.slack, Pending.drain]
    have ha : t.active = s.active := by rw [hw]; rfl
    simp only [Prod.lex_def, effort]
    by_cases hz : s.domains.pending.events = #[]
    · have hle : t.domains.slack = s.domains.slack := by rw [hsum]; simp [Domains.slack, hz]
      rw [← agenda_wake ht hz, ← hle, ← ha]
      rcases progress_runPropagator hr hv with hlt | ⟨hd, hlt | he⟩
      · exact .inl hlt
      · exact .inr ⟨by rw [hd], .inl hlt⟩
      · refine .inr ⟨by rw [hd], .inr ⟨by rw [he]; rfl, ?_⟩⟩
        rw [he]
        simp only
        omega
    · have hlt : t.domains.slack < s.domains.slack := by
        have : 0 < s.domains.pending.events.size := Array.size_pos_iff.2 hz
        rw [hsum, Domains.slack]
        omega
      rcases progress_runPropagator hr hv with hr | ⟨hd, -⟩
      · exact .inl (Nat.lt_trans hr hlt)
      · exact .inl (hd ▸ hlt)

end Store

end DomainPropagation
