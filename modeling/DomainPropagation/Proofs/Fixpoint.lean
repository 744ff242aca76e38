import DomainPropagation.Proofs.Constraints
import DomainPropagation.Proofs.Coverage

/-! When propagation succeeds nothing is left to do: no step of an imposed propagator changes anything, and
propagating again runs none. -/

namespace DomainPropagation

namespace Store

variable {s t : Store} {c : Snapshot} {h : Handle} {p : Propagator} {floor : Nat} {failed : Bool} {o : Options}
  {P : Propagator → Prop}

theorem wake_of_no_events (hs : s.domains.pending.events = #[]) : s.wake = .ok s := by
  obtain ⟨_, ⟨_, _, ⟨_, events⟩⟩, _, _, _, _, _, _, _, _⟩ := s
  obtain rfl : events = #[] := hs
  rfl

theorem propagate_of_idle (hs : s.domains.pending.events = #[]) (ha : s.agenda.toList = []) :
    s.propagate = .ok ⟨.ok (), s, []⟩ := by
  have ht : s.turn = .ok ⟨.idle, s, []⟩ := by
    rw [turn, wake_of_no_events hs, ok_bind, Agenda.pop?_eq_none_iff.2 ha]
    rfl
  rw [propagate_eq, ht]

theorem Covers.rest (hc : Covers c h p) (hd : c.due = []) (he : c.domains.pending.events = #[]) :
    h ∈ c.entailed ∧ p.Settled h c.domains ∨ h ∉ c.entailed ∧ p.Quiet h c.domains := by
  by_cases hE : h ∈ c.entailed
  · exact .inl ⟨hE, hc.1 hE⟩
  · refine .inr ⟨hE, ?_⟩
    rcases hc.2 hE with hdue | ⟨e, x, hev, -⟩ | hq
    · rw [hd] at hdue
      cases hdue
    · exact absurd (he ▸ hev) (Array.not_mem_empty _)
    · exact hq

theorem Covers.start_eq (hc : Covers c h p) (hd : c.due = []) (he : c.domains.pending.events = #[])
    (hwf : c.domains.WellFormed) (hk : c.domains.Knows p.scope) :
    ∃ e, p.step.start h c.domains = .ok ⟨c.domains, e, .ok ()⟩ := by
  rcases hc.rest hd he with ⟨-, hsettled⟩ | ⟨-, hq⟩
  · exact ⟨true, hsettled c.domains hwf hk fun _ _ => subset_rfl⟩
  · exact ⟨false, hq⟩

theorem Alert.fixpoint (hs : s.Alert floor false) (ha : s.agenda.toList = [])
    (he : s.domains.pending.events = #[]) (hp : s.propagator? h = some p) :
    h ∈ s.entailments.entries ∧ p.Settled h s.domains ∨ h ∉ s.entailments.entries ∧ p.Quiet h s.domains :=
  (hs.now rfl h p hp).rest ha he

theorem Alert.start_eq (hs : s.Alert floor false) (ha : s.agenda.toList = [])
    (he : s.domains.pending.events = #[]) (hp : s.propagator? h = some p) :
    ∃ e, p.step.start h s.domains = .ok ⟨s.domains, e, .ok ()⟩ :=
  (hs.now rfl h p hp).start_eq ha he hs.wellFormed.domains (hs.wellFormed.knows hp)

/-- After propagation succeeds, no step of an imposed propagator changes a domain or fails, and none is run when
the store is propagated again. -/
theorem propagate_reaches_fixpoint (hs : Disciplined o (Propagator.Of Constraint.Attentive) floor false s) :
    ∃ r, s.propagate = .ok r ∧ (r.value = .ok () →
      (∀ h i, r.store.imposed.get? h = some i →
        ∃ e, i.propagator.step.start h r.store.domains = .ok ⟨r.store.domains, e, .ok ()⟩) ∧
      r.store.propagate = .ok ⟨.ok (), r.store, []⟩) := by
  have ha : s.Alert floor false := hs.alert fun p ⟨c, hc, hp⟩ =>
    hp ▸ ⟨c.standard_propagator, c.attentive_propagator hc⟩
  obtain ⟨r, hr⟩ := hs.reachable.propagate_total fun _ hp => ⟨hp.standard, hp.total⟩
  refine ⟨r, hr, fun hv => ?_⟩
  rcases ha.propagate hr with ⟨⟨c, hc⟩, -⟩ | ⟨-, hrs, hdue, hev⟩
  · cases hc.symm.trans hv
  · refine ⟨fun h i hi => ?_, propagate_of_idle hev hdue⟩
    exact hrs.start_eq hdue hev (propagator?_of_get? hi)

theorem propagate_reaches_fixpoint_reified : ∃ (s : Store) (r : Reply (Except Conflict Unit)),
    Disciplined {} (Propagator.Of Constraint.Attentive) 0 false s ∧ s.propagate = .ok r ∧ r.value = .ok () ∧
    r.store.imposed.size = 2 ∧
    (∀ h i, r.store.imposed.get? h = some i →
      ∃ e, i.propagator.step.start h r.store.domains = .ok ⟨r.store.domains, e, .ok ()⟩) ∧
    r.store.propagate = .ok ⟨.ok (), r.store, []⟩ := by
  let g : Greater := ⟨⟨0⟩, ⟨0⟩, 1, ⟨.bounds, [], []⟩⟩
  have hg : (Constraint.greater g).Attentive := nofun
  have hr : (Constraint.reified ⟨1⟩ g ⟨1⟩).Attentive := nofun
  have h0 : Disciplined {} (Propagator.Of Constraint.Attentive) 0 false {} := .new
  have h1 := h0.perform (q := .newVariable 0 3) ⟨by decide, by decide⟩ rfl rfl
  have h2 := h1.perform (q := .newVariable (-2) 2) ⟨by decide, by decide⟩ rfl rfl
  have h3 := h2.perform (q := .impose (Constraint.reified ⟨1⟩ g ⟨1⟩).propagator)
    (fun _ => ⟨by decide, _, hr, rfl⟩) rfl rfl
  have h4 := h3.perform (q := .impose (Constraint.greater g).propagator) (fun _ => ⟨by decide, _, hg, rfl⟩) rfl rfl
  obtain ⟨s, hs, hrun⟩ : ∃ s, Disciplined {} (Propagator.Of Constraint.Attentive) 0 false s ∧
      (propagateWithin 5 s).any (fun r => decide (r.value = .ok () ∧ r.store.imposed.size = 2)) = true :=
    ⟨_, h4, by decide +kernel⟩
  obtain ⟨r, hr, ht⟩ := exists_propagate hrun
  obtain ⟨hv, hsize⟩ := of_decide_eq_true ht
  obtain ⟨r', hr', hfix⟩ := propagate_reaches_fixpoint hs
  cases hr.symm.trans hr'
  exact ⟨s, r, hs, hr, hv, hsize, hfix hv⟩

end Store

end DomainPropagation
