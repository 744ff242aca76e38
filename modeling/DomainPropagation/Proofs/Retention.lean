import DomainPropagation.Proofs.Confluence

/-! What is due is not forgotten before its level is left. A propagator that is due at some level is run to its
end by every later propagation that succeeds, whatever else is imposed and undone meanwhile, as long as no return
goes below that level; and only so long. -/

namespace DomainPropagation

namespace Store

variable {s t : Store} {h : Handle} {p : Propagator} {floor : Nat} {failed : Bool} {o : Options}
  {P : Propagator → Prop}

/-- Runs from one store to another in which only a return to a lower level follows a failure, and never one to
below the floor. -/
inductive Resumes (P : Propagator → Prop) (floor : Nat) (s : Store) : Bool → Store → Prop
  | refl : Resumes P floor s false s
  | perform {failed : Bool} {t : Store} {q : Request} {r : Reply Answer} :
      Resumes P floor s failed t → q.Allowed P t → q.Heeds floor failed → t.perform q = .ok r →
        Resumes P floor s (r.value.failed failed) r.store

theorem Resumes.reachable (ht : Resumes P floor s failed t) (hs : Reachable o P s) : Reachable o P t := by
  induction ht with
  | refl => exact hs
  | perform _ hq _ hr ih => exact ih.perform hq hr

theorem Resumes.minds (ht : Resumes P floor s failed t) (hP : ∀ p, P p → p.Standard) (hs : Reachable o P s)
    (hm : s.Minds h p floor false) : t.Minds h p floor failed := by
  induction ht with
  | refl => exact hm
  | perform ht hq hh hr ih => exact ih.perform ((ht.reachable hs).wellFormed hP) (hq.mono hP) hh hr

/-- What is due is at rest after propagation has succeeded, unless a return went below the level at which it was
due. -/
theorem due_comes_to_rest (hs : Reachable o (Propagator.Of Constraint.Default) s) (hd : h ∈ s.agenda.toList)
    (ht : Resumes (Propagator.Of Constraint.Default) s.level s false t) :
    ∃ r i, t.propagate = .ok r ∧ r.store.imposed.get? h = some i ∧ (r.value = .ok () →
      ∃ e, i.propagator.step.start h r.store.domains = .ok ⟨r.store.domains, e, .ok ()⟩) := by
  have hP : ∀ p : Propagator, p.Of Constraint.Default → p.Standard := fun _ hp => hp.standard
  have hsw := hs.wellFormed hP
  have htr := ht.reachable hs
  have htw := htr.wellFormed hP
  obtain ⟨p, hp⟩ := hsw.due.imposed h hd
  obtain ⟨c, hc, hcp⟩ := hs.imposed hP hp
  have ha : p.Attentive := hcp ▸ c.attentive_propagator hc.attentive
  have hm : t.Minds h p s.level false := ht.minds hP hs (hsw.minds_of_due hp ha hd)
  obtain ⟨r, hr⟩ := htr.propagate_total fun _ hp => ⟨hp.standard, hp.total⟩
  have hrw := htw.propagate hr
  have hrp : r.store.propagator? h = some p := (htw.continues_propagate hr).imposed ▸ hm.imposed
  obtain ⟨i, hi, rfl⟩ := get?_of_propagator? hrp
  refine ⟨r, i, hr, hi, fun hv => ?_⟩
  obtain ⟨hdue, hev⟩ := htw.idle_of_propagate hr hv
  exact (htw.covers_propagate hm.imposed ha (hm.now rfl) hr hv).start_eq hdue hev hrw.domains (hrw.knows hrp)

theorem due_comes_to_rest_above_root : ∃ (s t : Store) (h : Handle) (r : Reply (Except Conflict Unit)) (i : Imposed),
    Reachable {} (Propagator.Of Constraint.Default) s ∧ s.level = 1 ∧ h ∈ s.agenda.toList ∧
    Resumes (Propagator.Of Constraint.Default) s.level s false t ∧ t.propagate = .ok r ∧ r.value = .ok () ∧
    r.store.imposed.get? h = some i ∧
    ∃ e, i.propagator.step.start h r.store.domains = .ok ⟨r.store.domains, e, .ok ()⟩ := by
  let c : Constraint := .greater { serial := ⟨0⟩, var := ⟨0⟩, constant := 0 }
  have h0 : Reachable {} (Propagator.Of Constraint.Default) {} := .refl
  have h1 := h0.perform (q := .newVariable 0 3) ⟨by decide, by decide⟩ rfl
  have h2 := h1.perform (q := .openLevel) trivial rfl
  have h3 := h2.perform (q := .impose c.propagator) (fun _ => ⟨by decide, c, rfl, rfl⟩) rfl
  have hrefl : ∀ {s : Store}, Reachable {} (Propagator.Of Constraint.Default) s →
      Resumes (Propagator.Of Constraint.Default) s.level s false s := fun _ => .refl
  have h4 := (hrefl h3).perform (q := .cut ⟨0⟩ (.atMost 2)) trivial rfl rfl
  have h5 := h4.perform (q := .openLevel) trivial rfl rfl
  have h6 := h5.perform (q := .backtrack 1) trivial (Nat.le_refl 1) rfl
  obtain ⟨s, t, hs, hl, hd, ht, hrun⟩ : ∃ s t, Reachable {} (Propagator.Of Constraint.Default) s ∧ s.level = 1 ∧
      ⟨0⟩ ∈ s.agenda.toList ∧ Resumes (Propagator.Of Constraint.Default) s.level s false t ∧
      (propagateWithin 9 t).any (fun r => decide (r.value = .ok ())) = true :=
    ⟨_, _, h3, rfl, by decide, h6, by decide +kernel⟩
  obtain ⟨r, hr, hv⟩ := exists_propagate hrun
  have hv := of_decide_eq_true hv
  obtain ⟨r', i, hr', hi, hrest⟩ := due_comes_to_rest hs hd ht
  cases hr.symm.trans hr'
  exact ⟨s, t, ⟨0⟩, r, i, hs, hl, hd, ht, hr, hv, hi, hrest hv⟩

/-- What was imposed at a level that has been left stays imposed and active, but nothing makes it due. -/
theorem imposed_above_root_forgotten : ∃ (t : Store) (r : Reply (Except Conflict Unit)) (i : Imposed),
    Resumes (Propagator.Of Constraint.Default) 0 {} false t ∧ t.propagate = .ok r ∧ r.value = .ok () ∧
    r.store.imposed.get? (⟨0⟩ : Handle) = some i ∧ i.entailed = false ∧ r.store.live = 1 ∧
    ¬ ∃ e, i.propagator.step.start ⟨0⟩ r.store.domains = .ok ⟨r.store.domains, e, .ok ()⟩ := by
  let c : Constraint := .greater { serial := ⟨0⟩, var := ⟨0⟩, constant := 5 }
  have h0 : Resumes (Propagator.Of Constraint.Default) 0 {} false {} := .refl
  have h1 := h0.perform (q := .newVariable 0 10) ⟨by decide, by decide⟩ rfl rfl
  have h2 := h1.perform (q := .openLevel) trivial rfl rfl
  have h3 := h2.perform (q := .impose c.propagator) (fun _ => ⟨by decide, c, rfl, rfl⟩) rfl rfl
  have h4 := h3.perform (q := .backtrack 0) trivial (Nat.le_refl 0) rfl
  refine ⟨_, _, _, h4, propagate_of_idle rfl rfl, rfl, rfl, rfl, rfl, ?_⟩
  rintro ⟨e, he⟩
  cases e
  all_goals exact absurd (congrArg (fun o => o.toOption.map Outcome.domains) he) (by decide +kernel)

end Store

end DomainPropagation
