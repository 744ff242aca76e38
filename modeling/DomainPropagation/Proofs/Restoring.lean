import DomainPropagation.Proofs.Constraints
import DomainPropagation.Proofs.Runs

/-! Going back to a level restores the store as it was when the level was left, whatever happened since. -/

namespace DomainPropagation

theorem Domains.contains_congr {s t : Domains} {x : Var} (hs : x.index < s.count) (ht : x.index < t.count)
    (hb : t.box x = s.box x) (v : Int) : t.contains x v = s.contains x v := by
  obtain ⟨d, hd⟩ := Table.lt_size_iff (k := x).1 hs
  obtain ⟨e, he⟩ := Table.lt_size_iff (k := x).1 ht
  rw [box_of_get? hd, box_of_get? he] at hb
  have hv : e.contains v = d.contains v := Bool.eq_iff_iff.2 (iff_of_eq (congrArg (v ∈ ·) hb))
  rw [contains, get_eq_ok_iff.2 he, contains, get_eq_ok_iff.2 hd, ok_bind, ok_bind, hv]

namespace Store

variable {s t u : Store} {o : Options}

theorem WellFormed.isEntailed_congr (hs : s.WellFormed) (ht : t.WellFormed) {h : Handle}
    (hsz : h.index < s.imposed.size) (htz : h.index < t.imposed.size)
    (he : h ∈ t.entailments.entries ↔ h ∈ s.entailments.entries) : t.isEntailed h = s.isEntailed h := by
  obtain ⟨i, hi⟩ := Table.lt_size_iff (k := h).1 hsz
  obtain ⟨j, hj⟩ := Table.lt_size_iff (k := h).1 htz
  have hij : j.entailed = i.entailed := by
    rw [Bool.eq_iff_iff, ht.attached.flag h j hj, hs.attached.flag h i hi, he]
  rw [isEntailed, Table.get_eq_ok_iff.2 hj, isEntailed, Table.get_eq_ok_iff.2 hi, ok_bind, ok_bind, hij]

theorem WellFormed.interest_congr (hs : s.WellFormed) (ht : t.WellFormed) {h : Handle}
    (hp : t.propagator? h = s.propagator? h) (he : h ∈ t.entailments.entries ↔ h ∈ s.entailments.entries) (x : Var) :
    t.watchers.interest x h = s.watchers.interest x h := by
  ext e
  rw [ht.attached.interest, hs.attached.interest, Wants, Wants, hp, he]

/-- There is all that there was in an earlier store, and it is as it was there: the values, what is entailed,
who watches what, and the order in which propagators will be run. -/
structure Restores (s t : Store) : Prop where
  values : ∀ x v, x.index < s.domains.count → t.domains.contains x v = s.domains.contains x v
  entailed : ∀ h, h.index < s.imposed.size → t.isEntailed h = s.isEntailed h
  interest : ∀ h x, h.index < s.imposed.size → t.watchers.interest x h = s.watchers.interest x h
  due : t.agenda.toList = s.agenda.toList

theorem WellFormed.restores (hs : s.WellFormed) (ht : t.WellFormed) (hc : s.domains.count ≤ t.domains.count)
    (hi : ∀ h p, s.propagator? h = some p → t.propagator? h = some p)
    (ha : s.now.Agrees s.domains.count t.now) : Restores s t where
  values := fun x v hx => Domains.contains_congr hx (hx.trans_le hc) (ha.box x hx) v
  entailed := by
    intro h hh
    have he : t.entailments.entries = s.entailments.entries := ha.entailed
    exact hs.isEntailed_congr ht hh (hh.trans_le (size_le_of_imposed hi)) (by rw [he])
  interest := by
    intro h x hh
    obtain ⟨i, hget⟩ := Table.lt_size_iff (k := h).1 hh
    have hp := propagator?_of_get? hget
    have he : t.entailments.entries = s.entailments.entries := ha.entailed
    exact hs.interest_congr ht ((hi h _ hp).trans hp.symm) (by rw [he]) x
  due := ha.due

/-- A level is left as it is once what awaits an event is woken; and however long a run stays above it, going
back restores what was left, with all propagators imposed since then active. -/
theorem backtrack_restores (hs : Reachable o Propagator.Standard s) :
    ∃ w u, s.wake = .ok w ∧ s.openLevel = .ok u ∧ u.agenda.toList = w.agenda.toList ∧
      ∀ t, Leads (fun t q => q.Allowed Propagator.Standard t ∧ ∀ k, q = .backtrack k → s.level < k) u t →
        ∃ r, t.backtrack s.level = .ok r ∧ Restores u r.store ∧ r.store.level = s.level ∧
          r.store.domains.pending.events = #[] ∧
          r.store.live = u.live + (t.imposed.size - u.imposed.size) := by
  have hs := hs.wellFormed fun _ h => h
  obtain ⟨w, u, hw, hu, hwf, huf, hdue, heq⟩ := hs.openLevel
  refine ⟨w, u, hw, hu, hdue, fun t ht => ?_⟩
  obtain ⟨hul, hleft⟩ := hs.left_openLevel hu
  have hut := leads_remembers huf (hul.symm ▸ Nat.lt_succ_self _) ht
  have htf := leads_wellFormed huf (ht.mono fun _ _ h => h.1)
  obtain ⟨v, log, hv, hvf, himp, hsize, -, hveq⟩ := htf.backtrack hut.level
  obtain ⟨hnow, hlevel⟩ := htf.now_backtrack hv
  have hcount : t.domains.count = v.domains.count := by
    rw [hveq]
    exact (Domains.size_restored t.domains s.level).symm
  have hi : ∀ h p, u.propagator? h = some p → v.propagator? h = some p :=
    fun h p hp => himp ▸ hut.imposed h p hp
  have hagree : u.now.Agrees u.domains.count v.now := hnow ▸ hleft.trans hut.left
  refine ⟨⟨(), v, log⟩, hv, huf.restores hvf (hut.count.trans_eq hcount) hi hagree, hlevel, ?_, ?_⟩
  · rw [hveq]
    rfl
  · have hvl := hvf.attached.live
    have hul := huf.attached.live
    have hle := size_le_of_imposed hut.imposed
    have he : v.entailments.entries = u.entailments.entries := hagree.entailed
    rw [he] at hvl
    change v.live = _
    omega

theorem backtrack_restores_nested : ∃ (s u v t : Store) (q : Reply (Except Conflict Unit)) (e : Conflict)
    (r : Reply Unit), let ok := fun (t : Store) (q : Request) => q.Allowed Propagator.Standard t ∧
      ∀ k, q = .backtrack k → s.level < k
    Reachable {} Propagator.Standard s ∧ s.domains.pending.events ≠ #[] ∧ s.agenda.toList = [] ∧
    (s.openLevel = .ok u ∧ u.agenda.toList = [⟨1⟩] ∧ u.isEntailed ⟨1⟩ = .ok false) ∧
    (Leads ok u v ∧ v.level = 2 ∧ v.propagate = .ok q ∧ q.value = .error e) ∧
    (Leads ok q.store t ∧ t.level = 1 ∧ t.imposed.size = u.imposed.size + 1 ∧ t.isEntailed ⟨1⟩ = .ok true) ∧
    Leads ok u t ∧ t.backtrack s.level = .ok r ∧ Restores u r.store ∧ r.store.agenda.toList = [⟨1⟩] ∧
    r.store.isEntailed ⟨1⟩ = .ok false ∧ r.store.live = u.live + 1 := by
  -- An event is pending when the level is opened. Above it a constraint is entailed and then another one fails.
  let g : Greater := { serial := ⟨0⟩, var := ⟨0⟩, constant := 0 }
  let g' : Greater := { serial := ⟨1⟩, var := ⟨1⟩, constant := 0 }
  let g'' : Greater := { serial := ⟨3⟩, var := ⟨0⟩, constant := 2 }
  let before : List Request := [.newVariable 0 3, .newVariable (-2) 2, .newVariable 0 1,
    .impose (Constraint.greater g).propagator, .impose (Constraint.reified ⟨2⟩ g' ⟨2⟩).propagator, .propagate,
    .cut ⟨1⟩ (.atLeast (-1))]
  let above : List Request := [.cut ⟨1⟩ (.atLeast 1), .propagate, .openLevel,
    .impose (Constraint.greater g'').propagator, .cut ⟨0⟩ (.atMost 2)]
  let after : List Request := [.newVariable 4 5, .backtrack 1, .cut ⟨0⟩ (.without 2)]
  have hbefore : ∀ q ∈ before, ∀ t : Store, t.HasNames 1 → q.Allowed Propagator.Standard t := by
    simp +contextual [before, Request.Allowed, minValue, maxValue, Constraint.standard_propagator]
  obtain ⟨s, hs, hrun⟩ : ∃ s, Reachable {} Propagator.Standard s ∧
      (decide (s.level = 0 ∧ s.domains.pending.events ≠ #[] ∧ s.agenda.toList = []) &&
      s.openLevel.toOption.any fun u => decide (u.agenda.toList = [⟨1⟩] ∧ u.isEntailed ⟨1⟩ = .ok false) &&
      (above.foldlM (performWithin 9) u).any fun v => decide (v.level = 2) &&
      (propagateWithin 9 v).any fun q => decide (q.value = .error ⟨⟨2⟩, ⟨0⟩⟩) &&
      (after.foldlM (performWithin 9) q.store).any fun t =>
      decide (t.level = 1 ∧ t.imposed.size = u.imposed.size + 1 ∧ t.isEntailed ⟨1⟩ = .ok true)) = true :=
    exists_leads (n := 9) .refl hbefore (by decide +kernel)
  simp only [Bool.and_eq_true, decide_eq_true_eq] at hrun
  obtain ⟨⟨hroot, hpending, hidle⟩, hrun⟩ := hrun
  obtain ⟨u, hu, hrun⟩ := exists_ok_of_any hrun
  simp only [Bool.and_eq_true, decide_eq_true_eq] at hrun
  obtain ⟨⟨hdue, hactive⟩, hrun⟩ := hrun
  let ok := fun (t : Store) (q : Request) => q.Allowed Propagator.Standard t ∧ ∀ k, q = .backtrack k → s.level < k
  have habove : ∀ q ∈ above, ∀ t : Store, t.HasNames 1 → ok t q := by
    simp +contextual [above, ok, Request.Allowed, Constraint.standard_propagator]
  have hafter : ∀ q ∈ after, ∀ t : Store, t.HasNames 1 → ok t q := by
    simp +contextual [after, ok, Request.Allowed, minValue, maxValue, hroot]
  obtain ⟨v, huv, hrun⟩ := exists_leads (n := 9) (.refl : Leads ok u u) habove hrun
  simp only [Bool.and_eq_true, decide_eq_true_eq] at hrun
  obtain ⟨hlevel, hrun⟩ := hrun
  obtain ⟨q, hq, hrun⟩ := exists_propagate hrun
  obtain ⟨he, hrun⟩ := Bool.and_eq_true_iff.1 hrun
  obtain ⟨t, hqt, hrun⟩ := exists_leads (n := 9) (.refl : Leads ok q.store q.store) hafter hrun
  obtain ⟨hone, hsize, hentailed⟩ := of_decide_eq_true hrun
  have huq : Leads ok u q.store := huv.perform (q := .propagate) ⟨trivial, by simp⟩ (perform_propagate hq)
  have hut : Leads ok u t := huq.trans hqt
  obtain ⟨w, u', -, hu', -, hback⟩ := backtrack_restores hs
  cases hu.symm.trans hu'
  obtain ⟨r, hr, hrestores, -, -, hlive⟩ := hback t hut
  rw [hsize, Nat.add_sub_cancel_left] at hlive
  have hknown : (⟨1⟩ : Handle).index < u.imposed.size := by
    obtain ⟨i, hi, -⟩ := bind_eq_ok_iff.1 hactive
    exact Table.lt_size_iff.2 ⟨i, Table.get?_of_get hi⟩
  exact ⟨s, u, v, t, q, _, r, hs, hpending, hidle, ⟨hu, hdue, hactive⟩, ⟨huv, hlevel, hq, of_decide_eq_true he⟩,
    ⟨hqt, hone, hsize, hentailed⟩, hut, hr, hrestores, hrestores.due.trans hdue,
    (hrestores.entailed _ hknown).trans hactive, hlive⟩

end Store

end DomainPropagation
