import DomainPropagation.Proofs.Bookkeeping
import DomainPropagation.Proofs.Outcomes
import DomainPropagation.Proofs.Restoring
import DomainPropagation.Proofs.Waking

/-! What a conflict leaves behind. It names the propagator that has failed and a variable of its scope; nothing is
due or pending any more, and what has been entailed on the way comes back with the lower levels. -/

namespace DomainPropagation

theorem Greater.linked_of_ne {g : Greater} {b x : Var} {B : Box} (hx : x ≠ g.var) (hb : x ≠ b) :
    g.linked b B x = B x := by
  have hB : bounded b B x = B x := Box.restrict_of_ne hb
  rw [linked]
  split_ifs
  · rw [Box.restrict_of_ne hx, hB]
  · rw [Box.restrict_of_ne hx, hB]
  · rw [Box.restrict_of_ne hb, hB]
  · rw [Box.restrict_of_ne hb, hB]
  · exact hB

namespace Constraint

variable {B : Box} {s : Domains} {x : Var} {h : Handle} {o : Outcome Unit} {w : Wipeout}

theorem filter_of_not_mem_scope (k : Constraint) (hx : x ∉ k.scope) : k.filter B x = B x := by
  cases k with
  | count c =>
    apply Count.filter_of_not_undecided
    · exact fun he => hx (he ▸ Count.counter_mem_scope)
    · exact fun hu => hx (Count.mem_scope_of_mem_subjects hu.1)
  | greater g => exact Box.restrict_of_ne fun he => hx (he ▸ List.mem_cons_self)
  | reified serial g b =>
    rw [mem_scope_reified, not_or] at hx
    exact Greater.linked_of_ne hx.1 hx.2

theorem filter_empty_of_start (k : Constraint) (hs : s.WellFormed) (hk : s.Knows k.scope)
    (ho : k.propagator.step.start h s = .ok o) (he : o.result = .error w) :
    (s.box w.var).Nonempty ∧ k.filter s.box w.var = ∅ := by
  obtain ⟨o', ho', hend⟩ := k.step_filters hs hk h false
  cases ho.symm.trans ho'
  rcases hend with ⟨hok, -⟩ | ⟨w', herr, hlt, hempty⟩
  · cases hok.symm.trans he
  · cases herr.symm.trans he
    exact ⟨hs.sound.nonempty hlt, hempty⟩

theorem var_of_start (k : Constraint) (hs : s.WellFormed) (hk : s.Knows k.scope)
    (ho : k.propagator.step.start h s = .ok o) (he : o.result = .error w) :
    w.var ∈ k.scope ∧ ∀ c, k = .count c → w.var = c.counter := by
  obtain ⟨hne, hempty⟩ := k.filter_empty_of_start hs hk ho he
  constructor
  · by_contra hx
    rw [k.filter_of_not_mem_scope hx] at hempty
    exact hne.ne_empty hempty
  · rintro c rfl
    by_contra hx
    exact (Count.filter_nonempty_of_ne hx hne).ne_empty hempty

end Constraint

namespace Store

variable {s t u : Store} {c : Conflict} {h : Handle} {k : Nat} {o : Options} {r : Reply (Except Conflict Unit)}

theorem WellFormed.exists_failed (hs : s.WellFormed) (hr : s.propagate = .ok r) (hv : r.value = .error c) :
    ∃ w p o u, s.Continues w ∧ w.WellFormed ∧ w.Runs c.handle p o u ∧ o.result = .error ⟨c.var⟩ ∧
      ∃ f, u.fail p c.var = .ok f ∧ r.store = f.store := by
  obtain ⟨t, hst, ⟨log, hok, -⟩ | ⟨c', log, herr, hturn⟩⟩ := propagate_cases hr
  · cases hok.symm.trans hv
  cases herr.symm.trans hv
  obtain ⟨ht, hcont⟩ : t.WellFormed ∧ s.Continues t :=
    invariant_of_ran (P := fun t => t.WellFormed ∧ s.Continues t)
      (fun _ _ ⟨ht, hst⟩ ⟨_, hr⟩ => ⟨ht.turn hr, hst.trans (ht.continues_turn hr)⟩) hst ⟨hs, .refl s⟩
  obtain ⟨w, hw, hturned⟩ := ht.turn_cases hturn
  obtain ⟨hwf, -⟩ := ht.woken hw
  have hsw := hcont.trans (ht.continues_wake hw)
  generalize r.store = v at hturned
  cases hturned with
  | run hruns hend =>
    cases hend with
    | failed he hf => exact ⟨w, _, _, _, hsw, hwf, hruns, he, _, hf, rfl⟩

theorem WellFormed.of_failed (hs : s.WellFormed) (hr : s.propagate = .ok r) (hv : r.value = .error c) :
    r.store.agenda.toList = [] ∧ r.store.domains.pending.events = #[] ∧ r.store.isEntailed c.handle = .ok false := by
  obtain ⟨w, p, q, u, -, -, hruns, -, f, hf, heq⟩ := hs.exists_failed hr hv
  obtain ⟨hff, hfail⟩ := hruns.wellFormed.fail hf
  have hactive : f.store.isEntailed c.handle = .ok false := by
    refine (hff.active_iff_not_entailed (Q := fun _ => True)).1 ⟨?_, p, ?_, trivial⟩ |>.1
    · rw [hfail]
      exact hruns.still_active
    · rw [hfail]
      exact hruns.still_imposed
  rw [heq]
  refine ⟨?_, ?_, hactive⟩
  · rw [hfail]
    exact Agenda.toList_clear u.agenda
  · rw [hfail]
    rfl

theorem Reachable.blamed (hs : Reachable o (Propagator.Of fun _ => True) s) (hr : s.propagate = .ok r)
    (hv : r.value = .error c) : ∃ p, s.propagator c.handle = .ok p ∧ c.var ∈ p.scope ∧
      ∀ n : Count, p = n.toPropagator → c.var = n.counter := by
  have hwf := hs.wellFormed fun _ => Propagator.Of.standard
  obtain ⟨w, p, q, u, hsw, hw, hruns, hres, -⟩ := hwf.exists_failed hr hv
  have hp : s.propagator? c.handle = some p := hsw.imposed ▸ hruns.imposed
  have hvar : ∀ k : Constraint, k.propagator = p → c.var ∈ p.scope ∧ ∀ n, k = .count n → c.var = n.counter := by
    rintro k rfl
    exact k.var_of_start hw.domains (hw.knows hruns.imposed) hruns.start hres
  obtain ⟨k, -, hk⟩ := hs.imposed (fun _ => Propagator.Of.standard) hp
  obtain ⟨⟨p, e⟩, hi, rfl⟩ := get?_of_propagator? hp
  exact ⟨p, (get?_eq_some_iff.1 hi).1, (hvar k hk).1, fun n hn => (hvar (.count n) hn.symm).2 n rfl⟩

theorem WellFormed.interest_of_entailed (hs : s.WellFormed) (he : s.isEntailed h = .ok true) (x : Var) :
    s.watchers.interest x h = ∅ := by
  obtain ⟨i, hi, he⟩ := bind_eq_ok_iff.1 he
  have hE := (hs.attached.flag h i (Table.get?_of_get hi)).1 (Except.ok.inj he)
  ext e
  rw [hs.attached.interest]
  exact iff_of_false (fun hw => hw.1 hE) (EventSet.not_mem_empty e)

theorem WellFormed.active_of_remembers (hs : s.WellFormed) (hu : u.WellFormed) (hsu : Remembers k s u)
    (hh : s.isEntailed h = .ok false) :
    ∃ b, u.backtrack k = .ok b ∧ b.store.isEntailed h = .ok false ∧
      ∀ x, b.store.watchers.interest x h = s.watchers.interest x h := by
  obtain ⟨i, hi, he⟩ := bind_eq_ok_iff.1 hh
  have hi := Table.get?_of_get hi
  have hE : h ∉ s.entailments.entries := (hs.active_iff hi).1 (Except.ok.inj he)
  obtain ⟨b, log, hb, hbf, himp, -⟩ := hu.backtrack hsu.level
  have hbe : b.entailments.entries = s.entailments.below k :=
    (congrArg Snapshot.entailed (hu.now_backtrack hb).1).trans hsu.left.entailed
  have hEb : h ∉ b.entailments.entries := fun hh => hE (List.mem_of_mem_drop (hbe ▸ hh))
  have hp := propagator?_of_get? hi
  have hbp : b.propagator? h = s.propagator? h := (congrFun himp h).trans ((hsu.imposed h _ hp).trans hp.symm)
  have hlt : h.index < b.imposed.size := lt_size_of_propagator? (hbp.trans hp)
  refine ⟨_, hb, ?_, hs.interest_congr hbf hbp (iff_of_false hEb hE)⟩
  exact (hs.isEntailed_congr hbf (lt_size_of_propagator? hp) hlt (iff_of_false hEb hE)).trans hh

/-- What a conflict says of the store that was propagated, and what it makes of it. However long a run stays above a
level below that of the conflict, going back to it makes active again whoever was active before propagation,
though it may have been entailed on the way to the failure. -/
structure Failed (s : Store) (c : Conflict) (t : Store) : Prop where
  blamed : ∃ p, s.propagator c.handle = .ok p ∧ c.var ∈ p.scope ∧ ∀ n : Count, p = n.toPropagator → c.var = n.counter
  active : t.isEntailed c.handle = .ok false
  due : t.agenda.toList = []
  pending : t.domains.pending.events = #[]
  level : t.level = s.level
  count : t.domains.count = s.domains.count
  within : ∀ x : Var, x.index < s.domains.count → ∃ d e, s.domains.get x = .ok d ∧ t.domains.get x = .ok e ∧
    e.toSet.Nonempty ∧ e.toSet ⊆ d.toSet
  detached : ∀ h, t.isEntailed h = .ok true → ∀ x, t.watchers.interest x h = ∅
  idle : t.propagate = .ok ⟨.ok (), t, []⟩
  reinstated : ∀ h, s.isEntailed h = .ok false → ∀ k < s.level, ∀ u,
    Leads (fun u q => q.Allowed Propagator.Standard u ∧ ∀ j, q = .backtrack j → k < j) t u →
      ∃ b, u.backtrack k = .ok b ∧ b.store.isEntailed h = .ok false ∧
        ∀ x, b.store.watchers.interest x h = s.watchers.interest x h

theorem Continues.within (hst : s.Continues t) (ht : t.WellFormed) {x : Var}
    (hx : x.index < s.domains.count) : ∃ d e, s.domains.get x = .ok d ∧ t.domains.get x = .ok e ∧
      e.toSet.Nonempty ∧ e.toSet ⊆ d.toSet := by
  obtain ⟨d, hd⟩ := Table.lt_size_iff (k := x).1 hx
  have hxt := hx.trans_eq hst.count.symm
  obtain ⟨e, he⟩ := Table.lt_size_iff (k := x).1 hxt
  have hb : t.domains.box x ⊆ s.domains.box x := hst.box x
  have hne : (t.domains.box x).Nonempty := ht.domains.sound.nonempty hxt
  rw [Domains.box_of_get? he] at hb hne
  rw [Domains.box_of_get? hd] at hb
  exact ⟨d, e, Domains.get_eq_ok_iff.2 hd, Domains.get_eq_ok_iff.2 he, hne, hb⟩

theorem failed_of_propagate (hs : Reachable o (Propagator.Of fun _ => True) s) (hr : s.propagate = .ok r)
    (hv : r.value = .error c) : s.Failed c r.store := by
  have hwf := hs.wellFormed fun _ => Propagator.Of.standard
  have hrf := hwf.propagate hr
  have hcont := hwf.continues_propagate hr
  obtain ⟨hdue, hpending, hactive⟩ := hwf.of_failed hr hv
  refine ⟨hs.blamed hr hv, hactive, hdue, hpending, hcont.level, hcont.count, fun x => hcont.within hrf,
    fun h => hrf.interest_of_entailed, propagate_of_idle hpending hdue, fun h hh k hk u hu => ?_⟩
  have hrem := hwf.remembers_propagate hk hr
  have huf := leads_wellFormed hrf (hu.mono fun _ _ h => h.1)
  exact hwf.active_of_remembers huf (hrem.trans (leads_remembers hrf hrem.level hu)) hh

theorem failed_of_propagate_counting : ∃ (s : Store) (r : Reply (Except Conflict Unit)) (b : Reply Unit),
    Reachable {} (Propagator.Of fun _ => True) s ∧ s.level = 1 ∧ s.isEntailed ⟨0⟩ = .ok false ∧
    s.propagate = .ok r ∧ r.value = .error ⟨⟨1⟩, ⟨3⟩⟩ ∧ r.store.isEntailed ⟨0⟩ = .ok true ∧
    s.Failed ⟨⟨1⟩, ⟨3⟩⟩ r.store ∧ r.store.backtrack 0 = .ok b ∧ b.store.isEntailed ⟨0⟩ = .ok false := by
  -- The reified constraint is entailed first, and leaves too few subjects that may be counted.
  let g : Greater := { serial := ⟨0⟩, var := ⟨0⟩, constant := 1 }
  let n : Count := { serial := ⟨2⟩, subjects := [⟨0⟩, ⟨2⟩], counter := ⟨3⟩, value := 1 }
  let qs : List Request := [.newVariable 0 3, .newVariable 1 1, .newVariable 0 1, .newVariable 2 5,
    .impose (Constraint.reified ⟨1⟩ g ⟨1⟩).propagator, .impose (Constraint.count n).propagator, .openLevel]
  have hqs : ∀ q ∈ qs, ∀ t : Store, t.HasNames 1 → q.Allowed (Propagator.Of fun _ => True) t := by
    simp +contextual [qs, Request.Allowed, minValue, maxValue, Propagator.Of]
  have h0 : Reachable {} (Propagator.Of fun _ => True) {} := .refl
  obtain ⟨s, hs, ht⟩ : ∃ s, Reachable {} (Propagator.Of fun _ => True) s ∧
      (decide (s.level = 1 ∧ s.isEntailed ⟨0⟩ = .ok false) && (propagateWithin 3 s).any fun r =>
        decide (r.value = .error ⟨⟨1⟩, ⟨3⟩⟩ ∧ r.store.isEntailed ⟨0⟩ = .ok true)) = true :=
    exists_leads (n := 0) h0 hqs (by decide +kernel)
  rw [Bool.and_eq_true, decide_eq_true_eq] at ht
  obtain ⟨⟨hlevel, hfirst⟩, hrun⟩ := ht
  obtain ⟨r, hr, hrun⟩ := exists_propagate hrun
  obtain ⟨hv, hlast⟩ := of_decide_eq_true hrun
  have hfailed := failed_of_propagate hs hr hv
  obtain ⟨b, hb, hagain, -⟩ := hfailed.reinstated ⟨0⟩ hfirst 0 (by omega) r.store .refl
  exact ⟨s, r, b, hs, hlevel, hfirst, hr, hv, hlast, hfailed, hb, hagain⟩

end Store

end DomainPropagation
