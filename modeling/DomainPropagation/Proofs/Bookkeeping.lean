import DomainPropagation.Proofs.Constraints
import DomainPropagation.Proofs.Runs

/-! The books of a store agree: who watches, who is due, how many are active, and what is remembered of the lower
levels all fit the marks of entailment, so that no turn and no change of level finds them at odds. -/

namespace DomainPropagation

theorem countP_range {α : Type} (l : List α) (p : α → Bool) :
    (List.range l.length).countP (fun n => l[n]?.any p) = l.countP p := by
  induction l with
  | nil => rfl
  | cons a l ih =>
    rw [List.length_cons, List.range_succ_eq_map, List.countP_cons, List.countP_map, List.countP_cons, ← ih]
    simp [Function.comp_def]

theorem length_eq_countP {α : Type} {l : List α} {p : α → Bool} {ns : List Nat} (hn : ns.Nodup)
    (hp : ∀ n, n ∈ ns ↔ ∃ a, l[n]? = some a ∧ p a = true) : ns.length = l.countP p := by
  have hperm : ns.Perm ((List.range l.length).filter fun n => l[n]?.any p) := by
    refine (List.perm_ext_iff_of_nodup hn (List.nodup_range.filter _)).2 fun n => ?_
    rw [hp, List.mem_filter, List.mem_range, Option.any_eq_true]
    constructor
    · rintro ⟨a, ha, hp⟩
      exact ⟨(List.getElem?_eq_some_iff.1 ha).1, a, ha, hp⟩
    · exact fun h => h.2
  rw [hperm.length_eq, ← List.countP_eq_length_filter, countP_range]

namespace Store

variable {s t : Store} {h : Handle} {i : Imposed} {o : Options} {a : Agenda}

/-- Active propagators watch for what they registered, and only they are due, once each, and counted; what is
remembered of a level was active when the level was left. -/
structure Consistent (s : Store) : Prop where
  watched : ∀ x h e, e ∈ s.watchers.interest x h ↔ ∃ i, s.imposed.get? h = some i ∧ i.entailed = false ∧
    ∃ need, (x, need) ∈ i.propagator.registrations ∧ e ∈ need.events
  once : ∀ x ws, s.watchers.table.get? x = some ws → (ws.map Watcher.handle).Nodup
  due : ∀ h ∈ s.agenda.toList, s.isEntailed h = .ok false
  nodup : s.agenda.toList.Nodup
  live : s.live = s.imposed.toList.countP (!·.entailed)
  level : s.entailments.level = s.domains.level
  depth : s.suspended.length = s.domains.level
  suspended : ∀ k < s.level, ∀ h ∈ s.suspendedAt k, h ∉ s.entailments.below k

theorem Consistent.live_pos (hs : s.Consistent) (hh : h ∈ s.agenda.toList) : 0 < s.live := by
  obtain ⟨i, hi, he⟩ := bind_eq_ok_iff.1 (hs.due h hh)
  have he : i.entailed = false := Except.ok.inj he
  have hi : s.imposed.toList[h.index]? = some i := Array.getElem?_toList.trans (Table.get?_of_get hi)
  rw [hs.live, List.countP_pos_iff]
  exact ⟨i, List.mem_of_getElem? hi, by rw [he]; rfl⟩

theorem WellFormed.active_iff (hs : s.WellFormed) (hi : s.imposed.get? h = some i) :
    i.entailed = false ↔ h ∉ s.entailments.entries := by
  rw [← Bool.not_eq_true, hs.attached.flag h i hi]

theorem WellFormed.length_entailments (hs : s.WellFormed) :
    s.entailments.entries.length = s.imposed.toList.countP (·.entailed) := by
  have hinj : Function.Injective Handle.index := fun g h he => Handle.key_inj.1 he
  refine (List.length_map Handle.index).symm.trans (length_eq_countP (hs.attached.nodup.map hinj) fun n => ?_)
  have hget : s.imposed.toList[n]? = s.imposed.get? (⟨n⟩ : Handle) := Array.getElem?_toList
  rw [hget, List.mem_map]
  constructor
  · rintro ⟨h, hh, rfl⟩
    obtain ⟨i, hi⟩ := Table.lt_size_iff (k := h).1 (hs.attached.known h hh)
    exact ⟨i, hi, (hs.attached.flag h i hi).2 hh⟩
  · rintro ⟨i, hi, he⟩
    exact ⟨⟨n⟩, (hs.attached.flag _ i hi).1 he, rfl⟩

theorem WellFormed.consistent (hs : s.WellFormed) : s.Consistent where
  watched := by
    intro x h e
    rw [hs.attached.interest]
    constructor
    · rintro ⟨hE, p, hp, hx, he⟩
      obtain ⟨i, hi, rfl⟩ := get?_of_propagator? hp
      obtain ⟨hst, -⟩ := hs.attached.standard h _ hp
      refine ⟨i, hi, (hs.active_iff hi).2 hE, i.propagator.need x, ?_, he⟩
      rw [hst.registrations]
      exact List.mem_map_of_mem hx
    · rintro ⟨i, hi, hf, need, hreg, he⟩
      have hp := propagator?_of_get? hi
      obtain ⟨hst, -⟩ := hs.attached.standard h _ hp
      rw [hst.registrations] at hreg
      obtain ⟨y, hy, heq⟩ := List.mem_map.1 hreg
      cases heq
      exact ⟨(hs.active_iff hi).1 hf, i.propagator, hp, hy, he⟩
  once := hs.attached.distinct
  due := by
    intro h hh
    obtain ⟨p, hp⟩ := hs.due.imposed h hh
    obtain ⟨i, hi, -⟩ := get?_of_propagator? hp
    rw [isEntailed, Table.get_eq_ok_iff.2 hi, ok_bind, (hs.active_iff hi).2 (hs.due.active h hh)]
    rfl
  nodup := hs.due.nodup
  live := by
    have hlive := hs.attached.live
    have hlen := hs.length_entailments
    have hsize := List.length_eq_countP_add_countP (·.entailed) (l := s.imposed.toList)
    have hsz : s.imposed.toList.length = s.imposed.size := Array.length_toList
    simp only [Bool.not_eq_true, Bool.decide_eq_false] at hsize
    omega
  level := hs.level
  depth := hs.depth
  suspended := fun k hk => (hs.suspended k hk).active

/-- In every store, and whenever propagation takes its next turn, the books agree; what is run next is active, and
counted until it is entailed; and every change of level succeeds. -/
theorem books_agree (hs : Reachable o Propagator.Standard s) :
    s.Consistent ∧
    (∀ t, Relation.ReflTransGen Ran s t → ∃ w, t.wake = .ok w ∧ w.Consistent ∧
      ∀ h a, w.agenda.pop? = some (h, a) → w.isEntailed h = .ok false ∧ 0 < w.live) ∧
    (∃ t, s.openLevel = .ok t ∧ t.Consistent) ∧
    ∀ k < s.level, ∃ r, s.backtrack k = .ok r ∧ r.store.Consistent := by
  have hs := hs.wellFormed fun _ h => h
  refine ⟨hs.consistent, fun t ht => ?_, ?_, fun k hk => ?_⟩
  · have ht := invariant_of_ran (P := WellFormed) (fun _ _ hs ⟨_, hr⟩ => hs.turn hr) ht hs
    obtain ⟨w, hw, hwf, -⟩ := ht.wake
    refine ⟨w, hw, hwf.consistent, fun h a ha => ?_⟩
    have hh : h ∈ w.agenda.toList := Agenda.toList_of_pop? ha ▸ List.mem_cons_self
    exact ⟨hwf.consistent.due h hh, hwf.consistent.live_pos hh⟩
  · obtain ⟨w, t, -, ht, -, hwf, -⟩ := hs.openLevel
    exact ⟨t, ht, hwf.consistent⟩
  · obtain ⟨t, log, ht, hwf, -⟩ := hs.backtrack hk
    exact ⟨_, ht, hwf.consistent⟩

theorem books_agree_above_root : ∃ s, Reachable {} Propagator.Standard s ∧ s.level = 2 ∧
    s.entailments.entries = [⟨0⟩] ∧ s.agenda.toList = [⟨1⟩] ∧ s.suspended = [[⟨1⟩], [⟨0⟩, ⟨1⟩]] ∧ s.live = 1 ∧
    s.Consistent ∧
    (∀ t, Relation.ReflTransGen Ran s t → ∃ w, t.wake = .ok w ∧ w.Consistent ∧
      ∀ h a, w.agenda.pop? = some (h, a) → w.isEntailed h = .ok false ∧ 0 < w.live) ∧
    (∃ t, s.openLevel = .ok t ∧ t.Consistent) ∧
    ∀ k < s.level, ∃ r, s.backtrack k = .ok r ∧ r.store.Consistent := by
  let g : Greater := { serial := ⟨0⟩, var := ⟨0⟩, constant := 0 }
  let g' : Greater := { serial := ⟨2⟩, var := ⟨1⟩, constant := 0 }
  let qs : List Request := [.newVariable 0 3, .newVariable 0 3, .impose (Constraint.reified ⟨1⟩ g ⟨0⟩).propagator,
    .impose (Constraint.greater g').propagator, .openLevel, .cut ⟨0⟩ (.atLeast 1), .propagate, .cut ⟨1⟩ (.atMost 2),
    .openLevel]
  have hqs : ∀ q ∈ qs, ∀ t : Store, t.HasNames 1 → q.Allowed Propagator.Standard t := by
    simp +contextual [qs, Request.Allowed, minValue, maxValue, Constraint.standard_propagator]
  have h0 : Reachable {} Propagator.Standard {} := .refl
  obtain ⟨s, hs, ht⟩ := exists_leads (n := 9) h0 hqs
    (f := fun s => decide (s.level = 2 ∧ s.entailments.entries = [⟨0⟩] ∧ s.agenda.toList = [⟨1⟩] ∧
      s.suspended = [[⟨1⟩], [⟨0⟩, ⟨1⟩]] ∧ s.live = 1)) (by decide +kernel)
  obtain ⟨hlevel, hent, hdue, hsus, hlive⟩ := of_decide_eq_true ht
  exact ⟨s, hs, hlevel, hent, hdue, hsus, hlive, books_agree hs⟩

end Store

end DomainPropagation
