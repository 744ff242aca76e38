import DomainPropagation.Proofs.Entailing

/-! Sizes of tables. Whatever is imposed, there are flags for pending events, a list of watchers and a weight for each
variable, and for nothing else. -/

namespace DomainPropagation

namespace Watchers

variable {w w' : Watchers} {x : Var} {h : Handle} {es : EventSet}

theorem size_set {f : List Watcher → List Watcher}
    (hw : (do return ⟨← w.table.set x (f (← w.table.get x))⟩ : Except Misuse Watchers) = .ok w') :
    w'.table.size = w.table.size := by
  obtain ⟨ws, -, hw⟩ := bind_eq_ok_iff.1 hw
  obtain ⟨T, hT, hw⟩ := bind_eq_ok_iff.1 hw
  cases hw
  rw [(Table.set_eq_ok.1 hT).2, Table.size_modify]

theorem size_watch (hw : w.watch x h es = .ok w') : w'.table.size = w.table.size := by
  rw [watch] at hw
  split at hw
  · cases hw
    rfl
  · exact size_set hw

theorem size_unwatch (hw : w.unwatch x h = .ok w') : w'.table.size = w.table.size := size_set hw

theorem size_foldlM_watch {rs : List (Var × Sensitivity)}
    (hw : rs.foldlM (fun w (x, need) => w.watch x h need.events) w = .ok w') : w'.table.size = w.table.size := by
  induction rs generalizing w with
  | nil =>
    cases hw
    rfl
  | cons r rs ih =>
    obtain ⟨v, hv, hw⟩ := bind_eq_ok_iff.1 hw
    exact (ih hw).trans (size_watch hv)

end Watchers

namespace Store

variable {s t : Store} {h : Handle} {p : Propagator} {k : Nat} {q : Request} {o : Options}

def sizes (s : Store) : Nat × Nat × Nat := (s.domains.count, s.watchers.table.size, s.weights.table.size)

theorem sizes_wire {w : Wiring} (ht : s.wire h w = .ok t) : t.sizes = s.sizes := by
  cases w with
  | watch x need =>
    obtain ⟨w, hw, ht⟩ := bind_eq_ok_iff.1 ht
    cases ht
    rw [sizes, Watchers.size_watch hw]
    rfl
  | unwatch x =>
    obtain ⟨w, hw, ht⟩ := bind_eq_ok_iff.1 ht
    cases ht
    rw [sizes, Watchers.size_unwatch hw]
    rfl
  | schedule => rw [schedule_eq ht, sizes, sizes]
  | count =>
    cases ht
    rfl

theorem sizes_wireAll {ws : List Wiring} (ht : s.wireAll h ws = .ok t) : t.sizes = s.sizes := by
  induction ws generalizing s with
  | nil =>
    cases ht
    rfl
  | cons w ws ih =>
    obtain ⟨u, hu, ht⟩ := bind_eq_ok_iff.1 ht
    exact (ih ht).trans (sizes_wire hu)

theorem sizes_wake (ht : s.wake = .ok t) : t.sizes = s.sizes := by
  rw [wake_eq ht, sizes, sizes, Domains.count, Domains.count]

theorem sizes_entail {r : Reply Unit} (hr : s.entail h p = .ok r) : r.store.sizes = s.sizes := by
  obtain ⟨t, ht, hr⟩ := bind_eq_ok_iff.1 hr
  cases hr
  exact (sizes_wireAll ht :)

theorem sizes_fail {x : Var} {r : Reply Unit} (hr : s.fail p x = .ok r) : r.store.sizes = s.sizes := by
  obtain ⟨hsize, heq⟩ := fail_eq hr
  rw [heq, sizes, hsize]
  rfl

theorem Truthful.sizes_turn {r : Reply Turn} (hs : s.Truthful) (hr : s.turn = .ok r) : r.store.sizes = s.sizes := by
  obtain ⟨w, hw, ⟨-, -, hr⟩ | ⟨h, a, i, o, -, -, ho, he⟩⟩ := turn_cases hr
  · rw [hr, sizes_wake hw]
  obtain ⟨-, hsh⟩ := Step.run_shrinks (hs.wake hw).domains ho
  let u : Store := { w with agenda := a, domains := o.domains }
  have hu : u.sizes = s.sizes := by
    rw [← sizes_wake hw, sizes, hsh.count]
    rfl
  generalize r.value = v, r.store = t at he
  cases he with
  | failed _ hf => exact (sizes_fail hf).trans hu
  | entailed _ _ hr => exact (sizes_entail hr).trans hu
  | ran => exact hu

theorem Truthful.sizes_propagate {r : Reply (Except Conflict Unit)} (hs : s.Truthful) (hr : s.propagate = .ok r) :
    r.store.sizes = s.sizes :=
  (invariant_of_propagate (P := fun t => t.Truthful ∧ t.sizes = s.sizes)
    (fun _ _ ⟨ht, hst⟩ hr => ⟨ht.turn hr, (ht.sizes_turn hr).trans hst⟩) hr ⟨hs, rfl⟩).2

theorem sizes_impose {r : Reply (Except ModelError Handle)} (hr : s.impose p = .ok r) : r.store.sizes = s.sizes := by
  rw [impose] at hr
  split at hr
  · cases hr
    rfl
  · obtain ⟨t, ht, hr⟩ := bind_eq_ok_iff.1 hr
    cases hr
    exact (sizes_wireAll ht :)

theorem sizes_openLevel (ht : s.openLevel = .ok t) : t.sizes = s.sizes := by
  obtain ⟨w, hw, heq⟩ := openLevel_cases ht
  rw [heq, ← sizes_wake hw]
  rfl

theorem sizes_reinstateAll {hs : List Handle} (ht : hs.foldlM reinstate s = .ok t) : t.sizes = s.sizes := by
  induction hs generalizing s with
  | nil =>
    cases ht
    rfl
  | cons g hs ih =>
    obtain ⟨u, hu, ht⟩ := bind_eq_ok_iff.1 ht
    obtain ⟨i, -, hu⟩ := bind_eq_ok_iff.1 hu
    obtain ⟨w, hw, hu⟩ := bind_eq_ok_iff.1 hu
    cases hu
    rw [ih ht, sizes, Watchers.size_foldlM_watch hw]
    rfl

theorem Truthful.sizes_backtrack {r : Reply Unit} (hs : s.Truthful) (hr : s.backtrack k = .ok r) :
    r.store.sizes = s.sizes := by
  have hk := lt_of_backtrack hr
  rw [Store.backtrack, if_pos hk] at hr
  simp only [Domains.backTo_eq hk, Trail.backTo_eq (hs.level ▸ hk), ok_bind] at hr
  obtain ⟨u, hu, hr⟩ := bind_eq_ok_iff.1 hr
  obtain ⟨v, hv, hr⟩ := bind_eq_ok_iff.1 hr
  cases hr
  have hcount : (s.domains.lowered k).count = s.domains.count := Domains.size_restored s.domains k
  have hsizes : u.sizes = s.sizes := (sizes_reinstateAll hu).trans (congrArg (·, _, _) hcount)
  rw [scheduleAll_eq hv]
  exact hsizes

/-- As many variables have flags for pending events, watchers and a weight as have a domain. -/
structure Aligned (s : Store) : Prop where
  seen : s.domains.pending.seen.size = s.domains.count
  watchers : s.watchers.table.size = s.domains.count
  weights : s.weights.table.size = s.domains.count

theorem Aligned.of_sizes (hs : s.Aligned) (ht : t.Truthful) (h : t.sizes = s.sizes) : t.Aligned := by
  obtain ⟨hc, hw, hn⟩ : t.domains.count = s.domains.count ∧ t.watchers.table.size = s.watchers.table.size ∧
      t.weights.table.size = s.weights.table.size := by
    simpa [sizes] using h
  exact ⟨ht.domains.seen, hw.trans (hs.watchers.trans hc.symm), hn.trans (hs.weights.trans hc.symm)⟩

theorem Aligned.addDomain (hs : s.Aligned) (d : Domain) : (s.addDomain d).store.Aligned := by
  have hpush {α : Type} (T : Table Var α) (a : α) (hT : T.size = s.domains.count) :
      (T.push a).size = (s.domains.add d).count := by
    rw [Domains.add, Domains.count, Table.size_push, Table.size_push, hT, Domains.count]
  exact ⟨hpush _ _ hs.seen, hpush _ _ hs.watchers, hpush _ _ hs.weights⟩

theorem Aligned.perform {r : Reply Answer} (hs : s.Aligned) (ht : s.Truthful)
    (hq : q.Allowed (fun _ => True) s) (hr : s.perform q = .ok r) : r.store.Aligned := by
  have htr := ht.perform hq hr
  have h := performed hq hr
  generalize r.value = a, r.store = t at h htr
  cases h with
  | newVariable | newSparseVariable => exact hs.addDomain _
  | noVariable | noSparseVariable => exact hs
  | newSerial => exact hs.of_sizes htr rfl
  | impose hr' => exact hs.of_sizes htr (sizes_impose hr')
  | cut hr' =>
    obtain ⟨w, hw, hr'⟩ := bind_eq_ok_iff.1 hr'
    cases hr'
    have hN := Domains.narrows_of_cut ht.domains hw
    exact hs.of_sizes htr (congrArg (·, _, _) hN.shrinks.count)
  | openLevel ht' => exact hs.of_sizes htr (sizes_openLevel ht')
  | backtrack hr' => exact hs.of_sizes htr (ht.sizes_backtrack hr')
  | propagate hr' => exact hs.of_sizes htr (ht.sizes_propagate hr')

theorem Reachable.aligned (hs : Reachable o (fun _ => True) s) : s.Aligned := by
  induction hs with
  | refl => exact ⟨rfl, rfl, rfl⟩
  | perform hs hq hr ih => exact ih.perform (Reachable.truthful hs) hq hr

end Store

end DomainPropagation
