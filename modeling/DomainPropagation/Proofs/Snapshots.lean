import DomainPropagation.Proofs.Turns

/-! Snapshots of a store: its domains, what is entailed and what is due, now or when a lower level was left.
Nothing that happens above a level changes the snapshot that was taken when it was left. -/

namespace DomainPropagation

structure Snapshot where
  domains : Domains
  entailed : List Handle
  due : List Handle

structure Snapshot.Agrees (n : Nat) (a b : Snapshot) : Prop where
  box : ∀ x : Var, x.index < n → b.domains.box x = a.domains.box x
  entailed : b.entailed = a.entailed
  due : b.due = a.due

theorem Snapshot.Agrees.trans {n : Nat} {a b c : Snapshot} (h : a.Agrees n b) (h' : b.Agrees n c) : a.Agrees n c :=
  ⟨fun x hx => (h'.box x hx).trans (h.box x hx), h'.entailed.trans h.entailed, h'.due.trans h.due⟩

namespace Store

variable {s t u : Store} {j k : Nat} {h : Handle} {p : Propagator} {d : Domain} {o : Outcome Unit} {v : Turn}

def now (s : Store) : Snapshot := ⟨s.domains, s.entailments.entries, s.agenda.toList⟩

def left (s : Store) (k : Nat) : Snapshot := ⟨s.domains.lowered k, s.entailments.below k, s.suspendedAt k⟩

/-- The later store is still above a level and can go back to the same snapshot of it, and whatever there was
is still there. -/
structure Remembers (k : Nat) (s t : Store) : Prop where
  level : k < t.level
  count : s.domains.count ≤ t.domains.count
  imposed : ∀ h p, s.propagator? h = some p → t.propagator? h = some p
  left : (s.left k).Agrees s.domains.count (t.left k)

namespace Remembers

theorem refl (hk : k < s.level) : Remembers k s s :=
  ⟨hk, Nat.le_refl _, fun _ _ h => h, fun _ _ => rfl, rfl, rfl⟩

theorem trans (h : Remembers k s t) (h' : Remembers k t u) : Remembers k s u where
  level := h'.level
  count := h.count.trans h'.count
  imposed := fun g p hp => h'.imposed g p (h.imposed g p hp)
  left := h.left.trans ⟨fun x hx => h'.left.box x (hx.trans_le h.count), h'.left.entailed, h'.left.due⟩

theorem of_restored (hk : k < s.level) (hl : t.level = s.level) (hc : t.domains.count = s.domains.count)
    (hi : ∀ h p, s.propagator? h = some p → t.propagator? h = some p)
    (hr : t.domains.restored k = s.domains.restored k) (he : t.entailments.below k = s.entailments.below k)
    (hd : t.suspended = s.suspended) : Remembers k s t where
  level := hk.trans_eq hl.symm
  count := Nat.le_of_eq hc.symm
  imposed := hi
  left := by
    refine ⟨fun x _ => ?_, he, ?_⟩
    · change (t.domains.restored k).box x = (s.domains.restored k).box x
      rw [hr]
    · change t.suspendedAt k = s.suspendedAt k
      rw [suspendedAt, hd, suspendedAt]

end Remembers

theorem WellFormed.remembers_addDomain (hs : s.WellFormed) (hk : k < s.level) (d : Domain) :
    Remembers k s (s.addDomain d).store where
  level := hk
  count := (Nat.le_succ _).trans_eq (Table.size_push ..).symm
  imposed := fun _ _ h => h
  left := by
    refine ⟨fun x hx => ?_, rfl, rfl⟩
    change ((s.domains.add d).restored k).box x = (s.domains.restored k).box x
    rw [hs.domains.restored_add]
    exact Domains.box_push (hx.trans_eq (Domains.size_restored s.domains k).symm)

theorem WellFormed.remembers_shrinks {D : Domains} (hs : s.WellFormed) (hk : k < s.level)
    (hD : s.domains.Shrinks D) : Remembers k s { s with domains := D } :=
  .of_restored hk hD.level hD.count (fun _ _ h => h) (hD.restored hs.domains.trail k) rfl rfl

theorem WellFormed.remembers_wake (hs : s.WellFormed) (hk : k < s.level) (hw : s.wake = .ok t) :
    Remembers k s t := by
  obtain ⟨-, -, -, heq⟩ := hs.woken hw
  rw [heq]
  exact .of_restored hk rfl rfl (fun _ _ h => h) rfl rfl rfl

theorem Ended.remembers (he : Ended h p o u v t) (hu : u.WellFormed) (hp : u.propagator? h = some p)
    (hE : h ∉ u.entailments.entries) (ha : h ∉ u.agenda.toList) (hk : k < u.level) : Remembers k u t := by
  cases he with
  | failed he hf =>
    rw [(hu.fail hf).2]
    exact .of_restored hk rfl rfl (fun _ _ h => h) rfl rfl rfl
  | entailed hk' he hf =>
    obtain ⟨t, ht, -, himp, heq⟩ := hu.entail hp hE ha
    cases hf.symm.trans ht
    have hi : ∀ g q, u.propagator? g = some q → t.propagator? g = some q := fun g q hq => himp ▸ hq
    change Remembers k u t
    rw [heq] at hi ⊢
    exact .of_restored hk rfl rfl hi rfl (hu.trail.below_extend [h]) rfl
  | ran hk' he => exact .refl hk

theorem WellFormed.remembers_turn {r : Reply Turn} (hs : s.WellFormed) (hk : k < s.level)
    (hr : s.turn = .ok r) : Remembers k s r.store := by
  obtain ⟨w, hw, ht⟩ := hs.turn_cases hr
  obtain ⟨hwf, -⟩ := hs.woken hw
  have hsw := hs.remembers_wake hk hw
  generalize r.value = v, r.store = t at ht
  cases ht with
  | idle ha => exact hsw
  | @run h p o u _ _ hruns hend =>
    have hwu : Remembers k w u := by
      rw [hruns.eq]
      exact .of_restored hsw.level hruns.shrinks.level hruns.shrinks.count (fun _ _ h => h)
        (hruns.shrinks.restored hwf.domains.trail k) rfl rfl
    exact (hsw.trans hwu).trans
      (hend.remembers hruns.wellFormed hruns.still_imposed hruns.still_active (hruns.not_due hwf) hwu.level)

theorem WellFormed.remembers_propagate {r : Reply (Except Conflict Unit)} (hs : s.WellFormed)
    (hk : k < s.level) (hr : s.propagate = .ok r) : Remembers k s r.store :=
  (invariant_of_propagate (P := fun t => t.WellFormed ∧ Remembers k s t)
    (fun _ _ ⟨ht, hst⟩ hr => ⟨ht.turn hr, hst.trans (ht.remembers_turn hst.level hr)⟩) hr ⟨hs, .refl hk⟩).2

theorem WellFormed.remembers_openLevel (hs : s.WellFormed) (hk : k < s.level) (ht : s.openLevel = .ok t) :
    Remembers k s t := by
  obtain ⟨w, t', hw, ht', hwf, -, -, heq⟩ := hs.openLevel
  cases ht.symm.trans ht'
  apply (hs.remembers_wake hk hw).trans
  have hk := (hs.remembers_wake hk hw).level
  rw [heq]
  refine ⟨Nat.lt_succ_of_lt hk, Nat.le_refl _, fun _ _ h => h, fun x _ => ?_, ?_, ?_⟩
  · change (w.domains.openLevel.restored k).box x = (w.domains.restored k).box x
    rw [Domains.restored_openLevel hk]
  · exact Trail.below_openLevel (hwf.level ▸ hk)
  · exact suspendedAt_cons (s := w) (hwf.depth ▸ hk) rfl

theorem WellFormed.left_openLevel (hs : s.WellFormed) (ht : s.openLevel = .ok t) :
    t.level = s.level + 1 ∧ t.now.Agrees t.domains.count (t.left s.level) := by
  obtain ⟨w, t', hw, ht', hwf, -, hdue, heq⟩ := hs.openLevel
  cases ht.symm.trans ht'
  rw [← (hs.continues_wake hw).level]
  have hnow : t.now = ⟨w.domains.openLevel, w.entailments.entries, w.agenda.toList⟩ := by
    rw [now, hdue, heq]
    rfl
  rw [hnow, heq]
  refine ⟨rfl, fun x _ => ?_, ?_, ?_⟩
  · change (w.domains.openLevel.restored w.domains.level).box x = w.domains.box x
    rw [Domains.restored_openLevel_level]
    rfl
  · change w.entailments.openLevel.below w.level = _
    rw [← hwf.level]
    exact Trail.below_openLevel_level _
  · rw [← hwf.depth]
    exact suspendedAt_length (s := w) rfl

theorem lt_of_backtrack {r : Reply Unit} (hr : s.backtrack k = .ok r) : k < s.level := by
  rw [backtrack] at hr
  split at hr
  · assumption
  · cases hr

theorem WellFormed.now_backtrack {r : Reply Unit} (hs : s.WellFormed) (hr : s.backtrack k = .ok r) :
    r.store.now = s.left k ∧ r.store.level = k := by
  have hk := lt_of_backtrack hr
  obtain ⟨t, log, ht, -, -, -, hdue, heq⟩ := hs.backtrack hk
  cases hr.symm.trans ht
  refine ⟨?_, (congrArg Store.level heq).trans (Domains.level_lowered hk)⟩
  change Snapshot.mk t.domains t.entailments.entries t.agenda.toList = _
  rw [hdue, heq]
  rfl

theorem WellFormed.remembers_backtrack {r : Reply Unit} (hs : s.WellFormed) (hj : j < k)
    (hr : s.backtrack k = .ok r) : Remembers j s r.store := by
  have hk := lt_of_backtrack hr
  obtain ⟨t, log, ht, -, himp, -, -, heq⟩ := hs.backtrack hk
  cases hr.symm.trans ht
  have hi : ∀ h p, s.propagator? h = some p → t.propagator? h = some p := fun h p hp => himp ▸ hp
  change Remembers j s t
  rw [heq] at hi ⊢
  refine ⟨hj.trans_eq (Domains.level_lowered hk).symm, Nat.le_of_eq (Domains.size_restored s.domains k).symm, hi,
    fun x _ => ?_, ?_, ?_⟩
  · change ((s.domains.lowered k).restored j).box x = (s.domains.restored j).box x
    rw [hs.domains.restored_lowered hj hk]
  · exact hs.trail.below_lowered hj (hs.level ▸ hk)
  · exact suspendedAt_drop (s := s) hj (hs.depth ▸ hk) rfl

theorem WellFormed.remembers_impose {r : Reply (Except ModelError Handle)} (hs : s.WellFormed)
    (hp : s.domains.Knows p.scope → s.imposed.size < wordSize ∧ p.Standard) (hk : k < s.level)
    (hr : s.impose p = .ok r) :
    Remembers k s r.store := by
  rcases hs.impose hp hr with ⟨-, heq⟩ | ⟨-, -, -, -, heq⟩
  · rw [heq]
    exact .refl hk
  · have hi : ∀ h q, s.propagator? h = some q → r.store.propagator? h = some q := by
      intro h q hq
      exact (propagator?_push_eq_some_iff (congrArg Store.imposed heq)).2 (.inr hq)
    rw [heq] at hi ⊢
    exact .of_restored hk rfl rfl hi rfl rfl rfl

end Store

end DomainPropagation
