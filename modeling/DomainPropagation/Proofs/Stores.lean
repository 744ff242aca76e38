import DomainPropagation.Proofs.Attachment

/-! Well-formed stores. What is due now, and what was due when each lower level was left, is imposed, active
and in order of priority; the levels of domains, entailments and suspended work agree. -/

namespace DomainPropagation

namespace Store

variable {s t : Store} {E l : List Handle} {g h : Handle} {p : Propagator} {d : Domain} {D : Domains}
  {a b : Agenda} {k : Nat}

structure Orderly (s : Store) (E l : List Handle) : Prop where
  nodup : l.Nodup
  imposed : ∀ h ∈ l, ∃ p, s.propagator? h = some p
  active : ∀ h ∈ l, h ∉ E
  sorted : l.Pairwise (s.rank · ≤ s.rank ·)

def suspendedAt (s : Store) (k : Nat) : List Handle :=
  (s.suspended.drop (s.suspended.length - k - 1)).headD []

structure WellFormed (s : Store) : Prop where
  domains : s.domains.WellFormed
  weights : s.weights.table.size = s.domains.count
  attached : s.Attached s.entailments.entries
  filed : s.agenda.Filed s.rank
  due : s.Orderly s.entailments.entries s.agenda.toList
  trail : s.entailments.WellFormed
  level : s.entailments.level = s.level
  depth : s.suspended.length = s.level
  suspended : ∀ k < s.level, s.Orderly (s.entailments.below k) (s.suspendedAt k)

theorem Orderly.of_imposed (hl : s.Orderly E l)
    (hp : ∀ h p, s.propagator? h = some p → t.propagator? h = some p) : t.Orderly E l where
  nodup := hl.nodup
  imposed := by
    intro h hh
    obtain ⟨p, hq⟩ := hl.imposed h hh
    exact ⟨p, hp h p hq⟩
  active := hl.active
  sorted := by
    have hrank : ∀ h ∈ l, t.rank h = s.rank h := by
      intro h hh
      obtain ⟨p, hq⟩ := hl.imposed h hh
      exact rank_congr ((hp h p hq).trans hq.symm)
    refine hl.sorted.imp_of_mem fun hg hh hle => ?_
    rw [hrank _ hg, hrank _ hh]
    exact hle

theorem orderly_nil (s : Store) (E : List Handle) : s.Orderly E [] :=
  ⟨List.nodup_nil, nofun, nofun, .nil⟩

theorem Orderly.scheduleAll (hl : s.Orderly E l) (hf : s.agenda.Filed s.rank) (ha : s.agenda.toList = []) :
    ∃ a, s.scheduleAll l = .ok { s with agenda := a } ∧ a.Filed s.rank ∧ a.toList = l := by
  have happ : s.agenda.toList ++ l = l := by rw [ha, List.nil_append]
  obtain ⟨a, hs, hfa, hla⟩ := scheduleAll_append hf (happ.symm ▸ hl.nodup) hl.imposed (happ.symm ▸ hl.sorted)
  exact ⟨a, hs, hfa, hla.trans happ⟩

theorem wellFormed_new (o : Options) : WellFormed { options := o } where
  domains := Domains.wellFormed_new
  weights := rfl
  attached := by
    have hnone : ∀ h, Store.propagator? { options := o } h = none := fun _ => rfl
    refine ⟨rfl, ?_, fun h p hp => ?_, fun h i hi => ?_, .nil, nofun, fun x h e => ?_, rfl⟩
    · intro x ws hx
      cases hx
    · cases (hnone h).symm.trans hp
    · cases hi
    · apply iff_of_false (EventSet.not_mem_empty e)
      rintro ⟨-, p, hp, -⟩
      cases (hnone h).symm.trans hp
  filed := Agenda.filed_withLevels
  due := orderly_nil _ _
  trail := List.pairwise_singleton _ _
  level := rfl
  depth := rfl
  suspended := nofun

theorem addDomain_value (h : s.domains.count < wordSize) (d : Domain) : (s.addDomain d).value = ⟨s.domains.count⟩ :=
  Var.key_inj.1 (Table.index_nextKey h)

theorem WellFormed.addDomain (hs : s.WellFormed) (hd : d.WellFormed) : (s.addDomain d).store.WellFormed where
  domains := hs.domains.add hd
  weights := (Table.size_push ..).trans ((congrArg (· + 1) hs.weights).trans (Table.size_push ..).symm)
  attached := by
    refine ⟨?_, hs.attached.distinct.grow, fun h p hp => ?_, hs.attached.flag, hs.attached.nodup,
      hs.attached.known, fun x h e => ?_, hs.attached.live⟩
    · exact (Table.size_push ..).trans ((congrArg (· + 1) hs.attached.size).trans (Table.size_push ..).symm)
    · obtain ⟨hst, hk⟩ := hs.attached.standard h p hp
      exact ⟨hst, fun x hx => (Nat.lt_succ_of_lt (hk x hx)).trans_eq (Table.size_push ..).symm⟩
    · exact (Watchers.interest_grow s.watchers x h).symm ▸ hs.attached.interest x h e
  filed := hs.filed
  due := hs.due.of_imposed fun _ _ hp => hp
  trail := hs.trail
  level := hs.level
  depth := hs.depth
  suspended := fun k hk => (hs.suspended k hk).of_imposed fun _ _ hp => hp

theorem WellFormed.withDomains (hs : s.WellFormed) (hD : D.WellFormed) (hc : D.count = s.domains.count)
    (hl : D.level = s.domains.level) : WellFormed { s with domains := D } where
  domains := hD
  weights := hs.weights.trans hc.symm
  attached := hs.attached.congr rfl hc rfl rfl
  filed := hs.filed
  due := hs.due.of_imposed fun _ _ hp => hp
  trail := hs.trail
  level := hs.level.trans hl.symm
  depth := hs.depth.trans hl.symm
  suspended := fun k hk => (hs.suspended k (hk.trans_eq hl)).of_imposed fun _ _ hp => hp

theorem WellFormed.withAgenda (hs : s.WellFormed) (hf : a.Filed s.rank)
    (ha : s.Orderly s.entailments.entries a.toList) : WellFormed { s with agenda := a } where
  domains := hs.domains
  weights := hs.weights
  attached := hs.attached.congr rfl rfl rfl rfl
  filed := hf
  due := ha.of_imposed fun _ _ hp => hp
  trail := hs.trail
  level := hs.level
  depth := hs.depth
  suspended := fun k hk => (hs.suspended k hk).of_imposed fun _ _ hp => hp

theorem WellFormed.withCounters {w : Weights} (hs : s.WellFormed) (hw : w.table.size = s.weights.table.size)
    (c : Supply Serial) : WellFormed { s with weights := w, serials := c } where
  domains := hs.domains
  weights := hw.trans hs.weights
  attached := hs.attached.congr rfl rfl rfl rfl
  filed := hs.filed
  due := hs.due.of_imposed fun _ _ hp => hp
  trail := hs.trail
  level := hs.level
  depth := hs.depth
  suspended := fun k hk => (hs.suspended k hk).of_imposed fun _ _ hp => hp

def Awaits (s : Store) (h : Handle) : Prop :=
  ∃ e x, (e, x) ∈ s.domains.pending.events ∧ s.Wants s.entailments.entries x h e

theorem mapM_affected {w : Watchers} {evs : List (Event × Var)} (hw : w.Distinct)
    (hevs : ∀ e x, (e, x) ∈ evs → x.index < w.table.size) :
    ∃ hss, evs.mapM (fun (e, x) => w.affected e x) = .ok hss ∧
      ∀ h, h ∈ hss.flatten ↔ ∃ e x, (e, x) ∈ evs ∧ e ∈ w.interest x h := by
  induction evs with
  | nil => exact ⟨[], rfl, by simp⟩
  | cons ev evs ih =>
    obtain ⟨e, x⟩ := ev
    obtain ⟨hs, ha, hm⟩ := Watchers.affected_spec hw (hevs e x List.mem_cons_self) e
    obtain ⟨hss, hmap, hmem⟩ := ih fun e x hx => hevs e x (List.mem_cons_of_mem _ hx)
    refine ⟨hs :: hss, ?_, fun h => ?_⟩
    · rw [List.mapM_cons]
      change (w.affected e x >>= _) = _
      rw [ha, ok_bind, hmap]
      rfl
    · rw [List.flatten_cons, List.mem_append, hm, hmem]
      constructor
      · rintro (he | ⟨f, y, hfy, he⟩)
        · exact ⟨e, x, List.mem_cons_self, he⟩
        · exact ⟨f, y, List.mem_cons_of_mem _ hfy, he⟩
      · rintro ⟨f, y, hfy, he⟩
        rcases List.mem_cons.1 hfy with hfy | hfy
        · cases hfy
          exact .inl he
        · exact .inr ⟨f, y, hfy, he⟩

theorem WellFormed.wake (hs : s.WellFormed) :
    ∃ t, s.wake = .ok t ∧ t.WellFormed ∧ t.domains.pending.events = #[] ∧
      (∀ h, h ∈ t.agenda.toList ↔ h ∈ s.agenda.toList ∨ s.Awaits h) ∧
      t = { s with domains := { s.domains with pending := s.domains.pending.drain.2 }, agenda := t.agenda } := by
  have hseen : ∀ e x, (e, x) ∈ s.domains.pending.events.toList → x.index < s.watchers.table.size := by
    intro e x hx
    obtain ⟨es, hes, -⟩ := (hs.domains.pending e x).1 (Array.mem_toList_iff.1 hx)
    rw [hs.attached.size, ← hs.domains.seen]
    exact Table.lt_size_iff.2 ⟨es, hes⟩
  obtain ⟨hss, hmap, hmem⟩ := mapM_affected hs.attached.distinct hseen
  have hawaits : ∀ h, h ∈ hss.flatten ↔ s.Awaits h := by
    intro h
    rw [hmem]
    simp only [hs.attached.interest, Array.mem_toList_iff]
    rfl
  let u : Store := { s with domains := { s.domains with pending := s.domains.pending.drain.2 } }
  have hu : u.WellFormed :=
    hs.withDomains (hs.domains.withPending hs.domains.pending.drain (Pending.size_drain _)) rfl rfl
  have hwants : ∀ h ∈ hss.flatten, h ∉ s.entailments.entries ∧ ∃ p, u.propagator? h = some p := by
    intro h hh
    obtain ⟨e, x, -, hE, p, hp, -⟩ := (hawaits h).1 hh
    exact ⟨hE, p, hp⟩
  obtain ⟨a, ha, hfa, hna, hma⟩ := scheduleAll_spec hu.filed hu.due.nodup fun h hh => (hwants h hh).2
  refine ⟨{ u with agenda := a }, ?_, hu.withAgenda hfa ⟨hna, ?_, ?_, hfa.sorted⟩, rfl, ?_, rfl⟩
  · rw [Store.wake, Pending.drain]
    change (List.mapM _ s.domains.pending.events.toList >>= _) = _
    rw [hmap]
    exact ha
  · intro h hh
    rcases (hma h).1 hh with hh | hh
    · exact hu.due.imposed h hh
    · exact (hwants h hh).2
  · intro h hh
    rcases (hma h).1 hh with hh | hh
    · exact hu.due.active h hh
    · exact (hwants h hh).1
  · intro h
    rw [hma, hawaits]

theorem WellFormed.woken {w : Store} (hs : s.WellFormed) (hw : s.wake = .ok w) :
    w.WellFormed ∧ w.domains.pending.events = #[] ∧
      (∀ h, h ∈ w.agenda.toList ↔ h ∈ s.agenda.toList ∨ s.Awaits h) ∧
      w = { s with domains := { s.domains with pending := s.domains.pending.drain.2 }, agenda := w.agenda } := by
  obtain ⟨t, ht, hspec⟩ := hs.wake
  cases hw.symm.trans ht
  exact hspec

theorem WellFormed.pop (hs : s.WellFormed) (hp : s.agenda.pop? = some (h, b)) :
    WellFormed { s with agenda := b } ∧ s.agenda.toList = h :: b.toList ∧ h ∉ b.toList ∧
      h ∉ s.entailments.entries ∧ ∃ p, s.propagator? h = some p := by
  have hl := Agenda.toList_of_pop? hp
  obtain ⟨hn, hi, ha, ho⟩ := hl ▸ hs.due
  obtain ⟨hh, hn⟩ := List.nodup_cons.1 hn
  refine ⟨hs.withAgenda (hs.filed.pop hp) ⟨hn, ?_, ?_, (List.pairwise_cons.1 ho).2⟩, hl, hh,
    ha h List.mem_cons_self, hi h List.mem_cons_self⟩
  · exact fun g hg => hi g (List.mem_cons_of_mem h hg)
  · exact fun g hg => ha g (List.mem_cons_of_mem h hg)

theorem WellFormed.entail (hs : s.WellFormed) (hp : s.propagator? h = some p) (hE : h ∉ s.entailments.entries)
    (ha : h ∉ s.agenda.toList) :
    ∃ t, s.entail h p = .ok ⟨(), t, [.entailed p.description s.level]⟩ ∧ t.WellFormed ∧
      t.propagator? = s.propagator? ∧
      t = { s with
        watchers := t.watchers
        imposed := s.imposed.modify h ({ · with entailed := true })
        entailments := s.entailments.push h
        live := s.live - 1 } := by
  obtain ⟨t, ht, hat, heq⟩ := hs.attached.entail hp hE
  have himp : t.propagator? = s.propagator? := by
    funext g
    exact propagator?_flag (congrArg Store.imposed heq)
  have hkeep : ∀ g q, s.propagator? g = some q → t.propagator? g = some q := fun g q hq => himp ▸ hq
  refine ⟨t, ht, ?_, himp, heq⟩
  rw [heq] at hat hkeep ⊢
  refine ⟨hs.domains, hs.weights, hat, ?_, ?_, hs.trail.extend [h], hs.level, hs.depth, fun k hk => ?_⟩
  · exact hs.filed.congr fun g hg => by
      obtain ⟨q, hq⟩ := hs.due.imposed g hg
      exact rank_congr ((hkeep g q hq).trans hq.symm)
  · obtain ⟨hn, hi, hact, hso⟩ := hs.due.of_imposed hkeep
    refine ⟨hn, hi, fun g hg => ?_, hso⟩
    refine List.not_mem_cons_of_ne_of_not_mem ?_ (hact g hg)
    rintro rfl
    exact ha hg
  · change Orderly _ ((s.entailments.extend [h]).below k) (s.suspendedAt k)
    rw [hs.trail.below_extend]
    exact (hs.suspended k hk).of_imposed hkeep

theorem increaseAll_size {xs : List Var} {w w' : Weights} (h : xs.foldlM (·.increase ·) w = .ok w') :
    w'.table.size = w.table.size := by
  induction xs generalizing w with
  | nil => cases h; rfl
  | cons x xs ih =>
    obtain ⟨v, hv, h⟩ := bind_eq_ok_iff.1 h
    obtain ⟨n, -, hv⟩ := bind_eq_ok_iff.1 hv
    obtain ⟨u, hu, hv⟩ := bind_eq_ok_iff.1 hv
    cases hv
    rw [ih h, (Table.set_eq_ok.1 hu).2]
    exact Table.size_modify ..

theorem increaseAll_total {xs : List Var} {w : Weights} (h : ∀ x ∈ xs, x.index < w.table.size) :
    ∃ w', xs.foldlM (·.increase ·) w = .ok w' := by
  induction xs generalizing w with
  | nil => exact ⟨w, rfl⟩
  | cons x xs ih =>
    have hx := h x List.mem_cons_self
    obtain ⟨n, hn⟩ := Table.lt_size_iff (k := x).1 hx
    obtain ⟨w', hw'⟩ := ih (w := ⟨w.table.modify x fun _ => n + 1⟩) fun y hy =>
      (h y (List.mem_cons_of_mem x hy)).trans_eq (Table.size_modify ..).symm
    have hinc : w.increase x = .ok ⟨w.table.modify x fun _ => n + 1⟩ := by
      have hset : w.table.set x (n + 1) = .ok (w.table.modify x fun _ => n + 1) := Table.set_eq_ok.2 ⟨hx, rfl⟩
      rw [Weights.increase, Table.get_eq_ok_iff.2 hn, ok_bind, hset]
      rfl
    refine ⟨w', ?_⟩
    rw [List.foldlM_cons, hinc]
    exact hw'

theorem fail_eq {x : Var} {r : Reply Unit} (hr : s.fail p x = .ok r) :
    r.store.weights.table.size = s.weights.table.size ∧ r.store = { s with
      agenda := s.agenda.clear
      domains := { s.domains with pending := s.domains.pending.clear }
      weights := r.store.weights } := by
  rw [Store.fail] at hr
  split at hr
  · obtain ⟨w, hw, hr⟩ := bind_eq_ok_iff.1 hr
    cases hr
    exact ⟨increaseAll_size hw, rfl⟩
  · cases hr
    exact ⟨rfl, rfl⟩

theorem WellFormed.fail {x : Var} {r : Reply Unit} (hs : s.WellFormed) (hr : s.fail p x = .ok r) :
    r.store.WellFormed ∧ r.store = { s with
      agenda := s.agenda.clear
      domains := { s.domains with pending := s.domains.pending.clear }
      weights := r.store.weights } := by
  obtain ⟨hsize, heq⟩ := fail_eq hr
  refine ⟨?_, heq⟩
  rw [heq]
  have hd := hs.withDomains (hs.domains.withPending (Pending.wellFormed_clear _) (Pending.size_clear _)) rfl rfl
  have ha := hd.withAgenda hs.filed.clear (Agenda.toList_clear s.agenda ▸ orderly_nil _ _)
  exact ha.withCounters hsize s.serials

theorem WellFormed.fail_total (hs : s.WellFormed) (hp : ∀ x ∈ p.blamed, x.index < s.domains.count) (x : Var) :
    ∃ r, s.fail p x = .ok r := by
  obtain ⟨w, hw⟩ := increaseAll_total fun y hy => hs.weights ▸ hp y hy
  cases ht : s.options.trackWeights with
  | false => exact ⟨_, by rw [Store.fail, ht]; rfl⟩
  | true => exact ⟨_, by rw [Store.fail, ht, if_pos rfl, hw]; rfl⟩

theorem suspendedAt_cons (hk : k < s.suspended.length) (ht : t.suspended = l :: s.suspended) :
    t.suspendedAt k = s.suspendedAt k := by
  have he : s.suspended.length + 1 - k - 1 = s.suspended.length - k - 1 + 1 := by omega
  rw [suspendedAt, ht, List.length_cons, he]
  rfl

theorem suspendedAt_length (ht : t.suspended = l :: s.suspended) : t.suspendedAt s.suspended.length = l := by
  rw [suspendedAt, ht, List.length_cons, Nat.sub_right_comm, Nat.add_sub_cancel, Nat.sub_self]
  rfl

theorem suspendedAt_drop {j : Nat} (hj : j < k) (hk : k < s.suspended.length)
    (ht : t.suspended = s.suspended.drop (s.suspended.length - k)) : t.suspendedAt j = s.suspendedAt j := by
  rw [suspendedAt, ht, List.length_drop, List.drop_drop, suspendedAt]
  congr 2
  omega

theorem WellFormed.openLevel (hs : s.WellFormed) :
    ∃ w t, s.wake = .ok w ∧ s.openLevel = .ok t ∧ w.WellFormed ∧ t.WellFormed ∧
      t.agenda.toList = w.agenda.toList ∧
      t = { w with
        domains := w.domains.openLevel
        agenda := t.agenda
        entailments := w.entailments.openLevel
        suspended := w.agenda.toList :: w.suspended } := by
  obtain ⟨w, hw, hwf, -, -, -⟩ := hs.wake
  have hdue : Orderly { w with agenda := w.agenda.clear } w.entailments.entries w.agenda.toList :=
    hwf.due.of_imposed fun _ _ hp => hp
  obtain ⟨a, ha, hfa, hla⟩ := hdue.scheduleAll hwf.filed.clear (Agenda.toList_clear w.agenda)
  have hwa := hwf.withAgenda hfa (hla.symm ▸ hwf.due)
  let t : Store := { w with
    domains := w.domains.openLevel
    agenda := a
    entailments := w.entailments.openLevel
    suspended := w.agenda.toList :: w.suspended }
  refine ⟨w, t, hw, ?_, hwf, ?_, hla, rfl⟩
  · rw [Store.openLevel, hw, ok_bind]
    change (scheduleAll { w with agenda := w.agenda.clear } w.agenda.toList >>= _) = _
    rw [ha]
    rfl
  · refine ⟨hwf.domains.openLevel, hwf.weights, hwf.attached.congr rfl rfl rfl rfl, hfa,
      hwa.due.of_imposed fun _ _ hp => hp, hwf.trail.openLevel, congrArg (· + 1) hwf.level,
      congrArg (· + 1) hwf.depth, fun k hk => ?_⟩
    rcases Nat.eq_or_lt_of_le (Nat.lt_succ_iff.1 hk) with he | hk
    · obtain rfl : k = w.level := he
      rw [← hwf.depth, suspendedAt_length rfl, hwf.depth, ← hwf.level]
      change Orderly _ (w.entailments.openLevel.below w.entailments.level) w.agenda.toList
      rw [Trail.below_openLevel_level]
      exact hwf.due.of_imposed fun _ _ hp => hp
    · have hk : k < w.level := hk
      rw [suspendedAt_cons (s := w) (hwf.depth ▸ hk) rfl]
      change Orderly _ (w.entailments.openLevel.below k) _
      rw [Trail.below_openLevel (hwf.level ▸ hk)]
      exact (hwf.suspended k hk).of_imposed fun _ _ hp => hp

theorem WellFormed.backtrack (hs : s.WellFormed) (hk : k < s.level) :
    ∃ t log, s.backtrack k = .ok ⟨(), t, log⟩ ∧ t.WellFormed ∧ t.propagator? = s.propagator? ∧
      t.imposed.size = s.imposed.size ∧ t.agenda.toList = s.suspendedAt k ∧
      t = { s with
        domains := s.domains.lowered k
        watchers := t.watchers
        agenda := t.agenda
        imposed := t.imposed
        entailments := s.entailments.lowered k
        suspended := s.suspended.drop (s.suspended.length - k)
        live := t.live } := by
  have hke : k < s.entailments.level := hs.level ▸ hk
  have hcount : (s.domains.lowered k).count = s.domains.count := Domains.size_restored s.domains k
  let u : Store := { s with domains := s.domains.lowered k, entailments := s.entailments.lowered k }
  have hu : u.Attached (s.entailments.above k ++ s.entailments.below k) := by
    rw [Trail.above_append_below]
    exact hs.attached.congr rfl hcount rfl rfl
  obtain ⟨v, hv, hav, hpv, hsv, heqv⟩ := hu.reinstateAll
  obtain ⟨w, T, n, rfl⟩ : ∃ w T n, v = { u with watchers := w, imposed := T, live := n } := ⟨_, _, _, heqv⟩
  let v : Store := { u with
    watchers := w
    imposed := T
    live := n
    agenda := s.agenda.clear
    suspended := s.suspended.drop (s.suspended.length - k) }
  have hkeep : ∀ h p, s.propagator? h = some p → v.propagator? h = some p := fun h p hp => hpv ▸ hp
  have hf : s.agenda.clear.Filed v.rank := hs.filed.clear.congr fun h hh => by
    rw [Agenda.toList_clear] at hh
    cases hh
  have hdue : v.Orderly (s.entailments.below k) (s.suspendedAt k) := (hs.suspended k hk).of_imposed hkeep
  obtain ⟨a, ha, hfa, hla⟩ := hdue.scheduleAll hf (Agenda.toList_clear s.agenda)
  have htail : (s.suspended.drop (s.suspended.length - k - 1)).tail =
      s.suspended.drop (s.suspended.length - k) := by
    have := hs.depth
    rw [List.tail_drop]
    congr 1
    omega
  have hlevel : (s.domains.lowered k).level = k := Domains.level_lowered hk
  let t : Store := { v with agenda := a }
  refine ⟨t, [.backtracked s.level k s.domains.trail.length], ?_, ?_, hpv, hsv, hla, rfl⟩
  · rw [Store.backtrack, if_pos hk]
    simp only [Domains.backTo_eq hk, Trail.backTo_eq hke, ok_bind]
    change (List.foldlM Store.reinstate u (s.entailments.above k) >>= _) = _
    rw [hv, ok_bind, htail]
    change (v.scheduleAll (s.suspendedAt k) >>= _) = _
    rw [ha]
    rfl
  · refine ⟨hs.domains.lowered hk, hs.weights.trans hcount.symm, hav.congr rfl rfl rfl rfl, hfa, ?_,
      hs.trail.lowered hke, (Trail.level_lowered hke).trans hlevel.symm, ?_, fun j hj => ?_⟩
    · exact hla.symm ▸ hdue.of_imposed fun _ _ hp => hp
    · have := hs.depth
      change (s.suspended.drop _).length = (s.domains.lowered k).level
      rw [List.length_drop, hlevel]
      omega
    · have hj : j < k := hj.trans_eq hlevel
      rw [suspendedAt_drop (s := s) hj (hs.depth ▸ hk) rfl]
      change Orderly _ ((s.entailments.lowered k).below j) _
      rw [hs.trail.below_lowered hj hke]
      exact (hs.suspended j (hj.trans hk)).of_imposed hkeep

theorem WellFormed.impose {r : Reply (Except ModelError Handle)} (hs : s.WellFormed)
    (hp : s.domains.Knows p.scope → s.imposed.size < wordSize ∧ p.Standard) (hr : s.impose p = .ok r) :
    (∃ x, r.value = .error (.unknownVariable x)) ∧ r.store = s ∨
      s.domains.Knows p.scope ∧ r.value = .ok ⟨s.imposed.size⟩ ∧ r.store.WellFormed ∧
        (∀ h, h ∈ r.store.agenda.toList ↔ h = ⟨s.imposed.size⟩ ∨ h ∈ s.agenda.toList) ∧
        r.store = { s with
          watchers := r.store.watchers
          agenda := r.store.agenda
          imposed := s.imposed.push ⟨p, false⟩
          live := s.live + 1 } := by
  rw [Store.impose] at hr
  split at hr
  · next x _ =>
    cases hr
    exact .inl ⟨⟨x, rfl⟩, rfl⟩
  · next hfind =>
    have hk : s.domains.Knows p.scope := by
      intro x hx
      simpa using List.find?_eq_none.1 hfind x hx
    obtain ⟨hsize, hp⟩ := hp hk
    have hkey : s.imposed.nextKey = ⟨s.imposed.size⟩ := Handle.key_inj.1 (Table.index_nextKey hsize)
    rw [hkey] at hr
    have hnew : (⟨s.imposed.size⟩ : Handle) ∉ s.agenda.toList := by
      intro hm
      obtain ⟨q, hq⟩ := hs.due.imposed _ hm
      exact Nat.lt_irrefl _ (lt_size_of_propagator? hq)
    obtain ⟨t, ht, hat, hft, ⟨L, R, hL, hR⟩, heq⟩ := hs.attached.impose hp hk hs.filed hnew
    obtain ⟨u, hu, hr⟩ := bind_eq_ok_iff.1 hr
    cases ht.symm.trans hu
    cases hr
    have himp : ∀ h q, t.propagator? h = some q ↔ h = ⟨s.imposed.size⟩ ∧ p = q ∨ s.propagator? h = some q :=
      fun h q => propagator?_push_eq_some_iff (congrArg Store.imposed heq)
    have hkeep : ∀ h q, s.propagator? h = some q → t.propagator? h = some q :=
      fun h q hq => (himp h q).2 (.inr hq)
    have hmem : ∀ h, h ∈ t.agenda.toList ↔ h = ⟨s.imposed.size⟩ ∨ h ∈ s.agenda.toList := by
      intro h
      rw [hR, hL, List.mem_append, List.mem_cons, List.mem_append]
      tauto
    have hdue : t.Orderly s.entailments.entries t.agenda.toList := by
      refine ⟨?_, fun h hh => ?_, fun h hh => ?_, hft.sorted⟩
      · rw [hL] at hnew
        rw [hR, List.nodup_middle]
        exact List.nodup_cons.2 ⟨hnew, hL ▸ hs.due.nodup⟩
      · rcases (hmem h).1 hh with rfl | hh
        · exact ⟨p, (himp _ p).2 (.inl ⟨rfl, rfl⟩)⟩
        · exact (hs.due.of_imposed hkeep).imposed h hh
      · rcases (hmem h).1 hh with rfl | hh
        · exact fun hE => Nat.lt_irrefl _ (hs.attached.known _ hE)
        · exact hs.due.active h hh
    refine .inr ⟨hk, rfl, ?_, hmem, heq⟩
    obtain ⟨w, a, rfl⟩ : ∃ w a, t = { s with
        watchers := w
        agenda := a
        imposed := s.imposed.push ⟨p, false⟩
        live := s.live + 1 } := ⟨_, _, heq⟩
    exact ⟨hs.domains, hs.weights, hat, hft, hdue, hs.trail, hs.level, hs.depth,
      fun k hk => (hs.suspended k hk).of_imposed hkeep⟩

end Store

end DomainPropagation
