import DomainPropagation.Proofs.Runs

/-! No wake-up is lost. Every active propagator is due, or is told of something by a pending event, or is quiet,
and every entailed one is settled; and it was so when each level was left that may still be returned to. -/

namespace DomainPropagation

def Propagator.Awaited (p : Propagator) (s : Domains) : Prop :=
  ∃ e x, (e, x) ∈ s.pending.events ∧ x ∈ p.scope ∧ e ∈ (p.need x).events

theorem Propagator.awaited_of_noticed {p : Propagator} {s t : Domains} (hst : s.Shrinks t)
    (h : ¬ p.Unnoticed s t) : p.Awaited t := by
  simp only [Unnoticed, not_forall] at h
  obtain ⟨x, hx, h⟩ := h
  have ht : (p.need x).Tells (s.box x) (t.box x) := by
    by_contra hn
    exact h ⟨hst.le x, hn⟩
  obtain ⟨e, he, hm⟩ := hst.told x _ ht
  exact ⟨e, x, hm, hx, he⟩

namespace Store

variable {s t u w : Store} {c d : Snapshot} {D : Domains} {g h : Handle} {p p' : Propagator} {k floor floor' : Nat}
  {failed : Bool}

def Covers (c : Snapshot) (h : Handle) (p : Propagator) : Prop :=
  (h ∈ c.entailed → p.Settled h c.domains) ∧
    (h ∉ c.entailed → h ∈ c.due ∨ p.Awaited c.domains ∨ p.Quiet h c.domains)

theorem Covers.agrees (hc : Covers c h p) (hp : p.Attentive) (hwc : c.domains.WellFormed)
    (hwd : d.domains.WellFormed) (hkc : c.domains.Knows p.scope) (hkd : d.domains.Knows p.scope)
    (ha : c.Agrees c.domains.count d) (he : ∀ q ∈ c.domains.pending.events, q ∈ d.domains.pending.events) :
    Covers d h p := by
  have hbox : ∀ x ∈ p.scope, d.domains.box x = c.domains.box x := fun x hx => ha.box x (hkc x hx)
  rw [Covers, ha.entailed, ha.due]
  refine ⟨fun hE => (hc.1 hE).mono fun x hx => (hbox x hx).le, fun hE => (hc.2 hE).imp_right ?_⟩
  rintro (⟨e, x, hm, hx, hn⟩ | hq)
  · exact .inl ⟨e, x, he _ hm, hx, hn⟩
  · exact .inr (hp.quiet hwc hwd hkc hkd (.of_eq hbox) hq)

theorem Covers.relist (hc : Covers c h p) {E A : List Handle} (hE : h ∈ E ↔ h ∈ c.entailed)
    (hA : h ∈ c.due → h ∈ A) : Covers ⟨c.domains, E, A⟩ h p :=
  ⟨fun hm => hc.1 (hE.1 hm), fun hm => (hc.2 (mt hE.2 hm)).imp_left hA⟩

theorem Covers.shrinks (hc : Covers c h p) (hp : p.Attentive) (hwc : c.domains.WellFormed)
    (hwD : D.WellFormed) (hkc : c.domains.Knows p.scope) (hD : c.domains.Shrinks D) :
    Covers { c with domains := D } h p := by
  refine ⟨fun hE => (hc.1 hE).mono fun x _ => hD.le x, fun hE => (hc.2 hE).imp_right ?_⟩
  rintro (⟨e, x, hm, hx, hn⟩ | hq)
  · exact .inl ⟨e, x, hD.kept _ hm, hx, hn⟩
  · by_cases hun : p.Unnoticed c.domains D
    · exact .inr (hp.quiet hwc hwD hkc (hkc.shrinks hD) hun hq)
    · exact .inl (p.awaited_of_noticed hD hun)

theorem Covers.of_start {o : Outcome Unit} {E A : List Handle} (hp : p.Attentive) (hwD : D.WellFormed)
    (hkD : D.Knows p.scope) (ho : p.step.start h D = .ok o) (hr : o.result = .ok ())
    (hE : h ∈ E ↔ o.entailed = true) : Covers ⟨o.domains, E, A⟩ h p := by
  obtain ⟨D', e, r⟩ := o
  obtain rfl : r = .ok () := hr
  refine ⟨fun hm => ?_, fun hm => .inr ?_⟩
  · obtain rfl : e = true := hE.1 hm
    exact hp.settled hwD hkD ho
  · obtain rfl : e = false := by simpa [hE] using hm
    rcases hp.told hwD hkD ho with rfl | hun
    · exact .inr ho
    · exact .inl (p.awaited_of_noticed (Step.run_shrinks hwD ho).2 hun)

theorem WellFormed.knows (hs : s.WellFormed) (hp : s.propagator? h = some p) : s.domains.Knows p.scope :=
  (hs.attached.standard h p hp).2

theorem WellFormed.knows_lowered (hs : s.WellFormed) (hp : s.propagator? h = some p) (k : Nat) :
    (s.domains.lowered k).Knows p.scope :=
  fun x hx => (hs.knows hp x hx).trans_eq (Domains.size_restored s.domains k).symm

theorem Covers.remembers (hc : Covers (s.left k) h p) (hs : s.WellFormed) (ht : t.WellFormed)
    (hp : s.propagator? h = some p) (ha : p.Attentive) (hk : k < s.level) (hr : Remembers k s t) :
    Covers (t.left k) h p := by
  refine hc.agrees ha (hs.domains.lowered hk) (ht.domains.lowered hr.level) (hs.knows_lowered hp k)
    (ht.knows_lowered (hr.imposed h p hp) k) ?_ fun q hq => absurd hq (Array.not_mem_empty q)
  exact ⟨fun x hx => hr.left.box x (hx.trans_eq (Domains.size_restored s.domains k)), hr.left.entailed,
    hr.left.due⟩

theorem WellFormed.covers_wake (hs : s.WellFormed) (hp : s.propagator? h = some p) (ha : p.Attentive)
    (hc : Covers s.now h p) (hw : s.wake = .ok w) : Covers w.now h p := by
  obtain ⟨hwf, hev, hdue, heq⟩ := hs.woken hw
  have hpw : w.propagator? h = some p := (hs.continues_wake hw).imposed ▸ hp
  have hbox : ∀ x, w.domains.box x = s.domains.box x := fun x => by rw [heq]; rfl
  have hE : w.entailments = s.entailments := by rw [heq]
  refine ⟨fun hm => ?_, fun hm => ?_⟩
  · have hm : h ∈ s.entailments.entries := hE ▸ hm
    exact (hc.1 hm).mono fun x _ => (hbox x).le
  · have hm : h ∉ s.entailments.entries := hE ▸ hm
    rcases hc.2 hm with hd | ⟨e, x, hev, hx, hn⟩ | hq
    · exact .inl ((hdue h).2 (.inl hd))
    · exact .inl ((hdue h).2 (.inr ⟨e, x, hev, hm, p, hp, hx, hn⟩))
    · exact .inr (.inr (ha.quiet hs.domains hwf.domains (hs.knows hp) (hwf.knows hpw)
        (.of_eq fun x _ => hbox x) hq))

theorem Runs.covers {o : Outcome Unit} (hr : w.Runs g p' o u) (hw : w.WellFormed) (hp : w.propagator? h = some p)
    (ha : p.Attentive) (hc : Covers w.now h p) (hk : o.result = .ok ()) {E : List Handle}
    (hE : h ∈ E ↔ h = g ∧ o.entailed = true ∨ h ∈ w.entailments.entries) :
    Covers ⟨o.domains, E, u.agenda.toList⟩ h p := by
  obtain ⟨hwf, -⟩ := Step.run_shrinks hw.domains hr.start
  by_cases hg : h = g
  · subst hg
    cases hr.imposed.symm.trans hp
    refine .of_start ha hw.domains (hw.knows hp) hr.start hk ?_
    simp [hE, hr.active]
  · have hcg := hc.shrinks ha hw.domains hwf (hw.knows hp) hr.shrinks
    refine hcg.relist ?_ fun hd => ?_
    · simp [hE, hg, now]
    · have hd : h ∈ w.agenda.toList := hd
      rw [hr.due] at hd
      exact (List.mem_cons.1 hd).resolve_left hg

theorem Ended.covers {o : Outcome Unit} {v : Turn} (he : Ended g p' o u v t) (hr : w.Runs g p' o u)
    (hw : w.WellFormed) (hp : w.propagator? h = some p) (ha : p.Attentive) (hc : Covers w.now h p)
    (hv : v.fails = false) : Covers t.now h p := by
  cases he with
  | failed he hf => cases hv
  | entailed hk he hf =>
    obtain ⟨t, ht, -, -, heq⟩ := hr.wellFormed.entail hr.still_imposed hr.still_active (hr.not_due hw)
    cases hf.symm.trans ht
    have hnow : t.now = ⟨o.domains, g :: w.entailments.entries, u.agenda.toList⟩ := by
      rw [Store.now, heq, hr.eq]
      rfl
    change Covers t.now h p
    rw [hnow]
    exact hr.covers hw hp ha hc hk (by simp [he])
  | ran hk he =>
    have hnow : t.now = ⟨o.domains, w.entailments.entries, t.agenda.toList⟩ := by
      rw [Store.now, hr.eq]
    rw [hnow]
    exact hr.covers hw hp ha hc hk (by simp [he])

theorem WellFormed.covers_turn (hs : s.WellFormed) (hp : s.propagator? h = some p) (ha : p.Attentive)
    (hc : Covers s.now h p) {r : Reply Turn} (hr : s.turn = .ok r) (hv : r.value.fails = false) :
    Covers r.store.now h p := by
  obtain ⟨w, hw, ht⟩ := hs.turn_cases hr
  obtain ⟨hwf, -⟩ := hs.woken hw
  have hpw : w.propagator? h = some p := (hs.continues_wake hw).imposed ▸ hp
  have hcw := hs.covers_wake hp ha hc hw
  generalize r.value = v, r.store = t at ht hv
  cases ht with
  | idle => exact hcw
  | run hruns hend => exact hend.covers hruns hwf hpw ha hcw hv

theorem WellFormed.covers_propagate {r : Reply (Except Conflict Unit)} (hs : s.WellFormed)
    (hp : s.propagator? h = some p) (ha : p.Attentive) (hc : Covers s.now h p) (hr : s.propagate = .ok r)
    (hv : r.value = .ok ()) : Covers r.store.now h p := by
  obtain ⟨t, hst, hend⟩ := propagate_cases hr
  obtain ⟨ht, hpt, hct⟩ : t.WellFormed ∧ t.propagator? h = some p ∧ Covers t.now h p := by
    refine invariant_of_ran (P := fun t => t.WellFormed ∧ t.propagator? h = some p ∧ Covers t.now h p)
      ?_ hst ⟨hs, hp, hc⟩
    rintro t u ⟨ht, hpt, hct⟩ ⟨log, hr⟩
    exact ⟨ht.turn hr, (ht.continues_turn hr).imposed ▸ hpt, ht.covers_turn hpt ha hct hr rfl⟩
  rcases hend with ⟨log, -, hr⟩ | ⟨c, log, hc, -⟩
  · exact ht.covers_turn hpt ha hct hr rfl
  · cases hc.symm.trans hv

theorem WellFormed.idle_of_propagate {r : Reply (Except Conflict Unit)} (hs : s.WellFormed)
    (hr : s.propagate = .ok r) (hv : r.value = .ok ()) :
    r.store.agenda.toList = [] ∧ r.store.domains.pending.events = #[] := by
  obtain ⟨t, hst, hend⟩ := propagate_cases hr
  have ht : t.WellFormed := invariant_of_ran (fun _ _ h ⟨_, hr⟩ => h.turn hr) hst hs
  rcases hend with ⟨log, -, hr⟩ | ⟨c, log, hc, -⟩
  · obtain ⟨w, hw, hturned⟩ := ht.turn_cases hr
    obtain ⟨-, hev, -⟩ := ht.woken hw
    cases hturned with
    | idle ha => exact ⟨ha, hev⟩
    | run _ hend => cases hend
  · cases hc.symm.trans hv

theorem WellFormed.covers_addDomain {d : Domain} (hs : s.WellFormed) (hd : d.WellFormed)
    (hp : s.propagator? h = some p) (ha : p.Attentive) (hc : Covers s.now h p) :
    Covers (s.addDomain d).store.now h p := by
  have hwf := hs.addDomain hd
  refine hc.agrees ha hs.domains hwf.domains (hs.knows hp) (hwf.knows (s := (s.addDomain d).store) hp) ?_ fun q hq => hq
  exact ⟨fun x hx => Domains.box_push hx, rfl, rfl⟩

theorem WellFormed.covers_openLevel (hs : s.WellFormed) (hp : s.propagator? h = some p) (ha : p.Attentive)
    (hc : Covers s.now h p) (ht : s.openLevel = .ok t) : Covers t.now h p := by
  obtain ⟨w, t', hw, ht', hwf, htf, hdue, heq⟩ := hs.openLevel
  cases ht.symm.trans ht'
  have hpw : w.propagator? h = some p := (hs.continues_wake hw).imposed ▸ hp
  have hpt : t.propagator? h = some p := by
    rw [heq]
    exact hpw
  obtain ⟨-, hev, -⟩ := hs.woken hw
  have hagree : w.now.Agrees w.domains.count t.now := by
    refine ⟨fun x _ => ?_, ?_, hdue⟩
    · rw [Store.now, heq]
      rfl
    · rw [Store.now, heq]
      rfl
  exact (hs.covers_wake hp ha hc hw).agrees ha hwf.domains htf.domains (hwf.knows hpw) (htf.knows hpt) hagree
    fun q hq => absurd (hev ▸ hq) (Array.not_mem_empty q)

theorem WellFormed.covers_left (hs : s.WellFormed) (hp : s.propagator? h = some p) (ha : p.Attentive)
    (hc : Covers s.now h p) (ht : s.openLevel = .ok t) : Covers (t.left s.level) h p := by
  obtain ⟨w, t', hw, ht', -, htf, -, heq⟩ := hs.openLevel
  cases ht.symm.trans ht'
  obtain ⟨hl, hleft⟩ := hs.left_openLevel ht
  have hpt : t.propagator? h = some p := by
    rw [heq]
    exact (hs.continues_wake hw).imposed ▸ hp
  obtain ⟨-, hevw, -⟩ := hs.woken hw
  have hev : t.domains.pending.events = #[] := by
    rw [heq]
    exact hevw
  have hlt : s.level < t.level := hl.symm ▸ Nat.lt_succ_self _
  exact (hs.covers_openLevel hp ha hc ht).agrees ha htf.domains (htf.domains.lowered hlt) (htf.knows hpt)
    (htf.knows_lowered hpt _) hleft fun q hq => absurd (hev ▸ hq) (Array.not_mem_empty q)

end Store

/-- What a request may be after what happened so far: after a failure only a return to a lower level, and
never one below the floor. -/
def Request.Heeds (floor : Nat) (failed : Bool) : Request → Prop
  | .backtrack k => floor ≤ k
  | .newSerial => True
  | _ => failed = false

/-- The level below which no return is allowed: the highest at which a propagator was imposed. -/
def Answer.floor (level floor : Nat) : Answer → Nat
  | .propagator (.ok _) => max floor level
  | _ => floor

def Answer.failed (failed : Bool) : Answer → Bool
  | .propagated (.error _) => true
  | .serial _ => failed
  | _ => false

theorem Request.Heeds.le_levelAfter {level floor : Nat} {failed : Bool} {q : Request} (hq : q.Heeds floor failed)
    (hf : floor ≤ level) : floor ≤ q.levelAfter level := by
  cases q with
  | openLevel => exact Nat.le_succ_of_le hf
  | backtrack => exact hq
  | _ => exact hf

theorem Answer.floor_eq {level floor : Nat} {a : Answer} (ha : ∀ h, a ≠ .propagator (.ok h)) :
    a.floor level floor = floor := by
  rw [Answer.floor]
  exact ha

namespace Store

variable {s : Store} {h : Handle} {p : Propagator} {k floor floor' : Nat} {failed : Bool} {q : Request}
  {r : Reply Answer} {o : Options} {P : Propagator → Prop}

/-- Nothing is lost on a propagator now, unless the store has failed, nor at any level from the floor up that may
be returned to. -/
structure Minds (s : Store) (h : Handle) (p : Propagator) (floor : Nat) (failed : Bool) : Prop where
  imposed : s.propagator? h = some p
  attentive : p.Attentive
  now : failed = false → Covers s.now h p
  left : ∀ k, floor ≤ k → k < s.level → Covers (s.left k) h p

theorem Minds.mono (hm : s.Minds h p floor failed) (hf : floor ≤ floor') : s.Minds h p floor' failed :=
  ⟨hm.imposed, hm.attentive, hm.now, fun k hk => hm.left k (hf.trans hk)⟩

theorem WellFormed.minds_of_due (hs : s.WellFormed) (hp : s.propagator? h = some p) (ha : p.Attentive)
    (hd : h ∈ s.agenda.toList) : s.Minds h p s.level failed where
  imposed := hp
  attentive := ha
  now := fun _ => ⟨fun hE => absurd hE (hs.due.active h hd), fun _ => .inl hd⟩
  left := fun _ hk hkl => absurd hkl (Nat.not_lt.2 hk)

theorem Minds.now_perform (hm : s.Minds h p floor failed) (hs : s.WellFormed)
    (hq : q.Allowed Propagator.Standard s) (hh : q.Heeds floor failed) (hr : s.perform q = .ok r)
    (hf : r.value.failed failed = false) : Covers r.store.now h p := by
  have ha := hm.attentive
  have hperf := performed hq hr
  generalize r.value = v, r.store = t at hperf hf
  cases hperf with
  | newVariable hd | newSparseVariable hd => exact hs.covers_addDomain hd hm.imposed ha (hm.now hh)
  | noVariable | noSparseVariable => exact hm.now hh
  | newSerial => exact hm.now hf
  | @impose p' r hr' =>
    rcases hs.impose hq hr' with ⟨-, heq⟩ | ⟨-, -, -, hdue, heq⟩
    · exact heq.symm ▸ hm.now hh
    · have hE : r.store.entailments = s.entailments := by rw [heq]
      have hD : r.store.domains = s.domains := by rw [heq]
      rw [Store.now, hE, hD]
      exact (hm.now hh).relist Iff.rfl fun hd => (hdue h).2 (.inr hd)
  | cut hr' =>
    obtain ⟨hwf, hsh, heq⟩ := hs.cut hr'
    have hc := (hm.now hh).shrinks ha hs.domains hwf.domains (hs.knows hm.imposed) hsh
    rw [heq]
    exact hc
  | openLevel ht => exact hs.covers_openLevel hm.imposed ha (hm.now hh) ht
  | backtrack hr' =>
    rw [(hs.now_backtrack hr').1]
    exact hm.left _ hh (lt_of_backtrack hr')
  | @propagate r hr' =>
    cases hv : r.value with
    | ok => exact hs.covers_propagate hm.imposed ha (hm.now hh) hr' hv
    | error c =>
      rw [hv] at hf
      cases hf

theorem Minds.left_perform (hm : s.Minds h p floor failed) (hs : s.WellFormed)
    (hq : q.Allowed Propagator.Standard s) (hh : q.Heeds floor failed) (hr : s.perform q = .ok r) (hk : floor ≤ k)
    (hkl : k < r.store.level) : Covers (r.store.left k) h p := by
  rw [(hs.perform_effect hq hr).1] at hkl
  have hrem : k < s.level → (∀ j, q = .backtrack j → k < j) → Covers (r.store.left k) h p := fun hlt hb =>
    (hm.left k hk hlt).remembers hs (hs.perform hq hr) hm.imposed hm.attentive hlt
      (hs.perform_remembers hq hr hlt hb)
  have hperf := performed hq hr
  generalize r.value = v, r.store = t at hperf hrem
  cases hperf with
  | openLevel ht =>
    -- Only the level that is left by this very request was not there to be left before.
    rcases Nat.eq_or_lt_of_le (Nat.lt_succ_iff.1 hkl) with rfl | hlt
    · exact hs.covers_left hm.imposed hm.attentive (hm.now hh) ht
    · exact hrem hlt nofun
  | backtrack hr' =>
    refine hrem (hkl.trans (lt_of_backtrack hr')) fun i hi => ?_
    cases hi
    exact hkl
  | _ => exact hrem hkl nofun

theorem Minds.perform (hm : s.Minds h p floor failed) (hs : s.WellFormed)
    (hq : q.Allowed Propagator.Standard s) (hh : q.Heeds floor failed) (hr : s.perform q = .ok r) :
    r.store.Minds h p floor (r.value.failed failed) where
  imposed := hs.perform_keeps hq hr hm.imposed
  attentive := hm.attentive
  now := hm.now_perform hs hq hh hr
  left := fun _ => hm.left_perform hs hq hh hr

def CoversAll (s : Store) (c : Snapshot) : Prop := ∀ h p, s.propagator? h = some p → Covers c h p

structure Alert (s : Store) (floor : Nat) (failed : Bool) : Prop where
  wellFormed : s.WellFormed
  attentive : ∀ h p, s.propagator? h = some p → p.Attentive
  floor_le : floor ≤ s.level
  now : failed = false → s.CoversAll s.now
  left : ∀ k, floor ≤ k → k < s.level → s.CoversAll (s.left k)

theorem Alert.minds (hs : s.Alert floor failed) (hp : s.propagator? h = some p) : s.Minds h p floor failed where
  imposed := hp
  attentive := hs.attentive h p hp
  now := fun hf => hs.now hf h p hp
  left := fun k hk hkl => hs.left k hk hkl h p hp

theorem alert_of_minds (hs : s.WellFormed) (hf : floor ≤ s.level)
    (hm : ∀ h p, s.propagator? h = some p → s.Minds h p floor failed) : s.Alert floor failed where
  wellFormed := hs
  attentive := fun h p hp => (hm h p hp).attentive
  floor_le := hf
  now := fun hf h p hp => (hm h p hp).now hf
  left := fun k hk hkl h p hp => (hm h p hp).left k hk hkl

theorem Alert.perform (hs : s.Alert floor failed) (hq : q.Allowed (fun p => p.Standard ∧ p.Attentive) s)
    (hh : q.Heeds floor failed) (hr : s.perform q = .ok r) :
    r.store.Alert (r.value.floor s.level floor) (r.value.failed failed) := by
  have hs' := hs.wellFormed
  have hq' : q.Allowed Propagator.Standard s := hq.mono fun _ h => h.1
  have hold := fun h p hp => (hs.minds (h := h) (p := p) hp).perform hs' hq' hh hr
  have hfloor := hh.le_levelAfter hs.floor_le
  obtain ⟨hl, ⟨heq, hv⟩ | ⟨p, rfl, hk, hv, hdue, himp⟩⟩ := hs'.perform_effect hq' hr
  · rw [Answer.floor_eq hv]
    exact alert_of_minds (hs'.perform hq' hr) (hl ▸ hfloor) fun h p hp => hold h p (heq ▸ hp)
  · obtain rfl : failed = false := hh
    have hl : r.store.level = s.level := hl
    rw [hv]
    refine alert_of_minds (hs'.perform hq' hr) ((Nat.max_le.2 ⟨hs.floor_le, le_rfl⟩).trans_eq hl.symm) fun h p' hp => ?_
    rcases (himp h p').1 hp with ⟨rfl, rfl⟩ | hp'
    · exact ((hs'.perform hq' hr).minds_of_due hp (hq hk).2.2 hdue).mono (hl ▸ Nat.le_max_right ..)
    · exact (hv ▸ hold h p' hp').mono (Nat.le_max_left ..)

theorem Alert.propagate {r : Reply (Except Conflict Unit)} (hs : s.Alert floor false)
    (hr : s.propagate = .ok r) :
    (∃ c, r.value = .error c) ∧ r.store.Alert floor true ∨
      r.value = .ok () ∧ r.store.Alert floor false ∧ r.store.agenda.toList = [] ∧
        r.store.domains.pending.events = #[] := by
  have ha := hs.perform (q := .propagate) trivial rfl (perform_propagate hr)
  change r.store.Alert floor (Answer.failed _ (.propagated r.value)) at ha
  cases hv : r.value with
  | ok =>
    rw [hv] at ha
    exact .inr ⟨rfl, ha, hs.wellFormed.idle_of_propagate hr hv⟩
  | error c =>
    rw [hv] at ha
    exact .inl ⟨⟨c, rfl⟩, ha⟩

/-- Runs in which only a return to a lower level follows a failure, and never to below the level of an imposed
propagator. -/
inductive Disciplined (o : Options) (P : Propagator → Prop) : Nat → Bool → Store → Prop
  | new : Disciplined o P 0 false { options := o }
  | perform {floor : Nat} {failed : Bool} {s : Store} {q : Request} {r : Reply Answer} :
      Disciplined o P floor failed s → q.Allowed P s → q.Heeds floor failed → s.perform q = .ok r →
        Disciplined o P (r.value.floor s.level floor) (r.value.failed failed) r.store

theorem alert_new (o : Options) : Alert { options := o } 0 false where
  wellFormed := wellFormed_new o
  attentive := nofun
  floor_le := Nat.le_refl 0
  now := nofun
  left := nofun

theorem Disciplined.alert (hP : ∀ p, P p → p.Standard ∧ p.Attentive) (hs : Disciplined o P floor failed s) :
    s.Alert floor failed := by
  induction hs with
  | new => exact alert_new o
  | perform _ hq hh hr ih => exact ih.perform (hq.mono hP) hh hr

theorem Disciplined.reachable (hs : Disciplined o P floor failed s) : Reachable o P s := by
  induction hs with
  | new => exact .refl
  | perform _ hq _ hr ih => exact ih.perform hq hr

end Store

end DomainPropagation
