import DomainPropagation.Proofs.Certainty
import DomainPropagation.Proofs.Solutions

/-! Entailment is sound. Whatever else is imposed, a constraint that is marked as entailed, and can be counted, is
certain of the domains, and was so when each level was left at which it was marked already. -/

namespace DomainPropagation

namespace Store

variable {s t u : Store} {h : Handle} {p : Propagator} {i : Imposed} {c d : Snapshot} {k : Nat} {o : Options}
  {q : Request}

theorem impose_cases {r : Reply (Except ModelError Handle)} (hr : s.impose p = .ok r) :
    r.store = s ∨ s.domains.Knows p.scope ∧ r.store = { s with
      watchers := r.store.watchers
      agenda := r.store.agenda
      imposed := s.imposed.push ⟨p, false⟩
      live := r.store.live } := by
  rw [impose] at hr
  split at hr
  · cases hr
    exact .inl rfl
  · next hfind =>
    obtain ⟨t, ht, hr⟩ := bind_eq_ok_iff.1 hr
    cases hr
    exact .inr ⟨fun x hx => by simpa using List.find?_eq_none.1 hfind x hx, wireAll_eq ht⟩

theorem openLevel_cases (ht : s.openLevel = .ok t) : ∃ w, s.wake = .ok w ∧ t = { w with
    domains := w.domains.openLevel
    agenda := t.agenda
    entailments := w.entailments.openLevel
    suspended := w.agenda.toList :: w.suspended } := by
  obtain ⟨w, hw, ht⟩ := bind_eq_ok_iff.1 ht
  obtain ⟨u, hu, ht⟩ := bind_eq_ok_iff.1 ht
  cases ht
  refine ⟨w, hw, ?_⟩
  rw [scheduleAll_eq hu]

theorem reinstate_eq (ht : s.reinstate h = .ok t) : t = { s with
    watchers := t.watchers
    imposed := s.imposed.modify h ({ · with entailed := false })
    live := s.live + 1 } := by
  obtain ⟨i, -, ht⟩ := bind_eq_ok_iff.1 ht
  obtain ⟨w, -, ht⟩ := bind_eq_ok_iff.1 ht
  cases ht
  rfl

theorem reinstateAll_cases {hs : List Handle} (ht : hs.foldlM reinstate s = .ok t) :
    t.propagator? = s.propagator? ∧
      (∀ h i, t.imposed.get? h = some i → i.entailed = true → h ∉ hs ∧ s.imposed.get? h = some i) ∧
      t = { s with watchers := t.watchers, imposed := t.imposed, live := t.live } := by
  induction hs generalizing s with
  | nil =>
    cases ht
    exact ⟨rfl, fun h i hi _ => ⟨List.not_mem_nil, hi⟩, rfl⟩
  | cons g hs ih =>
    obtain ⟨u, hu, ht⟩ := bind_eq_ok_iff.1 ht
    obtain ⟨hp, hflag, heq⟩ := ih ht
    have hequ := reinstate_eq hu
    refine ⟨?_, fun h i hi he => ?_, ?_⟩
    · rw [hp]
      funext h
      exact propagator?_flag (congrArg Store.imposed hequ)
    · obtain ⟨hnot, hiu⟩ := hflag h i hi he
      rw [hequ] at hiu
      simp only [Table.get?_modify, Handle.key_inj] at hiu
      split at hiu
      · obtain ⟨j, -, rfl⟩ := Option.map_eq_some_iff.1 hiu
        cases he
      · next hg => exact ⟨List.not_mem_cons_of_ne_of_not_mem (Ne.symm hg) hnot, hiu⟩
    · rw [heq, hequ]

theorem backtrack_cases {r : Reply Unit} (hl : s.entailments.level = s.level) (hr : s.backtrack k = .ok r) :
    r.store.domains = s.domains.lowered k ∧ r.store.entailments = s.entailments.lowered k ∧
      r.store.propagator? = s.propagator? ∧
      ∀ h i, r.store.imposed.get? h = some i → i.entailed = true →
        h ∉ s.entailments.above k ∧ s.imposed.get? h = some i := by
  have hk := lt_of_backtrack hr
  rw [backtrack, if_pos hk] at hr
  simp only [Domains.backTo_eq hk, Trail.backTo_eq (hl ▸ hk), ok_bind] at hr
  obtain ⟨u, hu, hr⟩ := bind_eq_ok_iff.1 hr
  obtain ⟨v, hv, hr⟩ := bind_eq_ok_iff.1 hr
  cases hr
  obtain ⟨hp, hflag, heq⟩ := reinstateAll_cases hu
  rw [scheduleAll_eq hv]
  exact ⟨by rw [heq], by rw [heq], hp, hflag⟩

def Vouches (s : Store) (c : Snapshot) : Prop :=
  ∀ h ∈ c.entailed, ∀ k : Constraint, k.InRange → s.propagator? h = some k.propagator → k.Certain c.domains.box

theorem Vouches.mono (hc : s.Vouches c) (hwf : d.domains.WellFormed) (hE : d.entailed = c.entailed)
    (hi : ∀ h ∈ c.entailed, ∀ p, t.propagator? h = some p → s.propagator? h = some p ∧ d.domains.Knows p.scope)
    (hle : ∀ h ∈ c.entailed, ∀ p, s.propagator? h = some p → ∀ x ∈ p.scope, d.domains.box x ⊆ c.domains.box x) :
    t.Vouches d := by
  intro h hh k hr hp
  rw [hE] at hh
  obtain ⟨hp, hk⟩ := hi h hh _ hp
  exact (hc h hh k hr hp).mono fun x hx => ⟨hle h hh _ hp x hx, hwf.sound.nonempty (hk x hx)⟩

/-- What a store keeps up for the constraints that are entailed, now and at each level that it may return to. -/
structure Truthful (s : Store) : Prop where
  domains : s.domains.WellFormed
  trail : s.entailments.WellFormed
  level : s.entailments.level = s.level
  knows : ∀ h p, s.propagator? h = some p → s.domains.Knows p.scope
  known : ∀ h ∈ s.entailments.entries, h.index < s.imposed.size
  flagged : ∀ h i, s.imposed.get? h = some i → i.entailed = true → h ∈ s.entailments.entries
  now : s.Vouches s.now
  left : ∀ k < s.level, s.Vouches (s.left k)

theorem Truthful.left_of (hs : s.Truthful) (hk : k < s.level) (ht : t.domains.WellFormed) (hkt : k < t.level)
    (hknows : ∀ h p, t.propagator? h = some p → t.domains.Knows p.scope)
    (hi : ∀ h ∈ s.entailments.entries, ∀ p, t.propagator? h = some p → s.propagator? h = some p)
    (hE : t.entailments.below k = s.entailments.below k)
    (hb : ∀ x : Var, x.index < s.domains.count → (t.domains.restored k).box x = (s.domains.restored k).box x) :
    t.Vouches (t.left k) := by
  refine (hs.left k hk).mono (ht.lowered hkt) hE (fun h hh p hp => ?_) fun h hh p hp x hx => ?_
  · refine ⟨hi h (List.mem_of_mem_drop hh) p hp, fun x hx => ?_⟩
    exact (hknows h p hp x hx).trans_eq (Domains.size_restored t.domains k).symm
  · exact (hb x (hs.knows h p hp x hx)).le

theorem Truthful.next (hs : s.Truthful) (ht : t.domains.WellFormed) (hi : t.imposed = s.imposed)
    (hE : t.entailments = s.entailments) (hc : t.domains.count = s.domains.count) (hl : t.level = s.level)
    (hle : t.domains.box ≤ s.domains.box) (hr : ∀ k, t.domains.restored k = s.domains.restored k) :
    t.Truthful := by
  have hp : t.propagator? = s.propagator? := by
    funext h
    rw [propagator?, propagator?, hi]
  have hknows : ∀ h p, t.propagator? h = some p → t.domains.Knows p.scope :=
    fun h p h' x hx => (hs.knows h p (hp ▸ h') x hx).trans_eq hc.symm
  refine ⟨ht, hE ▸ hs.trail, ?_, hknows, ?_, ?_, ?_, fun k hk => ?_⟩
  · rw [hE, hl]
    exact hs.level
  · rw [hE, hi]
    exact hs.known
  · rw [hE, hi]
    exact hs.flagged
  · exact hs.now.mono ht (congrArg Trail.entries hE) (fun h _ p h' => ⟨hp ▸ h', hknows h p h'⟩)
      fun _ _ _ _ x _ => hle x
  · refine hs.left_of (hk.trans_eq hl) ht hk hknows (fun h _ p h' => hp ▸ h') ?_ fun x _ => ?_
    · rw [hE]
    · rw [hr]

theorem Truthful.withPending {P : Pending} (hs : s.Truthful) (hP : P.WellFormed)
    (hn : P.seen.size = s.domains.pending.seen.size) (hd : t.domains = { s.domains with pending := P })
    (hi : t.imposed = s.imposed) (hE : t.entailments = s.entailments) : t.Truthful := by
  have hw := hs.domains.withPending hP hn
  refine hs.next (hd ▸ hw) hi hE ?_ ?_ ?_ fun k => ?_
  · rw [hd]
    rfl
  · rw [Store.level, hd]
    rfl
  · rw [hd]
    exact le_rfl
  · rw [hd]
    rfl

theorem Truthful.wake (hs : s.Truthful) (ht : s.wake = .ok t) : t.Truthful := by
  have heq := wake_eq ht
  apply hs.withPending hs.domains.pending.drain (Pending.size_drain _)
  all_goals rw [heq]

theorem Truthful.fail {x : Var} {r : Reply Unit} (hs : s.Truthful) (hr : s.fail p x = .ok r) :
    r.store.Truthful := by
  obtain ⟨-, heq⟩ := fail_eq hr
  apply hs.withPending (Pending.wellFormed_clear _) (Pending.size_clear _)
  all_goals rw [heq]

theorem Truthful.shrinks {D : Domains} (hs : s.Truthful) (hD : D.WellFormed) (hsh : s.domains.Shrinks D)
    (hd : t.domains = D) (hi : t.imposed = s.imposed) (hE : t.entailments = s.entailments) : t.Truthful := by
  subst hd
  exact hs.next hD hi hE hsh.count hsh.level hsh.le fun k => hsh.restored hs.domains.trail k

theorem Truthful.entail {r : Reply Unit} (hs : s.Truthful) (hp : s.propagator? h = some p)
    (hc : ∀ c : Constraint, c.InRange → c.propagator = p → c.Certain s.domains.box) (hr : s.entail h p = .ok r) :
    r.store.Truthful := by
  have heq := entail_eq hr
  have himp : r.store.propagator? = s.propagator? := by
    funext g
    exact propagator?_flag (congrArg Store.imposed heq)
  generalize r.store = t at heq himp
  have hE : t.entailments = s.entailments.extend [h] := by rw [heq]; rfl
  have hD : t.domains = s.domains := by rw [heq]
  have hI : t.imposed = s.imposed.modify h ({ · with entailed := true }) := by rw [heq]
  have hl : t.level = s.level := congrArg Domains.level hD
  have hknows : ∀ g q, t.propagator? g = some q → t.domains.Knows q.scope := by
    rw [himp, hD]
    exact hs.knows
  refine ⟨hD ▸ hs.domains, hE ▸ hs.trail.extend [h], ?_, hknows, ?_, ?_, ?_, fun k hk => ?_⟩
  · rw [hE, hl]
    exact hs.level
  · rw [hE, hI, Table.size_modify]
    exact List.forall_mem_cons.2 ⟨lt_size_of_propagator? hp, hs.known⟩
  · intro g i hi hf
    rw [hI] at hi
    simp only [Table.get?_modify, Handle.key_inj] at hi
    rw [hE]
    split at hi
    · next hg => exact hg ▸ List.mem_cons_self
    · exact List.mem_cons_of_mem h (hs.flagged g i hi hf)
  · intro g hg c hin hq
    rw [himp] at hq
    rw [Store.now, hD]
    rw [Store.now, hE] at hg
    rcases List.mem_cons.1 hg with rfl | hg
    · exact hc c hin (Option.some.inj (hq.symm.trans hp))
    · exact hs.now g hg c hin hq
  · refine hs.left_of (hk.trans_eq hl) (hD ▸ hs.domains) hk hknows (fun g _ q hq => himp ▸ hq) ?_ fun x _ => ?_
    · rw [hE, hs.trail.below_extend]
    · rw [hD]

theorem Truthful.turn {r : Reply Turn} (hs : s.Truthful) (hr : s.turn = .ok r) : r.store.Truthful := by
  obtain ⟨w, hw, ⟨-, -, hr⟩ | ⟨h, a, i, o, -, hi, ho, he⟩⟩ := turn_cases hr
  · exact hr ▸ hs.wake hw
  have hwt := hs.wake hw
  have hp := propagator?_of_get? hi
  obtain ⟨hwf, hsh⟩ := Step.run_shrinks hwt.domains ho
  have hu : Truthful { w with agenda := a, domains := o.domains } := hwt.shrinks hwf hsh rfl rfl rfl
  generalize r.value = v, r.store = t at he
  cases he with
  | failed _ hf => exact hu.fail hf
  | entailed hk he hr =>
    have hknows := hwt.knows h _ hp
    refine hu.entail hp (fun c hin hc => ?_) hr
    obtain ⟨D, e, v⟩ := o
    obtain rfl : e = true := he
    obtain rfl : v = .ok () := hk
    rw [← hc] at ho hknows
    exact Constraint.certain_of_start hin hwt.domains hknows ho
  | ran => exact hu

theorem Truthful.propagate {r : Reply (Except Conflict Unit)} (hs : s.Truthful) (hr : s.propagate = .ok r) :
    r.store.Truthful :=
  invariant_of_propagate (P := Truthful) (fun _ _ hs hr => hs.turn hr) hr hs

theorem Truthful.addDomain {D : Domain} (hs : s.Truthful) (hD : D.WellFormed) : (s.addDomain D).store.Truthful := by
  have hwf := hs.domains.add hD
  have hknows : ∀ h p, s.propagator? h = some p → (s.domains.add D).Knows p.scope := fun h p hp x hx =>
    (Nat.lt_succ_of_lt (hs.knows h p hp x hx)).trans_eq (Table.size_push ..).symm
  refine ⟨hwf, hs.trail, hs.level, hknows, hs.known, hs.flagged, ?_, fun k hk => ?_⟩
  · exact hs.now.mono hwf rfl (fun h _ p hp => ⟨hp, hknows h p hp⟩) fun h _ p hp x hx =>
      (Domains.box_push (hs.knows h p hp x hx)).le
  · refine hs.left_of hk hwf hk hknows (fun _ _ _ hp => hp) rfl fun x hx => ?_
    change ((s.domains.add D).restored k).box x = _
    rw [hs.domains.restored_add]
    exact Domains.box_push (hx.trans_eq (Domains.size_restored s.domains k).symm)

theorem Truthful.impose {r : Reply (Except ModelError Handle)} (hs : s.Truthful) (hr : s.impose p = .ok r) :
    r.store.Truthful := by
  rcases impose_cases hr with heq | ⟨hk, heq⟩
  · exact heq.symm ▸ hs
  generalize r.store = t at heq
  have himp : ∀ g q, t.propagator? g = some q ↔ g = ⟨s.imposed.size⟩ ∧ p = q ∨ s.propagator? g = some q :=
    fun g q => propagator?_push_eq_some_iff (congrArg Store.imposed heq)
  have hold : ∀ g ∈ s.entailments.entries, ∀ q, t.propagator? g = some q → s.propagator? g = some q := by
    intro g hg q hq
    refine ((himp g q).1 hq).resolve_left ?_
    rintro ⟨rfl, -⟩
    exact Nat.lt_irrefl _ (hs.known _ hg)
  have hknows : ∀ g q, t.propagator? g = some q → s.domains.Knows q.scope := by
    intro g q hq
    rcases (himp g q).1 hq with ⟨-, rfl⟩ | hq
    · exact hk
    · exact hs.knows g q hq
  obtain ⟨w, a, n, rfl⟩ : ∃ w a n, t = { s with
      watchers := w, agenda := a, imposed := s.imposed.push ⟨p, false⟩, live := n } := ⟨_, _, _, heq⟩
  refine ⟨hs.domains, hs.trail, hs.level, hknows, fun g hg => ?_, fun g i hi hf => ?_, ?_, fun k hk => ?_⟩
  · exact (Nat.lt_succ_of_lt (hs.known g hg)).trans_eq (Table.size_push ..).symm
  · rw [Table.get?_push] at hi
    split at hi
    · cases hi
      cases hf
    · exact hs.flagged g i hi hf
  · exact hs.now.mono hs.domains rfl (fun g hg q hq => ⟨hold g hg q hq, hknows g q hq⟩) fun _ _ _ _ _ _ =>
      subset_rfl
  · exact hs.left_of hk hs.domains hk hknows hold rfl fun _ _ => rfl

theorem Truthful.openLevel (hs : s.Truthful) (ht : s.openLevel = .ok t) : t.Truthful := by
  obtain ⟨w, hw, heq⟩ := openLevel_cases ht
  have hwt := hs.wake hw
  have hwf := hwt.domains.openLevel
  obtain ⟨a, rfl⟩ : ∃ a, t = { w with
      domains := w.domains.openLevel
      agenda := a
      entailments := w.entailments.openLevel
      suspended := w.agenda.toList :: w.suspended } := ⟨_, heq⟩
  refine ⟨hwf, hwt.trail.openLevel, congrArg (· + 1) hwt.level, hwt.knows, hwt.known, hwt.flagged, hwt.now,
    fun k hk => ?_⟩
  -- The level that has just been left holds what holds now, and those below it are as they were.
  rcases Nat.eq_or_lt_of_le (Nat.lt_succ_iff.1 hk) with he | hlt
  · obtain rfl : k = w.level := he
    refine hwt.now.mono (hwf.lowered hk) ?_ (fun h _ p hp => ⟨hp, fun x hx => ?_⟩) fun h _ p _ x _ => ?_
    · rw [← hwt.level]
      exact Trail.below_openLevel_level _
    · exact (hwt.knows h p hp x hx).trans_eq (Domains.size_restored w.domains.openLevel w.level).symm
    · change (w.domains.openLevel.restored w.domains.level).box x ⊆ w.domains.box x
      rw [Domains.restored_openLevel_level]
      exact subset_rfl
  · refine hwt.left_of hlt hwf hk hwt.knows (fun _ _ _ hp => hp) ?_ fun x _ => ?_
    · exact Trail.below_openLevel (hwt.level ▸ hlt)
    · change (w.domains.openLevel.restored k).box x = _
      rw [Domains.restored_openLevel hlt]

theorem Truthful.backtrack {r : Reply Unit} (hs : s.Truthful) (hr : s.backtrack k = .ok r) : r.store.Truthful := by
  have hk := lt_of_backtrack hr
  have hke : k < s.entailments.level := hs.level ▸ hk
  obtain ⟨hD, hE, hp, hflag⟩ := backtrack_cases hs.level hr
  generalize r.store = t at hD hE hp hflag
  have hwf : t.domains.WellFormed := hD ▸ hs.domains.lowered hk
  have hl : t.level = k := (congrArg Domains.level hD).trans (Domains.level_lowered hk)
  have hknows : ∀ h p, t.propagator? h = some p → t.domains.Knows p.scope := by
    intro h p h' x hx
    rw [hD]
    exact (hs.knows h p (hp ▸ h') x hx).trans_eq (Domains.size_restored s.domains k).symm
  refine ⟨hwf, hE ▸ hs.trail.lowered hke, ?_, hknows, fun h hh => ?_, fun h i hi hf => ?_, ?_, fun j hj => ?_⟩
  · rw [hE, hl]
    exact Trail.level_lowered hke
  · rw [hE] at hh
    obtain ⟨i, hi⟩ := Table.lt_size_iff (k := h).1 (hs.known h (List.mem_of_mem_drop hh))
    exact lt_size_of_propagator? ((congrFun hp h).trans (propagator?_of_get? hi))
  · -- Whatever was entailed above the level has been reinstated, so this was entailed below it.
    obtain ⟨hnot, hi⟩ := hflag h i hi hf
    have hh := hs.flagged h i hi hf
    rw [← Trail.above_append_below s.entailments k] at hh
    rw [hE]
    exact (List.mem_append.1 hh).resolve_left hnot
  · refine (hs.left k hk).mono hwf ?_ (fun h _ p h' => ⟨hp ▸ h', hknows h p h'⟩) fun h _ p _ x _ => ?_
    · exact congrArg Trail.entries hE
    · rw [Store.now, hD]
      exact subset_rfl
  · have hjk : j < k := hj.trans_eq hl
    refine hs.left_of (hjk.trans hk) hwf hj hknows (fun h _ p h' => hp ▸ h') ?_ fun x _ => ?_
    · rw [hE, hs.trail.below_lowered hjk hke]
    · rw [hD, hs.domains.restored_lowered hjk hk]

theorem Truthful.perform {r : Reply Answer} (hs : s.Truthful) (hq : q.Allowed (fun _ => True) s)
    (hr : s.perform q = .ok r) : r.store.Truthful := by
  have h := performed hq hr
  generalize r.value = a, r.store = t at h
  cases h with
  | newVariable hd | newSparseVariable hd => exact hs.addDomain hd
  | noVariable | noSparseVariable => exact hs
  | newSerial => exact hs.next hs.domains rfl rfl rfl rfl le_rfl fun _ => rfl
  | impose hr' => exact hs.impose hr'
  | cut hr' =>
    obtain ⟨w, hw, hr'⟩ := bind_eq_ok_iff.1 hr'
    cases hr'
    have hN := Domains.narrows_of_cut hs.domains hw
    exact hs.shrinks hN.wellFormed hN.shrinks rfl rfl rfl
  | openLevel ht => exact hs.openLevel ht
  | backtrack hr' => exact hs.backtrack hr'
  | propagate hr' => exact hs.propagate hr'

theorem truthful_new (o : Options) : Truthful { options := o } where
  domains := (wellFormed_new o).domains
  trail := (wellFormed_new o).trail
  level := rfl
  knows := nofun
  known := nofun
  flagged := nofun
  now := nofun
  left := nofun

theorem Reachable.truthful (hs : Reachable o (fun _ => True) s) : s.Truthful := by
  induction hs with
  | refl => exact truthful_new o
  | perform _ hq hr ih => exact ih.perform hq hr

theorem get?_eq_some_iff {b : Bool} :
    s.imposed.get? h = some ⟨p, b⟩ ↔ s.propagator h = .ok p ∧ s.isEntailed h = .ok b := by
  rw [propagator, isEntailed, Table.get]
  cases s.imposed.get? h with
  | none => simp
  | some i =>
    obtain ⟨q, e⟩ := i
    simp

end Store

end DomainPropagation
