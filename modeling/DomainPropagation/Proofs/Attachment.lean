import DomainPropagation.Proofs.Attention
import DomainPropagation.Proofs.Scheduling
import DomainPropagation.Proofs.Watching
import DomainPropagation.Store.Backtrack
import Mathlib.Data.List.Perm.Subperm

/-! Attachment of propagators. A propagator that keeps the defaults watches its scope while it is active and
nothing while it is entailed, so entailing it and reinstating it undo each other. -/

namespace DomainPropagation

namespace Store

variable {s t : Store} {E hs : List Handle} {g h : Handle} {p : Propagator} {i : Imposed} {x : Var}
  {w : Watchers} {xs : List Var} {need : Var → Sensitivity} {e : Event}

theorem wireAll_watch
    (hw : (xs.map fun x => (x, need x)).foldlM (fun w (x, need) => w.watch x h need.events) s.watchers = .ok w) :
    s.wireAll h (xs.map fun x => .watch x (need x)) = .ok { s with watchers := w } := by
  induction xs generalizing s with
  | nil => cases hw; rfl
  | cons x xs ih =>
    obtain ⟨v, hv, hw⟩ := bind_eq_ok_iff.1 hw
    have hv : s.watchers.watch x h (need x).events = .ok v := hv
    rw [List.map_cons, wireAll, List.foldlM_cons, wire, hv]
    exact ih (s := { s with watchers := v }) hw

theorem wireAll_unwatch (hw : xs.foldlM (·.unwatch · h) s.watchers = .ok w) :
    s.wireAll h (xs.map .unwatch) = .ok { s with watchers := w } := by
  induction xs generalizing s with
  | nil => cases hw; rfl
  | cons x xs ih =>
    obtain ⟨v, hv, hw⟩ := bind_eq_ok_iff.1 hw
    have hv : s.watchers.unwatch x h = .ok v := hv
    rw [List.map_cons, wireAll, List.foldlM_cons, wire, hv]
    exact ih (s := { s with watchers := v }) hw

/-- Whether a propagator should be woken by an event when those in the list are entailed. -/
def Wants (s : Store) (E : List Handle) (x : Var) (h : Handle) (e : Event) : Prop :=
  h ∉ E ∧ ∃ p, s.propagator? h = some p ∧ x ∈ p.scope ∧ e ∈ (p.need x).events

theorem wants_congr (hp : ∀ h, t.propagator? h = s.propagator? h) : t.Wants E x h e ↔ s.Wants E x h e := by
  rw [Wants, Wants, hp]

/-- The propagators in the list are entailed and watch nothing, all others watch their scopes. -/
structure Attached (s : Store) (E : List Handle) : Prop where
  size : s.watchers.table.size = s.domains.count
  distinct : s.watchers.Distinct
  standard : ∀ h p, s.propagator? h = some p → p.Standard ∧ s.domains.Knows p.scope
  flag : ∀ h i, s.imposed.get? h = some i → (i.entailed = true ↔ h ∈ E)
  nodup : E.Nodup
  known : ∀ h ∈ E, h.index < s.imposed.size
  interest : ∀ x h e, e ∈ s.watchers.interest x h ↔ s.Wants E x h e
  live : s.live + E.length = s.imposed.size

theorem Attached.congr (hs : s.Attached E) (hw : t.watchers = s.watchers)
    (hc : t.domains.count = s.domains.count) (hi : t.imposed = s.imposed) (hl : t.live = s.live) :
    t.Attached E := by
  have hp : ∀ h, t.propagator? h = s.propagator? h := by
    intro h
    rw [propagator?, propagator?, hi]
  refine ⟨?_, ?_, ?_, ?_, hs.nodup, ?_, ?_, ?_⟩
  · rw [hw, hc, hs.size]
  · rw [hw]
    exact hs.distinct
  · intro h p h'
    obtain ⟨hst, hk⟩ := hs.standard h p ((hp h).symm.trans h')
    exact ⟨hst, fun x hx => hc ▸ hk x hx⟩
  · rw [hi]
    exact hs.flag
  · rw [hi]
    exact hs.known
  · intro x h e
    rw [hw, hs.interest, wants_congr hp]
  · rw [hl, hi]
    exact hs.live

theorem length_le_of_nodup {n : Nat} (hn : E.Nodup) (hE : ∀ h ∈ E, h.index < n) : E.length ≤ n := by
  have hinj : Function.Injective Handle.index := fun g h he => Handle.key_inj.1 he
  have hsub : E.map Handle.index ⊆ List.range n := by
    intro k hk
    obtain ⟨h, hh, rfl⟩ := List.mem_map.1 hk
    exact List.mem_range.2 (hE h hh)
  simpa using (List.subperm_of_subset (hn.map hinj) hsub).length_le

theorem wants_iff (hp : s.propagator? h = some p) :
    s.Wants E x h e ↔ h ∉ E ∧ x ∈ p.scope ∧ e ∈ (p.need x).events := by
  rw [Wants, hp]
  simp

theorem wants_cons_of_ne (hg : g ≠ h) : s.Wants (h :: E) x g e ↔ s.Wants E x g e := by
  rw [Wants, Wants, List.mem_cons, not_or, and_iff_right hg]

theorem Attached.reflag {b : Bool} {F : List Handle} {n : Nat} (hs : s.Attached E) (hp : s.propagator? h = some p)
    (hF : ∀ g, g ∈ F ↔ if g = h then b = true else g ∈ E) (hn : F.Nodup)
    (hsize : w.table.size = s.watchers.table.size) (hw : w.Distinct)
    (hint : ∀ x g e, e ∈ w.interest x g ↔ s.Wants F x g e) (hlive : n + F.length = s.imposed.size) :
    Attached { s with watchers := w, imposed := s.imposed.modify h ({ · with entailed := b }), live := n } F where
  size := hsize.trans hs.size
  distinct := hw
  standard := by
    intro g q hq
    rw [propagator?_flag (s := s) rfl] at hq
    exact hs.standard g q hq
  flag := by
    intro g i hi
    simp only [Table.get?_modify, Handle.key_inj] at hi
    rw [hF]
    by_cases hg : g = h
    · rw [if_pos hg.symm] at hi
      obtain ⟨j, -, rfl⟩ := Option.map_eq_some_iff.1 hi
      rw [if_pos hg]
    · rw [if_neg (Ne.symm hg)] at hi
      rw [if_neg hg]
      exact hs.flag g i hi
  nodup := hn
  known := by
    intro g hg
    refine lt_of_lt_of_eq ?_ (Table.size_modify ..).symm
    have hg := (hF g).1 hg
    split at hg
    · next he => exact he ▸ lt_size_of_propagator? hp
    · exact hs.known g hg
  interest := by
    intro x g e
    rw [hint]
    exact (wants_congr fun g => propagator?_flag rfl).symm
  live := hlive.trans (Table.size_modify ..).symm

theorem Attached.entail (hs : s.Attached E) (hp : s.propagator? h = some p) (hE : h ∉ E) :
    ∃ t, s.entail h p = .ok ⟨(), t, [.entailed p.description s.level]⟩ ∧ t.Attached (h :: E) ∧
      t = { s with
        watchers := t.watchers
        imposed := s.imposed.modify h ({ · with entailed := true })
        entailments := s.entailments.push h
        live := s.live - 1 } := by
  obtain ⟨hst, hk⟩ := hs.standard h p hp
  have hnodup : (h :: E).Nodup := List.nodup_cons.2 ⟨hE, hs.nodup⟩
  obtain ⟨w, hw, hsize, hdist, hint⟩ :=
    Watchers.foldlM_unwatch_spec hs.distinct (fun x hx => hs.size ▸ hk x hx) h
  refine ⟨{ s with
    watchers := w
    imposed := s.imposed.modify h ({ · with entailed := true })
    entailments := s.entailments.push h
    live := s.live - 1 }, ?_, Attached.congr (hs.reflag hp ?_ hnodup hsize hdist ?_ ?_) rfl rfl rfl rfl, rfl⟩
  · rw [Store.entail, hst.detach, wireAll_unwatch hw]
    rfl
  · intro g
    by_cases hg : g = h <;> simp [hg]
  · intro x g e
    rw [hint]
    by_cases hg : g = h
    · subst hg
      by_cases hx : x ∈ p.scope
      · simp [hx, Wants]
      · simp [hx, hs.interest, wants_iff hp]
    · simp [hg, hs.interest, Wants]
  · -- Without a bound on the number of entailed propagators, `live - 1` might be cut off at zero.
    have hlen : (h :: E).length ≤ s.imposed.size := by
      apply length_le_of_nodup hnodup
      intro g hg
      rcases List.mem_cons.1 hg with rfl | hg
      · exact lt_size_of_propagator? hp
      · exact hs.known g hg
    have hlive := hs.live
    rw [List.length_cons] at hlen ⊢
    omega

theorem Attached.reinstate (hs : s.Attached (h :: E)) :
    ∃ t, s.reinstate h = .ok t ∧ t.Attached E ∧
      t = { s with
        watchers := t.watchers
        imposed := s.imposed.modify h ({ · with entailed := false })
        live := s.live + 1 } := by
  obtain ⟨hE, hnodup⟩ := List.nodup_cons.1 hs.nodup
  obtain ⟨i, hi⟩ := Table.lt_size_iff (k := h).1 (hs.known h List.mem_cons_self)
  have hp := propagator?_of_get? hi
  obtain ⟨hst, hk⟩ := hs.standard h i.propagator hp
  obtain ⟨w, hw, hsize, hdist, hint⟩ := Watchers.foldlM_watch_spec i.propagator.need hs.distinct
    (fun x hx => hs.size ▸ hk x hx) h
  refine ⟨{ s with
    watchers := w
    imposed := s.imposed.modify h ({ · with entailed := false })
    live := s.live + 1 }, ?_, hs.reflag hp ?_ hnodup hsize hdist ?_ ?_, rfl⟩
  · rw [Store.reinstate, Table.get_eq_ok_iff.2 hi, ok_bind]
    change watchAll _ h i.propagator.registrations = _
    rw [hst.registrations, watchAll, hw]
    rfl
  · intro g
    by_cases hg : g = h <;> simp [hg, hE]
  · intro x g e
    rw [hint]
    by_cases hg : g = h
    · subst hg
      have hnone : e ∉ s.watchers.interest x g := by simp [hs.interest, Wants]
      rw [wants_iff hp]
      by_cases hx : x ∈ i.propagator.scope
      · simp [hx, hE, hnone]
      · simp [hx, hnone]
    · rw [if_neg fun hc => hg hc.1, hs.interest, wants_cons_of_ne hg]
  · have hlive : s.live + (E.length + 1) = s.imposed.size := hs.live
    omega

theorem Attached.reinstateAll {F : List Handle} (hs : s.Attached (F ++ E)) :
    ∃ t, F.foldlM Store.reinstate s = .ok t ∧ t.Attached E ∧ t.propagator? = s.propagator? ∧
      t.imposed.size = s.imposed.size ∧
      t = { s with watchers := t.watchers, imposed := t.imposed, live := t.live } := by
  induction F generalizing s with
  | nil => exact ⟨s, rfl, hs, rfl, rfl, rfl⟩
  | cons h F ih =>
    obtain ⟨u, hu, hau, heq⟩ := Attached.reinstate hs
    obtain ⟨t, ht, hat, hpt, hst, heq'⟩ := ih hau
    refine ⟨t, ?_, hat, ?_, ?_, ?_⟩
    · rw [List.foldlM_cons, hu]
      exact ht
    · rw [hpt]
      funext g
      exact propagator?_flag (congrArg Store.imposed heq)
    · rw [hst, congrArg Store.imposed heq]
      exact Table.size_modify ..
    · rw [heq', heq]

theorem Attached.impose (hs : s.Attached E) (hp : p.Standard) (hk : s.domains.Knows p.scope)
    (hf : s.agenda.Filed s.rank) (hnew : (⟨s.imposed.size⟩ : Handle) ∉ s.agenda.toList) :
    ∃ t, Store.wireAll { s with imposed := s.imposed.push ⟨p, false⟩ } ⟨s.imposed.size⟩ p.attach = .ok t ∧
      t.Attached E ∧ t.agenda.Filed t.rank ∧
      (∃ L R, s.agenda.toList = L ++ R ∧ t.agenda.toList = L ++ ⟨s.imposed.size⟩ :: R) ∧
      t = { s with
        watchers := t.watchers
        agenda := t.agenda
        imposed := s.imposed.push ⟨p, false⟩
        live := s.live + 1 } := by
  let h : Handle := ⟨s.imposed.size⟩
  have hE : h ∉ E := fun hE => Nat.lt_irrefl _ (hs.known h hE)
  obtain ⟨w, hw, hsize, hdist, hint⟩ := Watchers.foldlM_watch_spec p.need hs.distinct
    (fun x hx => hs.size ▸ hk x hx) h
  let u : Store := { s with imposed := s.imposed.push ⟨p, false⟩, watchers := w }
  have himp : ∀ g, u.propagator? g = if g = h then some p else s.propagator? g := by
    intro g
    rw [propagator?_push (s := s) rfl]
    simp only [← Handle.key_inj]
    rfl
  have hnone : s.propagator? h = none := by
    cases hn : s.propagator? h with
    | none => rfl
    | some q => exact absurd (lt_size_of_propagator? hn) (Nat.lt_irrefl _)
  have hfu : u.agenda.Filed u.rank := by
    refine hf.congr fun g hg => rank_congr ?_
    have hne : g ≠ h := fun he => hnew (he ▸ hg : h ∈ s.agenda.toList)
    rw [himp, if_neg hne]
  obtain ⟨a, ha, hpush⟩ := schedule_spec hfu (h := h) (p := p) (by rw [himp, if_pos rfl])
  obtain ⟨b, hb, hfa, hpos⟩ := hfu.push (u.rank_lt h)
  cases hpush.symm.trans hb
  let t : Store := { u with agenda := a, live := s.live + 1 }
  refine ⟨t, ?_, ⟨hsize.trans hs.size, hdist, ?_, ?_, hs.nodup, ?_, ?_, ?_⟩, hfa, ?_, rfl⟩
  · rw [hp.attach, wireAll, List.foldlM_append]
    change wireAll _ h (p.scope.map fun x => .watch x (p.need x)) >>= _ = _
    rw [wireAll_watch (s := { s with imposed := s.imposed.push ⟨p, false⟩ }) hw, ok_bind, List.foldlM_cons]
    change u.schedule h >>= _ = _
    rw [ha]
    rfl
  · intro g q hq
    have hq := (himp g).symm.trans hq
    split at hq
    · cases hq
      exact ⟨hp, hk⟩
    · exact hs.standard g q hq
  · intro g i hi
    rw [Table.get?_push] at hi
    split at hi
    · next hg =>
      cases hi
      rw [show g = h from Handle.key_inj.1 hg]
      exact iff_of_false Bool.false_ne_true hE
    · exact hs.flag g i hi
  · intro g hg
    exact (Nat.lt_succ_of_lt (hs.known g hg)).trans_eq (Table.size_push ..).symm
  · intro x g e
    rw [hint, Wants, show t.propagator? g = _ from himp g]
    by_cases hg : g = h
    · subst hg
      have hold : e ∉ s.watchers.interest x h := by simp [hs.interest, Wants, hnone]
      by_cases hx : x ∈ p.scope
      · simp [hx, hE, hold]
      · simp [hx, hold]
    · simp [hg, hs.interest, Wants]
  · have hlive := hs.live
    rw [show t.imposed.size = s.imposed.size + 1 from Table.size_push ..]
    change s.live + 1 + E.length = _
    omega
  · rcases hpos with ⟨hm, -⟩ | ⟨-, L, R, hL, hR, -, -⟩
    · exact absurd hm hnew
    · exact ⟨L, R, hL, hR⟩

end Store

end DomainPropagation
