import DomainPropagation.Proofs.Box
import DomainPropagation.Proofs.Trimming

/-! Cuts on the state of all domains. A cut keeps exactly the values it admits, or is refused and changes
nothing when it admits none; either way the state shrinks and stays well formed. -/

namespace DomainPropagation

def Cut.toSet : Cut → Set Int
  | .atLeast b => {v | b ≤ v}
  | .atMost b => {v | v ≤ b}
  | .without w => {v | v ≠ w}
  | .within l u => {v | l ≤ v ∧ v ≤ u}

theorem Cut.toSet_exactly (v : Int) : (Cut.exactly v).toSet = {v} := by
  ext u
  simp only [exactly, toSet, Set.mem_ofPred_eq, Set.mem_singleton_iff]
  omega

namespace Domains

variable {s t : Domains} {x y : Var} {d new : Domain} {removed : Option Int} {events : List Event}
  {S : Set Int} {w : Written} {l u v : Int}

/-- What it means that a variable was asked to keep only the values in a set. -/
structure Narrows (s : Domains) (x : Var) (S : Set Int) (w : Written) : Prop where
  wellFormed : w.domains.WellFormed
  shrinks : s.Shrinks w.domains
  status : w.status = .ok () ∧ w.domains.box = s.box.restrict x S ∨
    w.status = .error ⟨x⟩ ∧ w.domains = s ∧ s.box x ∩ S = ∅

theorem narrows_unchanged (hs : s.WellFormed) (h : ∀ v ∈ s.box x, v ∈ S) : s.Narrows x S s.unchanged where
  wellFormed := hs
  shrinks := .refl s
  status := by
    exact .inl ⟨rfl, (Box.restrict_eq_self_iff.2 h).symm⟩

theorem narrows_refused (hs : s.WellFormed) (h : ∀ v ∈ s.box x, v ∉ S) : s.Narrows x S (s.refused x) where
  wellFormed := hs
  shrinks := .refl s
  status := by
    refine .inr ⟨rfl, rfl, Set.eq_empty_of_forall_notMem ?_⟩
    rintro v ⟨hv, hS⟩
    exact h v hv hS

theorem box_modify (hx : s.table.get? x = some d) (hS : new.toSet = d.toSet ∩ S) :
    (s.table.modify x fun _ => new).box = s.box.restrict x S := by
  funext y
  by_cases hy : y = x
  · subst hy
    rw [Box.restrict_self, box_of_get? hx, ← hS]
    exact Table.box_of_get? (by simp [Table.get?_modify, hx])
  · rw [Box.restrict_of_ne hy]
    ext v
    simp [box, Table.box, Table.get?_modify, Ne.symm hy]

theorem undo_modify (hx : s.table.get? x = some d) (h : Change.revert ⟨x, l, u, removed⟩ new = d) :
    undo (s.table.modify x fun _ => new) ⟨x, l, u, removed⟩ = s.table := by
  rw [undo, Table.modify_modify]
  apply Table.modify_eq_self
  intro e he
  rw [h]
  exact Option.some.inj (hx.symm.trans he)

theorem revert_trim (hd : d.WellFormed) (h : d.Trim removed events new) :
    Change.revert ⟨x, d.lower, d.upper, removed⟩ new = d := by
  cases h with
  | take hv he => exact (hd.erase?_eq_some hv he).2.2
  | _ => rfl

theorem shrinks_replaced {p : Pending} (hd : d.WellFormed) (hx : s.table.get? x = some d)
    (h : d.Trim removed events new) (hS : new.toSet = d.toSet ∩ S)
    (hp : ∀ e y, (e, y) ∈ p.events ↔
      (e, y) ∈ s.pending.events ∨ e ∈ (if new.isFixed then events ++ [.assign] else events) ∧ y = x) :
    s.Shrinks ⟨s.table.modify x fun _ => new, s.trail.push ⟨x, d.lower, d.upper, removed⟩, p⟩ := by
  have hbox : (s.table.modify x fun _ => new).box = s.box.restrict x S := box_modify hx hS
  have hbx : (s.table.modify x fun _ => new).box x = new.toSet := by
    rw [hbox, Box.restrict_self, box_of_get? hx, hS]
  refine ⟨Table.size_modify .., hbox.trans_le Box.restrict_le, ?_, ?_, ?_, ?_, ?_⟩
  · exact ⟨_, Trail.push_eq_extend .., undo_modify hx (revert_trim hd h)⟩
  · rintro ⟨f, y⟩ hf
    exact (hp f y).2 (.inl hf)
  · -- The events of the change tell of `x`, and nothing is to be told of any other variable.
    intro y need hy
    change need.Tells (s.box y) ((s.table.modify x fun _ => new).box y) at hy
    by_cases hyx : y = x
    · subst hyx
      rw [box_of_get? hx, hbx] at hy
      obtain ⟨e, hne, he⟩ := h.told hd hy
      refine ⟨e, hne, (hp e y).2 (.inr ⟨?_, rfl⟩)⟩
      split <;> simp [he]
    · rw [hbox, Box.restrict_of_ne hyx] at hy
      exact absurd rfl hy.ne
  · intro e y hy
    apply ((hp e y).1 hy).imp_right
    rintro ⟨hm, rfl⟩
    change e.Happens (s.box y) ((s.table.modify y fun _ => new).box y)
    rw [box_of_get? hx, hbx]
    exact h.happens hd hm
  · intro hb
    exact absurd (hbx.symm.trans ((congrFun hb x).trans (box_of_get? hx))) (h.ne hd)

theorem replace_spec (hs : s.WellFormed) (hx : s.table.get? x = some d) (h : d.Trim removed events new)
    (hS : new.toSet = d.toSet ∩ S) :
    ∃ w, s.replace x d new removed events = .ok w ∧ s.Narrows x S w := by
  have hd := hs.sound x d hx
  have hlt : x.index < s.count := Table.lt_size_iff.2 ⟨d, hx⟩
  obtain ⟨p, hp, hwp, hsp, hmp⟩ := Pending.foldlM_note_spec hs.pending (hs.seen ▸ hlt)
    (if new.isFixed then events ++ [.assign] else events)
  have hshrinks := shrinks_replaced hd hx h hS hmp
  have hknown : ∀ c ∈ (s.trail.push ⟨x, d.lower, d.upper, removed⟩).entries,
      c.var.index < (s.table.modify x fun _ => new).size := by
    intro c hc
    rw [Table.size_modify]
    rcases List.mem_cons.1 hc with rfl | hc
    · exact hlt
    · exact hs.known c hc
  have hwf := hshrinks.wellFormed hs (hs.sound.modify (h.wellFormed hd)) hknown hwp hsp
  refine ⟨unchanged _, ?_, hwf, hshrinks, .inl ⟨rfl, box_modify hx hS⟩⟩
  rw [replace, hp]
  rfl

theorem cutBelow_spec (hs : s.WellFormed) (hx : s.table.get? x = some d) (b : Int) :
    ∃ w, s.cutBelow x b = .ok w ∧ s.Narrows x {v | b ≤ v} w := by
  have hd := hs.sound x d hx
  have hb := box_of_get? hx
  rw [cutBelow, get_eq_ok_iff.2 hx, ok_bind]
  split
  · next hle =>
    refine ⟨_, rfl, narrows_unchanged hs fun v hv => ?_⟩
    rw [hb] at hv
    exact hle.trans (Domain.lower_le hv)
  · next hlt =>
    split
    · next hn =>
      refine ⟨_, rfl, narrows_refused hs fun v hv => ?_⟩
      rw [hb] at hv
      exact not_le.mpr (Domain.firstFrom?_eq_none hn hv)
    · next l hl =>
      have hl := Domain.firstFrom?_isLeast hl
      exact replace_spec hs hx (.raise ((not_le.1 hlt).trans_le hl.1.2) hl.1.1) (Domain.toSet_withLower hl)

theorem cutAbove_spec (hs : s.WellFormed) (hx : s.table.get? x = some d) (b : Int) :
    ∃ w, s.cutAbove x b = .ok w ∧ s.Narrows x {v | v ≤ b} w := by
  have hd := hs.sound x d hx
  have hb := box_of_get? hx
  rw [cutAbove, get_eq_ok_iff.2 hx, ok_bind]
  split
  · next hle =>
    refine ⟨_, rfl, narrows_unchanged hs fun v hv => ?_⟩
    rw [hb] at hv
    exact (Domain.le_upper hv).trans hle
  · next hlt =>
    split
    · next hn =>
      refine ⟨_, rfl, narrows_refused hs fun v hv => ?_⟩
      rw [hb] at hv
      exact not_le.mpr (Domain.lastUpTo?_eq_none hn hv)
    · next u hu =>
      have hu := Domain.lastUpTo?_isGreatest hu
      exact replace_spec hs hx (.drop (hu.1.2.trans_lt (not_le.1 hlt)) hu.1.1) (Domain.toSet_withUpper hu)

theorem cutOut_spec (hs : s.WellFormed) (hx : s.table.get? x = some d) (v : Int) :
    ∃ w, s.cutOut x v = .ok w ∧ s.Narrows x {u | u ≠ v} w := by
  have hd := hs.sound x d hx
  have hb := box_of_get? hx
  rw [cutOut, get_eq_ok_iff.2 hx, ok_bind]
  split
  · next hv =>
    split
    · next hn =>
      refine ⟨_, rfl, narrows_refused hs fun u hu => ?_⟩
      rw [hb, hd.erase?_eq_none hv hn] at hu
      exact not_not.mpr hu
    · next new he =>
      exact replace_spec hs hx (.take hv he) (hd.erase?_eq_some hv he).2.1
  · next hv =>
    refine ⟨_, rfl, narrows_unchanged hs fun u hu => ?_⟩
    rw [hb] at hu
    rintro rfl
    exact hv hu

theorem Narrows.andThen {S T : Set Int} {w w' : Written} (h : s.Narrows x S w)
    (h' : w.domains.Narrows x T w') (hS : (s.box x ∩ (S ∩ T)).Nonempty) : s.Narrows x (S ∩ T) w' := by
  obtain ⟨v, hv, hvS, hvT⟩ := hS
  have hbox : w.domains.box = s.box.restrict x S := by
    rcases h.status with ⟨-, hb⟩ | ⟨-, -, he⟩
    · exact hb
    · exact absurd (Set.mem_inter hv hvS) (he ▸ Set.notMem_empty v)
  refine ⟨h'.wellFormed, h.shrinks.trans h'.shrinks, ?_⟩
  rcases h'.status with ⟨hok, hb⟩ | ⟨-, -, he⟩
  · refine .inl ⟨hok, ?_⟩
    rw [hb, hbox]
    ext y u
    simp only [Box.mem_restrict, Set.mem_inter_iff]
    tauto
  · have : v ∈ w.domains.box x ∩ T := by
      rw [hbox]
      exact ⟨⟨hv, fun _ => hvS⟩, hvT⟩
    exact absurd this (he ▸ Set.notMem_empty v)

theorem Narrows.status_ok (h : s.Narrows x S w) (hS : (s.box x ∩ S).Nonempty) : w.status = .ok () := by
  rcases h.status with ⟨hok, -⟩ | ⟨-, -, he⟩
  · exact hok
  · exact absurd hS (he ▸ Set.not_nonempty_empty)

theorem Narrows.exists_domain (h : s.Narrows x S w) (hx : s.table.get? x = some d) :
    ∃ e, w.domains.table.get? x = some e := by
  have hlt : x.index < s.count := Table.lt_size_iff.2 ⟨d, hx⟩
  exact Table.lt_size_iff.1 (h.shrinks.count.symm ▸ hlt : x.index < w.domains.count)

theorem cutAround_spec (hs : s.WellFormed) (hx : s.table.get? x = some d) (l u : Int) :
    ∃ w, s.cutAround x l u = .ok w ∧ s.Narrows x {v | l ≤ v ∧ v ≤ u} w := by
  have hb := box_of_get? hx
  rw [cutAround, get_eq_ok_iff.2 hx, ok_bind]
  split
  · next ha =>
    obtain ⟨v, hv, hvu⟩ := (Option.any_eq_true ..).1 ha
    obtain ⟨hlv, hv⟩ := Domain.of_firstFrom? hv
    have hvb : v ∈ s.box x := hb ▸ hv
    have hvu := of_decide_eq_true hvu
    -- Some value lies within both bounds, so the first cut cannot be refused.
    obtain ⟨w, hw, hN⟩ := cutBelow_spec hs hx l
    obtain ⟨e, he⟩ := hN.exists_domain hx
    obtain ⟨w', hw', hN'⟩ := cutAbove_spec hN.wellFormed he u
    refine ⟨w', ?_, hN.andThen hN' ⟨v, hvb, hlv, hvu⟩⟩
    rw [hw, ok_bind, Written.andThen, hN.status_ok ⟨v, hvb, hlv⟩]
    exact hw'
  · next ha =>
    refine ⟨_, rfl, narrows_refused hs fun v hv => ?_⟩
    rintro ⟨hlv, hvu⟩
    rw [hb] at hv
    cases hf : d.firstFrom? l with
    | none => exact absurd hlv (not_le.mpr (Domain.firstFrom?_eq_none hf hv))
    | some f =>
      have hfv := (Domain.firstFrom?_isLeast hf).2 ⟨hv, hlv⟩
      exact ha ((Option.any_eq_true ..).2 ⟨f, hf, decide_eq_true (hfv.trans hvu)⟩)

theorem cut_spec (hs : s.WellFormed) (hx : x.index < s.count) (c : Cut) :
    ∃ w, s.cut x c = .ok w ∧ s.Narrows x c.toSet w := by
  obtain ⟨d, hd⟩ := Table.lt_size_iff (k := x).1 hx
  cases c with
  | atLeast b => exact cutBelow_spec hs hd b
  | atMost b => exact cutAbove_spec hs hd b
  | without v => exact cutOut_spec hs hd v
  | within l u => exact cutAround_spec hs hd l u

theorem lt_count_of_cut {c : Cut} (h : s.cut x c = .ok w) : x.index < s.count := by
  cases c
  all_goals
    obtain ⟨d, hd, -⟩ := bind_eq_ok_iff.1 h
    exact Table.lt_size_iff.2 ⟨d, Table.get?_of_get hd⟩

theorem narrows_of_cut {c : Cut} (hs : s.WellFormed) (h : s.cut x c = .ok w) : s.Narrows x c.toSet w := by
  obtain ⟨w', hw', hN⟩ := cut_spec hs (lt_count_of_cut h) c
  cases h.symm.trans hw'
  exact hN

end Domains

end DomainPropagation
