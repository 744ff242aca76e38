import DomainPropagation.Proofs.Constraints

/-! Certainty. A constraint is certain of its box when whatever its test looks at is fixed to values that satisfy
it; then the test says so and no choice of values breaks the constraint, and it stays so in smaller boxes. What is
decided, or fixed and stable, is certain if it is counted right. -/

namespace DomainPropagation

variable {B C : Box} {a : Assignment} {s : Domains}

namespace Count

open scoped Classical

variable {c : Count}

def Certain (c : Count) (B : Box) : Prop :=
  (∀ x ∈ c.subjects, c.value ∈ B x → B x = {c.value}) ∧ B c.counter = {c.most B}

theorem Certain.least_eq_most (h : c.Certain B) : c.least B = c.most B :=
  le_antisymm (c.least_le_most B) (countP_le h.1)

theorem settled_of_decides (hd : c.Decides B) (hf : c.filter B = B) :
    (∀ x ∈ c.subjects, c.value ∈ B x → B x = {c.value}) ∧ B c.counter = {c.high B} := by
  have hkept : ∀ x, ∀ u ∈ B x, u ∈ c.filter B x := fun x u hu => hf.symm ▸ hu
  by_cases hl : IsLeast (B c.counter) (c.high B)
  · have hm := fun x u hu => (mem_filter_of_isLeast hl).1 (hkept x u hu)
    constructor
    · exact fun x hx hv => Set.eq_singleton_iff_unique_mem.2 ⟨hv, fun u hu => (hm x u hu).2.1 hx hv⟩
    · exact Set.eq_singleton_iff_unique_mem.2 ⟨hl.1, fun u hu => (hm _ u hu).2.2 rfl⟩
  · have hg : IsGreatest (B c.counter) (c.low B) := hd.resolve_left hl
    have hm := fun x u hu => (mem_filter_of_isGreatest hl hg).1 (hkept x u hu)
    have hval : ∀ x ∈ c.subjects, c.value ∈ B x → B x = {c.value} := fun x hx hv => (hm x _ hv).2.1 hx rfl
    have hlm : c.low B = c.high B := congrArg wrap (le_antisymm (c.least_le_most B) (countP_le hval))
    refine ⟨hval, Set.eq_singleton_iff_unique_mem.2 ⟨hlm ▸ hg.1, fun u hu => ?_⟩⟩
    exact ((hm _ u hu).2.2 rfl).trans hlm

theorem certain_of_decides (hr : c.InRange) (hd : c.Decides B) (hf : c.filter B = B) : c.Certain B := by
  obtain ⟨hval, hk⟩ := settled_of_decides hd hf
  exact ⟨hval, hk.trans (congrArg _ (hr.high_eq B))⟩

theorem certain_of_fixed (hr : c.InRange) (hf : c.filter B = B) (hB : ∀ x ∈ c.scope, ∃ v, B x = {v}) :
    c.Certain B := by
  have hval : ∀ x ∈ c.subjects, c.value ∈ B x → B x = {c.value} := by
    intro x hx hv
    obtain ⟨v, hx⟩ := hB x (mem_scope_of_mem_subjects hx)
    rw [hx] at hv ⊢
    rw [Set.mem_singleton_iff.1 hv]
  refine ⟨hval, ?_⟩
  obtain ⟨u, hu⟩ := hB c.counter counter_mem_scope
  have hlm : c.most B ≤ c.least B := countP_le hval
  obtain ⟨hl, hm⟩ := filter_counter hr (hf.symm ▸ hu.symm ▸ Set.mem_singleton u : u ∈ c.filter B c.counter)
  rw [hu, le_antisymm hm (hlm.trans hl)]

theorem Certain.mono (h : c.Certain B) (hC : ∀ x ∈ c.scope, C x ⊆ B x ∧ (C x).Nonempty) : c.Certain C := by
  have hS := fun x hx => hC x (mem_scope_of_mem_subjects hx)
  have hval : ∀ x ∈ c.subjects, c.value ∈ B x → C x = {c.value} := fun x hx hv =>
    eq_singleton_of_le (hS x hx).1 (hS x hx).2 (h.1 x hx hv)
  have hmost : c.most C = c.most B :=
    le_antisymm (most_mono fun x hx => (hS x hx).1) (countP_le fun x hx hv => by simp [hval x hx hv])
  refine ⟨fun x hx hv => hval x hx ((hS x hx).1 hv), ?_⟩
  obtain ⟨hk, hk'⟩ := hC c.counter counter_mem_scope
  rw [hmost]
  exact eq_singleton_of_le hk hk' h.2

theorem Certain.holds (h : c.Certain B) (ha : ∀ x ∈ c.scope, a x ∈ B x) : c.Holds a := by
  have hk : a c.counter = c.most B := h.2.subset (ha c.counter counter_mem_scope)
  refine (holds_iff_countP fun x hx => ?_).2 hk
  have hax := ha x (mem_scope_of_mem_subjects hx)
  constructor
  · exact fun he => he ▸ hax
  · intro hv
    rwa [h.1 x hx hv] at hax

/-- No weaker condition than `InRange` will do for a counter that is not counted: with one more subject there are values
that the step leaves as they are, although they break the constraint. -/
theorem inRange_iff (hc : c.counter ∉ c.subjects) :
    c.InRange ↔ ∀ a : Assignment, c.filter (fun x => {a x}) = (fun x => {a x}) → c.Holds a := by
  constructor
  · intro hr a hf
    exact (certain_of_fixed hr hf fun x _ => ⟨a x, rfl⟩).holds fun x _ => rfl
  · intro h
    -- Every subject takes the value, and the counter the number that the step has for them.
    let a : Assignment := fun x => if x = c.counter then wrap c.subjects.length else c.value
    have hval : ∀ x ∈ c.subjects, a x = c.value := fun x hx => if_neg (ne_of_mem_of_not_mem hx hc)
    have hcounter : a c.counter = wrap c.subjects.length := if_pos rfl
    have hmost : c.most (fun x => {a x}) = c.subjects.length := by
      rw [most, List.countP_eq_length.2]
      exact fun x hx => by simp [hval x hx]
    have hf : c.filter (fun x => {a x}) = fun x => {a x} := by
      refine (filter_eq_self_of_settled (fun x hx _ => congrArg _ (hval x hx)) ?_).2
      rw [high, hmost, hcounter]
    have hholds : a c.counter = c.subjects.length := by
      rw [h a hf, List.countP_eq_length.2 fun x hx => beq_iff_eq.2 (hval x hx)]
    exact (wrap_eq_self_iff.1 (hcounter.symm.trans hholds)).2

theorem satisfied_eq (hs : s.WellFormed) (hk : s.Knows c.scope) :
    ∃ e, c.satisfied s = .ok e ∧ (e = true ↔ s.box c.counter = {c.least s.box}) := by
  obtain ⟨d, hd⟩ := hk.get? counter_mem_scope
  obtain ⟨ds, hds, hR⟩ := Domains.Knows.mapM_get fun x hx => hk x (mem_scope_of_mem_subjects hx)
  have hcount : ds.countP (·.isFixedTo c.value) = c.subjects.countP fun x => s.box x = {c.value} := by
    apply countP_eq hR
    intro x e he
    rw [(hs.sound x e he).isFixedTo_iff, Domains.box_of_get? he]
  have hbox : d.isFixedTo (c.least s.box) = true ↔ s.box c.counter = {c.least s.box} := by
    rw [(hs.sound _ d hd).isFixedTo_iff, Domains.box_of_get? hd]
  rw [Count.satisfied, Domains.get_eq_ok_iff.2 hd, ok_bind, ← hbox, Domain.isFixedTo]
  cases d.isFixed with
  | false => exact ⟨false, rfl, Iff.rfl⟩
  | true =>
    rw [if_pos rfl, hds, ok_bind, hcount]
    refine ⟨_, rfl, ?_⟩
    rw [beq_iff_eq, Bool.true_and, beq_iff_eq]
    exact eq_comm

end Count

namespace Greater

variable {g : Greater} {b : Var}

def Agrees (g : Greater) (b : Var) (B : Box) : Prop := ∃ m : Mode, B b = {m.flag} ∧ B g.var ⊆ g.side m

theorem bounded_eq_of_linked (hf : g.linked b B = B) : bounded b B = B :=
  le_antisymm Box.restrict_le (hf.symm.trans_le linked_le_bounded)

theorem agrees_of_fixed {m : Mode} (hf : g.linked b B = B) (h : Fixed b B m) : g.Agrees b B := by
  have hB := bounded_eq_of_linked hf
  rw [linked_of_fixed h, hB] at hf
  rw [Fixed, hB] at h
  exact ⟨m, h, Box.restrict_eq_self_iff.1 hf⟩

theorem agrees_of_links (hl : g.Links b B) (hf : g.linked b B = B) (hx : (B g.var).Nonempty)
    (hb : (B b).Nonempty) : g.Agrees b B := by
  by_cases hfix : ∃ m, Fixed b B m
  · obtain ⟨m, hm⟩ := hfix
    exact agrees_of_fixed hf hm
  · obtain ⟨m, hm⟩ := hl.resolve_left hfix
    have hB := bounded_eq_of_linked hf
    rw [linked_of_implied (not_exists.mp hfix) (hB.symm ▸ hx) hm, hB] at hf
    rw [Implied, hB] at hm
    exact ⟨m, hb.subset_singleton_iff.1 (Box.restrict_eq_self_iff.1 hf), hm⟩

theorem agrees_of_singleton {v : Int} (hf : g.linked b B = B) (hb : B b = {v}) : g.Agrees b B := by
  have hB := bounded_eq_of_linked hf
  have hv : v ∈ B b := hb.symm ▸ Set.mem_singleton v
  obtain ⟨m, rfl⟩ := Mode.exists_eq_flag_iff.2 (Box.restrict_eq_self_iff.1 hB hv)
  exact agrees_of_fixed hf ((congrFun hB b).trans hb)

theorem Agrees.mono (h : g.Agrees b B) (hx : C g.var ⊆ B g.var) (hb : C b ⊆ B b) (hne : (C b).Nonempty) :
    g.Agrees b C := by
  obtain ⟨m, hm, hs⟩ := h
  exact ⟨m, hne.subset_singleton_iff.1 (hm ▸ hb), hx.trans hs⟩

theorem Agrees.holds {serial : Serial} (h : g.Agrees b B) (hx : a g.var ∈ B g.var) (hb : a b ∈ B b) :
    (Reified.mk serial g.toReifiable b).Holds g.Holds a := by
  obtain ⟨m, hm, hs⟩ := h
  rw [hm] at hb
  exact Reified.holds_iff.2 ⟨m, hb, mem_side_iff.1 (hs hx)⟩

theorem satisfied_reified_eq {serial : Serial} (hs : s.WellFormed) (hx : g.var.index < s.count)
    (hb : b.index < s.count) :
    ∃ e, (Reified.mk serial g.toReifiable b).satisfied s = .ok e ∧ (e = true ↔ g.Agrees b s.box) := by
  obtain ⟨d, hd⟩ := Table.lt_size_iff (k := b).1 hb
  have hfix : ∀ m : Mode, d.isFixedTo m.flag = true ↔ s.box b = {m.flag} := by
    intro m
    rw [(hs.sound b d hd).isFixedTo_iff, Domains.box_of_get? hd]
  have hmode : ∀ m, s.box b = {m.flag} → (g.Agrees b s.box ↔ s.box g.var ⊆ g.side m) := by
    intro m hm
    refine ⟨?_, fun hx => ⟨m, hm, hx⟩⟩
    rintro ⟨n, hn, hx⟩
    obtain rfl : n = m := Mode.flag_injective (Set.singleton_injective (hn.symm.trans hm))
    exact hx
  have h1 : d.isFixedTo 1 = true ↔ s.box b = {Mode.flag .enforce} := hfix .enforce
  have h0 : d.isFixedTo 0 = true ↔ s.box b = {Mode.flag .refute} := hfix .refute
  rw [Reified.satisfied, Domains.get_eq_ok_iff.2 hd, ok_bind]
  by_cases he : s.box b = {Mode.flag .enforce}
  · rw [if_pos (h1.2 he), hmode _ he]
    exact satisfied_eq hs hx
  rw [if_neg (mt h1.1 he)]
  by_cases hr : s.box b = {Mode.flag .refute}
  · rw [if_pos (h0.2 hr), hmode _ hr]
    exact refuted_eq hs hx
  · rw [if_neg (mt h0.1 hr)]
    refine ⟨false, rfl, iff_of_false Bool.false_ne_true ?_⟩
    rintro ⟨_ | _, hm, -⟩
    · exact he hm
    · exact hr hm

end Greater

namespace Constraint

variable {c : Constraint}

def Certain : Constraint → Box → Prop
  | .count c => c.Certain
  | .greater g => fun B => B g.var ⊆ g.side .enforce
  | .reified _ g b => g.Agrees b

theorem certain_of_decides (hr : c.InRange) (hd : c.Decides B) (hf : c.filter B = B)
    (hB : ∀ x ∈ c.scope, (B x).Nonempty) : c.Certain B := by
  cases c with
  | count c => exact Count.certain_of_decides hr hd hf
  | greater g => exact hd.elim
  | reified serial g b =>
    exact Greater.agrees_of_links hd hf (hB _ (var_mem_scope serial g b)) (hB _ (truth_mem_scope serial g b))

theorem certain_of_fixed (hr : c.InRange) (hf : c.filter B = B) (hB : ∀ x ∈ c.scope, ∃ v, B x = {v}) :
    c.Certain B := by
  cases c with
  | count c => exact Count.certain_of_fixed hr hf hB
  | greater g => exact Box.restrict_eq_self_iff.1 hf
  | reified serial g b =>
    obtain ⟨v, hv⟩ := hB _ (truth_mem_scope serial g b)
    exact Greater.agrees_of_singleton hf hv

theorem Certain.mono (h : c.Certain B) (hC : ∀ x ∈ c.scope, C x ⊆ B x ∧ (C x).Nonempty) : c.Certain C := by
  cases c with
  | count c => exact Count.Certain.mono h hC
  | greater g => exact (hC _ List.mem_cons_self).1.trans h
  | reified serial g b =>
    obtain ⟨hb, hb'⟩ := hC _ (truth_mem_scope serial g b)
    exact Greater.Agrees.mono h (hC _ (var_mem_scope serial g b)).1 hb hb'

theorem Certain.holds (h : c.Certain B) (ha : ∀ x ∈ c.scope, a x ∈ B x) : c.Holds a := by
  cases c with
  | count c => exact Count.Certain.holds h ha
  | greater g => exact h (ha _ List.mem_cons_self)
  | reified serial g b =>
    exact Greater.Agrees.holds h (ha _ (var_mem_scope serial g b)) (ha _ (truth_mem_scope serial g b))

def Passes : Constraint → Box → Prop
  | .count c => fun B => B c.counter = {c.least B}
  | .greater g => fun B => B g.var ⊆ g.side .enforce
  | .reified _ g b => g.Agrees b

theorem satisfied_eq (c : Constraint) (hs : s.WellFormed) (hk : s.Knows c.scope) :
    ∃ e, c.propagator.satisfied s = .ok e ∧ (e = true ↔ c.Passes s.box) := by
  cases c with
  | count c => exact Count.satisfied_eq hs hk
  | greater g => exact Greater.satisfied_eq hs (hk g.var List.mem_cons_self)
  | reified serial g b =>
    exact Greater.satisfied_reified_eq hs (hk _ (var_mem_scope serial g b)) (hk _ (truth_mem_scope serial g b))

theorem Certain.passes (h : c.Certain B) : c.Passes B := by
  cases c with
  | count c => exact h.2.trans (congrArg _ h.least_eq_most.symm)
  | greater g => exact h
  | reified serial g b => exact h

theorem Certain.satisfied (h : c.Certain s.box) (hs : s.WellFormed) (hk : s.Knows c.scope) :
    c.propagator.satisfied s = .ok true := by
  obtain ⟨e, he, hpass⟩ := c.satisfied_eq hs hk
  rw [he, hpass.2 h.passes]

theorem certain_of_start {t : Domains} {h : Handle} (hr : c.InRange) (hs : s.WellFormed) (hk : s.Knows c.scope)
    (ho : c.propagator.step.start h s = .ok ⟨t, true, .ok ()⟩) : c.Certain t.box := by
  obtain ⟨ht, hst⟩ := Step.run_shrinks hs ho
  have hne : ∀ x ∈ c.scope, (t.box x).Nonempty := fun x hx => ht.sound.nonempty (hk.shrinks hst x hx)
  obtain ⟨hb, hd⟩ := c.of_start hs hk ho
  obtain ⟨hd, hf⟩ := c.settled (hd.1 rfl) fun x hx => ⟨(congrFun hb x).le, hne x hx⟩
  exact certain_of_decides hr hd hf hne

end Constraint

end DomainPropagation
