import DomainPropagation.Constraint.Greater
import DomainPropagation.Constraint.Reified
import DomainPropagation.Proofs.Filters

/-! The comparison with a constant and its reification as filters of boxes. The truth variable may be the
compared variable, so both are spoken of through the box and never one at a time. -/

namespace DomainPropagation

variable {s t : Domains} {g : Greater} {b x y : Var} {m n : Mode} {A B C : Box} {u v w : Int}

def Mode.flag : Mode → Int
  | .enforce => 1
  | .refute => 0

theorem Mode.flag_injective (h : m.flag = n.flag) : m = n := by
  cases m <;> cases n <;> first | rfl | cases h

theorem Mode.exists_eq_flag_iff : (∃ m : Mode, w = m.flag) ↔ 0 ≤ w ∧ w ≤ 1 := by
  constructor
  · rintro ⟨_ | _, rfl⟩ <;> decide
  · rintro ⟨h0, h1⟩
    rcases Int.le_iff_lt_or_eq.mp h0 with h | h
    · exact ⟨.enforce, by change w = 1; omega⟩
    · exact ⟨.refute, h.symm⟩

def Mode.means (H : Assignment → Prop) : Mode → Assignment → Prop
  | .enforce => H
  | .refute => fun a => ¬ H a

namespace Reifiable

def rule (p : Reifiable) : Mode → Step Unit
  | .enforce => p.step
  | .refute => p.refuteStep

def test (p : Reifiable) : Mode → Domains → Except Misuse Bool
  | .enforce => p.satisfied
  | .refute => p.refuted

end Reifiable

namespace Reified

variable {r : Reified} {H : Assignment → Prop} {a : Assignment}

theorem mem_scope : x ∈ r.scope ↔ x ∈ r.inner.scope ∨ x = r.truth := by
  rw [scope]
  split
  · next h => exact ⟨.inl, fun hx => hx.elim id fun he => he ▸ h⟩
  · rw [List.mem_append, List.mem_singleton]

theorem knows_scope : s.Knows r.scope ↔ s.Knows r.inner.scope ∧ r.truth.index < s.count := by
  simp only [Domains.Knows, mem_scope, or_imp, forall_and, forall_eq]

theorem holds_iff_of_truth (h : a r.truth = m.flag) : r.Holds H a ↔ m.means H a := by
  rw [Holds, h]
  cases m with
  | enforce => exact ⟨fun hr => hr.2.1 rfl, fun hH => ⟨.inr rfl, iff_of_true rfl hH⟩⟩
  | refute => exact ⟨fun hr hH => absurd (hr.2.2 hH) (by decide), fun hH => ⟨.inl rfl, iff_of_false (by decide) hH⟩⟩

theorem holds_iff : r.Holds H a ↔ ∃ m : Mode, a r.truth = m.flag ∧ m.means H a := by
  constructor
  · intro h
    obtain ⟨m, hm⟩ : ∃ m : Mode, a r.truth = m.flag := h.1.elim (⟨.refute, ·⟩) (⟨.enforce, ·⟩)
    exact ⟨m, hm, (holds_iff_of_truth hm).1 h⟩
  · rintro ⟨m, hm, h⟩
    exact (holds_iff_of_truth hm).2 h

theorem holds_iff_of_means (h : m.means H a) : r.Holds H a ↔ a r.truth = m.flag := by
  rw [holds_iff]
  refine ⟨?_, fun hm => ⟨m, hm, h⟩⟩
  rintro ⟨n, hn, h'⟩
  cases m <;> cases n
  · exact hn
  · exact absurd h h'
  · exact absurd h' h
  · exact hn

end Reified

namespace Greater

def side (g : Greater) : Mode → Set Int
  | .enforce => {v | g.constant < v}
  | .refute => {v | v ≤ g.constant}

theorem mem_side_iff {a : Assignment} : a g.var ∈ g.side m ↔ m.means g.Holds a := by
  cases m with
  | enforce => exact Iff.rfl
  | refute => exact Int.not_lt.symm

theorem side_disjoint (hm : w ∈ g.side m) (hn : w ∈ g.side n) : m = n := by
  cases m <;> cases n
  · rfl
  · exact absurd (show w ≤ g.constant from hn) (not_le.mpr hm)
  · exact absurd (show w ≤ g.constant from hm) (not_le.mpr hn)
  · rfl

theorem filters_step (hs : s.WellFormed) (hx : g.var.index < s.count) :
    g.step.Filters s (s.box.restrict g.var (g.side .enforce)) False := by
  rw [step]
  split
  · next hc =>
    apply Step.filters_fail hx
    rw [Box.restrict_self]
    apply Set.eq_empty_of_forall_notMem
    rintro v ⟨hv, hvc⟩
    exact absurd (hs.sound.le_maxValue hv) (not_le.mpr (lt_of_le_of_lt hc hvc))
  · exact Step.filters_restrict hs hx (.atLeast (g.constant + 1))

theorem filters_refuteStep (hs : s.WellFormed) (hx : g.var.index < s.count) :
    g.refuteStep.Filters s (s.box.restrict g.var (g.side .refute)) False :=
  Step.filters_restrict hs hx (.atMost g.constant)

theorem satisfied_eq (hs : s.WellFormed) (hx : g.var.index < s.count) :
    ∃ e, g.satisfied s = .ok e ∧ (e = true ↔ s.box g.var ⊆ g.side .enforce) := by
  obtain ⟨d, hd⟩ := Table.lt_size_iff (k := g.var).1 hx
  refine ⟨_, by rw [satisfied, Domains.lower, Domains.get_eq_ok_iff.2 hd]; rfl, ?_⟩
  rw [decide_eq_true_eq, Domains.box_of_get? hd]
  constructor
  · exact fun h v hv => lt_of_lt_of_le h (Domain.lower_le hv)
  · exact fun h => h (hs.sound _ d hd).lower_mem

theorem refuted_eq (hs : s.WellFormed) (hx : g.var.index < s.count) :
    ∃ e, g.refuted s = .ok e ∧ (e = true ↔ s.box g.var ⊆ g.side .refute) := by
  obtain ⟨d, hd⟩ := Table.lt_size_iff (k := g.var).1 hx
  refine ⟨_, by rw [refuted, Domains.upper, Domains.get_eq_ok_iff.2 hd]; rfl, ?_⟩
  rw [decide_eq_true_eq, Domains.box_of_get? hd]
  constructor
  · exact fun h v hv => (Domain.le_upper hv).trans h
  · exact fun h => h (hs.sound _ d hd).upper_mem

theorem filters_rule (m : Mode) (hs : s.WellFormed) (hx : g.var.index < s.count) :
    (g.toReifiable.rule m).Filters s (s.box.restrict g.var (g.side m)) False := by
  cases m with
  | enforce => exact filters_step hs hx
  | refute => exact filters_refuteStep hs hx

theorem test_eq (m : Mode) (hs : s.WellFormed) (hx : g.var.index < s.count) :
    ∃ e, g.toReifiable.test m s = .ok e ∧ (e = true ↔ s.box g.var ⊆ g.side m) := by
  cases m with
  | enforce => exact satisfied_eq hs hx
  | refute => exact refuted_eq hs hx

theorem side_iff_of_not_tells (hle : C x ⊆ B x) (h : ¬ Sensitivity.bounds.Tells (B x) (C x)) :
    C x ⊆ g.side m ↔ B x ⊆ g.side m := by
  refine ⟨fun hC => ?_, hle.trans⟩
  simp only [Sensitivity.Tells, not_or, ne_eq, not_not] at h
  cases m with
  | enforce =>
    have : g.constant + 1 ∈ lowerBounds (C x) := fun v hv => hC hv
    rw [← h.1] at this
    exact fun v hv => this hv
  | refute =>
    have : g.constant ∈ upperBounds (C x) := fun v hv => hC hv
    rw [← h.2] at this
    exact fun v hv => this hv

open scoped Classical

def bounded (b : Var) (B : Box) : Box := B.restrict b {v | 0 ≤ v ∧ v ≤ 1}

noncomputable def linked (g : Greater) (b : Var) (B : Box) : Box :=
  let C := bounded b B
  if C b = {Mode.flag .enforce} then C.restrict g.var (g.side .enforce)
  else if C b = {Mode.flag .refute} then C.restrict g.var (g.side .refute)
  else if C g.var ⊆ g.side .enforce then C.restrict b {Mode.flag .enforce}
  else if C g.var ⊆ g.side .refute then C.restrict b {Mode.flag .refute}
  else C

def Fixed (b : Var) (B : Box) (m : Mode) : Prop := bounded b B b = {m.flag}

def Implied (g : Greater) (b : Var) (B : Box) (m : Mode) : Prop := bounded b B g.var ⊆ g.side m

def Links (g : Greater) (b : Var) (B : Box) : Prop := (∃ m, Fixed b B m) ∨ ∃ m, g.Implied b B m

theorem Fixed.unique (hm : Fixed b B m) (hn : Fixed b B n) : m = n :=
  Mode.flag_injective (Set.singleton_injective (hm.symm.trans hn))

theorem linked_of_fixed (h : Fixed b B m) : g.linked b B = (bounded b B).restrict g.var (g.side m) := by
  rw [linked]
  cases m with
  | enforce => exact if_pos h
  | refute =>
    have hn : ¬ Fixed b B .enforce := fun hn => nomatch h.unique hn
    exact (if_neg hn).trans (if_pos h)

theorem linked_of_implied (hn : ∀ n, ¬ Fixed b B n) (hx : (bounded b B g.var).Nonempty)
    (h : g.Implied b B m) : g.linked b B = (bounded b B).restrict b {m.flag} := by
  rw [linked]
  refine (if_neg (hn .enforce)).trans ((if_neg (hn .refute)).trans ?_)
  cases m with
  | enforce => exact if_pos h
  | refute =>
    obtain ⟨w, hw⟩ := hx
    have hn : ¬ g.Implied b B .enforce := fun hn => nomatch side_disjoint (hn hw) (h hw)
    exact (if_neg hn).trans (if_pos h)

theorem linked_of_not_links (h : ¬ g.Links b B) : g.linked b B = bounded b B := by
  rw [Links, not_or, not_exists, not_exists] at h
  rw [linked]
  exact (if_neg (h.1 .enforce)).trans ((if_neg (h.1 .refute)).trans
    ((if_neg (h.2 .enforce)).trans (if_neg (h.2 .refute))))

theorem bounded_mono (h : A ≤ B) : bounded b A ≤ bounded b B := Box.restrict_mono h

theorem linked_le_bounded : g.linked b B ≤ bounded b B := by
  rw [linked]
  repeat' split
  all_goals first | exact Box.restrict_le | exact le_rfl

theorem linked_mono (h : A ≤ B) (hx : (g.linked b A g.var).Nonempty) (hb : (g.linked b A b).Nonempty) :
    g.linked b A ≤ g.linked b B := by
  have hAB : bounded b A ≤ bounded b B := bounded_mono h
  have hbA : (bounded b A b).Nonempty := hb.mono (linked_le_bounded b)
  by_cases hfix : ∃ m, Fixed b B m
  · obtain ⟨m, hm⟩ := hfix
    have hmA : Fixed b A m := hbA.subset_singleton_iff.1 (hm ▸ hAB b)
    rw [linked_of_fixed hm, linked_of_fixed hmA]
    exact Box.restrict_mono hAB
  by_cases himp : ∃ m, g.Implied b B m
  · obtain ⟨m, hm⟩ := himp
    have hxA : (bounded b A g.var).Nonempty := hx.mono (linked_le_bounded g.var)
    have hmA : g.Implied b A m := (hAB g.var).trans hm
    rw [linked_of_implied (not_exists.mp hfix) (hxA.mono (hAB g.var)) hm]
    -- In the smaller box the truth variable may be fixed already, but then to the mode that is implied.
    by_cases hfixA : ∃ n, Fixed b A n
    · obtain ⟨n, hn⟩ := hfixA
      rw [linked_of_fixed hn] at hx ⊢
      obtain ⟨w, hw, hwn⟩ := hx
      obtain rfl : n = m := side_disjoint (hwn rfl) (hmA hw)
      intro y u hu
      refine ⟨hAB y hu.1, ?_⟩
      rintro rfl
      exact hn ▸ hu.1
    · rw [linked_of_implied (not_exists.mp hfixA) hxA hmA]
      exact Box.restrict_mono hAB
  · rw [linked_of_not_links (g := g) (not_or.mpr ⟨hfix, himp⟩)]
    exact linked_le_bounded.trans hAB

theorem linked_eq_self_of_agree (hb : C b = {m.flag}) (hx : C g.var ⊆ g.side m) :
    g.Links b C ∧ g.linked b C = C := by
  have hC : bounded b C = C := by
    apply Box.restrict_eq_self_iff.2
    intro u hu
    rw [hb] at hu
    exact Mode.exists_eq_flag_iff.1 ⟨m, hu⟩
  have hf : Fixed b C m := by rw [Fixed, hC, hb]
  refine ⟨.inl ⟨m, hf⟩, ?_⟩
  rw [linked_of_fixed hf, hC]
  exact Box.restrict_eq_self_iff.2 hx

theorem settled (hB : g.Links b B) (hxC : C g.var ⊆ g.linked b B g.var) (hbC : C b ⊆ g.linked b B b)
    (hx : (C g.var).Nonempty) (hb : (C b).Nonempty) : g.Links b C ∧ g.linked b C = C := by
  have hxB := hxC.trans (linked_le_bounded g.var)
  have hbB := hbC.trans (linked_le_bounded b)
  by_cases hfix : ∃ m, Fixed b B m
  · obtain ⟨m, hm⟩ := hfix
    rw [linked_of_fixed hm] at hxC
    exact linked_eq_self_of_agree (hb.subset_singleton_iff.1 (hm ▸ hbB)) fun u hu => (hxC hu).2 rfl
  · obtain ⟨m, hm⟩ := hB.resolve_left hfix
    rw [linked_of_implied (not_exists.mp hfix) (hx.mono hxB) hm] at hbC
    exact linked_eq_self_of_agree (hb.subset_singleton_iff.1 fun u hu => (hbC hu).2 rfl) (hxB.trans hm)

theorem bounded_bounded : bounded b (bounded b B) = bounded b B := Box.restrict_eq_self_iff.2 fun _ hu => hu.2 rfl

theorem links_bounded_iff : g.Links b (bounded b B) ↔ g.Links b B := by
  simp only [Links, Fixed, Implied, bounded_bounded]

theorem linked_linked (hx : (g.linked b B g.var).Nonempty) (hb : (g.linked b B b).Nonempty) :
    (g.Links b (g.linked b B) ↔ g.Links b B) ∧ g.linked b (g.linked b B) = g.linked b B := by
  by_cases h : g.Links b B
  · obtain ⟨h', hf⟩ := settled h subset_rfl subset_rfl hx hb
    exact ⟨iff_of_true h' h, hf⟩
  · rw [linked_of_not_links h]
    exact ⟨links_bounded_iff, (linked_of_not_links (mt links_bounded_iff.1 h)).trans bounded_bounded⟩

theorem linked_eq_self_or_ne (h : ¬ g.Links b B) : g.linked b B = B ∨ B b ≠ g.linked b B b := by
  rw [linked_of_not_links h]
  by_cases hb : bounded b B = B
  · exact .inl hb
  · refine .inr fun he => hb (Box.restrict_eq_self_iff.2 ?_)
    rw [he]
    exact fun u hu => hu.2 rfl

theorem unnoticed (hb : C b = B b) (hle : C g.var ⊆ B g.var)
    (ht : ¬ Sensitivity.bounds.Tells (B g.var) (C g.var)) (h : ¬ g.Links b B) (hl : g.linked b B = B) :
    ¬ g.Links b C ∧ g.linked b C = C := by
  have hB : bounded b B = B := (linked_of_not_links h).symm.trans hl
  have hC : bounded b C = C := by
    apply Box.restrict_eq_self_iff.2
    rw [hb]
    exact Box.restrict_eq_self_iff.1 hB
  have hn : ¬ g.Links b C := by
    rw [Links, not_or, not_exists, not_exists] at h ⊢
    simp only [Fixed, Implied, hB] at h
    simp only [Fixed, Implied, hC, hb, side_iff_of_not_tells hle ht]
    exact h
  exact ⟨hn, (linked_of_not_links hn).trans hC⟩

theorem filters_decide (m : Mode) (hs : s.WellFormed) (hx : g.var.index < s.count) :
    Step.Filters (do g.toReifiable.rule m; if ← Step.ask (g.toReifiable.test m) then Step.declareEntailed) s
      (s.box.restrict g.var (g.side m)) True := by
  refine ((filters_rule m hs hx).bind (Q := True) hs le_rfl fun t ht hst hb => ?_).congr rfl (by simp)
  obtain ⟨e, he, hside⟩ := test_eq m ht (hx.trans_eq hst.count.symm)
  apply Step.filters_ask he
  rw [if_pos (hside.2 (by rw [hb]; exact fun u hu => hu.2 rfl)), ← hb]
  exact Step.filters_declareEntailed t

theorem filters_inferTruth {serial : Serial} (hs : s.WellFormed) (hx : g.var.index < s.count)
    (hb : b.index < s.count) (hB : bounded b B = s.box) (hf : ∀ m, ¬ Fixed b B m) :
    (Reified.mk serial g.toReifiable b).inferTruth.Filters s (g.linked b B) (g.Links b B) := by
  obtain ⟨e, he, hse⟩ := test_eq .enforce hs hx
  obtain ⟨r, hr, hsr⟩ := test_eq .refute hs hx
  have hne : (bounded b B g.var).Nonempty := hB ▸ hs.sound.nonempty hx
  rw [← hB] at hse hsr
  apply Step.filters_ask he
  by_cases h : g.Implied b B .enforce
  · rw [if_pos (hse.2 h), linked_of_implied hf hne h, hB]
    exact (Step.filters_fix hs hb 1).congr rfl (iff_of_true trivial (.inr ⟨_, h⟩))
  rw [if_neg (mt hse.1 h)]
  apply Step.filters_ask hr
  by_cases h' : g.Implied b B .refute
  · rw [if_pos (hsr.2 h'), linked_of_implied hf hne h', hB]
    exact (Step.filters_fix hs hb 0).congr rfl (iff_of_true trivial (.inr ⟨_, h'⟩))
  have hn : ¬ g.Links b B := by
    rintro (⟨m, hm⟩ | ⟨_ | _, hm⟩)
    · exact hf m hm
    · exact h hm
    · exact h' hm
  rw [if_neg (mt hsr.1 h'), linked_of_not_links hn, hB]
  exact (Step.filters_pure s).congr rfl (iff_of_false id hn)

theorem filters_reified {serial : Serial} (hs : s.WellFormed) (hx : g.var.index < s.count)
    (hb : b.index < s.count) :
    (Reified.mk serial g.toReifiable b).step.Filters s (g.linked b s.box) (g.Links b s.box) := by
  have hbound := Step.filters_restrict hs hb (.within 0 1)
  refine (hbound.bind hs linked_le_bounded ?_).congr rfl (false_or _).to_iff
  intro t ht hst hB
  have hx := hx.trans_eq hst.count.symm
  have hb := hb.trans_eq hst.count.symm
  obtain ⟨d, hd⟩ := Table.lt_size_iff (k := b).1 hb
  have hfixed : ∀ m : Mode, d.isFixedTo m.flag = true ↔ Fixed b s.box m := by
    intro m
    rw [(ht.sound b d hd).isFixedTo_iff, ← Domains.box_of_get? hd, hB]
    rfl
  have h1 : d.isFixedTo 1 = true ↔ Fixed b s.box .enforce := hfixed .enforce
  have h0 : d.isFixedTo 0 = true ↔ Fixed b s.box .refute := hfixed .refute
  apply Step.filters_ask (Domains.get_eq_ok_iff.2 hd)
  by_cases h : Fixed b s.box .enforce
  · rw [if_pos (h1.2 h), linked_of_fixed h]
    refine (filters_decide .enforce ht hx).congr ?_ ?_
    · rw [hB]
      rfl
    · exact iff_of_true trivial (.inl ⟨_, h⟩)
  rw [if_neg (mt h1.1 h)]
  by_cases h' : Fixed b s.box .refute
  · rw [if_pos (h0.2 h'), linked_of_fixed h']
    refine (filters_decide .refute ht hx).congr ?_ ?_
    · rw [hB]
      rfl
    · exact iff_of_true trivial (.inl ⟨_, h'⟩)
  rw [if_neg (mt h0.1 h')]
  apply filters_inferTruth ht hx hb hB.symm
  intro m
  cases m
  · exact h
  · exact h'

theorem linked_of_holds {serial : Serial} {a : Assignment}
    (h : (Reified.mk serial g.toReifiable b).Holds g.Holds a) (hx : C g.var = {a g.var}) (hb : C b = {a b}) :
    g.linked b C = C := by
  obtain ⟨m, hm, hside⟩ := Reified.holds_iff.1 h
  refine (linked_eq_self_of_agree (hb.trans (congrArg _ hm)) ?_).2
  rw [hx, Set.singleton_subset_iff]
  exact mem_side_iff.2 hside

end Greater

end DomainPropagation
