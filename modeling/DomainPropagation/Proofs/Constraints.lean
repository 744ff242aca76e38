import DomainPropagation.Constraint
import DomainPropagation.Proofs.Attention
import DomainPropagation.Proofs.Comparing
import DomainPropagation.Proofs.Tallying

/-! Every constraint of the library as a filter of boxes: monotone as long as it can be counted, final once decided,
and, for a constraint that listens to enough of its variables, with no effect that the constraint itself would not be
told of. -/

namespace DomainPropagation

theorem Sensitivity.Tells.of_bounds {need : Sensitivity} {S T : Set Int} (h : bounds.Tells S T)
    (hn : need ≠ .never) : need.Tells S T := by
  cases need with
  | never => exact absurd rfl hn
  | bounds => exact h
  | every => exact h.ne

namespace Constraint

variable {s : Domains} {A B C : Box} {x : Var} {t : Domains} {h : Handle} {e : Bool}

noncomputable def filter : Constraint → Box → Box
  | .count c => c.filter
  | .greater g => fun B => B.restrict g.var (g.side .enforce)
  | .reified _ g b => g.linked b

def Decides : Constraint → Box → Prop
  | .count c => c.Decides
  | .greater _ => fun _ => False
  | .reified _ g b => g.Links b

abbrev scope (c : Constraint) : List Var := c.propagator.scope

/-- What is counted does not outgrow the values. -/
def InRange : Constraint → Prop
  | .count c => c.InRange
  | _ => True

instance (c : Constraint) : Decidable c.InRange :=
  match c with
  | .count c => inferInstanceAs (Decidable c.InRange)
  | .greater _ | .reified _ _ _ => inferInstanceAs (Decidable True)

/-- The constraint is told of whatever may matter to it: a count of every change of its subjects and of
the bounds of its counter, a comparison of the bounds in one of its modes. -/
def Attentive : Constraint → Prop
  | .count c => (∀ x ∈ c.subjects, c.sensitivities.of .enforce x = .every) ∧
    (c.counter ∉ c.subjects → c.sensitivities.of .enforce c.counter ≠ .never)
  | .greater g => g.sensitivities.of .enforce g.var ≠ .never
  | .reified _ g _ => max (g.sensitivities.of .enforce g.var) (g.sensitivities.of .refute g.var) ≠ .never

theorem mem_scope_reified {serial : Serial} {g : Greater} {b : Var} :
    x ∈ (reified serial g b).scope ↔ x = g.var ∨ x = b :=
  Reified.mem_scope.trans (or_congr_left List.mem_singleton)

theorem var_mem_scope (serial : Serial) (g : Greater) (b : Var) : g.var ∈ (reified serial g b).scope :=
  mem_scope_reified.2 (.inl rfl)

theorem truth_mem_scope (serial : Serial) (g : Greater) (b : Var) : b ∈ (reified serial g b).scope :=
  mem_scope_reified.2 (.inr rfl)

theorem need_reified (serial : Serial) (g : Greater) (b : Var) :
    (reified serial g b).propagator.need b = .every ∧ (b ≠ g.var →
      (reified serial g b).propagator.need g.var =
        max (g.sensitivities.of .enforce g.var) (g.sensitivities.of .refute g.var)) := by
  let inner := (Sensitivities.mk .every [] []).setBoth g.var
    (max (g.sensitivities.of .enforce g.var) (g.sensitivities.of .refute g.var))
  have hs : (reified serial g b).propagator.sensitivities =
      if b ∈ [g.var] then inner.setBoth b .every else inner := rfl
  rw [Propagator.need, Propagator.need, hs]
  by_cases h : b = g.var
  · simp [h, Sensitivities.setBoth, Sensitivities.of_set]
  · simp [h, inner, Sensitivities.setBoth, Sensitivities.of_set]
    rfl

theorem step_filters (c : Constraint) (hs : s.WellFormed) (hk : s.Knows c.scope) :
    c.propagator.step.Filters s (c.filter s.box) (c.Decides s.box) := by
  cases c with
  | count c => exact c.step_filters hs hk
  | greater g => exact Greater.filters_step hs (hk _ List.mem_cons_self)
  | reified serial g b =>
    exact Greater.filters_reified hs (hk _ (var_mem_scope serial g b)) (hk _ (truth_mem_scope serial g b))

theorem filter_mono (c : Constraint) (hr : c.InRange) (h : A ≤ B) (hA : ∀ x ∈ c.scope, (c.filter A x).Nonempty) :
    c.filter A ≤ c.filter B := by
  cases c with
  | count c => exact Count.filter_mono hr h hA
  | greater g => exact Box.restrict_mono h
  | reified serial g b =>
    exact Greater.linked_mono h (hA _ (var_mem_scope serial g b)) (hA _ (truth_mem_scope serial g b))

theorem settled (c : Constraint) (hB : c.Decides B)
    (hC : ∀ x ∈ c.scope, C x ⊆ c.filter B x ∧ (C x).Nonempty) : c.Decides C ∧ c.filter C = C := by
  cases c with
  | count c => exact Count.settled hB hC
  | greater g => exact hB.elim
  | reified serial g b =>
    obtain ⟨hx, hx'⟩ := hC _ (var_mem_scope serial g b)
    obtain ⟨hb, hb'⟩ := hC _ (truth_mem_scope serial g b)
    exact Greater.settled hB hx hb hx' hb'

theorem filter_of_holds (c : Constraint) (hr : c.InRange) {a : Assignment} (h : c.Holds a)
    (hC : ∀ x ∈ c.scope, C x = {a x}) : c.filter C = C := by
  cases c with
  | count c => exact Count.filter_of_holds hr h hC
  | greater g =>
    apply Box.restrict_eq_self_iff.2
    intro u hu
    rw [hC g.var List.mem_cons_self] at hu
    exact lt_of_lt_of_eq h (Set.mem_singleton_iff.1 hu).symm
  | reified serial g b =>
    exact Greater.linked_of_holds h (hC _ (var_mem_scope serial g b)) (hC _ (truth_mem_scope serial g b))

theorem filter_keeps (c : Constraint) (hr : c.InRange) {a : Assignment} (h : c.Holds a)
    (ha : ∀ x ∈ c.scope, a x ∈ B x) (hx : a x ∈ B x) : a x ∈ c.filter B x := by
  -- The values of `a` by themselves are a box that the constraint leaves as it is.
  let C : Box := fun y => {v ∈ B y | v = a y}
  have hC : ∀ y ∈ c.scope, C y = {a y} := by
    intro y hy
    ext v
    exact ⟨And.right, fun hv => ⟨hv ▸ ha y hy, hv⟩⟩
  have hf : c.filter C = C := c.filter_of_holds hr h hC
  have hCB : C ≤ c.filter B := hf.symm.trans_le (c.filter_mono hr (fun _ _ hv => hv.1) fun y hy => by
    rw [hf, hC y hy]
    exact Set.singleton_nonempty _)
  exact hCB x ⟨hx, rfl⟩

theorem filter_eq_self_or_tells (c : Constraint) (hc : c.Attentive) (h : ¬ c.Decides B) :
    c.filter B = B ∨ ∃ x ∈ c.scope, (c.propagator.need x).Tells (B x) (c.filter B x) := by
  cases c with
  | count c =>
    apply (Count.filter_eq_self_or_tells h).imp_right
    intro ht
    refine ⟨c.counter, Count.counter_mem_scope, ht.of_bounds fun hn => ?_⟩
    by_cases hk : c.counter ∈ c.subjects
    · cases (hc.1 _ hk).symm.trans hn
    · exact hc.2 hk hn
  | greater g =>
    by_cases hs : B g.var ⊆ g.side .enforce
    · exact .inl (Box.restrict_eq_self_iff.2 hs)
    · refine .inr ⟨g.var, List.mem_cons_self, Sensitivity.Tells.of_bounds ?_ hc⟩
      by_contra ht
      exact hs ((Greater.side_iff_of_not_tells (Box.restrict_le _) ht).1 fun u hu => hu.2 rfl)
  | reified serial g b =>
    apply (Greater.linked_eq_self_or_ne h).imp_right
    intro hne
    refine ⟨b, truth_mem_scope serial g b, ?_⟩
    rw [(need_reified serial g b).1]
    exact hne

theorem unnoticed (c : Constraint) (hc : c.Attentive)
    (hC : ∀ x ∈ c.scope, C x ⊆ B x ∧ ¬ (c.propagator.need x).Tells (B x) (C x)) (h : ¬ c.Decides B)
    (hf : c.filter B = B) :
    ¬ c.Decides C ∧ c.filter C = C := by
  cases c with
  | count c =>
    have hs : ∀ x ∈ c.subjects, C x = B x := by
      intro x hx
      by_contra hne
      apply (hC x (Count.mem_scope_of_mem_subjects hx)).2
      rw [show (count c).propagator.need x = .every from hc.1 x hx]
      exact Ne.symm hne
    obtain ⟨hle, ht⟩ := hC _ Count.counter_mem_scope
    refine Count.unnoticed hs hle (fun hb => ?_) h hf
    by_cases hk : c.counter ∈ c.subjects
    · exact hb.ne (hs _ hk).symm
    · exact ht (hb.of_bounds (hc.2 hk))
  | greater g =>
    have hle := (hC g.var List.mem_cons_self).1
    exact ⟨id, Box.restrict_eq_self_iff.2 (hle.trans (Box.restrict_eq_self_iff.1 hf))⟩
  | reified serial g b =>
    obtain ⟨hle, ht⟩ := hC _ (var_mem_scope serial g b)
    have hb : C b = B b := by
      by_contra hne
      apply (hC _ (truth_mem_scope serial g b)).2
      rw [(need_reified serial g b).1]
      exact Ne.symm hne
    refine Greater.unnoticed hb hle (fun hx => ?_) h hf
    by_cases hbx : b = g.var
    · exact hx.ne (hbx ▸ hb.symm)
    · exact ht (hx.of_bounds ((need_reified serial g b).2 hbx ▸ hc))

theorem of_start (c : Constraint) (hs : s.WellFormed) (hk : s.Knows c.scope)
    (h : c.propagator.step.start h s = .ok ⟨t, e, .ok ()⟩) :
    t.box = c.filter s.box ∧ (e = true ↔ c.Decides s.box) := by
  obtain ⟨o, ho, hend⟩ := c.step_filters hs hk _ false
  cases h.symm.trans ho
  rcases hend with ⟨-, hb, he⟩ | ⟨w, hw, -, -⟩
  · simpa using And.intro hb he
  · cases hw

theorem start_of_nonempty (c : Constraint) (hs : s.WellFormed) (hk : s.Knows c.scope) (h : Handle)
    (hB : ∀ x : Var, x.index < s.count → (c.filter s.box x).Nonempty) :
    ∃ t e, c.propagator.step.start h s = .ok ⟨t, e, .ok ()⟩ := by
  obtain ⟨⟨t, e, r⟩, ho, hend⟩ := c.step_filters hs hk h false
  obtain ⟨rfl, -, -⟩ := hend.ok hB
  exact ⟨t, e, ho⟩

theorem start_eq_iff (c : Constraint) (hs : s.WellFormed) (hk : s.Knows c.scope) :
    c.propagator.step.start h s = .ok ⟨s, e, .ok ()⟩ ↔ c.filter s.box = s.box ∧ (e = true ↔ c.Decides s.box) := by
  constructor
  · intro hr
    obtain ⟨hb, he⟩ := c.of_start hs hk hr
    exact ⟨hb.symm, he⟩
  · rintro ⟨hf, he⟩
    obtain ⟨t, e', hr⟩ := c.start_of_nonempty hs hk h fun x hx => by
      rw [hf]
      exact hs.sound.nonempty hx
    obtain ⟨hb, he'⟩ := c.of_start hs hk hr
    obtain rfl := (Step.run_shrinks hs hr).2.eq_of_box (hb.trans hf)
    obtain rfl := Bool.eq_iff_iff.2 (he.trans he'.symm)
    exact hr

theorem attentive_propagator (c : Constraint) (hc : c.Attentive) : c.propagator.Attentive where
  quiet := by
    intro h s t hs ht hks hkt hun hq
    obtain ⟨hf, hd⟩ := (c.start_eq_iff hs hks).1 hq
    obtain ⟨hd, hf⟩ := c.unnoticed hc hun (fun hd' => nomatch hd.2 hd') hf
    exact (c.start_eq_iff ht hkt).2 ⟨hf, iff_of_false Bool.false_ne_true hd⟩
  told := by
    intro h s t hs hk hr
    obtain ⟨hb, hd⟩ := c.of_start hs hk hr
    rcases c.filter_eq_self_or_tells hc (fun hd' => nomatch hd.2 hd') with hf | ⟨x, hx, ht⟩
    · exact .inl ((Step.run_shrinks hs hr).2.eq_of_box (hb.trans hf))
    · exact .inr fun hun => (hun x hx).2 (hb ▸ ht)
  settled := by
    intro h s t hs hk hr u hu hku hle
    obtain ⟨hb, hd⟩ := c.of_start hs hk hr
    obtain ⟨hd, hf⟩ := c.settled (hd.1 rfl) fun x hx => ⟨hb ▸ hle x hx, hu.sound.nonempty (hku x hx)⟩
    exact (c.start_eq_iff hu hku).2 ⟨hf, iff_of_true rfl hd⟩

theorem total_propagator (c : Constraint) : c.propagator.Total where
  step := by
    intro h s hs hk
    obtain ⟨o, ho, -⟩ := c.step_filters hs hk h false
    exact ⟨o, ho⟩
  blamed := by
    cases c
    all_goals exact fun _ hx => hx

theorem keeps_propagator (c : Constraint) (hr : c.InRange) (hB : c.filter B = B) : c.propagator.Keeps B := by
  intro h s hs hk hle hne
  have hfB : B ≤ c.filter s.box := hB.symm.trans_le (c.filter_mono hr hle fun x hx => by
    rw [hB]
    exact hne x (hk x hx))
  obtain ⟨t, e, ht⟩ := c.start_of_nonempty hs hk h fun x hx => (hne x hx).mono (hfB x)
  exact ⟨t, e, ht, hfB.trans_eq (c.of_start hs hk ht).1.symm⟩

theorem standard_propagator (c : Constraint) : c.propagator.Standard := by
  cases c
  all_goals exact ⟨rfl, rfl⟩

end Constraint

def Propagator.Of (ok : Constraint → Prop) (p : Propagator) : Prop := ∃ c, ok c ∧ c.propagator = p

theorem Propagator.Of.standard {ok : Constraint → Prop} {p : Propagator} (hp : p.Of ok) : p.Standard := by
  obtain ⟨c, -, rfl⟩ := hp
  exact c.standard_propagator

theorem Propagator.Of.total {ok : Constraint → Prop} {p : Propagator} (hp : p.Of ok) : p.Total := by
  obtain ⟨c, -, rfl⟩ := hp
  exact c.total_propagator

end DomainPropagation
