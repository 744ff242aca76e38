import DomainPropagation.Proofs.Counting
import Mathlib.Data.List.Forall2

/-! The step of the counting constraint is its filter: the tally gives the least and the greatest count as
values, and the loop over the undecided subjects settles each, also one that comes twice. -/

namespace DomainPropagation

variable {s t : Domains} {c : Count} {xs : List Var} {x : Var} {v : Int} {B : Box} {S : Set Int}

theorem Domains.Knows.get? (hs : s.Knows xs) (hx : x ∈ xs) : ∃ d, s.table.get? x = some d :=
  Table.lt_size_iff.1 (hs x hx)

theorem Domains.Knows.mapM_get (hs : s.Knows xs) :
    ∃ ds, xs.mapM s.get = .ok ds ∧ List.Forall₂ (fun x d => s.table.get? x = some d) xs ds := by
  induction xs with
  | nil => exact ⟨[], rfl, .nil⟩
  | cons x xs ih =>
    obtain ⟨d, hd⟩ := hs.get? List.mem_cons_self
    obtain ⟨ds, hds, hR⟩ := ih fun y hy => hs y (List.mem_cons_of_mem x hy)
    refine ⟨d :: ds, ?_, .cons hd hR⟩
    rw [List.mapM_cons, get_eq_ok_iff.2 hd, ok_bind, hds]
    rfl

namespace Count

open scoped Classical

theorem countP_eq {α β : Type} {R : α → β → Prop} {p : α → Prop} {q : β → Bool} {as : List α}
    {bs : List β} (h : List.Forall₂ R as bs) (hpq : ∀ a b, R a b → (q b = true ↔ p a)) :
    bs.countP q = as.countP (p ·) := by
  induction h with
  | nil => rfl
  | cons hab _ ih =>
    simp only [List.countP_cons, ih, hpq _ _ hab, decide_eq_true_eq]

theorem tally_eq (hs : s.WellFormed) (hk : s.Knows c.subjects) :
    c.tally s = .ok (c.low s.box, wrap (c.maybe s.box)) := by
  obtain ⟨ds, hds, hR⟩ := hk.mapM_get
  have hsure : ds.countP (fun d => d.contains c.value && d.isFixed) =
      c.subjects.countP fun x => s.box x = {c.value} := by
    apply countP_eq hR
    intro x d hd
    rw [(hs.sound x d hd).contains_and_isFixed, Domains.box_of_get? hd]
  have hmaybe : ds.countP (fun d => d.contains c.value && !d.isFixed) =
      c.subjects.countP fun x => c.Undecided s.box x := by
    apply countP_eq hR
    intro x d hd
    rw [Undecided, Domains.box_of_get? hd]
    exact (hs.sound x d hd).contains_and_not_isFixed
  rw [tally, hds, ok_bind, hsure, hmaybe, low, least, maybe]
  rfl

theorem settle_nil : settle v [] B S = B := by
  funext x
  ext u
  simp [settle]

theorem settle_cons (h : v ∈ B x ∧ B x ≠ {v}) :
    settle v xs (B.restrict x S) S = settle v (x :: xs) B S := by
  funext y
  by_cases hy : y = x
  · subst hy
    ext u
    simp only [settle, Box.restrict_self, Set.mem_ofPred_eq, List.mem_cons, true_or, forall_const]
    exact ⟨fun hu => ⟨hu.1.1, fun _ _ => hu.1.2⟩, fun hu => ⟨⟨hu.1, hu.2 h.1 h.2⟩, fun _ _ _ => hu.2 h.1 h.2⟩⟩
  · simp only [settle, Box.restrict_of_ne hy, List.mem_cons, hy, false_or]

theorem settle_cons_of_not (h : ¬ (v ∈ B x ∧ B x ≠ {v})) : settle v xs B S = settle v (x :: xs) B S := by
  funext y
  ext u
  simp only [settle, Set.mem_ofPred_eq, List.mem_cons]
  refine and_congr_right fun _ => ⟨fun hu hy hv hB => ?_, fun hu hy => hu (.inr hy)⟩
  rcases hy with rfl | hy
  · exact absurd ⟨hv, hB⟩ h
  · exact hu hy hv hB

theorem filters_cutUndecided (hs : s.WellFormed) (hk : s.Knows c.subjects) (cut : Cut) :
    (c.cutUndecided cut).Filters s (settle c.value c.subjects s.box cut.toSet) False := by
  rw [cutUndecided, List.forM_eq_forM]
  generalize c.subjects = xs at hk
  -- The first subject is settled in `s`, the others in the domains that this leads to.
  induction xs generalizing s with
  | nil =>
    rw [settle_nil]
    exact Step.filters_pure s
  | cons x xs ih =>
    have hx := hk x List.mem_cons_self
    obtain ⟨d, hd⟩ := hk.get? List.mem_cons_self
    have hc : (!d.isFixed && d.contains c.value) = true ↔ c.value ∈ s.box x ∧ s.box x ≠ {c.value} := by
      rw [Domains.box_of_get? hd, Bool.and_comm]
      exact (hs.sound x d hd).contains_and_not_isFixed
    have htail : ∀ t, t.WellFormed → s.Shrinks t → t.Knows xs :=
      fun t _ hst => Domains.Knows.shrinks (fun y hy => hk y (List.mem_cons_of_mem x hy)) hst
    rw [List.forM_cons]
    by_cases hu : c.value ∈ s.box x ∧ s.box x ≠ {c.value}
    · refine (Step.Filters.bind (B := s.box.restrict x cut.toSet) (P := False) ?_ hs ?_ ?_).congr rfl or_self_iff
      · apply Step.filters_ask (Domains.get_eq_ok_iff.2 hd)
        rw [if_pos (hc.2 hu)]
        exact Step.filters_restrict hs hx cut
      · rw [← settle_cons hu]
        exact settle_le
      · intro t ht hst hb
        rw [← settle_cons hu, ← hb]
        exact ih ht (htail t ht hst)
    · refine (Step.Filters.bind (B := s.box) (P := False) ?_ hs settle_le ?_).congr rfl or_self_iff
      · apply Step.filters_ask (Domains.get_eq_ok_iff.2 hd)
        rw [if_neg (mt hc.1 hu)]
        exact Step.filters_pure s
      · intro t ht hst hb
        rw [← settle_cons_of_not hu, ← hb]
        exact ih ht (htail t ht hst)

theorem filters_decide (hs : s.WellFormed) (hk : s.Knows c.scope) (cut : Cut) (v : Int) :
    Step.Filters (do
      c.cutUndecided cut
      Step.restrict c.counter (.exactly v)
      Step.declareEntailed) s
      ((settle c.value c.subjects s.box cut.toSet).restrict c.counter {v}) True := by
  have hsub : s.Knows c.subjects := fun x hx => hk x (mem_scope_of_mem_subjects hx)
  refine ((filters_cutUndecided hs hsub cut).bind (Q := True) hs Box.restrict_le ?_).congr rfl (by simp)
  intro t ht hst hb
  rw [← hb]
  exact Step.filters_fix ht (hk.shrinks hst c.counter counter_mem_scope) v

theorem run_step (hs : s.WellFormed) (hk : s.Knows c.scope) (g : Handle) (e : Bool) :
    c.step.run g s e = Step.run g (
      if IsLeast (s.box c.counter) (c.high s.box) then do
        c.cutUndecided (.exactly c.value)
        Step.restrict c.counter (.exactly (c.high s.box))
        Step.declareEntailed
      else if IsGreatest (s.box c.counter) (c.low s.box) then do
        c.cutUndecided (.without c.value)
        Step.restrict c.counter (.exactly (c.low s.box))
        Step.declareEntailed
      else
        Step.restrict c.counter (.within (c.low s.box) (c.high s.box))) s e := by
  obtain ⟨d, hd⟩ := hk.get? counter_mem_scope
  have htally := tally_eq hs fun x hx => hk x (mem_scope_of_mem_subjects hx)
  have hhigh : wrap (c.low s.box + wrap (c.maybe s.box)) = c.high s.box := by
    rw [low, wrap_wrap_add, least_add_maybe, high]
  have hwf := hs.sound _ d hd
  rw [step, Step.run_bind, Step.run_ask, htally]
  simp only [Except.map]
  rw [Step.run_bind, Step.run_ask, Domains.get_eq_ok_iff.2 hd, Domains.box_of_get? hd]
  simp only [Except.map, hhigh, hwf.isLeast_iff, hwf.isGreatest_iff]

theorem step_filters (hs : s.WellFormed) (hk : s.Knows c.scope) :
    c.step.Filters s (c.filter s.box) (c.Decides s.box) := by
  intro g e
  rw [run_step hs hk, filter, Decides]
  by_cases h : IsLeast (s.box c.counter) (c.high s.box)
  · simp only [h, if_true, true_or]
    have := filters_decide hs hk (.exactly c.value) (c.high s.box)
    rw [Cut.toSet_exactly] at this
    exact this g e
  by_cases h' : IsGreatest (s.box c.counter) (c.low s.box)
  · simp only [h, h', if_true, if_false, or_true]
    exact filters_decide hs hk (.without c.value) (c.low s.box) g e
  · simp only [h, h', if_false, or_self]
    exact Step.filters_restrict hs (hk _ counter_mem_scope) (.within _ _) g e

end Count

end DomainPropagation
