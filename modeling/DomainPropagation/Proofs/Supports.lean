import DomainPropagation.Proofs.Outcomes
import DomainPropagation.Proofs.Solutions
import Mathlib.Data.Finset.Card

/-! Completeness of the counting constraint over distinct subjects that can be counted. Every count between the least
and the greatest is reached by some choice of values, so a step fails just when there is no solution, and a step that
has nothing left to take out leaves only values that occur in solutions. -/

namespace DomainPropagation

namespace Count

open scoped Classical

variable {c : Count} {B : Box} {a : Assignment} {s : Domains} {xs : List Var} {T : Finset Var} {x : Var} {u v : Int}

theorem countP_eq_card (hn : xs.Nodup) (p : Var → Prop) [DecidablePred p] :
    xs.countP (p ·) = (xs.toFinset.filter p).card := by
  rw [List.countP_eq_length_filter, ← List.toFinset_card_of_nodup (hn.filter _), List.toFinset_filter]
  simp only [decide_eq_true_eq]

noncomputable def sure (c : Count) (B : Box) : Finset Var := c.subjects.toFinset.filter (B · = {c.value})

noncomputable def able (c : Count) (B : Box) : Finset Var := c.subjects.toFinset.filter (c.value ∈ B ·)

theorem mem_sure : x ∈ c.sure B ↔ x ∈ c.subjects ∧ B x = {c.value} := by
  simp [sure]

theorem mem_able : x ∈ c.able B ↔ x ∈ c.subjects ∧ c.value ∈ B x := by
  simp [able]

theorem sure_subset_able : c.sure B ⊆ c.able B := by
  intro x hx
  obtain ⟨hx, hB⟩ := mem_sure.1 hx
  exact mem_able.2 ⟨hx, hB ▸ rfl⟩

theorem least_eq_card (hn : c.subjects.Nodup) : c.least B = (c.sure B).card :=
  congrArg _ (countP_eq_card hn _)

theorem most_eq_card (hn : c.subjects.Nodup) : c.most B = (c.able B).card :=
  congrArg _ (countP_eq_card hn _)

theorem holds_of_takers (hn : c.subjects.Nodup) (hT : T ⊆ c.able B) (ha : ∀ x ∈ c.subjects, a x = c.value ↔ x ∈ T)
    (hk : a c.counter = T.card) : c.Holds a := by
  rw [holds_iff_countP ha, hk, countP_eq_card hn (· ∈ T), Int.ofNat_inj]
  congr 1
  ext x
  rw [Finset.mem_filter, List.mem_toFinset]
  exact ⟨fun hx => ⟨(mem_able.1 (hT hx)).1, hx⟩, And.right⟩

theorem exists_takers (hk : c.counter ∉ c.subjects) (hne : ∀ x ∈ c.subjects, (B x).Nonempty)
    (hsure : c.sure B ⊆ T) (hable : T ⊆ c.able B) (hu : u ∈ B c.counter) :
    ∃ a, B.Picks a ∧ a c.counter = u ∧ ∀ x ∈ c.subjects, a x = c.value ↔ x ∈ T := by
  obtain ⟨a, ha, hau, hS⟩ := Box.exists_picks_at hu fun x => if x ∈ T then {c.value} else {c.value}ᶜ
  refine ⟨a, ha, hau, fun x hx => ?_⟩
  have hax := hS x (ne_of_mem_of_not_mem hx hk)
  by_cases hxT : x ∈ T
  · rw [if_pos hxT] at hax
    exact iff_of_true (hax ⟨c.value, (mem_able.1 (hable hxT)).2, rfl⟩) hxT
  · -- Only a subject that is sure to take the value has no other one.
    have hB : ¬ B x ⊆ {c.value} := by
      rw [(hne x hx).subset_singleton_iff]
      exact fun hB => hxT (hsure (mem_sure.2 ⟨hx, hB⟩))
    rw [if_neg hxT, Set.inter_compl_nonempty_iff] at hax
    exact iff_of_false (hax hB) hxT

theorem exists_card_eq {S : Finset Var} (h : S ⊆ T) (hl : S.card ≤ u) (hm : u ≤ T.card) :
    ∃ U, S ⊆ U ∧ U ⊆ T ∧ (U.card : Int) = u := by
  obtain ⟨n, rfl⟩ := Int.eq_ofNat_of_zero_le ((Int.natCast_nonneg _).trans hl)
  obtain ⟨U, hSU, hUT, rfl⟩ := Finset.exists_subsuperset_card_eq h (Int.ofNat_le.1 hl) (Int.ofNat_le.1 hm)
  exact ⟨U, hSU, hUT, rfl⟩

section

variable (hn : c.subjects.Nodup) (hk : c.counter ∉ c.subjects) (hne : ∀ x ∈ c.subjects, (B x).Nonempty)
include hn hk hne

theorem exists_holds_of_counter (hu : u ∈ B c.counter) (hl : c.least B ≤ u) (hm : u ≤ c.most B) :
    ∃ a, B.Picks a ∧ c.Holds a ∧ a c.counter = u := by
  rw [least_eq_card hn] at hl
  rw [most_eq_card hn] at hm
  obtain ⟨T, hsure, hable, rfl⟩ := exists_card_eq sure_subset_able hl hm
  obtain ⟨a, ha, hak, haT⟩ := exists_takers hk hne hsure hable hu
  exact ⟨a, ha, holds_of_takers hn hable haT hak, hak⟩

theorem exists_holds_of_takers (hsure : c.sure B ⊆ T) (hable : T ⊆ c.able B) (hu : (T.card : Int) ∈ B c.counter)
    (hx : x ∈ c.subjects) (hv : v ∈ B x) (hxT : v = c.value ↔ x ∈ T) :
    ∃ a, B.Picks a ∧ c.Holds a ∧ a x = v := by
  obtain ⟨a, ha, hak, haT⟩ := exists_takers hk hne hsure hable hu
  refine ⟨Function.update a x v, fun y hy => ?_, holds_of_takers hn hable (fun y hy => ?_) ?_, Function.update_self ..⟩
  · by_cases hyx : y = x
    · subst hyx
      rwa [Function.update_self]
    · rw [Function.update_of_ne hyx]
      exact ha y hy
  · by_cases hyx : y = x
    · subst hyx
      rwa [Function.update_self]
    · rw [Function.update_of_ne hyx]
      exact haT y hy
  · rwa [Function.update_of_ne (ne_of_mem_of_not_mem hx hk).symm]

theorem exists_holds_of_value (hu : u ∈ B c.counter) (hl : c.least B < u) (hm : u ≤ c.most B) (hx : x ∈ c.subjects)
    (hv : c.value ∈ B x) : ∃ a, B.Picks a ∧ c.Holds a ∧ a x = c.value := by
  rw [least_eq_card hn] at hl
  rw [most_eq_card hn] at hm
  have hins : insert x (c.sure B) ⊆ c.able B := Finset.insert_subset (mem_able.2 ⟨hx, hv⟩) sure_subset_able
  have hcard : ((insert x (c.sure B)).card : Int) ≤ u := by
    have := Finset.card_insert_le x (c.sure B)
    omega
  obtain ⟨T, hT, hable, rfl⟩ := exists_card_eq hins hcard hm
  exact exists_holds_of_takers hn hk hne ((Finset.subset_insert ..).trans hT) hable hu hx hv
    (iff_of_true rfl (hT (Finset.mem_insert_self ..)))

theorem exists_holds_of_ne_value (hu : u ∈ B c.counter) (hl : c.least B ≤ u) (hm : u < c.most B)
    (hx : x ∈ c.subjects) (hv : v ∈ B x) (hvc : v ≠ c.value) : ∃ a, B.Picks a ∧ c.Holds a ∧ a x = v := by
  rw [least_eq_card hn] at hl
  rw [most_eq_card hn] at hm
  have hxs : x ∉ c.sure B := by
    rw [mem_sure]
    rintro ⟨-, hB⟩
    exact hvc (hB ▸ hv : v ∈ ({c.value} : Set Int))
  have hcard : u ≤ (((c.able B).erase x).card : Int) := by
    have := Finset.pred_card_le_card_erase (s := c.able B) (a := x)
    omega
  obtain ⟨T, hsure, hT, rfl⟩ := exists_card_eq (Finset.subset_erase.2 ⟨sure_subset_able, hxs⟩) hl hcard
  exact exists_holds_of_takers hn hk hne hsure (hT.trans (Finset.erase_subset ..)) hu hx hv
    (iff_of_false hvc fun hxT => Finset.notMem_erase x _ (hT hxT))

end

theorem bounds_of_stable (hr : c.InRange) (hf : c.filter B = B) (hu : u ∈ B c.counter) : c.least B ≤ u ∧ u ≤ c.most B :=
  filter_counter hr (hf.symm ▸ hu : u ∈ c.filter B c.counter)

section

variable (hr : c.InRange) (hn : c.subjects.Nodup) (hk : c.counter ∉ c.subjects)
  (hne : ∀ x ∈ c.scope, (B x).Nonempty) (hf : c.filter B = B)
include hr hn hk hne hf

theorem exists_holds_of_undecided (hd : ¬ c.Decides B) (hx : x ∈ c.subjects) (hv : v ∈ B x) :
    ∃ a, B.Picks a ∧ c.Holds a ∧ a x = v := by
  have hS : ∀ x ∈ c.subjects, (B x).Nonempty := fun x hx => hne x (mem_scope_of_mem_subjects hx)
  obtain ⟨w, hw⟩ := hne c.counter counter_mem_scope
  have hb := fun u => bounds_of_stable hr hf (u := u)
  obtain ⟨hl, hg⟩ := not_or.mp hd
  rw [hr.high_eq] at hl
  rw [hr.low_eq] at hg
  -- The counter is not at either end, so it has room for `x` to take the value, and for `x` not to.
  by_cases hvc : v = c.value
  · subst hvc
    obtain ⟨u, hu, hlu⟩ : ∃ u ∈ B c.counter, c.least B < u := by
      by_contra hno
      push Not at hno
      exact hg ⟨(hno w hw).antisymm (hb w hw).1 ▸ hw, hno⟩
    exact exists_holds_of_value hn hk hS hu hlu (hb u hu).2 hx hv
  · obtain ⟨u, hu, hum⟩ : ∃ u ∈ B c.counter, u < c.most B := by
      by_contra hno
      push Not at hno
      exact hl ⟨(hb w hw).2.antisymm (hno w hw) ▸ hw, hno⟩
    exact exists_holds_of_ne_value hn hk hS hu (hb u hu).1 hum hx hv hvc

theorem exists_holds_of_mem (hx : x ∈ c.scope) (hv : v ∈ B x) : ∃ a, B.Picks a ∧ c.Holds a ∧ a x = v := by
  by_cases hd : c.Decides B
  · obtain ⟨a, ha, hav⟩ := B.exists_picks fun _ => {v}
    exact ⟨a, ha, (certain_of_decides hr hd hf).holds fun y hy => ha y (hne y hy), hav x ⟨v, hv, rfl⟩⟩
  rcases mem_scope.1 hx with hx | rfl
  · exact exists_holds_of_undecided hr hn hk hne hf hd hx hv
  · obtain ⟨hl, hm⟩ := bounds_of_stable hr hf hv
    exact exists_holds_of_counter hn hk (fun x hx => hne x (mem_scope_of_mem_subjects hx)) hv hl hm

end

end Count

end DomainPropagation
