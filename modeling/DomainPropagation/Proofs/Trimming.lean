import DomainPropagation.Proofs.Events
import DomainPropagation.Proofs.Values
import DomainPropagation.Trims

/-! Trims keep domains well formed, and their events are those that happen to the values of the domain. -/

namespace DomainPropagation

namespace Domain

variable {d e : Domain} {removed : Option Int} {events : List Event} {f : Event} {v : Int} {need : Sensitivity}

theorem WellFormed.isFixed_iff (hd : d.WellFormed) : d.isFixed = true ↔ d.toSet.Subsingleton := by
  constructor
  · intro hf u hu w hw
    have hf : d.lower = d.upper := by simpa [isFixed] using hf
    have := lower_le (d := d) hu
    have := le_upper (d := d) hu
    have := lower_le (d := d) hw
    have := le_upper (d := d) hw
    omega
  · exact fun h => beq_iff_eq.2 (h hd.lower_mem hd.upper_mem)

namespace Trim

variable (hd : d.WellFormed) (h : d.Trim removed events e)
include hd h

theorem wellFormed : e.WellFormed := by
  cases h with
  | raise _ hl => exact hd.withLower hl
  | drop _ hu => exact hd.withUpper hu
  | take hv he => exact (hd.erase?_eq_some hv he).1

theorem subset : e.toSet ⊆ d.toSet := by
  cases h with
  | raise hlt _ => exact fun v hv => ((mem_withLower hlt.le).1 hv).1
  | drop hlt _ => exact fun v hv => ((mem_withUpper hlt.le).1 hv).1
  | take hv he => exact (hd.erase?_eq_some hv he).2.1.trans_subset Set.sdiff_subset

theorem not_mem_of_removed (hv : removed = some v) : v ∈ d ∧ v ∉ e := by
  cases h with
  | take hw he =>
    cases hv
    exact ⟨hw, fun hv => ((hd.erase?_eq_some hw he).2.1.subset hv).2 rfl⟩
  | _ => cases hv

omit hd in
theorem removal_mem_iff : .removal ∈ (if e.isFixed then events ++ [.assign] else events) ↔ ∃ v, removed = some v := by
  have hm : .removal ∈ events ↔ ∃ v, removed = some v := by cases h <;> simp
  split <;> simp [hm]

omit hd in
theorem assign_not_mem : .assign ∉ events := by
  cases h with
  | take _ _ =>
    split <;> split <;> simp
  | _ => simp

theorem lower_mem_iff : .lower ∈ events ↔ d.lower ≠ e.lower := by
  cases h with
  | raise hlt _ => exact iff_of_true List.mem_cons_self hlt.ne
  | drop _ _ => exact iff_of_false (by simp) fun h => h rfl
  | @take v e hv he =>
    obtain ⟨hn, hS, -⟩ := hd.erase?_eq_some hv he
    have hm : Event.lower ∈ Event.removal :: ((if v = d.lower then [.lower] else []) ++
        if v = d.upper then [.upper] else []) ↔ v = d.lower := by simp
    rw [hm]
    constructor
    · rintro rfl heq
      exact (hS.subset hn.lower_mem).2 heq.symm
    · intro hne
      by_contra hv
      apply hne
      rw [← hn.isLeast_iff, hS]
      exact ⟨⟨hd.lower_mem, Ne.symm hv⟩, fun u hu => lower_le hu.1⟩

theorem upper_mem_iff : .upper ∈ events ↔ d.upper ≠ e.upper := by
  cases h with
  | raise _ _ => exact iff_of_false (by simp) fun h => h rfl
  | drop hlt _ => exact iff_of_true List.mem_cons_self hlt.ne'
  | @take v e hv he =>
    obtain ⟨hn, hS, -⟩ := hd.erase?_eq_some hv he
    have hm : Event.upper ∈ Event.removal :: ((if v = d.lower then [.lower] else []) ++
        if v = d.upper then [.upper] else []) ↔ v = d.upper := by simp
    rw [hm]
    constructor
    · rintro rfl heq
      exact (hS.subset hn.upper_mem).2 heq.symm
    · intro hne
      by_contra hv
      apply hne
      rw [← hn.isGreatest_iff, hS]
      exact ⟨⟨hd.upper_mem, Ne.symm hv⟩, fun u hu => le_upper hu.1⟩

theorem ne : e.toSet ≠ d.toSet := by
  have hn := h.wellFormed hd
  intro hS
  cases h with
  | raise hlt _ => exact hlt.ne ((hd.lowerBounds_eq_iff hn).1 (by rw [hS]))
  | drop hlt _ => exact hlt.ne' ((hd.upperBounds_eq_iff hn).1 (by rw [hS]))
  | take hv he => exact ((hd.erase?_eq_some hv he).2.1.subset (hS.superset hv)).2 rfl

theorem mem_iff_happens (hf : f ≠ .removal) :
    f ∈ (if e.isFixed then events ++ [.assign] else events) ↔ f.Happens d.toSet e.toSet := by
  have hn := h.wellFormed hd
  cases f with
  | assign =>
    have hm : Event.assign ∈ (if e.isFixed then events ++ [.assign] else events) ↔ e.isFixed = true := by
      have := h.assign_not_mem
      split <;> simp [*]
    rw [hm, hn.isFixed_iff]
    refine ⟨fun hs => ⟨fun hds => h.ne hd ?_, hs⟩, And.right⟩
    exact (h.subset hd).antisymm fun v hv => hds (h.subset hd hn.lower_mem) hv ▸ hn.lower_mem
  | lower =>
    rw [Event.Happens, Ne, hd.lowerBounds_eq_iff hn, ← Ne, ← h.lower_mem_iff hd]
    split <;> simp
  | upper =>
    rw [Event.Happens, Ne, hd.upperBounds_eq_iff hn, ← Ne, ← h.upper_mem_iff hd]
    split <;> simp
  | removal => exact absurd rfl hf

theorem happens (hf : f ∈ if e.isFixed then events ++ [.assign] else events) : f.Happens d.toSet e.toSet := by
  by_cases hr : f = .removal
  · exact hr ▸ (h.ne hd).symm
  · exact (h.mem_iff_happens hd hr).1 hf

theorem told (ht : need.Tells d.toSet e.toSet) : ∃ f ∈ need.events, f ∈ events := by
  have hn := h.wellFormed hd
  cases need with
  | never => exact ht.elim
  | bounds =>
    rcases ht with ht | ht
    · exact ⟨.lower, rfl, (h.lower_mem_iff hd).2 (mt (hd.lowerBounds_eq_iff hn).2 ht)⟩
    · exact ⟨.upper, rfl, (h.upper_mem_iff hd).2 (mt (hd.upperBounds_eq_iff hn).2 ht)⟩
  | every => cases h <;> exact ⟨_, rfl, List.mem_cons_self⟩

end Trim

end Domain

end DomainPropagation
