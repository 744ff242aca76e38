import DomainPropagation.Proofs.Certainty
import DomainPropagation.Proofs.Operations

/-! What a step of the counting constraint comes to when the counter is not counted itself and the subjects can be
counted. It fails just for a counter that can be no possible count, and then nothing has changed. Otherwise the
undecided subjects are decided or left alone, and the counter keeps the values that are possible counts afterwards. -/

namespace DomainPropagation

namespace Count

open scoped Classical

variable {c : Count} {B C : Box} {s : Domains} {x : Var} {v : Int} {xs : List Var} {S : Set Int} {h : Handle}
  {o : Outcome Unit}

theorem settle_of_not (h : ¬ (x ∈ xs ∧ v ∈ B x ∧ B x ≠ {v})) : settle v xs B S x = B x := by
  ext u
  refine ⟨And.left, fun hu => ⟨hu, fun hx hv hB => ?_⟩⟩
  exact absurd ⟨hx, hv, hB⟩ h

theorem filter_of_not_undecided (hx : x ≠ c.counter) (h : ¬ (x ∈ c.subjects ∧ c.Undecided B x)) :
    c.filter B x = B x := by
  rw [filter]
  split
  · rw [Box.restrict_of_ne hx, settle_of_not h]
  · split
    · rw [Box.restrict_of_ne hx, settle_of_not h]
    · rw [Box.restrict_of_ne hx]

theorem filter_of_undecided (hk : x ≠ c.counter) (hx : x ∈ c.subjects) (h : c.Undecided B x) :
    c.filter B x = if IsLeast (B c.counter) (c.high B) then {c.value}
      else if IsGreatest (B c.counter) (c.low B) then B x \ {c.value}
      else B x := by
  ext u
  split
  · next hl =>
    rw [mem_filter_of_isLeast hl]
    constructor
    · exact fun hu => hu.2.1 hx h.1
    · rintro rfl
      exact ⟨h.1, fun _ _ => rfl, fun he => absurd he hk⟩
  · next hl =>
    split
    · next hg =>
      rw [mem_filter_of_isGreatest hl hg]
      constructor
      · exact fun hu => ⟨hu.1, fun he => h.2 (hu.2.1 hx he)⟩
      · exact fun hu => ⟨hu.1, fun _ he => absurd he hu.2, fun he => absurd he hk⟩
    · next hg =>
      rw [mem_filter_of_not_decides (not_or.mpr ⟨hl, hg⟩)]
      exact ⟨And.left, fun hu => ⟨hu, fun he => absurd he hk⟩⟩

theorem filter_nonempty_of_ne (hx : x ≠ c.counter) (hB : (B x).Nonempty) : (c.filter B x).Nonempty := by
  by_cases hu : x ∈ c.subjects ∧ c.Undecided B x
  · -- An undecided subject has the value and another one, so it can be decided either way.
    rw [filter_of_undecided hx hu.1 hu.2]
    split
    · exact Set.singleton_nonempty c.value
    · split
      · rw [Set.sdiff_nonempty, hB.subset_singleton_iff]
        exact hu.2.2
      · exact hB
  · rwa [filter_of_not_undecided hx hu]

theorem of_start (hs : s.WellFormed) (hk : s.Knows c.scope) (ho : c.step.start h s = .ok o) (hok : o.result = .ok ()) :
    o.domains.WellFormed ∧ o.domains.Knows c.scope ∧ o.domains.box = c.filter s.box ∧
      ∀ x ∈ c.scope, (c.filter s.box x).Nonempty := by
  obtain ⟨hwf, hsh⟩ := Step.run_shrinks hs ho
  have hk' := hk.shrinks hsh
  obtain ⟨t, e, r⟩ := o
  cases hok
  have hb : t.box = c.filter s.box := ((Constraint.count c).of_start hs hk ho).1
  exact ⟨hwf, hk', hb, fun x hx => hb ▸ hwf.sound.nonempty (hk' x hx)⟩

end Count

end DomainPropagation
