import DomainPropagation.Slack
import DomainPropagation.Proofs.Operations

/-! Cuts are made as a whole or not at all. A cut that some value of its variable survives leaves exactly the
values that do; one that none survives, or that all survive, changes nothing; and no cut touches another variable. -/

namespace DomainPropagation

namespace Domains

variable {s t : Domains} {x y : Var} {d new : Domain} {removed : Option Int} {events : List Event} {w : Written}
  {S : Set Int} {ops : List Operation}

theorem get_replace_of_ne (h : s.replace x d new removed events = .ok w) (hy : y ≠ x) :
    w.domains.get y = s.get y := by
  obtain ⟨p, -, hw⟩ := bind_eq_ok_iff.1 h
  cases hw
  have hne : Key.index x ≠ Key.index y := fun he => hy (Var.key_inj.1 he).symm
  rw [get, get, Table.get, Table.get, unchanged, Table.get?_modify, if_neg hne]

theorem Edits.get_of_ne (h : Edits x s t) (hy : y ≠ x) : t.get y = s.get y := by
  induction h with
  | refl => rfl
  | step _ _ _ hw _ ih => exact ih.trans (get_replace_of_ne hw hy)

namespace Narrows

theorem exists_toSet_eq (h : s.Narrows x S w) (hx : s.table.get? x = some d) (hS : (d.toSet ∩ S).Nonempty) :
    w.status = .ok () ∧ ∃ e, w.domains.get x = .ok e ∧ e.toSet = d.toSet ∩ S := by
  have hb := box_of_get? hx
  rcases h.status with ⟨hok, hbox⟩ | ⟨-, -, he⟩
  · obtain ⟨e, he⟩ := h.exists_domain hx
    refine ⟨hok, e, get_eq_ok_iff.2 he, ?_⟩
    rw [← box_of_get? he, hbox, Box.restrict_self, hb]
  · exact absurd (hb ▸ he) hS.ne_empty

theorem refused_of_empty (h : s.Narrows x S w) (hx : s.table.get? x = some d) (hS : d.toSet ∩ S = ∅) :
    w.status = .error ⟨x⟩ ∧ w.domains = s := by
  rcases h.status with ⟨-, hbox⟩ | ⟨herr, hs, -⟩
  · -- The domain that a cut leaves behind has a value.
    have hlt : x.index < w.domains.count := h.shrinks.count.symm ▸ Table.lt_size_iff.2 ⟨d, hx⟩
    have hne := h.wellFormed.sound.nonempty hlt
    change (w.domains.box x).Nonempty at hne
    rw [hbox, Box.restrict_self, box_of_get? hx, hS] at hne
    exact absurd hne Set.not_nonempty_empty
  · exact ⟨herr, hs⟩

theorem eq_of_subset (h : s.Narrows x S w) (hx : s.table.get? x = some d) (hS : d.toSet ⊆ S) : w.domains = s := by
  rcases h.status with ⟨-, hbox⟩ | ⟨-, hs, -⟩
  · apply h.shrinks.eq_of_box
    rw [hbox, Box.restrict_eq_self_iff, box_of_get? hx]
    exact hS
  · exact hs

end Narrows

/-- Of all domains a cut changes only that of its variable, to the values it admits if there are any; otherwise it
is refused. When it is refused, or admits all values, nothing changes at all. -/
theorem cut_atomic (hops : ∀ op ∈ ops, op.Allowed) (hs : run {} ops = .ok s) (hx : s.get x = .ok d) (c : Cut) :
    ∃ w, s.cut x c = .ok w ∧
      ((d.toSet ∩ c.toSet).Nonempty →
        w.status = .ok () ∧ ∃ e, w.domains.get x = .ok e ∧ e.toSet = d.toSet ∩ c.toSet) ∧
      (d.toSet ∩ c.toSet = ∅ → w.status = .error ⟨x⟩ ∧ w.domains = s) ∧
      (d.toSet ∩ c.toSet = d.toSet → w.domains = s) ∧
      ∀ y ≠ x, w.domains.get y = s.get y := by
  have hx := get_eq_ok_iff.1 hx
  obtain ⟨w, hw, hN⟩ := cut_spec (wellFormed_new.run hops hs) (Table.lt_size_iff.2 ⟨d, hx⟩) c
  refine ⟨w, hw, hN.exists_toSet_eq hx, hN.refused_of_empty hx, fun hS => ?_,
    fun y hy => (edits_of_cut hw).get_of_ne hy⟩
  exact hN.eq_of_subset hx (Set.inter_eq_left.1 hS)

theorem cut_atomic_at_hole : ∃ (ops : List Operation) (s : Domains) (d : Domain) (w : Written),
    (∀ op ∈ ops, op.Allowed) ∧ run {} ops = .ok s ∧ s.get ⟨0⟩ = .ok d ∧
    d.values = [maxValue - 4, maxValue - 3, maxValue] ∧
    s.cut ⟨0⟩ (.within (maxValue - 2) (maxValue - 1)) = .ok w ∧ w.status = .error ⟨⟨0⟩⟩ ∧ w.domains = s := by
  -- Each of the two bounds leaves some values of the domain, and between them there is a hole.
  let ops : List Operation := [.add (maxValue - 4) maxValue, .add minValue minValue, .removeInitial ⟨0⟩ (maxValue - 2),
    .openLevel, .cut ⟨0⟩ (.without (maxValue - 1))]
  have hops : ∀ op ∈ ops, op.Allowed := by simp [ops, Operation.Allowed, minValue, maxValue]
  have hrun : (run {} ops).toOption.any (fun s => (s.get ⟨0⟩).toOption.any fun d =>
      decide (d.values = [maxValue - 4, maxValue - 3, maxValue])) = true := by decide +kernel
  obtain ⟨s, hs, hrun⟩ := exists_ok_of_any hrun
  obtain ⟨d, hd, hv⟩ := exists_ok_of_any hrun
  have hv := of_decide_eq_true hv
  obtain ⟨w, hw, -, href, -⟩ := cut_atomic hops hs hd (.within (maxValue - 2) (maxValue - 1))
  refine ⟨ops, s, d, w, hops, hs, hd, hv, hw, href ?_⟩
  apply Set.eq_empty_of_forall_notMem
  rintro u ⟨hu, hl, hr⟩
  have hu := Domain.mem_values.2 hu
  rw [hv] at hu
  simp only [List.mem_cons, List.not_mem_nil, or_false] at hu
  omega

end Domains

end DomainPropagation
