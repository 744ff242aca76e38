import DomainPropagation.Proofs.Leaves

/-! Exactness of the test at a fixpoint. In a box that is stable under a constraint the test passes just when no
choice of values from the box breaks the constraint, provided its truth or its count can be chosen apart from what
it is about. -/

namespace DomainPropagation

variable {B : Box} {a : Assignment}

namespace Count

open scoped Classical

variable {c : Count} {u : Int}

theorem exists_picks (hk : c.counter ∉ c.subjects) (hu : u ∈ B c.counter) (S : Set Int) :
    ∃ a, B.Picks a ∧ a c.counter = u ∧ ∀ x ∈ c.subjects, (B x ∩ S).Nonempty → a x ∈ S := by
  obtain ⟨a, ha, hau, hS⟩ := Box.exists_picks_at hu fun _ => S
  exact ⟨a, ha, hau, fun x hx => hS x (ne_of_mem_of_not_mem hx hk)⟩

theorem eq_most_of_holds (hk : c.counter ∉ c.subjects) (hne : ∀ x ∈ c.subjects, (B x).Nonempty)
    (h : ∀ a, B.Picks a → c.Holds a) (hu : u ∈ B c.counter) : u = c.most B := by
  obtain ⟨a, ha, rfl, hS⟩ := exists_picks hk hu {c.value}
  refine (holds_iff_countP fun x hx => ?_).1 (h a ha)
  exact ⟨fun he => he ▸ ha x (hne x hx), fun hv => hS x hx ⟨c.value, hv, rfl⟩⟩

theorem eq_least_of_holds (hk : c.counter ∉ c.subjects) (hne : ∀ x ∈ c.subjects, (B x).Nonempty)
    (h : ∀ a, B.Picks a → c.Holds a) (hu : u ∈ B c.counter) : u = c.least B := by
  obtain ⟨a, ha, rfl, hS⟩ := exists_picks hk hu {c.value}ᶜ
  refine (holds_iff_countP fun x hx => ?_).1 (h a ha)
  constructor
  · intro he
    refine Set.eq_singleton_iff_unique_mem.2 ⟨he ▸ ha x (hne x hx), fun v hv => ?_⟩
    by_contra hvc
    exact hS x hx ⟨v, hv, hvc⟩ he
  · intro hB
    have hax := ha x (hne x hx)
    rwa [hB] at hax

theorem certain_of_holds (hk : c.counter ∉ c.subjects) (hne : ∀ x ∈ c.scope, (B x).Nonempty)
    (h : ∀ a, B.Picks a → c.Holds a) : c.Certain B := by
  have hS : ∀ x ∈ c.subjects, (B x).Nonempty := fun x hx => hne x (mem_scope_of_mem_subjects hx)
  obtain ⟨k, hB⟩ := hne c.counter counter_mem_scope
  have hlm : c.most B = c.least B := (eq_most_of_holds hk hS h hB).symm.trans (eq_least_of_holds hk hS h hB)
  refine ⟨fun x hx hv => eq_of_most_le_least hlm.le hx hv, ?_⟩
  exact (Set.Nonempty.subset_singleton_iff ⟨k, hB⟩).1 fun u hu => eq_most_of_holds hk hS h hu

/-- The test counts right, so this asks for no bound on the number of subjects. -/
theorem certain_of_passes (hf : c.filter B = B) (h : B c.counter = {c.least B}) : c.Certain B := by
  have hd : c.Decides B := by
    by_contra hd
    -- Between the bounds of the step the least count is a value, and so the one that the step has.
    have hleast : c.least B ∈ c.filter B c.counter := by
      rw [hf, h]
      exact Set.mem_singleton _
    have hhigh := (((mem_filter_of_not_decides hd).1 hleast).2 rfl).2
    have hmax := wrap_le_maxValue (c.most B)
    have hnat : 0 ≤ c.least B := Int.natCast_nonneg _
    have hlow : c.low B = c.least B := by
      rw [low, wrap_eq_self_iff, minValue]
      exact ⟨by omega, hhigh.trans hmax⟩
    refine hd (.inr ?_)
    rw [h, hlow]
    exact isGreatest_singleton
  obtain ⟨hval, -⟩ := settled_of_decides hd hf
  exact ⟨hval, h.trans (congrArg _ (le_antisymm (c.least_le_most B) (countP_le hval)))⟩

end Count

namespace Greater

variable {g : Greater} {b : Var} {serial : Serial}

theorem agrees_of_holds (hbx : b ≠ g.var) (hb : (B b).Nonempty) (hx : (B g.var).Nonempty)
    (h : ∀ a, B.Picks a → (Reified.mk serial g.toReifiable b).Holds g.Holds a) : g.Agrees b B := by
  -- The truth and the compared value are chosen apart, so the mode of one such choice is that of all.
  have hmode : ∀ u ∈ B b, ∀ w ∈ B g.var, ∃ m : Mode, u = m.flag ∧ w ∈ g.side m := by
    intro u hu w hw
    obtain ⟨a, ha, rfl, hS⟩ := Box.exists_picks_at hu fun _ => {w}
    have haw : a g.var = w := hS g.var hbx.symm ⟨w, hw, rfl⟩
    obtain ⟨m, hm, hmw⟩ := Reified.holds_iff.1 (h a ha)
    rw [← mem_side_iff] at hmw
    exact ⟨m, hm, haw ▸ hmw⟩
  obtain ⟨u, hu⟩ := hb
  obtain ⟨w, hw⟩ := hx
  obtain ⟨m, rfl, hwm⟩ := hmode u hu w hw
  refine ⟨m, Set.eq_singleton_iff_unique_mem.2 ⟨hu, fun v hv => ?_⟩, fun v hv => ?_⟩
  · obtain ⟨n, rfl, hwn⟩ := hmode v hv w hw
    rw [side_disjoint hwn hwm]
  · obtain ⟨n, hn, hvn⟩ := hmode _ hu v hv
    rwa [Mode.flag_injective hn]

end Greater

namespace Constraint

variable {c : Constraint}

/-- What a constraint counts does not include the counter, and what it compares is not its own truth. -/
def Unaliased : Constraint → Prop
  | .count c => c.counter ∉ c.subjects
  | .greater _ => True
  | .reified _ g b => b ≠ g.var

theorem certain_of_passes (hf : c.filter B = B) (h : c.Passes B) : c.Certain B := by
  cases c with
  | count c => exact Count.certain_of_passes hf h
  | greater g => exact h
  | reified serial g b => exact h

theorem certain_of_holds (hu : c.Unaliased) (hne : ∀ x ∈ c.scope, (B x).Nonempty)
    (h : ∀ a, B.Picks a → c.Holds a) : c.Certain B := by
  cases c with
  | count c => exact Count.certain_of_holds hu hne h
  | greater g =>
    intro w hw
    obtain ⟨a, ha, hS⟩ := B.exists_picks fun _ => {w}
    have haw : a g.var = w := hS g.var ⟨w, hw, rfl⟩
    exact haw ▸ h a ha
  | reified serial g b =>
    exact Greater.agrees_of_holds hu (hne _ (truth_mem_scope serial g b)) (hne _ (var_mem_scope serial g b)) h

theorem passes_iff (hu : c.Unaliased) (hf : c.filter B = B) (hne : ∀ x ∈ c.scope, (B x).Nonempty) :
    c.Passes B ↔ ∀ a, B.Picks a → c.Holds a := by
  constructor
  · intro h a ha
    exact (certain_of_passes hf h).holds fun x hx => ha x (hne x hx)
  · intro h
    exact (certain_of_holds hu hne h).passes

end Constraint

theorem allM_eq_ok {α β : Type} {f : α → Except Misuse Bool} {q : β → Prop} {as : List α} {bs : List β}
    (h : List.Forall₂ (fun a b => ∃ e, f a = .ok e ∧ (e = true ↔ q b)) as bs) :
    ∃ e, as.allM f = .ok e ∧ (e = true ↔ ∀ b ∈ bs, q b) := by
  induction h with
  | nil => exact ⟨true, rfl, by simp⟩
  | cons hab _ ih =>
    obtain ⟨e, he, hq⟩ := hab
    rw [List.allM_cons, he, ok_bind]
    cases e with
    | false => exact ⟨false, rfl, by simp [← hq]⟩
    | true =>
      obtain ⟨e, he, hqs⟩ := ih
      exact ⟨e, he, by simp [hqs, ← hq]⟩

namespace Store

variable {s t : Store} {cs : List Constraint} {o : Options} {floor : Nat} {failed : Bool}

theorem Imposes.forall₂ (hcs : s.Imposes cs) {R : Imposed → Constraint → Prop}
    (h : ∀ i c (n : Nat), i.propagator = c.propagator → cs[n]? = some c → R i c) :
    List.Forall₂ R s.imposed.toList cs := by
  refine List.forall₂_iff_get.2 ⟨by simpa using congrArg List.length hcs, fun n hn hn' => ?_⟩
  apply h _ _ n ?_ (List.getElem?_eq_getElem hn')
  have hi := congrArg (·[n]?) hcs
  simpa [hn, hn'] using hi

theorem Imposes.continues (hcs : s.Imposes cs) (hst : s.Continues t) : t.Imposes cs := by
  apply List.ext_getElem?
  intro n
  rw [List.getElem?_map, List.getElem?_map, ← hcs.propagator? ⟨n⟩, ← hst.imposed, Table.toList,
    Array.getElem?_toList]
  rfl

/-- After propagation succeeds the store finds its constraints satisfied exactly if every assignment that the
domains still admit satisfies them. -/
theorem propagated_satisfied_iff (hs : Disciplined o (Propagator.Of Constraint.Default) floor false s)
    (hcs : s.Imposes cs) (hu : ∀ c ∈ cs, c.Unaliased) :
    ∃ r, s.propagate = .ok r ∧ (r.value = .ok () → ∃ e, r.store.allSatisfied = .ok e ∧
      (e = true ↔ ∀ a, r.store.domains.Admits a → ∀ c ∈ cs, c.Holds a)) := by
  have ha : s.Alert floor false := hs.alert fun p ⟨c, hc, hp⟩ =>
    hp ▸ ⟨c.standard_propagator, c.attentive_propagator hc.attentive⟩
  obtain ⟨r, hr⟩ := hs.reachable.propagate_total fun _ hp => ⟨hp.standard, hp.total⟩
  refine ⟨r, hr, fun hv => ?_⟩
  have hwf := ha.wellFormed.propagate hr
  have hcs' := hcs.continues (ha.wellFormed.continues_propagate hr)
  have hanswers : List.Forall₂ (fun i c => ∃ e, i.propagator.satisfied r.store.domains = .ok e ∧
      (e = true ↔ ∀ a, r.store.domains.Admits a → c.Holds a)) r.store.imposed.toList cs := by
    refine hcs'.forall₂ fun i c n hi hn => ?_
    have hc := List.mem_of_getElem? hn
    have hk := hcs'.knows hwf hc
    obtain ⟨hf, -⟩ := hcs.fixpoint (h := ⟨n⟩) ha hr hv hn
    have hpass := Constraint.passes_iff (hu c hc) hf fun x hx => hwf.domains.sound.nonempty (hk x hx)
    simp only [hwf.domains.picks_iff] at hpass
    rw [hi, ← hpass]
    exact c.satisfied_eq hwf.domains hk
  obtain ⟨e, he, hiff⟩ := allM_eq_ok hanswers
  refine ⟨e, he, hiff.trans ?_⟩
  exact ⟨fun h a ha c hc => h c hc a ha, fun h c hc a ha => h a ha c hc⟩

theorem propagated_satisfied_iff_unfixed : ∃ (s : Store) (cs : List Constraint) (r : Reply (Except Conflict Unit)),
    Disciplined {} (Propagator.Of Constraint.Default) 0 false s ∧ s.Imposes cs ∧ cs.length = 3 ∧
    (∀ c ∈ cs, c.Unaliased) ∧ s.propagate = .ok r ∧ r.value = .ok () ∧ r.store.domains.isFixed ⟨0⟩ = .ok false ∧
    r.store.allSatisfied = .ok true ∧ ∀ a, r.store.domains.Admits a → ∀ c ∈ cs, c.Holds a := by
  let c : Constraint := .count { serial := ⟨0⟩, subjects := [⟨0⟩, ⟨0⟩, ⟨1⟩], counter := ⟨2⟩, value := 1 }
  let d : Constraint := .reified ⟨1⟩ { serial := ⟨2⟩, var := ⟨1⟩, constant := 1 } ⟨3⟩
  let g : Constraint := .greater { serial := ⟨3⟩, var := ⟨0⟩, constant := 0 }
  have h0 : Disciplined {} (Propagator.Of Constraint.Default) 0 false {} := .new
  have h1 := h0.perform (q := .newVariable 0 3) ⟨by decide, by decide⟩ rfl rfl
  have h2 := h1.perform (q := .newVariable 0 3) ⟨by decide, by decide⟩ rfl rfl
  have h3 := h2.perform (q := .newVariable 0 3) ⟨by decide, by decide⟩ rfl rfl
  have h4 := h3.perform (q := .newVariable 0 1) ⟨by decide, by decide⟩ rfl rfl
  have h5 := h4.perform (q := .impose c.propagator) (fun _ => ⟨by decide, c, rfl, rfl⟩) rfl rfl
  have h6 := h5.perform (q := .impose d.propagator) (fun _ => ⟨by decide, d, rfl, rfl⟩) rfl rfl
  have h7 := h6.perform (q := .impose g.propagator) (fun _ => ⟨by decide, g, rfl, rfl⟩) rfl rfl
  -- Both subjects lose the counted value and keep two others.
  have h8 := h7.perform (q := .cut ⟨0⟩ (.atLeast 2)) trivial rfl rfl
  have h9 := h8.perform (q := .cut ⟨1⟩ (.atLeast 2)) trivial rfl rfl
  have hu : ∀ c' ∈ [c, d, g], c'.Unaliased := by simp [c, d, g, Constraint.Unaliased]
  obtain ⟨s, hs, hcs, hrun⟩ : ∃ s, Disciplined {} (Propagator.Of Constraint.Default) 0 false s ∧
      s.Imposes [c, d, g] ∧ (propagateWithin 9 s).any (fun r => decide (r.value = .ok () ∧
        r.store.domains.isFixed ⟨0⟩ = .ok false ∧ r.store.allSatisfied = .ok true)) = true :=
    ⟨_, h9, rfl, by decide +kernel⟩
  obtain ⟨r, hr, ht⟩ := exists_propagate hrun
  obtain ⟨hv, hfix, hsat⟩ := of_decide_eq_true ht
  obtain ⟨r', hr', hexact⟩ := propagated_satisfied_iff hs hcs hu
  cases hr.symm.trans hr'
  obtain ⟨e, he, hiff⟩ := hexact hv
  cases hsat.symm.trans he
  exact ⟨s, [c, d, g], r, hs, hcs, rfl, hu, hr, hv, hfix, hsat, hiff.1 rfl⟩

end Store

end DomainPropagation
