import DomainPropagation.Proofs.Exactness

/-! What a passed test tells, in any state. The test of a comparison passes only if nothing can break it. That of a
count looks at no subject that is undecided about the value, so when it passes, the assignments that satisfy the count
are those in which no such subject takes it. -/

namespace DomainPropagation

variable {B : Box} {a : Assignment} {s : Store} {o : Options}

namespace Count

variable {c : Count}

theorem holds_iff_of_counter (h : B c.counter = {c.least B}) (ha : ∀ x ∈ c.scope, a x ∈ B x) :
    c.Holds a ↔ ∀ x ∈ c.subjects, c.Undecided B x → a x ≠ c.value := by
  classical
  have hS : ∀ x ∈ c.subjects, a x ∈ B x := fun x hx => ha x (mem_scope_of_mem_subjects hx)
  have hk : a c.counter = c.least B := h.subset (ha c.counter counter_mem_scope)
  have htaken : ∀ x ∈ c.subjects, B x = {c.value} → a x = c.value := fun x hx hB => hB.subset (hS x hx)
  constructor
  · intro hholds x hx hu hv
    have hcount := (holds_iff_countP fun _ _ => Iff.rfl).1 hholds
    exact hu.2 (imp_of_countP_le htaken (hcount.symm.trans hk).le x hx hv)
  · intro hspare
    refine (holds_iff_countP fun x hx => ⟨fun hv => ?_, htaken x hx⟩).2 hk
    by_contra hB
    exact hspare x hx ⟨hv ▸ hS x hx, hB⟩ hv

end Count

namespace Constraint

variable {c : Constraint}

/-- No subject of a count that may or may not take the value takes it. -/
def Spares : Constraint → Box → Assignment → Prop
  | .count c => fun B a => ∀ x ∈ c.subjects, c.Undecided B x → a x ≠ c.value
  | _ => fun _ _ => True

theorem Passes.holds_iff (h : c.Passes B) (ha : ∀ x ∈ c.scope, a x ∈ B x) : c.Holds a ↔ c.Spares B a := by
  cases c with
  | count c => exact Count.holds_iff_of_counter h ha
  | greater g => exact iff_of_true (h (ha _ List.mem_cons_self)) trivial
  | reified serial g b =>
    exact iff_of_true (Greater.Agrees.holds h (ha _ (var_mem_scope serial g b)) (ha _ (truth_mem_scope serial g b)))
      trivial

theorem satisfied_sound (c : Constraint) {D : Domains} (hD : D.WellFormed) (hk : D.Knows c.scope) :
    ∃ e, c.propagator.satisfied D = .ok e ∧ (e = true → ∀ a, D.Admits a → (c.Holds a ↔ c.Spares D.box a)) := by
  obtain ⟨e, he, hpass⟩ := c.satisfied_eq hD hk
  refine ⟨e, he, fun h a ha => (hpass.1 h).holds_iff fun x hx => ?_⟩
  exact Domains.admits_iff.1 ha x (hk x hx)

end Constraint

theorem eq_ok_true_of_allM {α : Type} {f : α → Except Misuse Bool} {l : List α} (h : l.allM f = .ok true) :
    ∀ x ∈ l, f x = .ok true := by
  induction l with
  | nil => simp
  | cons x l ih =>
    rw [List.allM_cons] at h
    obtain ⟨e, he, h⟩ := bind_eq_ok_iff.1 h
    cases e with
    | false => cases h
    | true => exact List.forall_mem_cons.2 ⟨he, ih h⟩

namespace Store

theorem mem_imposed_iff {i : Imposed} : i ∈ s.imposed.toList ↔ ∃ h : Handle, s.imposed.get? h = some i := by
  rw [List.mem_iff_getElem?]
  constructor
  · rintro ⟨n, hn⟩
    exact ⟨⟨n⟩, Table.get?_eq.trans hn⟩
  · rintro ⟨h, hi⟩
    exact ⟨h.index, Table.get?_eq.symm.trans hi⟩

theorem propagator_eq_ok_iff {h : Handle} {p : Propagator} :
    s.propagator h = .ok p ↔ ∃ i, s.imposed.get? h = some i ∧ i.propagator = p := by
  rw [propagator, bind_eq_ok_iff]
  simp only [Table.get_eq_ok_iff, pure, Except.pure, Except.ok.injEq]

/-- Between any two requests, if the store finds its constraints satisfied, an assignment that the domains admit
satisfies each of them unless it gives an undecided subject of a count the counted value. -/
theorem satisfied_but_for_undecided (hs : Reachable o (fun _ => True) s) :
    (∀ (c : Constraint) (D : Domains), D.WellFormed → D.Knows c.scope → ∃ e, c.propagator.satisfied D = .ok e ∧
      (e = true → ∀ a, D.Admits a → (c.Holds a ↔ c.Spares D.box a))) ∧
    (s.allSatisfied = .ok true → ∀ a, s.domains.Admits a → ∀ h (c : Constraint), s.propagator h = .ok c.propagator →
      (c.Holds a ↔ c.Spares s.domains.box a)) ∧
    ((∀ h p, s.propagator h = .ok p → p.Of fun _ => True) → ∃ e, s.allSatisfied = .ok e) := by
  have hT := hs.truthful
  have hknows : ∀ h i, s.imposed.get? h = some i → s.domains.Knows i.propagator.scope :=
    fun h i hi => hT.knows h _ (propagator?_of_get? hi)
  refine ⟨fun c D hD hk => c.satisfied_sound hD hk, fun hall a ha h c hp => ?_, fun hof => ?_⟩
  · obtain ⟨i, hi, hc⟩ := propagator_eq_ok_iff.1 hp
    have hsat := eq_ok_true_of_allM hall i (mem_imposed_iff.2 ⟨h, hi⟩)
    have hk := hknows h i hi
    rw [hc] at hsat hk
    obtain ⟨e, he, hsound⟩ := c.satisfied_sound hT.domains hk
    cases hsat.symm.trans he
    exact hsound rfl a ha
  · have hanswers : ∀ i ∈ s.imposed.toList, ∃ e, i.propagator.satisfied s.domains = .ok e ∧
        (e = true ↔ i.propagator.satisfied s.domains = .ok true) := by
      intro i hi
      obtain ⟨h, hi⟩ := mem_imposed_iff.1 hi
      obtain ⟨c, -, hc⟩ := hof h _ (propagator_eq_ok_iff.2 ⟨i, hi, rfl⟩)
      have hk := hknows h i hi
      rw [← hc] at hk ⊢
      obtain ⟨e, he, -⟩ := c.satisfied_sound hT.domains hk
      exact ⟨e, he, by rw [he, Except.ok.injEq]⟩
    obtain ⟨e, he, -⟩ := allM_eq_ok (List.forall₂_same.2 hanswers)
    exact ⟨e, he⟩

theorem satisfied_but_for_undecided_unfixed : ∃ (s : Store) (c : Count) (d g : Constraint) (x : Var),
    Reachable {} (fun _ => True) s ∧ (s.propagator ⟨0⟩ = .ok (Constraint.count c).propagator ∧
    s.propagator ⟨1⟩ = .ok d.propagator ∧ s.propagator ⟨2⟩ = .ok g.propagator) ∧
    (x ∈ c.subjects ∧ c.Undecided s.domains.box x) ∧ s.allSatisfied = .ok true ∧
    ∀ a, s.domains.Admits a →
      (c.Holds a ↔ ∀ x ∈ c.subjects, c.Undecided s.domains.box x → a x ≠ c.value) ∧ d.Holds a ∧ g.Holds a := by
  let c : Count := { serial := ⟨0⟩, subjects := [⟨0⟩, ⟨0⟩, ⟨1⟩], counter := ⟨2⟩, value := 5 }
  let k : Greater := { serial := ⟨1⟩, var := ⟨1⟩, constant := 3 }
  let d : Constraint := .reified ⟨2⟩ k ⟨3⟩
  let P := Propagator.Of fun _ => True
  have h0 : Reachable {} P {} := .refl
  have h1 := h0.perform (q := .newVariable 5 5) ⟨by decide, by decide⟩ rfl
  have h2 := h1.perform (q := .newVariable 4 5) ⟨by decide, by decide⟩ rfl
  have h3 := h2.perform (q := .newVariable 2 2) ⟨by decide, by decide⟩ rfl
  have h4 := h3.perform (q := .newVariable 1 1) ⟨by decide, by decide⟩ rfl
  have h5 := h4.perform (q := .impose (Constraint.count c).propagator) (fun _ => ⟨by decide, _, trivial, rfl⟩) rfl
  have h6 := h5.perform (q := .impose d.propagator) (fun _ => ⟨by decide, _, trivial, rfl⟩) rfl
  have h7 := h6.perform (q := .impose (Constraint.greater k).propagator) (fun _ => ⟨by decide, _, trivial, rfl⟩) rfl
  obtain ⟨s, hs, hc, hd, hg, ht⟩ : ∃ s, Reachable {} P s ∧ s.propagator ⟨0⟩ = .ok (Constraint.count c).propagator ∧
      s.propagator ⟨1⟩ = .ok d.propagator ∧ s.propagator ⟨2⟩ = .ok (Constraint.greater k).propagator ∧
      (decide (s.allSatisfied = .ok true) &&
        (s.domains.get ⟨1⟩).toOption.any fun e => e.contains 5 && !e.isFixed) = true :=
    ⟨_, h7, rfl, rfl, rfl, by decide +kernel⟩
  have hs : Reachable {} (fun _ => True) s := hs.mono fun _ _ hq => hq.mono fun _ _ => trivial
  obtain ⟨hsat, hopen⟩ := Bool.and_eq_true_iff.1 ht
  have hsat := of_decide_eq_true hsat
  obtain ⟨e, he, hopen⟩ := exists_ok_of_any hopen
  have he := Domains.get_eq_ok_iff.1 he
  have hu : c.Undecided s.domains.box ⟨1⟩ := by
    rw [Count.Undecided, Domains.box_of_get? he]
    exact (hs.truthful.domains.sound _ e he).contains_and_not_isFixed.1 hopen
  obtain ⟨-, hall, -⟩ := satisfied_but_for_undecided hs
  have hholds := hall hsat
  exact ⟨s, c, d, .greater k, ⟨1⟩, hs, ⟨hc, hd, hg⟩, ⟨by simp [c], hu⟩, hsat, fun a ha =>
    ⟨hholds a ha ⟨0⟩ _ hc, (hholds a ha ⟨1⟩ _ hd).2 trivial, (hholds a ha ⟨2⟩ _ hg).2 trivial⟩⟩

theorem satisfied_though_undecided : ∃ (s : Store) (c : Constraint) (a : Assignment),
    Reachable {} (Propagator.Of fun _ => True) s ∧ s.Imposes [c] ∧ c.propagator.satisfied s.domains = .ok true ∧
    s.allSatisfied = .ok true ∧ s.domains.Admits a ∧ ¬ c.Holds a := by
  let c : Constraint := .count { serial := ⟨0⟩, subjects := [⟨0⟩, ⟨1⟩], counter := ⟨2⟩, value := 5 }
  let a : Assignment := fun x => if x = ⟨2⟩ then 1 else 5
  have h0 : Reachable {} (Propagator.Of fun _ => True) {} := .refl
  have h1 := h0.perform (q := .newVariable 5 5) ⟨by decide, by decide⟩ rfl
  have h2 := h1.perform (q := .newVariable 4 5) ⟨by decide, by decide⟩ rfl
  have h3 := h2.perform (q := .newVariable 1 1) ⟨by decide, by decide⟩ rfl
  have h4 := h3.perform (q := .impose c.propagator) (fun _ => ⟨by decide, _, trivial, rfl⟩) rfl
  obtain ⟨s, hs, hcs, ht⟩ : ∃ s, Reachable {} (Propagator.Of fun _ => True) s ∧ s.Imposes [c] ∧
      (decide (c.propagator.satisfied s.domains = .ok true ∧ s.allSatisfied = .ok true ∧ s.domains.count = 3) &&
        decide (∀ n : Fin 3, (s.domains.get ⟨n⟩).toOption.any (·.contains (a ⟨n⟩)) = true)) = true :=
    ⟨_, h4, rfl, by decide +kernel⟩
  simp only [Bool.and_eq_true, decide_eq_true_eq] at ht
  obtain ⟨⟨hsat, hall, hcount⟩, hin⟩ := ht
  have hbroken : ¬ c.Holds a := fun h : (1 : Int) = 2 => absurd h (by decide)
  refine ⟨s, c, a, hs, hcs, hsat, hall, fun x d hd => ?_, hbroken⟩
  have hx : x.index < 3 := hcount ▸ Table.lt_size_iff.2 ⟨d, Domains.get_eq_ok_iff.1 hd⟩
  obtain ⟨e, he, hv⟩ := exists_ok_of_any (hin ⟨x.index, hx⟩)
  cases hd.symm.trans he
  exact hv

end Store

end DomainPropagation
