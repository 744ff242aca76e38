import DomainPropagation.Proofs.Undo
import DomainPropagation.Propagator

/-! Steps as filters of boxes. Whatever a step does, the domains shrink; and when each part of a step keeps
certain values of the variables and loses the others, so does the whole step. -/

namespace DomainPropagation

def Domains.Knows (s : Domains) (xs : List Var) : Prop := ∀ x ∈ xs, x.index < s.count

theorem Domains.Knows.shrinks {s t : Domains} {xs : List Var} (h : s.Knows xs) (hst : s.Shrinks t) :
    t.Knows xs :=
  fun x hx => (h x hx).trans_eq hst.count.symm

namespace Step

variable {α : Type} {step next : Step Unit} {s t : Domains} {B C : Box} {P Q : Prop} {x : Var} {g : Handle}
  {e : Bool} {o : Outcome Unit}

theorem run_shrinks {step : Step α} {o : Outcome α} (hs : s.WellFormed) (h : step.run g s e = .ok o) :
    o.domains.WellFormed ∧ s.Shrinks o.domains := by
  induction step generalizing s e with
  | done a =>
    cases h
    exact ⟨hs, .refl s⟩
  | fail x =>
    cases h
    exact ⟨hs, .refl s⟩
  | abort m => cases h
  | look next ih => exact ih _ hs h
  | cut x c next ih =>
    rw [run] at h
    split at h
    · cases h
    · next w hw =>
      have hN := Domains.narrows_of_cut hs hw
      obtain ⟨ho, hsh⟩ := ih _ hN.wellFormed h
      exact ⟨ho, hN.shrinks.trans hsh⟩
  | entail next ih => exact ih hs h

/-- How a step may end that keeps the box `B` and is sure of its constraint if `P`: it leaves `B`, or it
fails for a variable that `B` has no value for. -/
def Ends (s : Domains) (e : Bool) (B : Box) (P : Prop) (o : Outcome Unit) : Prop :=
  (o.result = .ok () ∧ o.domains.box = B ∧ (o.entailed = true ↔ e = true ∨ P)) ∨
    ∃ w, o.result = .error w ∧ w.var.index < s.count ∧ B w.var = ∅

def Filters (step : Step Unit) (s : Domains) (B : Box) (P : Prop) : Prop :=
  ∀ g e, ∃ o, step.run g s e = .ok o ∧ Ends s e B P o

theorem filters_pure (s : Domains) : (pure () : Step Unit).Filters s s.box False :=
  fun _ e => ⟨⟨s, e, .ok ()⟩, rfl, .inl ⟨rfl, rfl, by simp⟩⟩

theorem filters_declareEntailed (s : Domains) : declareEntailed.Filters s s.box True :=
  fun _ _ => ⟨⟨s, true, .ok ()⟩, rfl, .inl ⟨rfl, rfl, by simp⟩⟩

theorem filters_fail (hx : x.index < s.count) (h : B x = ∅) : (fail x : Step Unit).Filters s B P :=
  fun _ e => ⟨⟨s, e, .error ⟨x⟩⟩, rfl, .inr ⟨⟨x⟩, rfl, hx, h⟩⟩

theorem filters_restrict (hs : s.WellFormed) (hx : x.index < s.count) (c : Cut) :
    (restrict x c).Filters s (s.box.restrict x c.toSet) False := by
  intro g e
  obtain ⟨w, hw, hN⟩ := Domains.cut_spec hs hx c
  refine ⟨⟨w.domains, e, w.status⟩, by rw [run_restrict, hw]; rfl, ?_⟩
  rcases hN.status with ⟨hok, hb⟩ | ⟨herr, -, he⟩
  · exact .inl ⟨hok, hb, by simp⟩
  · exact .inr ⟨⟨x⟩, herr, hx, by rw [Box.restrict_self, he]⟩

theorem filters_ask {question : Domains → Except Misuse α} {f : α → Step Unit} {a : α}
    (ha : question s = .ok a) (h : (f a).Filters s B P) : (ask question >>= f).Filters s B P := by
  intro g e
  rw [run_bind, run_ask, ha]
  exact h g e

theorem Filters.congr (h : step.Filters s B P) (hB : B = C) (hP : P ↔ Q) : step.Filters s C Q := by
  subst hB
  obtain rfl := propext hP
  exact h

theorem Filters.bind (h : step.Filters s B P) (hs : s.WellFormed) (hCB : C ≤ B)
    (hn : ∀ t, t.WellFormed → s.Shrinks t → t.box = B → next.Filters t C Q) :
    (step >>= fun _ => next).Filters s C (P ∨ Q) := by
  intro g e
  obtain ⟨o, hr, ho⟩ := h g e
  obtain ⟨hwf, hsh⟩ := run_shrinks hs hr
  rw [run_bind, hr]
  obtain ⟨t, e', r⟩ := o
  rcases ho with ⟨rfl, hB, he⟩ | ⟨w, rfl, hw, hB⟩
  · obtain ⟨o, hr', ho⟩ := hn t hwf hsh hB g e'
    refine ⟨o, hr', ?_⟩
    rcases ho with ⟨hok, hC, he'⟩ | ⟨w, herr, hw, hC⟩
    · refine .inl ⟨hok, hC, ?_⟩
      rw [he', he, or_assoc]
    · exact .inr ⟨w, herr, hw.trans_eq hsh.count, hC⟩
  · exact ⟨_, rfl, .inr ⟨w, rfl, hw, Set.subset_eq_empty (hCB w.var) hB⟩⟩

theorem filters_fix (hs : s.WellFormed) (hx : x.index < s.count) (v : Int) :
    Step.Filters (do restrict x (.exactly v); declareEntailed) s (s.box.restrict x {v}) True := by
  have hcut := filters_restrict hs hx (.exactly v)
  rw [Cut.toSet_exactly] at hcut
  refine (hcut.bind (Q := True) hs le_rfl ?_).congr rfl (by simp)
  intro t _ _ ht
  rw [← ht]
  exact filters_declareEntailed t

theorem Ends.ok (h : Ends s e B P o) (hB : ∀ x : Var, x.index < s.count → (B x).Nonempty) :
    o.result = .ok () ∧ o.domains.box = B ∧ (o.entailed = true ↔ e = true ∨ P) := by
  rcases h with h | ⟨w, -, hw, he⟩
  · exact h
  · exact absurd (hB w.var hw) (he ▸ Set.not_nonempty_empty)

end Step

end DomainPropagation
