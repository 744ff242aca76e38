import DomainPropagation.Proofs.Certainty
import DomainPropagation.Proofs.Operations
import DomainPropagation.Proofs.Solutions

/-! Consistency of the reified comparison. In a box that the constraint leaves as it is, each truth is possible just
when some value agrees with it, so every value is part of a solution; and one step leads to such a box. -/

namespace DomainPropagation

variable {s : Domains} {B : Box} {x : Var} {m : Mode} {v w : Int} {serial : Serial}

theorem Mode.exists_other (m : Mode) : ∃ n : Mode, ∀ k, k ≠ m → k = n := by
  cases m with
  | enforce => exact ⟨.refute, fun k hk => by cases k <;> trivial⟩
  | refute => exact ⟨.enforce, fun k hk => by cases k <;> trivial⟩

namespace Greater

variable {g : Greater} {b : Var}

theorem exists_side (g : Greater) (w : Int) : ∃ m, w ∈ g.side m :=
  (lt_or_ge g.constant w).elim (⟨.enforce, ·⟩) (⟨.refute, ·⟩)

theorem flag_mem_side (hw : w ∈ g.side m) (h : 0 ≤ w ∧ w ≤ 1) : m.flag ∈ g.side m := by
  cases m with
  | enforce => exact lt_of_lt_of_le hw h.2
  | refute => exact h.1.trans hw

theorem exists_flag_of_mem (hf : g.linked b B = B) (hv : v ∈ B b) : ∃ m : Mode, v = m.flag :=
  Mode.exists_eq_flag_iff.2 (Box.restrict_eq_self_iff.1 (bounded_eq_of_linked hf) hv)

theorem flag_mem_iff (hf : g.linked b B = B) (hx : (B g.var).Nonempty) (hb : (B b).Nonempty) (m : Mode) :
    m.flag ∈ B b ↔ (B g.var ∩ g.side m).Nonempty := by
  by_cases hl : g.Links b B
  · obtain ⟨n, hn, hside⟩ := agrees_of_links hl hf hx hb
    rw [hn]
    constructor
    · intro hm
      obtain rfl := Mode.flag_injective hm
      obtain ⟨w, hw⟩ := hx
      exact ⟨w, hw, hside hw⟩
    · rintro ⟨w, hw, hwm⟩
      rw [side_disjoint hwm (hside hw)]
      rfl
  · -- Neither are all truths those of the other mode nor all values on its side.
    rw [Links, not_or, not_exists, not_exists] at hl
    simp only [Fixed, Implied, bounded_eq_of_linked hf] at hl
    obtain ⟨n, hn⟩ := m.exists_other
    refine iff_of_true ?_ ?_
    · by_contra hm
      refine hl.1 n (hb.subset_singleton_iff.1 fun v hv => ?_)
      obtain ⟨k, rfl⟩ := exists_flag_of_mem hf hv
      exact congrArg Mode.flag (hn k fun he => hm (he ▸ hv))
    · obtain ⟨w, hw, hwn⟩ := Set.not_subset.1 (hl.2 n)
      obtain ⟨k, hk⟩ := g.exists_side w
      refine ⟨w, hw, ?_⟩
      by_contra hm
      exact hwn (hn k (fun he => hm (he ▸ hk)) ▸ hk)

theorem exists_picks (hw : w ∈ B g.var) (hm : m.flag ∈ B b) (hs : w ∈ g.side m) (he : b = g.var → w = m.flag) :
    ∃ a, B.Picks a ∧ (Reified.mk serial g.toReifiable b).Holds g.Holds a ∧ a g.var = w ∧ a b = m.flag := by
  obtain ⟨a, ha, hS⟩ := B.exists_picks fun y => {v | (y = g.var → v = w) ∧ (y = b → v = m.flag)}
  have hx : a g.var = w := (hS g.var ⟨w, hw, fun _ => rfl, fun h => he h.symm⟩).1 rfl
  have hb : a b = m.flag := (hS b ⟨m.flag, hm, fun h => (he h).symm, fun _ => rfl⟩).2 rfl
  exact ⟨a, ha, Reified.holds_iff.2 ⟨m, hb, mem_side_iff.1 (hx ▸ hs)⟩, hx, hb⟩

theorem exists_holds_of_mem (hf : g.linked b B = B) (hx : (B g.var).Nonempty) (hb : (B b).Nonempty)
    (hxb : x = g.var ∨ x = b) (hv : v ∈ B x) :
    ∃ a, B.Picks a ∧ (Reified.mk serial g.toReifiable b).Holds g.Holds a ∧ a x = v := by
  have hflag := flag_mem_iff hf hx hb
  by_cases hbx : b = g.var
  · -- A value of the one variable is a truth, and on the side that it tells of.
    obtain rfl : x = b := hxb.elim (fun h => h.trans hbx.symm) id
    obtain ⟨m, rfl⟩ := exists_flag_of_mem hf hv
    obtain ⟨w, hw, hwm⟩ := (hflag m).1 hv
    have hside : m.flag ∈ g.side m :=
      flag_mem_side hwm (Mode.exists_eq_flag_iff.1 (exists_flag_of_mem hf (hbx ▸ hw)))
    obtain ⟨a, ha, hholds, -, hab⟩ := exists_picks (hbx ▸ hv) hv hside fun _ => rfl
    exact ⟨a, ha, hholds, hab⟩
  rcases hxb with rfl | rfl
  · obtain ⟨m, hm⟩ := g.exists_side v
    have hmb : m.flag ∈ B b := (hflag m).2 ⟨v, hv, hm⟩
    obtain ⟨a, ha, hholds, hax, -⟩ := exists_picks hv hmb hm fun h => absurd h hbx
    exact ⟨a, ha, hholds, hax⟩
  · obtain ⟨m, rfl⟩ := exists_flag_of_mem hf hv
    obtain ⟨w, hw, hwm⟩ := (hflag m).1 hv
    obtain ⟨a, ha, hholds, -, hab⟩ := exists_picks hw hv hwm fun h => absurd h hbx
    exact ⟨a, ha, hholds, hab⟩

theorem links_iff_singleton (hf : g.linked b B = B) (hx : (B g.var).Nonempty) (hb : (B b).Nonempty) :
    g.Links b B ↔ ∃ v, B b = {v} := by
  constructor
  · intro hl
    obtain ⟨m, hm, -⟩ := agrees_of_links hl hf hx hb
    exact ⟨m.flag, hm⟩
  · rintro ⟨v, hv⟩
    obtain ⟨m, hm, hside⟩ := agrees_of_singleton hf hv
    exact (linked_eq_self_of_agree hm hside).1

end Greater

namespace Constraint

variable {c : Constraint} {g : Greater} {b : Var} {h : Handle} {o : Outcome Unit}

theorem not_exists_holds {y : Wipeout} (hr : c.InRange) (hs : s.WellFormed) (hk : s.Knows c.scope)
    (ho : c.propagator.step.start h s = .ok o) (herr : o.result = .error y) : ¬ ∃ a, s.Admits a ∧ c.Holds a := by
  obtain ⟨o', ho', hend⟩ := c.step_filters hs hk h false
  cases ho.symm.trans ho'
  rcases hend with ⟨hok, -⟩ | ⟨y, -, hy, hempty⟩
  · cases hok.symm.trans herr
  · rintro ⟨a, ha, hholds⟩
    have ha := Domains.admits_iff.1 ha
    exact hempty.subset (c.filter_keeps hr hholds (fun x hx => ha x (hk x hx)) (ha y.var hy))

theorem exists_holds_of_stable (hs : s.WellFormed) (hk : s.Knows (reified serial g b).scope)
    (hf : g.linked b s.box = s.box) : ∀ x ∈ (reified serial g b).scope, ∀ d, s.get x = .ok d → ∀ v ∈ d,
      ∃ a, s.Admits a ∧ (reified serial g b).Holds a ∧ a x = v := by
  intro x hx d hd v hv
  have hne : ∀ y ∈ (reified serial g b).scope, (s.box y).Nonempty := fun y hy => hs.sound.nonempty (hk y hy)
  have hv : v ∈ s.box x := Domains.box_of_get? (Domains.get_eq_ok_iff.1 hd) ▸ hv
  obtain ⟨a, ha, hholds, hav⟩ := Greater.exists_holds_of_mem hf (hne _ (var_mem_scope serial g b))
    (hne _ (truth_mem_scope serial g b)) (mem_scope_reified.1 hx) hv
  exact ⟨a, hs.picks_iff.1 ha, hholds, hav⟩

/-- A step of a reified comparison fails exactly if there is no solution. Otherwise it leaves only values that are
part of one, a second step changes nothing, and entailment is declared exactly if the truth is fixed. -/
theorem reified_consistent (serial : Serial) (g : Greater) (b : Var) (hs : s.WellFormed) (hx : g.var.index < s.count)
    (hb : b.index < s.count) (h : Handle) :
    ∃ o, (reified serial g b).propagator.step.start h s = .ok o ∧
      ((∃ w, o.result = .error w) ↔ ¬ ∃ a, s.Admits a ∧ (reified serial g b).Holds a) ∧
      (o.result = .ok () →
        (∀ x ∈ (reified serial g b).scope, ∀ d, o.domains.get x = .ok d → ∀ v ∈ d,
          ∃ a, o.domains.Admits a ∧ (reified serial g b).Holds a ∧ a x = v) ∧
        (∀ h', (reified serial g b).propagator.step.start h' o.domains = .ok ⟨o.domains, o.entailed, .ok ()⟩) ∧
        (o.entailed = true ↔ o.domains.isFixed b = .ok true)) := by
  have hk : s.Knows (reified serial g b).scope := fun x hx' => (mem_scope_reified.1 hx').elim (· ▸ hx) (· ▸ hb)
  obtain ⟨⟨t, e, _ | ⟨⟩⟩, ho⟩ := (reified serial g b).total_propagator.step h s hs hk
  · exact ⟨_, ho, iff_of_true ⟨_, rfl⟩ (not_exists_holds trivial hs hk ho rfl), nofun⟩
  obtain ⟨ht, hst⟩ := Step.run_shrinks hs ho
  have hkt := hk.shrinks hst
  have hxt : (t.box g.var).Nonempty := ht.sound.nonempty (hkt _ (var_mem_scope serial g b))
  have hbt : (t.box b).Nonempty := ht.sound.nonempty (hkt _ (truth_mem_scope serial g b))
  -- What is left is a box that the constraint leaves as it is, and that it decides just when it decided the first.
  obtain ⟨hbox, hent⟩ := (reified serial g b).of_start hs hk ho
  have hbox : g.linked b s.box = t.box := hbox.symm
  obtain ⟨hlinks, hf⟩ := g.linked_linked (hbox ▸ hxt) (hbox ▸ hbt)
  rw [hbox] at hlinks hf
  have hent : e = true ↔ g.Links b t.box := hent.trans hlinks.symm
  have hsupport := exists_holds_of_stable ht hkt hf
  refine ⟨_, ho, iff_of_false nofun ?_, fun _ => ⟨hsupport, fun h' => ?_, ?_⟩⟩
  · obtain ⟨d, hd⟩ := Table.lt_size_iff (k := b).1 (hkt _ (truth_mem_scope serial g b))
    have hv := (ht.sound b d hd).lower_mem
    obtain ⟨a, ha, hholds, -⟩ := hsupport b (truth_mem_scope serial g b) d (Domains.get_eq_ok_iff.2 hd) _ hv
    exact not_not.mpr ⟨a, hst.admits ha, hholds⟩
  · exact ((reified serial g b).start_eq_iff ht hkt).2 ⟨hf, hent⟩
  · exact hent.trans ((Greater.links_iff_singleton hf hxt hbt).trans ht.isFixed_iff.symm)

theorem reified_consistent_aliased : ∃ (c e f : Constraint) (s : Domains) (o p q : Outcome Unit), s.WellFormed ∧
    (c.scope = [⟨0⟩, ⟨1⟩] ∧ c.propagator.step.start ⟨0⟩ s = .ok o ∧ o.result = .ok () ∧ o.entailed = false) ∧
    (∀ x ∈ c.scope, ∀ d, o.domains.get x = .ok d → ∀ v ∈ d, ∃ a, o.domains.Admits a ∧ c.Holds a ∧ a x = v) ∧
    (e.scope = [⟨0⟩] ∧ e.propagator.step.start ⟨0⟩ s = .ok p ∧ p.result = .ok () ∧ p.entailed = true) ∧
    e.propagator.step.start ⟨1⟩ p.domains = .ok ⟨p.domains, true, .ok ()⟩ ∧ p.domains.isFixed ⟨0⟩ = .ok true ∧
    f.propagator.step.start ⟨0⟩ s = .ok q ∧ q.result = .error ⟨⟨0⟩⟩ ∧ ¬ ∃ a, s.Admits a ∧ f.Holds a := by
  -- The compared variable has a hole at 1. It is its own truth in `e`, and nothing is greater than the constant of `f`.
  let g : Greater := { serial := ⟨0⟩, var := ⟨0⟩, constant := 0 }
  let k : Greater := { serial := ⟨1⟩, var := ⟨0⟩, constant := maxValue }
  let c : Constraint := .reified ⟨2⟩ g ⟨1⟩
  let e : Constraint := .reified ⟨3⟩ g ⟨0⟩
  let f : Constraint := .reified ⟨4⟩ k ⟨2⟩
  let ops : List Domains.Operation := [.add (-2) 3, .add 0 5, .add 1 1, .removeInitial ⟨0⟩ 1]
  have hops : ∀ op ∈ ops, op.Allowed := by simp [ops, Domains.Operation.Allowed, minValue, maxValue]
  have hrun : (Domains.run {} ops).toOption.any (fun s =>
      decide (∀ x : Fin 3, (x : Nat) < s.count) &&
      ((c.propagator.step.start ⟨0⟩ s).toOption.any fun o => decide (o.result = .ok () ∧ o.entailed = false)) &&
      ((e.propagator.step.start ⟨0⟩ s).toOption.any fun p => decide (p.result = .ok () ∧ p.entailed = true)) &&
      (f.propagator.step.start ⟨0⟩ s).toOption.any fun q => decide (q.result = .error ⟨⟨0⟩⟩)) = true := by
    decide +kernel
  obtain ⟨s, -, hs, hrun⟩ := Domains.exists_run hops hrun
  simp only [Bool.and_eq_true, decide_eq_true_eq] at hrun
  obtain ⟨⟨⟨hk, ho⟩, hp⟩, hq⟩ := hrun
  obtain ⟨o, ho, hres⟩ := exists_ok_of_any ho
  obtain ⟨p, hp, hres'⟩ := exists_ok_of_any hp
  obtain ⟨q, hq, herr⟩ := exists_ok_of_any hq
  obtain ⟨hok, hent⟩ := of_decide_eq_true hres
  obtain ⟨hok', hent'⟩ := of_decide_eq_true hres'
  have herr := of_decide_eq_true herr
  obtain ⟨o', ho', -, hleft⟩ := reified_consistent ⟨2⟩ g ⟨1⟩ hs (hk 0) (hk 1) ⟨0⟩
  obtain ⟨p', hp', -, hleft'⟩ := reified_consistent ⟨3⟩ g ⟨0⟩ hs (hk 0) (hk 0) ⟨0⟩
  obtain ⟨q', hq', hfails, -⟩ := reified_consistent ⟨4⟩ k ⟨2⟩ hs (hk 0) (hk 2) ⟨0⟩
  cases ho.symm.trans ho'
  cases hp.symm.trans hp'
  cases hq.symm.trans hq'
  obtain ⟨hsupport, -⟩ := hleft hok
  obtain ⟨-, hagain, hfixed⟩ := hleft' hok'
  exact ⟨c, e, f, s, o, p, q, hs, ⟨rfl, ho, hok, hent⟩, hsupport, ⟨rfl, hp, hok', hent'⟩, hent' ▸ hagain ⟨1⟩,
    hfixed.1 hent', hq, herr, hfails.1 ⟨_, herr⟩⟩

end Constraint

end DomainPropagation
