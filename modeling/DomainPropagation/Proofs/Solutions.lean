import DomainPropagation.Assignment
import DomainPropagation.Proofs.Constraints
import DomainPropagation.Proofs.Runs
import Mathlib.Logic.Function.Basic

/-! Propagation loses no solution. What no propagator takes out of the domains is in them at the end, and as
long as there is such a thing propagation does not fail. -/

namespace DomainPropagation

variable {B : Box} {a : Assignment}

theorem Domains.admits_iff {s : Domains} :
    s.Admits a ↔ ∀ x : Var, x.index < s.count → a x ∈ s.box x := by
  constructor
  · intro h x hx
    obtain ⟨d, hd⟩ := Table.lt_size_iff (k := x).1 hx
    rw [box_of_get? hd]
    exact h x d (get_eq_ok_iff.2 hd)
  · intro h x d hd
    have hd := get_eq_ok_iff.1 hd
    have hx := h x (Table.lt_size_iff.2 ⟨d, hd⟩)
    rw [box_of_get? hd] at hx
    exact hx

theorem Domains.Shrinks.admits {s t : Domains} (h : s.Shrinks t) (ha : t.Admits a) : s.Admits a :=
  Domains.admits_iff.2 fun x hx => h.le x (Domains.admits_iff.1 ha x (hx.trans_eq h.count.symm))

def Box.Picks (B : Box) (a : Assignment) : Prop := ∀ x, (B x).Nonempty → a x ∈ B x

theorem Box.exists_picks (B S : Box) : ∃ a, B.Picks a ∧ ∀ x, (B x ∩ S x).Nonempty → a x ∈ S x := by
  have hv : ∀ x, ∃ v, ((B x).Nonempty → v ∈ B x) ∧ ((B x ∩ S x).Nonempty → v ∈ S x) := by
    intro x
    by_cases hS : (B x ∩ S x).Nonempty
    · obtain ⟨v, hB, hS⟩ := hS
      exact ⟨v, fun _ => hB, fun _ => hS⟩
    by_cases hB : (B x).Nonempty
    · obtain ⟨v, hB⟩ := hB
      exact ⟨v, fun _ => hB, fun h => absurd h hS⟩
    · exact ⟨0, fun h => absurd h hB, fun h => absurd h hS⟩
  choose a ha using hv
  exact ⟨a, fun x => (ha x).1, fun x => (ha x).2⟩

theorem Box.exists_picks_at {x : Var} {u : Int} (hu : u ∈ B x) (S : Box) :
    ∃ a, B.Picks a ∧ a x = u ∧ ∀ y ≠ x, (B y ∩ S y).Nonempty → a y ∈ S y := by
  obtain ⟨a, ha, hS⟩ := B.exists_picks (Function.update S x {u})
  refine ⟨a, ha, ?_, fun y hy hne => ?_⟩
  · have hax := hS x
    rw [Function.update_self] at hax
    exact hax ⟨u, hu, rfl⟩
  · have hay := hS y
    rw [Function.update_of_ne hy] at hay
    exact hay hne

theorem Domains.WellFormed.picks_iff {s : Domains} (hs : s.WellFormed) : s.box.Picks a ↔ s.Admits a := by
  rw [admits_iff]
  refine forall_congr' fun x => ⟨fun h hx => h (hs.sound.nonempty hx), ?_⟩
  rintro h ⟨v, d, hd, -⟩
  exact h (Table.lt_size_iff.2 ⟨d, hd⟩)

namespace Store

variable {s t u w : Store} {B : Box} {h : Handle} {p : Propagator} {o : Outcome Unit} {v : Turn}

/-- The box lies within the domains, has a value for every variable, and loses none to a propagator. -/
structure Bounds (s : Store) (B : Box) : Prop where
  wellFormed : s.WellFormed
  le : B ≤ s.domains.box
  nonempty : ∀ x : Var, x.index < s.domains.count → (B x).Nonempty
  keeps : ∀ h p, s.propagator? h = some p → p.Keeps B

theorem Bounds.continues (hs : s.Bounds B) (ht : t.WellFormed) (hst : s.Continues t) (hle : B ≤ t.domains.box) :
    t.Bounds B where
  wellFormed := ht
  le := hle
  nonempty := fun x hx => hs.nonempty x (hx.trans_eq hst.count)
  keeps := hst.imposed ▸ hs.keeps

theorem Bounds.wake (hs : s.Bounds B) (hw : s.wake = .ok w) : w.Bounds B := by
  obtain ⟨hwf, -, -, heq⟩ := hs.wellFormed.woken hw
  apply hs.continues hwf (hs.wellFormed.continues_wake hw)
  rw [heq]
  exact hs.le

theorem Bounds.ended (hw : w.Bounds B) (hr : w.Runs h p o u) (he : Ended h p o u v t) :
    v.fails = false ∧ B ≤ t.domains.box := by
  have hk := (hw.wellFormed.attached.standard h p hr.imposed).2
  obtain ⟨d, e, hd, hle⟩ := hw.keeps h p hr.imposed h w.domains hw.wellFormed.domains hk hw.le hw.nonempty
  cases hr.start.symm.trans hd
  have hu : B ≤ u.domains.box := by
    rw [hr.eq]
    exact hle
  cases he with
  | failed he hf => cases he
  | entailed hk' he hf =>
    obtain ⟨t, ht, -, -, heq⟩ := hr.wellFormed.entail hr.still_imposed hr.still_active (hr.not_due hw.wellFormed)
    cases hf.symm.trans ht
    refine ⟨rfl, ?_⟩
    change B ≤ t.domains.box
    rw [heq]
    exact hu
  | ran hk' he => exact ⟨rfl, hu⟩

theorem Bounds.turn (hs : s.Bounds B) {r : Reply Turn} (hr : s.turn = .ok r) :
    r.value.fails = false ∧ r.store.Bounds B := by
  obtain ⟨w, hw, ht⟩ := hs.wellFormed.turn_cases hr
  have hwb := hs.wake hw
  have hend : r.value.fails = false ∧ B ≤ r.store.domains.box := by
    generalize r.value = v, r.store = t at ht
    cases ht with
    | idle ha => exact ⟨rfl, hwb.le⟩
    | run hruns he => exact hwb.ended hruns he
  exact ⟨hend.1, hs.continues (hs.wellFormed.turn hr) (hs.wellFormed.continues_turn hr) hend.2⟩

theorem Bounds.propagate (hs : s.Bounds B) {r : Reply (Except Conflict Unit)} (hr : s.propagate = .ok r) :
    r.value = .ok () ∧ B ≤ r.store.domains.box := by
  obtain ⟨t, hst, hend⟩ := propagate_cases hr
  have ht : t.Bounds B :=
    invariant_of_ran (P := fun t => t.Bounds B) (fun _ _ h ⟨_, hr⟩ => (h.turn hr).2) hst hs
  rcases hend with ⟨log, hv, hr⟩ | ⟨c, log, -, hr⟩
  · exact ⟨hv, (ht.turn hr).2.le⟩
  · cases (ht.turn hr).1

def Imposes (s : Store) (cs : List Constraint) : Prop :=
  s.imposed.toList.map (·.propagator) = cs.map (·.propagator)

variable {cs : List Constraint}

theorem Imposes.propagator? (hcs : s.Imposes cs) (h : Handle) :
    s.propagator? h = cs[h.index]?.map (·.propagator) := by
  have hi := congrArg (·[h.index]?) hcs
  simp only [List.getElem?_map, Table.toList, Array.getElem?_toList] at hi
  exact hi

theorem Reachable.exists_imposes {ok : Constraint → Prop} {o : Options} (hs : Reachable o (Propagator.Of ok) s) :
    ∃ cs, (∀ c ∈ cs, ok c) ∧ s.Imposes cs := by
  have hok : ∀ p ∈ s.imposed.toList.map (·.propagator), p.Of ok := by
    intro p hp
    obtain ⟨i, hi, rfl⟩ := List.mem_map.1 hp
    obtain ⟨n, hn⟩ := List.mem_iff_getElem?.1 hi
    exact hs.imposed (fun _ h => h.standard) (propagator?_of_get? (h := ⟨n⟩) (Array.getElem?_toList.symm.trans hn))
  simp only [Imposes]
  generalize s.imposed.toList.map (·.propagator) = ps at hok
  induction ps with
  | nil => exact ⟨[], nofun, rfl⟩
  | cons p ps ih =>
    obtain ⟨⟨c, hc, rfl⟩, hps⟩ := List.forall_mem_cons.1 hok
    obtain ⟨cs, hcs, rfl⟩ := ih hps
    exact ⟨c :: cs, List.forall_mem_cons.2 ⟨hc, hcs⟩, rfl⟩

theorem Imposes.exists (hcs : s.Imposes cs) (hp : s.propagator? h = some p) :
    ∃ c ∈ cs, cs[h.index]? = some c ∧ c.propagator = p := by
  obtain ⟨c, hc, rfl⟩ := Option.map_eq_some_iff.1 ((hcs.propagator? h).symm.trans hp)
  exact ⟨c, List.mem_of_getElem? hc, hc, rfl⟩

theorem Imposes.bounds (hcs : s.Imposes cs) (hs : s.WellFormed) (hle : B ≤ s.domains.box)
    (hne : ∀ x : Var, x.index < s.domains.count → (B x).Nonempty) (hr : ∀ c ∈ cs, c.InRange)
    (hB : ∀ c ∈ cs, s.domains.Knows c.scope → c.filter B = B) : s.Bounds B where
  wellFormed := hs
  le := hle
  nonempty := hne
  keeps := by
    intro h p hp
    obtain ⟨c, hc, -, rfl⟩ := hcs.exists hp
    exact c.keeps_propagator (hr c hc) (hB c hc (hs.attached.standard h _ hp).2)

end Store

end DomainPropagation
