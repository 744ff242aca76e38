import DomainPropagation.Proofs.Fixpoint
import DomainPropagation.Proofs.Solutions

/-! The outcome of propagation is that of the constraints: the largest domains on which no step changes
anything, whatever the order in which propagators were imposed and run. -/

namespace DomainPropagation

namespace Constraint

/-- The constraint is woken by the changes that it is woken by unless something else is asked for. -/
def Default : Constraint → Prop
  | .count c => c.sensitivities = ⟨.every, [], []⟩
  | .greater g => g.sensitivities = ⟨.bounds, [], []⟩
  | .reified _ g _ => g.sensitivities = ⟨.bounds, [], []⟩

variable {c d : Constraint} {B : Box}

theorem Default.attentive (hc : c.Default) : c.Attentive := by
  cases c with
  | count c =>
    have hn : ∀ x, c.sensitivities.of .enforce x = .every := by
      intro x
      rw [show c.sensitivities = _ from hc]
      rfl
    exact ⟨fun x _ => hn x, fun _ he => nomatch (hn _).symm.trans he⟩
  | greater g =>
    intro hn
    rw [show g.sensitivities = _ from hc] at hn
    cases hn
  | reified serial g b =>
    intro hn
    rw [show g.sensitivities = _ from hc] at hn
    cases hn

end Constraint

namespace Store

variable {s t : Store} {cs ds : List Constraint} {B : Box} {o o' : Options} {floor floor' : Nat}
  {failed : Bool} {c d : Constraint} {r r' : Reply (Except Conflict Unit)} {h g : Handle}

def Stable (s : Domains) (cs : List Constraint) : Set Box :=
  {B | ∃ t : Domains, t.WellFormed ∧ t.count = s.count ∧ t.box = B ∧ B ≤ s.box ∧
    ∀ c ∈ cs, ∀ h, ∃ e, c.propagator.step.start h t = .ok ⟨t, e, .ok ()⟩}

theorem Imposes.knows (hcs : s.Imposes cs) (hs : s.WellFormed) (hc : c ∈ cs) : s.domains.Knows c.scope := by
  obtain ⟨n, hn⟩ := List.mem_iff_getElem?.1 hc
  refine hs.knows (h := ⟨n⟩) ?_
  rw [hcs.propagator? ⟨n⟩, hn]
  rfl

theorem Imposes.le_of_stable (hcs : s.Imposes cs) (hin : ∀ c ∈ cs, c.InRange) (hs : s.WellFormed)
    (hB : B ∈ Stable s.domains cs) (hr : s.propagate = .ok r) : r.value = .ok () ∧ B ≤ r.store.domains.box := by
  obtain ⟨t, ht, hcount, rfl, hle, hst⟩ := hB
  refine Bounds.propagate ?_ hr
  apply hcs.bounds hs hle
  · exact fun x hx => ht.sound.nonempty (hx.trans_eq hcount.symm)
  · exact hin
  · intro c hc hk
    obtain ⟨e, he⟩ := hst c hc ⟨0⟩
    exact ((c.start_eq_iff ht fun x hx => (hk x hx).trans_eq hcount.symm).1 he).1

theorem Imposes.fixpoint (hcs : s.Imposes cs) (ha : s.Alert floor false) (hr : s.propagate = .ok r)
    (hv : r.value = .ok ()) (hc : cs[h.index]? = some c) :
    c.filter r.store.domains.box = r.store.domains.box ∧
      ∃ e, r.store.isEntailed h = .ok e ∧ (e = true ↔ c.Decides r.store.domains.box) := by
  rcases ha.propagate hr with ⟨⟨e, he⟩, -⟩ | ⟨-, hra, hdue, hev⟩
  · cases he.symm.trans hv
  have hp : r.store.propagator? h = some c.propagator := by
    rw [(ha.wellFormed.continues_propagate hr).imposed, hcs.propagator?, hc]
    rfl
  obtain ⟨i, hi, -⟩ := get?_of_propagator? hp
  have hk := hra.wellFormed.knows hp
  have hflag := hra.wellFormed.attached.flag h i hi
  have hent : r.store.isEntailed h = .ok i.entailed := by
    rw [isEntailed, Table.get_eq_ok_iff.2 hi]
    rfl
  rcases hra.fixpoint hdue hev hp with ⟨hE, hs⟩ | ⟨hE, hq⟩
  · obtain ⟨hf, hd⟩ := (c.start_eq_iff hra.wellFormed.domains hk).1
      (hs _ hra.wellFormed.domains hk fun _ _ => subset_rfl)
    exact ⟨hf, _, hent, iff_of_true (hflag.2 hE) (hd.1 rfl)⟩
  · obtain ⟨hf, hd⟩ := (c.start_eq_iff hra.wellFormed.domains hk).1 hq
    exact ⟨hf, _, hent, iff_of_false (mt hflag.1 hE) fun hd' => nomatch hd.2 hd'⟩

theorem Imposes.isGreatest (hcs : s.Imposes cs) (hin : ∀ c ∈ cs, c.InRange) (ha : s.Alert floor false)
    (hr : s.propagate = .ok r) (hv : r.value = .ok ()) : IsGreatest (Stable s.domains cs) r.store.domains.box := by
  have hwf := ha.wellFormed.propagate hr
  have hcont := ha.wellFormed.continues_propagate hr
  refine ⟨⟨r.store.domains, hwf.domains, hcont.count, rfl, hcont.box, fun c hc g => ?_⟩, fun B hB => ?_⟩
  · obtain ⟨n, hn⟩ := List.mem_iff_getElem?.1 hc
    obtain ⟨hf, -⟩ := hcs.fixpoint (h := ⟨n⟩) ha hr hv hn
    have hk : r.store.domains.Knows c.scope := fun x hx =>
      (hcs.knows ha.wellFormed hc x hx).trans_eq hcont.count.symm
    classical
    refine ⟨decide (c.Decides r.store.domains.box), ?_⟩
    exact (c.start_eq_iff hwf.domains hk).2 ⟨hf, decide_eq_true_iff⟩
  · exact (hcs.le_of_stable hin ha.wellFormed hB hr).2

end Store

end DomainPropagation
