import DomainPropagation.Proofs.Entailing
import DomainPropagation.Proofs.Fixpoint

/-! Waking. After some cuts, the propagators that become due are those that are active and told of a change, and the
first of them is the first that is run. -/

namespace DomainPropagation

namespace Domains

variable {s t : Domains} {x : Var}

theorem Shrinks.tells_iff (h : s.Shrinks t) (need : Sensitivity) (hs : s.WellFormed) (ht : t.WellFormed)
    (hx : x.index < s.count) :
    need.Tells (s.box x) (t.box x) ↔ need = .every ∧ (∃ v, t.contains x v ≠ s.contains x v) ∨
      need = .bounds ∧ (t.lower x ≠ s.lower x ∨ t.upper x ≠ s.upper x) := by
  obtain ⟨d, hd⟩ := Table.lt_size_iff (k := x).1 hx
  obtain ⟨e, he⟩ := Table.lt_size_iff (k := x).1 (hx.trans_eq h.count.symm)
  have hsd : s.get x = .ok d := get_eq_ok_iff.2 hd
  have hte : t.get x = .ok e := get_eq_ok_iff.2 he
  simp only [box_of_get? hd, box_of_get? he, contains, lower, upper, hsd, hte, ok_bind, pure, Except.pure, ne_eq,
    Except.ok.injEq]
  cases need with
  | never => simp [Sensitivity.Tells]
  | bounds =>
    simp only [Sensitivity.Tells, (hs.sound x d hd).lowerBounds_eq_iff (ht.sound x e he),
      (hs.sound x d hd).upperBounds_eq_iff (ht.sound x e he), reduceCtorEq, false_and, true_and, false_or, ne_eq,
      eq_comm]
  | every =>
    simp only [Sensitivity.Tells, Set.ext_iff, not_forall, true_and, reduceCtorEq, false_and, or_false, ne_eq]
    refine exists_congr fun v => not_congr ?_
    rw [Bool.eq_iff_iff]
    exact iff_comm

end Domains

namespace Store

variable {s t w : Store} {h : Handle} {cs : List (Var × Cut)} {o : Options}

def cutAll (s : Store) : List (Var × Cut) → Except Misuse Store
  | [] => .ok s
  | (x, c) :: cs => do (← s.cut x c).store.cutAll cs

theorem WellFormed.cutAll (hs : s.WellFormed) (hcs : ∀ c ∈ cs, c.1.index < s.domains.count) :
    ∃ t, s.cutAll cs = .ok t ∧ t.WellFormed ∧ s.domains.Shrinks t.domains ∧
      t = { s with domains := t.domains } := by
  induction cs generalizing s with
  | nil => exact ⟨s, rfl, hs, .refl _, rfl⟩
  | cons c cs ih =>
    obtain ⟨x, c⟩ := c
    obtain ⟨hx, hcs⟩ := List.forall_mem_cons.1 hcs
    obtain ⟨w, hw, -⟩ := Domains.cut_spec hs.domains hx c
    have hcut : s.cut x c = .ok ⟨w.status, { s with domains := w.domains }, []⟩ := by
      rw [Store.cut, hw]
      rfl
    obtain ⟨hwf, hst, -⟩ := hs.cut hcut
    obtain ⟨t, ht, htwf, hsh, heq⟩ := ih hwf fun c hc => (hcs c hc).trans_eq hst.count.symm
    refine ⟨t, ?_, htwf, hst.trans hsh, heq⟩
    rw [Store.cutAll, hcut]
    exact ht

theorem awaits_iff (he : s.domains.pending.events = #[]) (ht : t.WellFormed) (hst : s.domains.Shrinks t.domains)
    (heq : t = { s with domains := t.domains }) :
    t.Awaits h ↔ h ∉ s.entailments.entries ∧ ∃ p, s.propagator? h = some p ∧
      ∃ x ∈ p.scope, (p.need x).Tells (s.domains.box x) (t.domains.box x) := by
  have hprop : t.propagator? = s.propagator? := by rw [heq]; rfl
  have hent : t.entailments = s.entailments := by rw [heq]
  simp only [Awaits, Wants, hprop, hent]
  constructor
  · rintro ⟨e, x, hev, hE, p, hp, hx, hn⟩
    refine ⟨hE, p, hp, x, hx, ?_⟩
    rcases hst.honest e x hev with hev | hev
    · exact absurd hev (he ▸ Array.not_mem_empty _)
    · exact hev.tells (ht.domains.sound.nonempty (ht.knows (hprop ▸ hp) x hx)) hn
  · rintro ⟨hE, p, hp, x, hx, hn⟩
    obtain ⟨e, hne, hev⟩ := hst.told x _ hn
    exact ⟨e, x, hev, hE, p, hp, hx, hne⟩

theorem WellFormed.active_iff_not_entailed (hs : s.WellFormed) {Q : Propagator → Prop} :
    (h ∉ s.entailments.entries ∧ ∃ p, s.propagator? h = some p ∧ Q p) ↔
      s.isEntailed h = .ok false ∧ ∃ p, s.propagator h = .ok p ∧ Q p := by
  constructor
  · rintro ⟨hE, p, hp, hQ⟩
    obtain ⟨⟨p, e⟩, hi, rfl⟩ := get?_of_propagator? hp
    obtain rfl : e = false := Bool.eq_false_iff.2 (mt (hs.attached.flag h _ hi).1 hE)
    obtain ⟨hp, he⟩ := get?_eq_some_iff.1 hi
    exact ⟨he, p, hp, hQ⟩
  · rintro ⟨he, p, hp, hQ⟩
    have hi := get?_eq_some_iff.2 ⟨hp, he⟩
    refine ⟨fun hE => ?_, p, propagator?_of_get? hi, hQ⟩
    cases (hs.attached.flag h _ hi).2 hE

theorem propagate_of_wake (hw : t.wake = .ok w) (he : w.domains.pending.events = #[]) :
    t.propagate = w.propagate := by
  have hturn : t.turn = w.turn := by
    rw [turn, turn, hw, wake_of_no_events he]
  rw [propagate_eq, propagate_eq, hturn]

theorem log_runPropagator {r : Reply Turn} (hr : s.runPropagator h = .ok r) :
    ∃ p log, s.propagator? h = some p ∧ r.log = .ran p.description :: log := by
  obtain ⟨i, hi, hr⟩ := bind_eq_ok_iff.1 hr
  refine ⟨i.propagator, ?_⟩
  split at hr
  · cases hr
  obtain ⟨o, -, hr⟩ := bind_eq_ok_iff.1 hr
  split at hr
  · obtain ⟨f, -, hr⟩ := bind_eq_ok_iff.1 hr
    cases hr
    exact ⟨f.log, propagator?_of_get? (Table.get?_of_get hi), rfl⟩
  split at hr
  · obtain ⟨e, -, hr⟩ := bind_eq_ok_iff.1 hr
    cases hr
    exact ⟨e.log, propagator?_of_get? (Table.get?_of_get hi), rfl⟩
  · cases hr
    exact ⟨[], propagator?_of_get? (Table.get?_of_get hi), rfl⟩

theorem log_turn {r : Reply Turn} (hw : t.wake = .ok w) (hr : t.turn = .ok r) :
    w.agenda.toList = [] ∧ r.value = .idle ∧ r.log = [] ∨
      ∃ h p log, w.agenda.toList.head? = some h ∧ w.propagator? h = some p ∧ r.log = .ran p.description :: log := by
  rw [turn, hw, ok_bind] at hr
  split at hr
  · next hp =>
    cases hr
    exact .inl ⟨Agenda.pop?_eq_none_iff.1 hp, rfl, rfl⟩
  · next h a hp =>
    obtain ⟨p, log, hprop, hlog⟩ := log_runPropagator hr
    exact .inr ⟨h, p, log, by rw [Agenda.toList_of_pop? hp, List.head?_cons], hprop, hlog⟩

theorem head?_log_propagate {r : Reply (Except Conflict Unit)} (hw : t.wake = .ok w) (hr : t.propagate = .ok r) :
    r.log.head? = (w.agenda.toList.head?.bind w.propagator?).map (.ran ·.description) := by
  rw [propagate_eq] at hr
  cases ht : t.turn with
  | error m =>
    rw [ht] at hr
    cases hr
  | ok v =>
    obtain ⟨v, u, log⟩ := v
    have hstart : r.log.head? = log.head? ∨ log = [] ∧ v = .ran := by
      rw [ht] at hr
      cases v with
      | idle | failed =>
        cases hr
        exact .inl rfl
      | ran =>
        obtain ⟨r, -, rfl⟩ := map_eq_ok_iff.1 hr
        cases log with
        | nil => exact .inr ⟨rfl, rfl⟩
        | cons => exact .inl rfl
    rcases log_turn hw ht with ⟨hnil, rfl, rfl⟩ | ⟨h, p, log, hh, hp, rfl⟩
    · rw [hstart.resolve_right nofun, hnil]
      rfl
    · rw [hstart.resolve_right nofun, hh, Option.bind_some, hp]
      rfl

/-- From rest, any cuts make due, once each, the active propagators that have a variable in scope whose values have
changed and that listen to all changes, or whose bounds have changed and that listen to these. The first of them that
is due is the first that propagation runs. -/
theorem wakes_exactly (hs : Reachable o Propagator.Standard s) (ha : s.agenda.toList = [])
    (he : s.domains.pending.events = #[]) (hcs : ∀ c ∈ cs, c.1.index < s.domains.count) :
    ∃ t w u, s.cutAll cs = .ok t ∧ t.wake = .ok w ∧ t.propagate = w.propagate ∧
      (∀ r, t.propagate = .ok r →
        r.log.head? = (w.agenda.toList.head?.bind w.propagator?).map (.ran ·.description)) ∧
      t.openLevel = .ok u ∧ u.agenda.toList = w.agenda.toList ∧ w.agenda.toList.Nodup ∧
      ∀ h, h ∈ w.agenda.toList ↔ s.isEntailed h = .ok false ∧ ∃ p, s.propagator h = .ok p ∧ ∃ x ∈ p.scope,
        p.need x = .every ∧ (∃ v, t.domains.contains x v ≠ s.domains.contains x v) ∨
        p.need x = .bounds ∧
          (t.domains.lower x ≠ s.domains.lower x ∨ t.domains.upper x ≠ s.domains.upper x) := by
  have hwf := hs.wellFormed fun _ hp => hp
  obtain ⟨t, ht, htwf, hst, heq⟩ := hwf.cutAll hcs
  obtain ⟨w, u, hw, hu, hwwf, -, hdue, -⟩ := htwf.openLevel
  obtain ⟨-, hev, hmem, -⟩ := htwf.woken hw
  have hat : t.agenda = s.agenda := by rw [heq]
  refine ⟨t, w, u, ht, hw, propagate_of_wake hw hev, fun r => head?_log_propagate hw, hu, hdue, hwwf.due.nodup,
    fun h => ?_⟩
  rw [hmem, hat, ha, or_iff_right List.not_mem_nil, awaits_iff he htwf hst heq, hwf.active_iff_not_entailed]
  apply and_congr_right
  intro hent
  apply exists_congr
  intro p
  apply and_congr_right
  intro hpo
  have hp := propagator?_of_get? (get?_eq_some_iff.2 ⟨hpo, hent⟩)
  refine exists_congr fun x => and_congr_right fun hx => ?_
  exact hst.tells_iff (p.need x) hwf.domains htwf.domains (hwf.knows hp x hx)

theorem wakes_exactly_one : ∃ (s : Store) (cs : List (Var × Cut)), Reachable {} Propagator.Standard s ∧
    s.agenda.toList = [] ∧ s.domains.pending.events = #[] ∧ (∀ c ∈ cs, c.1.index < s.domains.count) ∧
    s.imposed.size = 4 ∧ ∃ t w u r, s.cutAll cs = .ok t ∧ t.wake = .ok w ∧ t.propagate = w.propagate ∧
      t.propagate = .ok r ∧ r.log.head? = (w.agenda.toList.head?.bind w.propagator?).map (.ran ·.description) ∧
      r.log.head? = some (.ran "every change") ∧
      t.openLevel = .ok u ∧ u.agenda.toList = w.agenda.toList ∧ w.agenda.toList.Nodup ∧
      (∀ h, h ∈ w.agenda.toList ↔ s.isEntailed h = .ok false ∧ ∃ p, s.propagator h = .ok p ∧ ∃ x ∈ p.scope,
        p.need x = .every ∧ (∃ v, t.domains.contains x v ≠ s.domains.contains x v) ∨
        p.need x = .bounds ∧
          (t.domains.lower x ≠ s.domains.lower x ∨ t.domains.upper x ≠ s.domains.upper x)) ∧
      w.agenda.toList = [⟨1⟩] := by
  let watcher (description : String) (need : Sensitivity) (step : Step Unit) : Propagator := {
    name := "Watcher"
    serial := ⟨0⟩
    description := description
    scope := [⟨0⟩, ⟨0⟩]
    sensitivities := ⟨need, [], []⟩
    step := step
    satisfied := fun _ => .ok false }
  let qs : List Request := [.newVariable 0 5, .impose (watcher "bounds" .bounds (pure ())),
    .impose (watcher "every change" .every (pure ())), .impose (watcher "nothing" .never (pure ())),
    .impose (watcher "entailed" .every Step.declareEntailed), .propagate]
  -- A value between the bounds goes, one cut is refused and one has no effect.
  let cs : List (Var × Cut) := [(⟨0⟩, .without 2), (⟨0⟩, .atLeast 6), (⟨0⟩, .atMost 5)]
  have h0 : Reachable {} Propagator.Standard {} := .refl
  have hw : ∀ description need step, (watcher description need step).Standard := fun _ _ _ => ⟨rfl, rfl⟩
  have hqs : ∀ q ∈ qs, ∀ t : Store, t.HasNames 1 → q.Allowed Propagator.Standard t := by
    simp +contextual [qs, Request.Allowed, minValue, maxValue, hw]
  obtain ⟨s, hs, hrun⟩ := exists_leads (n := 5) h0 hqs (f := fun s => decide (s.agenda.toList = [] ∧
    s.domains.pending.events = #[] ∧ (∀ c ∈ cs, c.1.index < s.domains.count) ∧ s.imposed.size = 4) &&
    (s.cutAll cs).toOption.any fun t => t.wake.toOption.any (·.agenda.toList == [⟨1⟩]) &&
      (propagateWithin 2 t).any (·.log.head? == some (.ran "every change"))) (by decide +kernel)
  simp only [Bool.and_eq_true, decide_eq_true_eq] at hrun
  obtain ⟨⟨ha, he, hcs, hsize⟩, hrun⟩ := hrun
  obtain ⟨t', ht', hrun⟩ := exists_ok_of_any hrun
  obtain ⟨hdue, hrun⟩ := Bool.and_eq_true_iff.1 hrun
  obtain ⟨w', hw', hdue⟩ := exists_ok_of_any hdue
  obtain ⟨r, hr, hfirst⟩ := exists_propagate hrun
  obtain ⟨t, w, u, ht, hw, hp, hlog, hu, hleft, hn, hall⟩ := wakes_exactly hs ha he hcs
  cases ht.symm.trans ht'
  cases hw.symm.trans hw'
  exact ⟨s, cs, hs, ha, he, hcs, hsize, _, _, u, r, ht, hw, hp, hr, hlog r hr, beq_iff_eq.1 hfirst, hu, hleft, hn, hall,
    beq_iff_eq.1 hdue⟩

end Store

end DomainPropagation
