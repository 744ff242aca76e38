import DomainPropagation.Proofs.Stores
import DomainPropagation.Store.Propagate
import Mathlib.Logic.Relation

/-! Turns of propagation on well-formed stores: what one turn can do, and propagation as the turns it takes. -/

namespace DomainPropagation

namespace Store

variable {s t w u : Store} {h : Handle} {p : Propagator} {o : Outcome Unit}

def Turn.fails : Turn → Bool
  | .failed _ => true
  | _ => false

/-- The first propagator that is due is run: its step leads from `w` to `u`. -/
structure Runs (w : Store) (h : Handle) (p : Propagator) (o : Outcome Unit) (u : Store) : Prop where
  due : w.agenda.toList = h :: u.agenda.toList
  imposed : w.propagator? h = some p
  active : h ∉ w.entailments.entries
  start : p.step.start h w.domains = .ok o
  eq : u = { w with agenda := u.agenda, domains := o.domains }
  shrinks : w.domains.Shrinks o.domains
  wellFormed : u.WellFormed

theorem Runs.not_due (hr : w.Runs h p o u) (hw : w.WellFormed) : h ∉ u.agenda.toList :=
  (List.nodup_cons.1 (hr.due ▸ hw.due.nodup)).1

theorem Runs.still_imposed (hr : w.Runs h p o u) : u.propagator? h = some p := by
  rw [hr.eq]
  exact hr.imposed

theorem Runs.still_active (hr : w.Runs h p o u) : h ∉ u.entailments.entries := by
  rw [hr.eq]
  exact hr.active

inductive Ended (h : Handle) (p : Propagator) (o : Outcome Unit) (u : Store) : Turn → Store → Prop
  | failed {e : Wipeout} {f : Reply Unit} (he : o.result = .error e) (hf : u.fail p e.var = .ok f) :
      Ended h p o u (.failed ⟨h, e.var⟩) f.store
  | entailed {r : Reply Unit} (hk : o.result = .ok ()) (he : o.entailed = true) (hr : u.entail h p = .ok r) :
      Ended h p o u .ran r.store
  | ran (hk : o.result = .ok ()) (he : o.entailed = false) : Ended h p o u .ran u

inductive Turned (w : Store) : Turn → Store → Prop
  | idle (ha : w.agenda.toList = []) : Turned w .idle w
  | run {h : Handle} {p : Propagator} {o : Outcome Unit} {u t : Store} {v : Turn} (hr : w.Runs h p o u)
      (he : Ended h p o u v t) : Turned w v t

theorem runs_of_pop (hw : w.WellFormed) {a : Agenda} (ha : w.agenda.pop? = some (h, a))
    (hp : w.propagator? h = some p) (ho : p.step.start h w.domains = .ok o) :
    w.Runs h p o { w with agenda := a, domains := o.domains } := by
  obtain ⟨hwa, hdue, -, hE, -⟩ := hw.pop ha
  obtain ⟨hwf, hsh⟩ := Step.run_shrinks hw.domains ho
  exact ⟨hdue, hp, hE, ho, rfl, hsh, hwa.withDomains hwf hsh.count hsh.level⟩

theorem turn_cases {r : Reply Turn} (hr : s.turn = .ok r) : ∃ w, s.wake = .ok w ∧
    (w.agenda.pop? = none ∧ r.value = .idle ∧ r.store = w ∨
      ∃ h a i o, w.agenda.pop? = some (h, a) ∧ w.imposed.get? h = some i ∧
        i.propagator.step.start h w.domains = .ok o ∧
        Ended h i.propagator o { w with agenda := a, domains := o.domains } r.value r.store) := by
  obtain ⟨w, hw, hr⟩ := bind_eq_ok_iff.1 hr
  refine ⟨w, hw, ?_⟩
  split at hr
  · next hp =>
    cases hr
    exact .inl ⟨hp, rfl, rfl⟩
  · next h a hp =>
    obtain ⟨i, hi, hr⟩ := bind_eq_ok_iff.1 hr
    split at hr
    · cases hr
    obtain ⟨o, ho, hr⟩ := bind_eq_ok_iff.1 hr
    refine .inr ⟨h, a, i, o, hp, Table.get?_of_get hi, ho, ?_⟩
    split at hr
    · next e he =>
      obtain ⟨f, hf, hr⟩ := bind_eq_ok_iff.1 hr
      cases hr
      exact .failed he hf
    · next hk =>
      split at hr
      · next he =>
        obtain ⟨e, hf, hr⟩ := bind_eq_ok_iff.1 hr
        cases hr
        exact .entailed hk he hf
      · next he =>
        cases hr
        exact .ran hk (by simpa using he)

theorem WellFormed.turn_cases (hs : s.WellFormed) {r : Reply Turn} (hr : s.turn = .ok r) :
    ∃ w, s.wake = .ok w ∧ w.Turned r.value r.store := by
  obtain ⟨w, hw, ⟨hp, hv, hr⟩ | ⟨h, a, i, o, hp, hi, ho, he⟩⟩ := Store.turn_cases hr
  · refine ⟨w, hw, ?_⟩
    rw [hv, hr]
    exact .idle (Agenda.pop?_eq_none_iff.1 hp)
  · exact ⟨w, hw, .run (runs_of_pop (hs.woken hw).1 hp (propagator?_of_get? hi) ho) he⟩

theorem Ended.wellFormed {v : Turn} (he : Ended h p o u v t) (hr : w.Runs h p o u) (hw : w.WellFormed) :
    t.WellFormed := by
  cases he with
  | failed he hf => exact (hr.wellFormed.fail hf).1
  | entailed hk he hf =>
    obtain ⟨t, ht, hwf, -⟩ := hr.wellFormed.entail hr.still_imposed hr.still_active (hr.not_due hw)
    cases hf.symm.trans ht
    exact hwf
  | ran hk he => exact hr.wellFormed

theorem WellFormed.turn (hs : s.WellFormed) {r : Reply Turn} (hr : s.turn = .ok r) : r.store.WellFormed := by
  obtain ⟨w, hw, ht⟩ := hs.turn_cases hr
  obtain ⟨hwf, -⟩ := hs.woken hw
  generalize r.value = v, r.store = t at ht
  cases ht with
  | idle ha => exact hwf
  | run hr he => exact he.wellFormed hr hwf

structure Continues (s t : Store) : Prop where
  imposed : t.propagator? = s.propagator?
  level : t.level = s.level
  count : t.domains.count = s.domains.count
  box : t.domains.box ≤ s.domains.box

theorem Continues.refl (s : Store) : s.Continues s := ⟨rfl, rfl, rfl, le_rfl⟩

theorem Continues.trans (h : s.Continues t) (h' : t.Continues u) : s.Continues u :=
  ⟨h'.imposed.trans h.imposed, h'.level.trans h.level, h'.count.trans h.count, h'.box.trans h.box⟩

theorem WellFormed.continues_wake (hs : s.WellFormed) (hw : s.wake = .ok w) : s.Continues w := by
  obtain ⟨-, -, -, heq⟩ := hs.woken hw
  rw [heq]
  exact ⟨rfl, rfl, rfl, le_rfl⟩

theorem Runs.continues (hr : w.Runs h p o u) : w.Continues u := by
  rw [hr.eq]
  exact ⟨rfl, hr.shrinks.level, hr.shrinks.count, hr.shrinks.le⟩

theorem Ended.continues {v : Turn} (he : Ended h p o u v t) (hr : w.Runs h p o u) (hw : w.WellFormed) :
    u.Continues t := by
  cases he with
  | failed he hf =>
    rw [(hr.wellFormed.fail hf).2]
    exact ⟨rfl, rfl, rfl, le_rfl⟩
  | entailed hk he hf =>
    obtain ⟨t, ht, -, himp, heq⟩ := hr.wellFormed.entail hr.still_imposed hr.still_active (hr.not_due hw)
    cases hf.symm.trans ht
    change u.Continues t
    rw [heq] at himp ⊢
    exact ⟨himp, rfl, rfl, le_rfl⟩
  | ran hk he => exact .refl _

theorem WellFormed.continues_turn (hs : s.WellFormed) {r : Reply Turn} (hr : s.turn = .ok r) :
    s.Continues r.store := by
  obtain ⟨w, hw, ht⟩ := hs.turn_cases hr
  obtain ⟨hwf, -⟩ := hs.woken hw
  have hsw := hs.continues_wake hw
  generalize r.value = v, r.store = t at ht
  cases ht with
  | idle ha => exact hsw
  | run hr he => exact hsw.trans (hr.continues.trans (he.continues hr hwf))

theorem WellFormed.turn_total (hs : s.WellFormed) (hp : ∀ h p, s.propagator? h = some p → p.Total) :
    ∃ r, s.turn = .ok r := by
  obtain ⟨w, hw, hwf, -, -, heq⟩ := hs.wake
  have hwp : ∀ h p, w.propagator? h = some p → p.Total := by
    intro h p hq
    rw [heq] at hq
    exact hp h p hq
  rw [Store.turn, hw, ok_bind]
  cases ha : w.agenda.pop? with
  | none => exact ⟨_, rfl⟩
  | some q =>
    obtain ⟨h, a⟩ := q
    obtain ⟨hwa, -, hnot, hE, p, hq⟩ := hwf.pop ha
    obtain ⟨i, hi, rfl⟩ := get?_of_propagator? hq
    have hflag : i.entailed = false := by
      rw [← Bool.not_eq_true, hwf.attached.flag h i hi]
      exact hE
    obtain ⟨-, hk⟩ := hwf.attached.standard h _ hq
    obtain ⟨o, ho⟩ := (hwp h _ hq).step h w.domains hwf.domains hk
    have hruns := runs_of_pop hwf ha hq ho
    simp only [runPropagator, Table.get_eq_ok_iff.2 hi, ok_bind, hflag, Bool.false_eq_true, if_false, ho]
    obtain ⟨d, e, r⟩ := o
    cases r with
    | error x =>
      have hblamed : ∀ y ∈ i.propagator.blamed, y.index < d.count := fun y hy =>
        (hk y ((hwp h _ hq).blamed y hy)).trans_eq hruns.shrinks.count.symm
      obtain ⟨f, hf⟩ := hruns.wellFormed.fail_total hblamed x.var
      simp only [hf, ok_bind]
      exact ⟨_, rfl⟩
    | ok v =>
      cases e with
      | false => exact ⟨_, rfl⟩
      | true =>
        obtain ⟨t, ht, -⟩ := hruns.wellFormed.entail hq hE hnot
        simp only [ht, ok_bind, if_true]
        exact ⟨_, rfl⟩

def Ran (s t : Store) : Prop := ∃ log, s.turn = .ok ⟨.ran, t, log⟩

theorem propagate_eq (s : Store) : s.propagate =
    match s.turn with
    | .error m => .error m
    | .ok ⟨.idle, t, log⟩ => .ok ⟨.ok (), t, log⟩
    | .ok ⟨.failed c, t, log⟩ => .ok ⟨.error c, t, log⟩
    | .ok ⟨.ran, t, log⟩ => (·.prepend log) <$> t.propagate := by
  rw [propagate]
  split <;> simp only [*]

theorem propagate_of_ran {log : List Record} (h : s.turn = .ok ⟨.ran, t, log⟩) :
    s.propagate = (·.prepend log) <$> t.propagate := by
  rw [propagate_eq, h]

theorem propagate_cases {r : Reply (Except Conflict Unit)} (hr : s.propagate = .ok r) :
    ∃ t, Relation.ReflTransGen Ran s t ∧
      ((∃ log, r.value = .ok () ∧ t.turn = .ok ⟨.idle, r.store, log⟩) ∨
        ∃ c log, r.value = .error c ∧ t.turn = .ok ⟨.failed c, r.store, log⟩) := by
  induction s using propagate.induct generalizing r with
  | case1 s m h =>
    rw [propagate_eq, h] at hr
    cases hr
  | case2 s t log h =>
    rw [propagate_eq, h] at hr
    cases hr
    exact ⟨s, .refl, .inl ⟨log, rfl, h⟩⟩
  | case3 s c t log h =>
    rw [propagate_eq, h] at hr
    cases hr
    exact ⟨s, .refl, .inr ⟨c, log, rfl, h⟩⟩
  | case4 s t log h ih =>
    rw [propagate_of_ran h] at hr
    cases ht : t.propagate with
    | error m =>
      rw [ht] at hr
      cases hr
    | ok r' =>
      rw [ht] at hr
      cases hr
      obtain ⟨u, hu, hend⟩ := ih ht
      exact ⟨u, .head ⟨log, h⟩ hu, hend⟩

theorem propagate_total {P : Store → Prop} (hP : ∀ s, P s → ∃ r, s.turn = .ok r ∧ P r.store) (hs : P s) :
    ∃ r, s.propagate = .ok r := by
  induction s using propagate.induct with
  | case1 s m h =>
    obtain ⟨r, hr, -⟩ := hP s hs
    cases h.symm.trans hr
  | case2 s t log h =>
    rw [propagate_eq, h]
    exact ⟨_, rfl⟩
  | case3 s c t log h =>
    rw [propagate_eq, h]
    exact ⟨_, rfl⟩
  | case4 s t log h ih =>
    obtain ⟨r, hr, ht⟩ := hP s hs
    cases h.symm.trans hr
    obtain ⟨r', hr'⟩ := ih ht
    rw [propagate_of_ran h, hr']
    exact ⟨_, rfl⟩

def propagateWithin : Nat → Store → Option (Reply (Except Conflict Unit))
  | 0, _ => none
  | n + 1, s =>
    match s.turn with
    | .error _ => none
    | .ok ⟨.idle, t, log⟩ => some ⟨.ok (), t, log⟩
    | .ok ⟨.failed c, t, log⟩ => some ⟨.error c, t, log⟩
    | .ok ⟨.ran, t, log⟩ => (propagateWithin n t).map (·.prepend log)

theorem propagate_of_within {n : Nat} {r : Reply (Except Conflict Unit)} (h : propagateWithin n s = some r) :
    s.propagate = .ok r := by
  induction n generalizing s r with
  | zero => cases h
  | succ n ih =>
    rw [propagateWithin] at h
    rw [propagate_eq]
    split at h
    · cases h
    · exact congrArg Except.ok (Option.some.inj h)
    · exact congrArg Except.ok (Option.some.inj h)
    · obtain ⟨r', hr', rfl⟩ := Option.map_eq_some_iff.1 h
      rw [ih hr']
      rfl

theorem exists_propagate {n : Nat} {test : Reply (Except Conflict Unit) → Bool}
    (h : (propagateWithin n s).any test = true) : ∃ r, s.propagate = .ok r ∧ test r = true := by
  obtain ⟨r, hr, ht⟩ := (Option.any_eq_true ..).1 h
  exact ⟨r, propagate_of_within hr, ht⟩

theorem invariant_of_ran {P : Store → Prop} (hP : ∀ s t, P s → Ran s t → P t)
    (hr : Relation.ReflTransGen Ran s t) (hs : P s) : P t := by
  induction hr with
  | refl => exact hs
  | tail _ h ih => exact hP _ _ ih h

theorem invariant_of_propagate {P : Store → Prop} (hP : ∀ s r, P s → s.turn = .ok r → P r.store)
    {r : Reply (Except Conflict Unit)} (hr : s.propagate = .ok r) (hs : P s) : P r.store := by
  obtain ⟨t, hst, hend⟩ := propagate_cases hr
  have ht : P t := invariant_of_ran (fun s t h ⟨log, hr⟩ => hP s _ h hr) hst hs
  rcases hend with ⟨log, -, hr⟩ | ⟨c, log, -, hr⟩
  · exact hP t _ ht hr
  · exact hP t _ ht hr

theorem WellFormed.propagate {r : Reply (Except Conflict Unit)} (hs : s.WellFormed)
    (hr : s.propagate = .ok r) : r.store.WellFormed :=
  invariant_of_propagate (P := WellFormed) (fun _ _ hs hr => hs.turn hr) hr hs

theorem WellFormed.continues_propagate {r : Reply (Except Conflict Unit)} (hs : s.WellFormed)
    (hr : s.propagate = .ok r) : s.Continues r.store :=
  (invariant_of_propagate (P := fun t => t.WellFormed ∧ s.Continues t)
    (fun _ _ ⟨ht, hst⟩ hr => ⟨ht.turn hr, hst.trans (ht.continues_turn hr)⟩) hr ⟨hs, .refl s⟩).2

theorem WellFormed.propagate_total (hs : s.WellFormed) (hp : ∀ h p, s.propagator? h = some p → p.Total) :
    ∃ r, s.propagate = .ok r := by
  refine Store.propagate_total (P := fun t => t.WellFormed ∧ s.Continues t) (fun t ⟨ht, hst⟩ => ?_) ⟨hs, .refl s⟩
  obtain ⟨r, hr⟩ := ht.turn_total (hst.imposed ▸ hp)
  exact ⟨r, hr, ht.turn hr, hst.trans (ht.continues_turn hr)⟩

end Store

end DomainPropagation
