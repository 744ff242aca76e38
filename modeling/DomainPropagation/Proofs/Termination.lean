import DomainPropagation.Proofs.Runs
import Mathlib.Data.List.Chain

/-! Propagation ends, whatever is imposed. What is due is imposed and due once, so there is a number that bounds how
many propagators can still be run, even if what they do changes from one to the next. -/

namespace DomainPropagation

namespace Store

variable {s t u w : Store} {h : Handle} {p : Propagator} {o : Options} {q : Request} {a : Agenda}

structure Scheduled (s : Store) : Prop where
  nodup : s.agenda.toList.Nodup
  imposed : ∀ h ∈ s.agenda.toList, h.index < s.imposed.size

theorem Scheduled.length_le (hs : s.Scheduled) : s.agenda.toList.length ≤ s.imposed.size :=
  length_le_of_nodup hs.nodup hs.imposed

theorem Scheduled.congr (hs : s.Scheduled) (ha : t.agenda = s.agenda) (hi : s.imposed.size ≤ t.imposed.size) :
    t.Scheduled where
  nodup := ha ▸ hs.nodup
  imposed := fun h hh => (hs.imposed h (ha ▸ hh)).trans_le hi

theorem scheduled_of_empty (ha : s.agenda.toList = []) : s.Scheduled where
  nodup := ha ▸ .nil
  imposed := ha ▸ nofun

theorem Scheduled.schedule (hs : s.Scheduled) (ht : s.schedule h = .ok t) : t.Scheduled := by
  obtain ⟨i, hi, ht⟩ := bind_eq_ok_iff.1 ht
  obtain ⟨a, ha, ht⟩ := bind_eq_ok_iff.1 ht
  cases ht
  rcases Agenda.perm_push ha with rfl | ⟨hnot, hperm⟩
  · exact hs
  · refine ⟨hperm.nodup_iff.2 (List.nodup_cons.2 ⟨hnot, hs.nodup⟩), fun g hg => ?_⟩
    rcases List.mem_cons.1 (hperm.mem_iff.1 hg) with rfl | hg
    · exact Table.lt_size_iff.2 ⟨i, Table.get?_of_get hi⟩
    · exact hs.imposed g hg

theorem Scheduled.scheduleAll (hs : s.Scheduled) {due : List Handle} (ht : s.scheduleAll due = .ok t) :
    t.Scheduled := by
  induction due generalizing s with
  | nil =>
    cases ht
    exact hs
  | cons g due ih =>
    obtain ⟨u, hu, ht⟩ := bind_eq_ok_iff.1 ht
    exact ih (hs.schedule hu) ht

theorem Scheduled.wire (hs : s.Scheduled) {c : Wiring} (ht : s.wire h c = .ok t) : t.Scheduled := by
  cases c with
  | watch | unwatch =>
    obtain ⟨w, -, ht⟩ := bind_eq_ok_iff.1 ht
    cases ht
    exact hs.congr rfl le_rfl
  | schedule => exact hs.schedule ht
  | count =>
    cases ht
    exact hs.congr rfl le_rfl

theorem Scheduled.wireAll (hs : s.Scheduled) {cs : List Wiring} (ht : s.wireAll h cs = .ok t) : t.Scheduled := by
  induction cs generalizing s with
  | nil =>
    cases ht
    exact hs
  | cons c cs ih =>
    obtain ⟨u, hu, ht⟩ := bind_eq_ok_iff.1 ht
    exact ih (hs.wire hu) ht

theorem Scheduled.wake (hs : s.Scheduled) (hw : s.wake = .ok w) : w.Scheduled := by
  obtain ⟨due, -, hw⟩ := bind_eq_ok_iff.1 hw
  refine Scheduled.scheduleAll (s := { s with domains := _ }) ?_ hw
  exact hs.congr rfl le_rfl

theorem Scheduled.pop (hs : s.Scheduled) (ha : s.agenda.pop? = some (h, a)) (d : Domains) :
    Scheduled { s with agenda := a, domains := d } := by
  have hdue := Agenda.toList_of_pop? ha
  have hn := hs.nodup
  rw [hdue] at hn
  exact ⟨hn.of_cons, fun g hg => hs.imposed g (hdue ▸ List.mem_cons_of_mem h hg)⟩

theorem Scheduled.entail (hs : s.Scheduled) {r : Reply Unit} (hr : s.entail h p = .ok r) : r.store.Scheduled := by
  obtain ⟨t, ht, hr⟩ := bind_eq_ok_iff.1 hr
  cases hr
  refine (hs.wireAll ht).congr rfl ?_
  rw [wireAll_eq ht]
  exact (Table.size_modify ..).ge

theorem Scheduled.turn (hs : s.Scheduled) {r : Reply Turn} (hr : s.turn = .ok r) : r.store.Scheduled := by
  obtain ⟨w, hw, ⟨-, -, hr⟩ | ⟨h, a, i, o, ha, -, -, he⟩⟩ := turn_cases hr
  · exact hr ▸ hs.wake hw
  · have hu := (hs.wake hw).pop ha o.domains
    generalize r.value = v, r.store = t at he
    cases he with
    | failed he hf =>
      rw [(fail_eq hf).2]
      exact scheduled_of_empty (Agenda.toList_clear a)
    | entailed hk he hr => exact hu.entail hr
    | ran hk he => exact hu

theorem size_imposed_turn {r : Reply Turn} (hr : s.turn = .ok r) : r.store.imposed.size = s.imposed.size := by
  obtain ⟨w, hw, hend⟩ := turn_cases hr
  have hwi : w.imposed = s.imposed := by rw [wake_eq hw]
  rw [← hwi]
  rcases hend with ⟨-, -, hr⟩ | ⟨h, a, i, o, -, -, -, he⟩
  · rw [hr]
  · generalize r.value = v, r.store = t at he
    cases he with
    | failed he hf => rw [(fail_eq hf).2]
    | entailed hk he hr =>
      rw [entail_eq hr]
      exact Table.size_modify ..
    | ran hk he => rfl

theorem Scheduled.impose (hs : s.Scheduled) {r : Reply (Except ModelError Handle)} (hr : s.impose p = .ok r) :
    r.store.Scheduled := by
  rw [Store.impose] at hr
  split at hr
  · cases hr
    exact hs
  · obtain ⟨t, ht, hr⟩ := bind_eq_ok_iff.1 hr
    cases hr
    refine Scheduled.wireAll (s := { s with imposed := s.imposed.push ⟨p, false⟩ }) (hs.congr rfl ?_) ht
    exact (Nat.le_succ _).trans_eq (Table.size_push ..).symm

theorem Scheduled.openLevel (ht : s.openLevel = .ok t) : t.Scheduled := by
  obtain ⟨w, -, ht⟩ := bind_eq_ok_iff.1 ht
  obtain ⟨u, hu, ht⟩ := bind_eq_ok_iff.1 ht
  cases ht
  have hempty : Scheduled { w with agenda := w.agenda.clear } := scheduled_of_empty (Agenda.toList_clear _)
  exact (hempty.scheduleAll hu).congr rfl le_rfl

theorem Scheduled.backtrack {k : Nat} {r : Reply Unit} (hr : s.backtrack k = .ok r) : r.store.Scheduled := by
  rw [Store.backtrack, if_pos (lt_of_backtrack hr)] at hr
  obtain ⟨d, -, hr⟩ := bind_eq_ok_iff.1 hr
  obtain ⟨e, -, hr⟩ := bind_eq_ok_iff.1 hr
  obtain ⟨u, -, hr⟩ := bind_eq_ok_iff.1 hr
  obtain ⟨t, ht, hr⟩ := bind_eq_ok_iff.1 hr
  cases hr
  exact Scheduled.scheduleAll (scheduled_of_empty (Agenda.toList_clear _)) ht

theorem Scheduled.perform {P : Propagator → Prop} {r : Reply Answer} (hs : s.Scheduled) (hq : q.Allowed P s)
    (hr : s.perform q = .ok r) : r.store.Scheduled := by
  have h := performed hq hr
  generalize r.value = v, r.store = t at h
  cases h with
  | newVariable | newSparseVariable => exact hs.congr rfl le_rfl
  | noVariable | noSparseVariable => exact hs
  | newSerial => exact hs.congr rfl le_rfl
  | impose hr' => exact hs.impose hr'
  | cut hr' =>
    obtain ⟨c, -, hc⟩ := bind_eq_ok_iff.1 hr'
    cases hc
    exact hs.congr rfl le_rfl
  | openLevel ht => exact .openLevel ht
  | backtrack hr' => exact .backtrack hr'
  | propagate hr' => exact invariant_of_propagate (P := Scheduled) (fun _ _ hs hr => hs.turn hr) hr' hs

theorem Reachable.scheduled {P : Propagator → Prop} (hs : Reachable o P s) : s.Scheduled := by
  induction hs with
  | refl => exact scheduled_of_empty rfl
  | perform _ hq hr ih => exact ih.perform hq hr

/-- The effort as one number, in which an active propagator counts more than an agenda, and slack more than that. -/
def budget (s : Store) : Nat :=
  (s.domains.slack * (s.imposed.size + 1) + s.active) * (s.imposed.size + 1) + s.agenda.toList.length

theorem weigh_lt {n a b c d : Nat} (hlt : a < c ∨ a = c ∧ b < d) (hb : b ≤ n) :
    a * (n + 1) + b < c * (n + 1) + d := by
  rcases hlt with hlt | ⟨rfl, hlt⟩
  · calc a * (n + 1) + b < (a + 1) * (n + 1) := by rw [Nat.succ_mul]; omega
      _ ≤ c * (n + 1) := Nat.mul_le_mul_right _ hlt
      _ ≤ c * (n + 1) + d := Nat.le_add_right ..
  · omega

theorem foldr_le_length {α : Type} {f : α → Nat} (hf : ∀ b, f b ≤ 1) (l : List α) :
    l.foldr (f · + ·) 0 ≤ l.length := by
  induction l with
  | nil => exact le_rfl
  | cons b l ih =>
    have := hf b
    rw [List.foldr_cons, List.length_cons]
    omega

theorem active_le_size (s : Store) : s.active ≤ s.imposed.size := by
  apply foldr_le_length
  intro i
  split <;> omega

theorem Scheduled.budget_turn (hs : s.Scheduled) (h : s.Ran t) : t.Scheduled ∧ t.budget < s.budget := by
  obtain ⟨log, hr⟩ := h
  have ht := hs.turn hr
  have hsize := size_imposed_turn hr
  have heff := effort_turn hr rfl
  simp only [Prod.lex_def, effort] at heff
  refine ⟨ht, ?_⟩
  rw [budget, budget, hsize]
  refine weigh_lt ?_ (ht.length_le.trans_eq hsize)
  rcases heff with hlt | ⟨hslack, hlt | ⟨hact, hlt⟩⟩
  · exact .inl (weigh_lt (.inl hlt) (t.active_le_size.trans_eq hsize))
  · exact .inl (weigh_lt (.inr ⟨hslack, hlt⟩) (t.active_le_size.trans_eq hsize))
  · exact .inr ⟨by rw [hslack, hact], hlt⟩

structure Alike (s t : Store) : Prop where
  eq : t = { s with imposed := t.imposed }
  flags : t.imposed.toList.map (·.entailed) = s.imposed.toList.map (·.entailed)

theorem Alike.refl (s : Store) : s.Alike s := ⟨rfl, rfl⟩

theorem Alike.size (h : s.Alike t) : t.imposed.size = s.imposed.size := by
  simpa [Table.toList, Table.size] using congrArg List.length h.flags

theorem Alike.active (h : s.Alike t) : t.active = s.active := by
  have hsum : ∀ u : Store, u.active =
      (u.imposed.toList.map (·.entailed)).foldr (fun e n => (if e then 0 else 1) + n) 0 := by
    intro u
    rw [List.foldr_map]
    rfl
  rw [hsum, hsum, h.flags]

theorem Alike.scheduled (h : s.Alike t) (hs : s.Scheduled) : t.Scheduled :=
  hs.congr (by rw [h.eq]) h.size.ge

theorem Alike.budget (h : s.Alike t) : t.budget = s.budget := by
  have hd : t.domains = s.domains := by rw [h.eq]
  have ha : t.agenda = s.agenda := by rw [h.eq]
  rw [Store.budget, Store.budget, h.size, h.active, hd, ha]

/-- A propagator is run, and may do something else than it did before. -/
def Called (s t : Store) : Prop := ∃ u, s.Alike u ∧ u.Ran t

theorem Ran.called (h : s.Ran t) : s.Called t := ⟨s, .refl s, h⟩

theorem Scheduled.budget_called (hs : s.Scheduled) (h : s.Called t) : t.Scheduled ∧ t.budget < s.budget := by
  obtain ⟨u, hsu, hut⟩ := h
  obtain ⟨ht, hlt⟩ := (hsu.scheduled hs).budget_turn hut
  exact ⟨ht, hlt.trans_eq hsu.budget⟩

theorem Scheduled.length_le_budget (hs : s.Scheduled) {l : List Store} (hl : (s :: l).IsChain Called) :
    l.length ≤ s.budget := by
  induction l generalizing s with
  | nil => exact Nat.zero_le _
  | cons t l ih =>
    obtain ⟨hst, hl⟩ := List.isChain_cons_cons.1 hl
    obtain ⟨ht, hlt⟩ := hs.budget_called hst
    exact Nat.lt_of_le_of_lt (ih ht hl) hlt

inductive Settles (s : Store) : Except Misuse (Reply (Except Conflict Unit)) → Prop
  | idle {t : Store} {log : List Record} : s.turn = .ok ⟨.idle, t, log⟩ → Settles s (.ok ⟨.ok (), t, log⟩)
  | failed {c : Conflict} {t : Store} {log : List Record} :
      s.turn = .ok ⟨.failed c, t, log⟩ → Settles s (.ok ⟨.error c, t, log⟩)
  | misuse {m : Misuse} : s.turn = .error m → Settles s (.error m)

theorem prepend_map (log log' : List Record) (r : Except Misuse (Reply (Except Conflict Unit))) :
    (·.prepend log) <$> (·.prepend log') <$> r = (·.prepend (log ++ log')) <$> r := by
  cases r with
  | error m => rfl
  | ok r => simp [Functor.map, Except.map, Reply.prepend]

theorem exists_settles (s : Store) : ∃ l t log r, (s :: l).IsChain Ran ∧ (s :: l).getLast? = some t ∧
    t.Settles r ∧ s.propagate = (·.prepend log) <$> r := by
  induction s using propagate.induct with
  | case1 s m h => exact ⟨[], s, [], _, .singleton s, rfl, .misuse h, by rw [propagate_eq, h]; rfl⟩
  | case2 s t log h => exact ⟨[], s, [], _, .singleton s, rfl, .idle h, by rw [propagate_eq, h]; rfl⟩
  | case3 s c t log h => exact ⟨[], s, [], _, .singleton s, rfl, .failed h, by rw [propagate_eq, h]; rfl⟩
  | case4 s t log h ih =>
    obtain ⟨l, u, log', r, hl, hu, hend, hr⟩ := ih
    refine ⟨t :: l, u, log ++ log', r, List.isChain_cons_cons.2 ⟨⟨log, h⟩, hl⟩, ?_, hend, ?_⟩
    · rw [List.getLast?_cons_cons, hu]
    · rw [propagate_of_ran h, hr, prepend_map]

/-- The budget of a store bounds the number of propagators that can be run one after the other, and propagation
runs some until nothing is due, one fails or misuses the store. -/
theorem propagate_terminates (hs : Reachable o (fun _ => True) s) :
    (∀ l, (s :: l).IsChain Called → l.length ≤ s.budget) ∧
    ∃ l t log r, (s :: l).IsChain Ran ∧ l.length ≤ s.budget ∧ (s :: l).getLast? = some t ∧ t.Settles r ∧
      s.propagate = (·.prepend log) <$> r := by
  have hsched := hs.scheduled
  refine ⟨fun l hl => hsched.length_le_budget hl, ?_⟩
  obtain ⟨l, t, log, r, hl, ht, hend, hr⟩ := exists_settles s
  exact ⟨l, t, log, r, hl, hsched.length_le_budget (hl.imp fun _ _ h => h.called), ht, hend, hr⟩

theorem propagate_terminates_mutual : ∃ s : Store, Reachable {} (fun _ => True) s ∧ s.imposed.size = 2 ∧
    s.budget = 638 ∧ (∀ l, (s :: l).IsChain Called → l.length ≤ s.budget) ∧
    ∃ l t log r, (s :: l).IsChain Ran ∧ l.length ≤ s.budget ∧ (s :: l).getLast? = some t ∧ t.Settles r ∧
      s.propagate = (·.prepend log) <$> r := by
  -- Each of the two raises its own variable above the other one, and so wakes both itself and the other.
  let above (x y : Var) (priority : Priority) : Propagator := {
    name := "Above"
    serial := ⟨0⟩
    description := "above"
    scope := [x, y, x]
    sensitivities := ⟨.every, [], []⟩
    priority := priority
    step := do
      let d ← Step.ask (·.get y)
      Step.restrict x (.atLeast (d.lower + 1))
    satisfied := fun _ => .ok true }
  have h0 : Reachable {} (fun _ => True) {} := .refl
  let qs : List Request := [.newVariable 0 3, .newVariable 0 3, .impose (above ⟨0⟩ ⟨1⟩ .high),
    .impose (above ⟨1⟩ ⟨0⟩ .low)]
  have hqs : ∀ q ∈ qs, ∀ t : Store, t.HasNames 1 → q.Allowed (fun _ => True) t := by
    simp +contextual [qs, Request.Allowed, minValue, maxValue]
  obtain ⟨s, hs, ht⟩ := exists_leads (n := 0) h0 hqs
    (f := fun s => decide (s.imposed.size = 2 ∧ s.budget = 638)) (by decide +kernel)
  obtain ⟨hsize, hbudget⟩ := of_decide_eq_true ht
  exact ⟨s, hs, hsize, hbudget, propagate_terminates hs⟩

end Store

end DomainPropagation
