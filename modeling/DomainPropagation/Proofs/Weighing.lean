import DomainPropagation.Proofs.Entailing
import DomainPropagation.Proofs.Occurrences
import DomainPropagation.Proofs.Untracked

/-! Weights count conflicts. The weight of a variable is the number of conflicts so far of propagators that have it in
their scope, and tracking the weights makes no difference to anything else. -/

namespace DomainPropagation

namespace Constraint

theorem blamed_eq_scope (c : Constraint) : c.propagator.blamed = c.scope := by
  cases c <;> rfl

theorem nodup_scope (c : Constraint) : c.scope.Nodup := by
  cases c with
  | count c => exact nodup_eraseDups _
  | greater g => exact List.nodup_singleton g.var
  | reified serial g b =>
    change (if b ∈ [g.var] then [g.var] else [g.var] ++ [b]).Nodup
    split
    · exact List.nodup_singleton g.var
    · next hb => simpa [eq_comm] using hb

end Constraint

namespace Weights

variable {w w' : Weights} {x y : Var} {xs : List Var}

def of (w : Weights) (x : Var) : Nat := (w.table.get? x).getD 0

theorem get_eq_of (hx : x.index < w.table.size) : w.get x = .ok (w.of x) := by
  obtain ⟨n, hn⟩ := Table.lt_size_iff (k := x).1 hx
  rw [get, of, hn]
  exact Table.get_eq_ok_iff.2 hn

theorem of_grow (w : Weights) (x : Var) : w.grow.of x = w.of x := by
  rw [of, of, grow, Table.get?_push]
  by_cases hx : Key.index x = w.table.size
  · have hn : w.table.get? x = none := Array.getElem?_eq_none (Nat.le_of_eq hx.symm)
    rw [if_pos hx, hn]
    rfl
  · rw [if_neg hx]

theorem of_increase (h : w.increase x = .ok w') (y : Var) : w'.of y = w.of y + if x = y then 1 else 0 := by
  obtain ⟨n, hn, h⟩ := bind_eq_ok_iff.1 h
  obtain ⟨T, hT, h⟩ := bind_eq_ok_iff.1 h
  cases h
  rw [of, of, (Table.set_eq_ok.1 hT).2, Table.get?_modify]
  simp only [Var.key_inj]
  split
  · next hxy =>
    rw [← hxy, Table.get?_of_get hn]
    rfl
  · rfl

theorem of_increaseAll (h : xs.foldlM (·.increase ·) w = .ok w') (y : Var) : w'.of y = w.of y + xs.count y := by
  induction xs generalizing w with
  | nil =>
    cases h
    rfl
  | cons x xs ih =>
    obtain ⟨v, hv, h⟩ := bind_eq_ok_iff.1 h
    rw [ih h, of_increase hv, List.count_cons, Nat.add_assoc, Nat.add_comm (ite ..)]
    simp only [beq_iff_eq]

end Weights

def Answer.isConflict : Answer → Bool
  | .propagated (.error _) => true
  | _ => false

namespace Store

variable {s t : Store} {h : Handle} {p : Propagator} {k : Nat} {q : Request} {o : Options} {x : Var}

def concerns (s : Store) (h : Handle) (x : Var) : Bool := (s.propagator? h).any fun p => decide (x ∈ p.scope)

def blames (s : Store) (x : Var) : Answer → Bool
  | .propagated (.error c) => s.concerns c.handle x
  | _ => false

def ledger (s : Store) : Options × Weights := (s.options, s.weights)

theorem ledger_wake (ht : s.wake = .ok t) : t.ledger = s.ledger := by
  rw [wake_eq ht]
  rfl

theorem ledger_entail {r : Reply Unit} (hr : s.entail h p = .ok r) : r.store.ledger = s.ledger := by
  rw [entail_eq hr]
  rfl

theorem ledger_impose {r : Reply (Except ModelError Handle)} (hr : s.impose p = .ok r) : r.store.ledger = s.ledger := by
  rcases impose_cases hr with heq | ⟨-, heq⟩
  · rw [heq]
  · rw [heq]
    rfl

theorem ledger_openLevel (ht : s.openLevel = .ok t) : t.ledger = s.ledger := by
  obtain ⟨w, hw, heq⟩ := openLevel_cases ht
  rw [heq, ← ledger_wake hw]
  rfl

theorem ledger_backtrack {r : Reply Unit} (hr : s.backtrack k = .ok r) : r.store.ledger = s.ledger := by
  rw [backtrack] at hr
  split at hr
  · obtain ⟨D, -, hr⟩ := bind_eq_ok_iff.1 hr
    obtain ⟨⟨undone, E⟩, -, hr⟩ := bind_eq_ok_iff.1 hr
    obtain ⟨u, hu, hr⟩ := bind_eq_ok_iff.1 hr
    obtain ⟨v, hv, hr⟩ := bind_eq_ok_iff.1 hr
    cases hr
    obtain ⟨-, -, heq⟩ := reinstateAll_cases hu
    rw [scheduleAll_eq hv, heq]
    rfl
  · cases hr

theorem weights_fail {r : Reply Unit} (ht : s.options.trackWeights = true) (hr : s.fail p x = .ok r) (y : Var) :
    r.store.weights.of y = s.weights.of y + p.blamed.count y := by
  rw [fail, if_pos ht] at hr
  obtain ⟨w, hw, hr⟩ := bind_eq_ok_iff.1 hr
  cases hr
  exact Weights.of_increaseAll hw y

theorem ledger_turn {r : Reply Turn} (hr : s.turn = .ok r) (hv : r.value.fails = false) :
    r.store.ledger = s.ledger := by
  obtain ⟨w, hw, ⟨-, -, hr⟩ | ⟨h, a, i, o, -, -, -, he⟩⟩ := turn_cases hr
  · rw [hr, ledger_wake hw]
  · rw [← ledger_wake hw]
    generalize r.value = v, r.store = t at he hv
    cases he with
    | failed => cases hv
    | entailed _ _ hr => exact (ledger_entail hr :)
    | ran => rfl

/-- An answer given by one store, and the store after it, when the weights are tracked. -/
structure Charges (s : Store) (a : Answer) (t : Store) : Prop where
  options : t.options = s.options
  imposed : ∀ c, a = .propagated (.error c) → ∃ p, s.propagator? c.handle = some p
  weights : ∀ x, t.weights.of x = s.weights.of x + (s.blames x a).toNat

theorem blames_eq_false {a : Answer} (ha : a.isConflict = false) (x : Var) : s.blames x a = false := by
  cases a with
  | propagated r =>
    cases r with
    | error c => cases ha
    | ok u => rfl
  | _ => rfl

theorem Charges.of_ledger {a : Answer} (h : t.ledger = s.ledger) (ha : a.isConflict = false) : Charges s a t := by
  obtain ⟨ho, hw⟩ := Prod.mk.inj h
  refine ⟨ho, fun c hc => ?_, fun x => ?_⟩
  · rw [hc] at ha
    cases ha
  · rw [hw, blames_eq_false ha]
    rfl

theorem charges_turn {r : Reply Turn} {c : Conflict} (hp : ∀ h p, s.propagator? h = some p → p.Of fun _ => True)
    (ht : s.options.trackWeights = true) (hr : s.turn = .ok r) (hv : r.value = .failed c) :
    Charges s (.propagated (.error c)) r.store := by
  obtain ⟨w, hw, ⟨-, hv', -⟩ | ⟨h, a, i, o, -, hi, -, he⟩⟩ := turn_cases hr
  · cases hv.symm.trans hv'
  obtain ⟨hwo, hww⟩ := Prod.mk.inj (ledger_wake hw)
  have himp : s.propagator? h = some i.propagator := by
    rw [wake_eq hw] at hi
    exact propagator?_of_get? hi
  obtain ⟨k, -, hk⟩ := hp h _ himp
  generalize r.value = v, r.store = t at he hv
  cases he with
  | failed _ hf =>
    cases hv
    have hwt : w.options.trackWeights = true := hwo ▸ ht
    refine ⟨(congrArg Store.options (fail_eq hf).2).trans hwo, fun c hc => ?_, fun x => ?_⟩
    · cases hc
      exact ⟨_, himp⟩
    · have hconcerns : s.concerns h x = decide (x ∈ i.propagator.scope) := by
        rw [concerns, himp]
        rfl
      have hcount : i.propagator.blamed.count x = (decide (x ∈ i.propagator.scope)).toNat := by
        rw [← hk, k.blamed_eq_scope, k.nodup_scope.count]
        by_cases hx : x ∈ k.scope <;> simp [hx]
      rw [blames, hconcerns, ← hcount, ← hww]
      exact weights_fail (s := { w with agenda := a, domains := o.domains }) hwt hf x
  | entailed | ran => cases hv

theorem WellFormed.charges_propagate {r : Reply (Except Conflict Unit)} (hs : s.WellFormed)
    (hp : ∀ h p, s.propagator? h = some p → p.Of fun _ => True) (ht : s.options.trackWeights = true)
    (hr : s.propagate = .ok r) : Charges s (.propagated r.value) r.store := by
  obtain ⟨t, hst, hend⟩ := propagate_cases hr
  obtain ⟨-, hcont, hled⟩ : t.WellFormed ∧ s.Continues t ∧ t.ledger = s.ledger :=
    invariant_of_ran (P := fun t => t.WellFormed ∧ s.Continues t ∧ t.ledger = s.ledger)
      (fun t u ⟨ht, hst, hl⟩ ⟨log, hr⟩ =>
        ⟨ht.turn hr, hst.trans (ht.continues_turn hr), (ledger_turn hr rfl).trans hl⟩) hst ⟨hs, .refl s, rfl⟩
  obtain ⟨hto, htw⟩ := Prod.mk.inj hled
  rcases hend with ⟨log, hv, hidle⟩ | ⟨c, log, hv, hfail⟩
  · rw [hv]
    exact .of_ledger ((ledger_turn hidle rfl).trans hled) rfl
  · rw [hv]
    obtain ⟨ho, hi, hw⟩ := charges_turn (hcont.imposed ▸ hp) (hto ▸ ht) hfail rfl
    rw [hcont.imposed] at hi
    refine ⟨ho.trans hto, hi, fun x => ?_⟩
    rw [hw, htw, blames, blames, concerns, concerns, hcont.imposed]

theorem WellFormed.charges_perform {r : Reply Answer} (hs : s.WellFormed)
    (hp : ∀ h p, s.propagator? h = some p → p.Of fun _ => True) (ht : s.options.trackWeights = true)
    (hq : q.Allowed (Propagator.Of fun _ => True) s) (hr : s.perform q = .ok r) : Charges s r.value r.store := by
  have h := performed hq hr
  generalize r.value = a, r.store = t at h
  cases h with
  | newVariable | newSparseVariable => exact ⟨rfl, nofun, fun x => Weights.of_grow s.weights x⟩
  | noVariable | noSparseVariable | newSerial => exact .of_ledger rfl rfl
  | impose hr' => exact .of_ledger (ledger_impose hr') rfl
  | cut hr' =>
    obtain ⟨w, -, hr'⟩ := bind_eq_ok_iff.1 hr'
    cases hr'
    exact .of_ledger rfl rfl
  | openLevel ht' => exact .of_ledger (ledger_openLevel ht') rfl
  | backtrack hr' => exact .of_ledger (ledger_backtrack hr') rfl
  | propagate hr' => exact hs.charges_propagate hp ht hr'

def answer (s : Store) (q : Request) : Except Misuse ((Answer × List Record) × Store) :=
  (fun r => ((r.value, r.log), r.store)) <$> s.perform q

def after (s : Store) (q : Request) : Store :=
  match s.perform q with
  | .ok r => r.store
  | .error _ => s

theorem after_eq (hr : s.perform q = .ok r) : s.after q = r.store := by
  rw [after, hr]

/-- How many of the answers are conflicts of propagators that have the variable in their scope. -/
def conflictsOn (s : Store) (x : Var) (as : List (Answer × List Record)) : Nat := as.countP (s.blames x ·.1)

theorem blames_eq {a : Answer} (ha : ∀ c, a = .propagated (.error c) → ∃ p, s.propagator? c.handle = some p)
    (hst : ∀ h p, s.propagator? h = some p → t.propagator? h = some p) (x : Var) : t.blames x a = s.blames x a := by
  cases hc : a.isConflict with
  | false => rw [blames_eq_false hc, blames_eq_false hc]
  | true =>
    obtain ⟨c, rfl⟩ : ∃ c, a = .propagated (.error c) := by
      unfold Answer.isConflict at hc
      split at hc
      · exact ⟨_, rfl⟩
      · cases hc
    obtain ⟨p, hp⟩ := ha c rfl
    rw [blames, blames, concerns, concerns, hp, hst _ _ hp]

variable {qs : List Request} {as : List (Answer × List Record)}

theorem charges_answers (hs : Reachable o (Propagator.Of fun _ => True) s) (ht : s.options.trackWeights = true)
    (hqs : AllFit after (Request.Allowed <| Propagator.Of fun _ => True) s qs) (h : answers answer s qs = .ok (as, t)) :
    Reachable o (Propagator.Of fun _ => True) t ∧ (∀ h p, s.propagator? h = some p → t.propagator? h = some p) ∧
      ∀ x, t.weights.of x = s.weights.of x + t.conflictsOn x as := by
  induction qs generalizing s as with
  | nil =>
    cases h
    exact ⟨hs, fun _ _ hp => hp, fun _ => rfl⟩
  | cons q qs ih =>
    obtain ⟨a, u, as', ha, has, rfl⟩ := answers_cons_eq_ok h
    obtain ⟨r, hr, heq⟩ := map_eq_ok_iff.1 ha
    cases heq
    obtain ⟨hq, hqs⟩ := hqs
    rw [after_eq hr] at hqs
    have hP : ∀ p : Propagator, (p.Of fun _ => True) → p.Standard := fun _ hp => hp.standard
    have hwf := hs.wellFormed hP
    have hcharge := hwf.charges_perform (fun _ _ hp => hs.imposed hP hp) ht hq hr
    obtain ⟨hreach, hkeep, hw⟩ := ih (hs.perform hq hr) (hcharge.options ▸ ht) hqs has
    have hkeeps : ∀ h p, s.propagator? h = some p → t.propagator? h = some p := fun h p hp =>
      hkeep h p (hwf.perform_keeps (hq.mono hP) hr hp)
    refine ⟨hreach, hkeeps, fun x => ?_⟩
    -- Blame is read off the last store, in which all that was imposed before still is.
    rw [hw, hcharge.weights, conflictsOn, conflictsOn, List.countP_cons, blames_eq hcharge.imposed hkeeps,
      Nat.add_assoc, Nat.add_comm (Bool.toNat _)]
    cases s.blames x r.value <;> rfl

theorem WellFormed.allFit {P : Propagator → Prop} (hs : s.WellFormed) (hP : ∀ p, P p → p.Standard)
    (hn : s.HasNames qs.length) (hqs : ∀ q ∈ qs, ∀ u : Store, u.HasNames 1 → q.Allowed P u) :
    AllFit after (Request.Allowed P) s qs := by
  induction qs generalizing s with
  | nil => trivial
  | cons q qs ih =>
    obtain ⟨hq, hqs⟩ := List.forall_mem_cons.1 hqs
    have hq := hq s (hn.mono (Nat.succ_pos _))
    refine ⟨hq, ?_⟩
    cases hr : s.perform q with
    | ok r => exact after_eq hr ▸ ih (hs.perform (hq.mono hP) hr) (hn.perform hs (hq.mono hP) hr) hqs
    | error m =>
      have hafter : s.after q = s := by rw [after, hr]
      exact hafter.symm ▸ ih hs (hn.mono (Nat.le_succ _)) hqs

theorem conflictsOn_le (s : Store) (x : Var) (as : List (Answer × List Record)) :
    s.conflictsOn x as ≤ as.countP (·.1.isConflict) :=
  List.countP_mono_left fun a _ hb => by
    by_contra hc
    rw [blames_eq_false (Bool.eq_false_iff.2 hc)] at hb
    cases hb

theorem answer_untracked (hs : Reachable o (Propagator.Of fun _ => True) s) (q : Request) :
    s.untracked.answer q = Prod.map id untracked <$> s.answer q := by
  have hP : ∀ p : Propagator, (p.Of fun _ => True) → p.Standard := fun _ hp => hp.standard
  rw [answer, answer, (hs.wellFormed hP).perform_untracked fun _ _ hp => (hs.imposed hP hp).total]
  cases s.perform q <;> rfl

def answerWithin (n : Nat) (s : Store) : Request → Except Misuse ((Answer × List Record) × Store)
  | .propagate =>
    match propagateWithin n s with
    | some r => .ok ((.propagated r.value, r.log), r.store)
    | none => .error .indexOutOfBounds
  | q => s.answer q

theorem answer_of_within {n : Nat} {a : Answer × List Record} (h : answerWithin n s q = .ok (a, t)) :
    s.answer q = .ok (a, t) := by
  unfold answerWithin at h
  split at h
  · split at h
    · next r hr =>
      rw [answer, perform, propagate_of_within hr]
      exact h
    · cases h
  · exact h

/-- With the option, the weight of each variable is the number of conflicts, among all answers so far, of propagators
that have it in their scope, for which 32 bits are enough as long as they are for the conflicts, and no return changes
it. Without it all weights are zero, and nothing else is different. -/
theorem weights_count_conflicts
    (hqs : AllFit after (Request.Allowed <| Propagator.Of fun _ => True) { options := ⟨true⟩ } qs) :
    answers answer { options := ⟨false⟩ } qs = Prod.map id untracked <$> answers answer { options := ⟨true⟩ } qs ∧
    ∀ as t, answers answer { options := ⟨true⟩ } qs = .ok (as, t) →
      (∀ x, x.index < t.domains.count →
        t.weights.get x = .ok (t.conflictsOn x as) ∧ t.untracked.weights.get x = .ok 0) ∧
      (as.countP (·.1.isConflict) < wordSize → ∀ x n, t.weights.get x = .ok n → n < wordSize) ∧
      ∀ k r, t.backtrack k = .ok r → r.store.weights = t.weights := by
  let B := Propagator.Of fun _ => True
  let start : Store := { options := ⟨true⟩ }
  have hstart : Reachable ⟨true⟩ B start := .refl
  have huntracked : start.untracked = { options := ⟨false⟩ } := by
    have hzeros : start.weights.zeros = {} := congrArg (fun a => Weights.mk ⟨a⟩) Array.map_empty
    rw [untracked, hzeros]
  refine ⟨?_, fun as t h => ?_⟩
  · rw [← huntracked]
    refine answers_map (I := fun s qs => Reachable ⟨true⟩ B s ∧ AllFit after (Request.Allowed B) s qs) ?_
      (fun s q _ hs => answer_untracked hs.1 q) ⟨hstart, hqs⟩
    rintro s q qs a t ⟨hs, hq, hqs⟩ ha
    obtain ⟨r, hr, heq⟩ := map_eq_ok_iff.1 ha
    cases heq
    exact ⟨hs.perform hq hr, after_eq hr ▸ hqs⟩
  obtain ⟨ht, -, hw⟩ := charges_answers hstart rfl hqs h
  have hsize : t.weights.table.size = t.domains.count := (ht.wellFormed fun _ hp => hp.standard).weights
  have hcount : ∀ x, t.weights.of x = t.conflictsOn x as := fun x => by
    have h0 : start.weights.of x = 0 := rfl
    rw [hw, h0, Nat.zero_add]
  refine ⟨fun x hx => ⟨?_, ?_⟩, fun hfew x n hn => ?_, fun k r hr => (Prod.mk.inj (ledger_backtrack hr)).2⟩
  · rw [Weights.get_eq_of (hsize ▸ hx), hcount]
  · exact Weights.get_zeros (hsize ▸ hx)
  · have hx : x.index < t.weights.table.size := Table.lt_size_iff.2 ⟨n, Table.get?_of_get hn⟩
    rw [Weights.get_eq_of hx, hcount] at hn
    exact Except.ok.inj hn ▸ (t.conflictsOn_le x as).trans_lt hfew

theorem weights_count_conflicts_of_two :
    let c : Count := { serial := ⟨0⟩, subjects := [⟨0⟩, ⟨0⟩], counter := ⟨1⟩, value := 1 }
    let g : Greater := { serial := ⟨1⟩, var := ⟨1⟩, constant := 7 }
    let qs : List Request := [.newVariable 0 3, .newVariable 0 3, .impose (Constraint.count c).propagator, .openLevel,
      .cut ⟨1⟩ (.atLeast 3), .propagate, .backtrack 0, .newVariable 0 1, .impose (Constraint.greater g).propagator,
      .openLevel, .propagate, .backtrack 0]
    ∃ as t, answers answer { options := ⟨true⟩ } qs = .ok (as, t) ∧ as.countP (·.1.isConflict) = 2 ∧
      t.weights.get ⟨0⟩ = .ok 1 ∧ t.weights.get ⟨1⟩ = .ok 2 ∧ t.weights.get ⟨2⟩ = .ok 0 ∧
      answers answer { options := ⟨false⟩ } qs = .ok (as, t.untracked) ∧ t.untracked.weights.get ⟨1⟩ = .ok 0 := by
  intro c g qs
  have hqs : ∀ q ∈ qs, ∀ u : Store, u.HasNames 1 → q.Allowed (Propagator.Of fun _ => True) u := by
    simp +contextual [qs, Request.Allowed, Propagator.Of, minValue, maxValue]
  have hqs := (wellFormed_new ⟨true⟩).allFit (fun _ hp => hp.standard) (hasNames_new.2 (by decide)) hqs
  obtain ⟨⟨as, t⟩, hrun, htest⟩ : ∃ p, answers (answerWithin 9) { options := ⟨true⟩ } qs = .ok p ∧
      decide (p.1.countP (·.1.isConflict) = 2 ∧ p.2.domains.count = 3 ∧ p.2.conflictsOn ⟨0⟩ p.1 = 1 ∧
        p.2.conflictsOn ⟨1⟩ p.1 = 2 ∧ p.2.conflictsOn ⟨2⟩ p.1 = 0) = true :=
    exists_ok_of_any (by decide +kernel)
  obtain ⟨htwo, hcount, h0, h1, h2⟩ := of_decide_eq_true htest
  have hon := answers_mono (fun _ _ _ _ h => answer_of_within h) hrun
  obtain ⟨hoff, hall⟩ := weights_count_conflicts hqs
  obtain ⟨hw, -, -⟩ := hall as t hon
  have hlt : ∀ i < 3, i < t.domains.count := fun i hi => hi.trans_eq hcount.symm
  refine ⟨as, t, hon, htwo, ?_, ?_, ?_, hoff.trans (congrArg _ hon), (hw ⟨1⟩ (hlt 1 (by decide))).2⟩
  · exact h0 ▸ (hw ⟨0⟩ (hlt 0 (by decide))).1
  · exact h1 ▸ (hw ⟨1⟩ (hlt 1 (by decide))).1
  · exact h2 ▸ (hw ⟨2⟩ (hlt 2 (by decide))).1

end Store

end DomainPropagation
