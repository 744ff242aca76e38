import DomainPropagation.Proofs.Comparing
import DomainPropagation.Proofs.Operations
import DomainPropagation.Proofs.Solutions

/-! Reification keeps contracts. A rule is sound for what it means if it loses no assignment with that meaning, fails
only where there is none, and declares entailment only where there is no other. Reifying a propagator whose rules are
sound for its meaning and for the negation gives a rule that is sound for the reified meaning. -/

namespace DomainPropagation

variable {α : Type} {s t : Domains} {a : Assignment} {H K : Assignment → Prop} {x : Var} {c : Cut} {m : Mode}
  {o : Outcome Unit} {step next : Step Unit} {e : Bool} {T : Prop} {P Q : Outcome Unit → Prop}

theorem Domains.Narrows.admits_iff {S : Set Int} {w : Written} (h : s.Narrows x S w) (hx : x.index < s.count)
    (hok : w.status = .ok ()) : w.domains.Admits a ↔ s.Admits a ∧ a x ∈ S := by
  rcases h.status with ⟨-, hb⟩ | ⟨herr, -⟩
  · rw [Domains.admits_iff, Domains.admits_iff, h.shrinks.count, hb]
    constructor
    · exact fun ha => ⟨fun y hy => (ha y hy).1, (ha x hx).2 rfl⟩
    · rintro ⟨ha, hS⟩ y hy
      exact ⟨ha y hy, fun he => he ▸ hS⟩
  · cases hok.symm.trans herr

theorem Domains.WellFormed.eq_of_isFixedTo (hs : s.WellFormed) {d : Domain} {v : Int} (hd : s.get x = .ok d)
    (hv : d.isFixedTo v = true) (ha : s.Admits a) : a x = v := by
  have hd' := hs.sound x d (Domains.get_eq_ok_iff.1 hd)
  exact (hd'.isFixedTo_iff.1 hv).subset (ha x d hd)

/-- What the end of a step that began in the domains `s` owes to the meaning `H`. -/
structure Outcome.Sound (o : Outcome Unit) (s : Domains) (H : Assignment → Prop) : Prop where
  keeps : ∀ a, s.Admits a → H a → o.domains.Admits a
  fails : ∀ w, o.result = .error w → ∀ a, s.Admits a → ¬ H a
  entails : o.entailed = true → ∀ a, o.domains.Admits a → H a

namespace Outcome.Sound

theorem unchanged : Sound ⟨s, false, .ok ()⟩ s H where
  keeps := fun _ ha _ => ha
  fails := nofun
  entails := nofun

theorem failed {w : Wipeout} (h : ∀ a, s.Admits a → ¬ H a) : Sound ⟨s, false, .error w⟩ s H where
  keeps := fun _ ha _ => ha
  fails := fun _ _ => h
  entails := nofun

theorem declared (h : ∀ a, s.Admits a → H a) : Sound ⟨s, true, .ok ()⟩ s H where
  keeps := fun _ ha _ => ha
  fails := nofun
  entails := fun _ => h

theorem of_narrows {S : Set Int} {w : Written} (h : s.Narrows x S w) (hx : x.index < s.count)
    (hS : ∀ a, s.Admits a → H a → a x ∈ S) : Sound ⟨w.domains, false, w.status⟩ s H := by
  rcases hw : w.status with v | ⟨⟩
  · obtain ⟨-, hsame, hno⟩ := h.status.resolve_left fun hok => nomatch hw.symm.trans hok.1
    rw [hsame]
    exact .failed fun a ha hH => hno.subset ⟨Domains.admits_iff.1 ha x hx, hS a ha hH⟩
  · exact ⟨fun a ha hH => (h.admits_iff hx hw).2 ⟨ha, hS a ha hH⟩, nofun, nofun⟩

theorem lift (h : o.Sound t K) (hin : ∀ a, s.Admits a → H a → t.Admits a ∧ K a)
    (hout : ∀ a, o.domains.Admits a → K a → H a) : o.Sound s H where
  keeps := by
    intro a ha hH
    obtain ⟨ht, hK⟩ := hin a ha hH
    exact h.keeps a ht hK
  fails := by
    intro w hw a ha hH
    obtain ⟨ht, hK⟩ := hin a ha hH
    exact h.fails w hw a ht hK
  entails := fun he a ha => hout a ha (h.entails he a ha)

end Outcome.Sound

namespace Step

def Meets (step : Step Unit) (s : Domains) (e : Bool) (T : Prop) (Q : Outcome Unit → Prop) : Prop :=
  ∀ h, (∀ o, step.run h s e = .ok o → Q o) ∧ (T → ∃ o, step.run h s e = .ok o)

theorem meets_fail (h : Q ⟨s, e, .error ⟨x⟩⟩) : (fail x : Step Unit).Meets s e T Q := by
  refine fun _ => ⟨?_, fun _ => ⟨_, rfl⟩⟩
  rintro o ⟨⟩
  exact h

theorem meets_pure (h : Q ⟨s, e, .ok ()⟩) : (pure () : Step Unit).Meets s e T Q := by
  refine fun _ => ⟨?_, fun _ => ⟨_, rfl⟩⟩
  rintro o ⟨⟩
  exact h

theorem meets_declareEntailed (h : Q ⟨s, true, .ok ()⟩) : declareEntailed.Meets s e T Q := by
  refine fun _ => ⟨?_, fun _ => ⟨_, rfl⟩⟩
  rintro o ⟨⟩
  exact h

theorem meets_restrict (hs : s.WellFormed) (hx : x.index < s.count)
    (h : ∀ w, s.Narrows x c.toSet w → Q ⟨w.domains, e, w.status⟩) : (restrict x c).Meets s e T Q := by
  intro g
  obtain ⟨w, hw, hN⟩ := Domains.cut_spec hs hx c
  rw [run_restrict, hw]
  refine ⟨?_, fun _ => ⟨_, rfl⟩⟩
  rintro o ⟨⟩
  exact h w hN

theorem meets_ask {question : Domains → Except Misuse α} {f : α → Step Unit} (hT : T → ∃ a, question s = .ok a)
    (h : ∀ a, question s = .ok a → (f a).Meets s e T Q) : (ask question >>= f).Meets s e T Q := by
  intro g
  rw [run_bind, run_ask]
  cases hq : question s with
  | error m =>
    refine ⟨nofun, fun ht => ?_⟩
    obtain ⟨a, ha⟩ := hT ht
    cases hq.symm.trans ha
  | ok a => exact h a hq g

theorem Meets.bind (h : step.Meets s e T P) (herr : ∀ t e' w, P ⟨t, e', .error w⟩ → Q ⟨t, e', .error w⟩)
    (hn : ∀ t e', P ⟨t, e', .ok ()⟩ → next.Meets t e' T Q) : (step >>= fun _ => next).Meets s e T Q := by
  intro g
  obtain ⟨hP, hT⟩ := h g
  rw [run_bind]
  cases hr : step.run g s e with
  | error m =>
    refine ⟨nofun, fun ht => ?_⟩
    obtain ⟨o, ho⟩ := hT ht
    cases hr.symm.trans ho
  | ok o =>
    obtain ⟨t, e', _ | ⟨⟩⟩ := o
    · refine ⟨?_, fun _ => ⟨_, rfl⟩⟩
      rintro o ⟨⟩
      exact herr _ _ _ (hP _ hr)
    · exact hn t e' (hP _ hr) g

theorem meets_narrow (hs : s.WellFormed) (hx : x.index < s.count) (hc : ∀ a, s.Admits a → H a → a x ∈ c.toSet)
    (hn : ∀ t, t.WellFormed → s.Shrinks t → (∀ a, t.Admits a ↔ s.Admits a ∧ a x ∈ c.toSet) →
      next.Meets t false T (·.Sound t H)) :
    (restrict x c >>= fun _ => next).Meets s false T (·.Sound s H) := by
  intro g
  obtain ⟨w, hw, hN⟩ := Domains.cut_spec hs hx c
  rw [run_bind, run_restrict, hw]
  rcases hok : w.status with v | ⟨⟩
  · have hsound := Outcome.Sound.of_narrows hN hx hc
    rw [Except.map, hok]
    refine ⟨?_, fun _ => ⟨_, rfl⟩⟩
    rintro o ⟨⟩
    exact hok ▸ hsound
  · have hadm := fun a => hN.admits_iff (a := a) hx hok
    obtain ⟨hQ, hT⟩ := hn _ hN.wellFormed hN.shrinks hadm g
    rw [Except.map, hok]
    refine ⟨fun o ho => ?_, hT⟩
    exact (hQ o ho).lift (fun a ha hH => ⟨(hadm a).2 ⟨ha, hc a ha hH⟩, hH⟩) fun a _ hH => hH

theorem meets_fix (hs : s.WellFormed) (hx : x.index < s.count) {v : Int} (hv : ∀ a, s.Admits a → (H a ↔ a x = v)) :
    Step.Meets (do restrict x (.exactly v); declareEntailed) s false T (·.Sound s H) := by
  apply meets_narrow hs hx
  · intro a ha hH
    rw [Cut.toSet_exactly]
    exact (hv a ha).1 hH
  · intro t _ _ hadm
    simp only [Cut.toSet_exactly] at hadm
    refine meets_declareEntailed (.declared fun a ha => ?_)
    obtain ⟨ha, hax⟩ := (hadm a).1 ha
    exact (hv a ha).2 hax

def Sound (step : Step Unit) (scope : List Var) (H : Assignment → Prop) : Prop :=
  ∀ h s o, s.WellFormed → s.Knows scope → step.start h s = .ok o → o.Sound s H

theorem Meets.sound {scope : List Var}
    (h : ∀ s, s.WellFormed → s.Knows scope → step.Meets s false T (·.Sound s H)) : step.Sound scope H :=
  fun g s o hs hk ho => (h s hs hk g).1 o ho

end Step

def Affirms (question : Domains → Except Misuse Bool) (scope : List Var) (H : Assignment → Prop) : Prop :=
  ∀ s, s.WellFormed → s.Knows scope → question s = .ok true → ∀ a, s.Admits a → H a

structure Propagator.Lawful (p : Propagator) (H : Assignment → Prop) : Prop where
  step : p.step.Sound p.scope H
  satisfied : Affirms p.satisfied p.scope H

namespace Reifiable

/-- In either mode the propagator is lawful for what it then means. -/
structure Lawful (p : Reifiable) (H : Assignment → Prop) : Prop where
  rule : ∀ m : Mode, (p.rule m).Sound p.scope (m.means H)
  test : ∀ m : Mode, Affirms (p.test m) p.scope (m.means H)

structure Answers (p : Reifiable) : Prop where
  rule : ∀ m h s, s.WellFormed → s.Knows p.scope → ∃ o, (p.rule m).start h s = .ok o
  test : ∀ m s, s.WellFormed → s.Knows p.scope → ∃ e, p.test m s = .ok e

variable {p : Reifiable}

theorem Lawful.meets_decide (hp : p.Lawful H) (hs : s.WellFormed) (hk : s.Knows p.scope) (m : Mode)
    (hK : ∀ a, s.Admits a → (K a ↔ m.means H a)) :
    Step.Meets (do p.rule m; if ← Step.ask (p.test m) then Step.declareEntailed) s false p.Answers (·.Sound s K) := by
  have hrule : (p.rule m).Meets s false p.Answers fun o =>
      o.domains.WellFormed ∧ s.Shrinks o.domains ∧ o.Sound s K := by
    refine fun g => ⟨fun o ho => ?_, fun ht => ht.rule m g s hs hk⟩
    obtain ⟨hwf, hsh⟩ := Step.run_shrinks hs ho
    refine ⟨hwf, hsh, (hp.rule m g s o hs hk ho).lift (fun a ha h => ⟨ha, (hK a ha).1 h⟩) ?_⟩
    exact fun a ha => (hK a (hsh.admits ha)).2
  refine hrule.bind (fun t e' w h => h.2.2) ?_
  rintro t e' ⟨ht, hst, hsound⟩
  have hkt := hk.shrinks hst
  refine Step.meets_ask (fun hans => hans.test m t ht hkt) fun e he => ?_
  cases e with
  | false =>
    -- The rule may have declared entailment itself, and then that stands.
    exact Step.meets_pure hsound
  | true =>
    refine Step.meets_declareEntailed ⟨hsound.keeps, nofun, fun _ a ha => ?_⟩
    exact (hK a (hst.admits ha)).2 (hp.test m t ht hkt he a ha)

end Reifiable

namespace Reified

variable {r : Reified}

theorem meets_inferTruth (hp : r.inner.Lawful H) (hs : s.WellFormed) (hk : s.Knows r.scope) :
    r.inferTruth.Meets s false r.inner.Answers (·.Sound s (r.Holds H)) := by
  obtain ⟨hki, hb⟩ := knows_scope.1 hk
  have hfix : ∀ m : Mode, r.inner.test m s = .ok true → ∀ a, s.Admits a → (r.Holds H a ↔ a r.truth = m.flag) :=
    fun m h a ha => holds_iff_of_means (hp.test m s hs hki h a ha)
  refine Step.meets_ask (fun hans => hans.test .enforce s hs hki) fun e he => ?_
  cases e with
  | true => exact Step.meets_fix hs hb (hfix .enforce he)
  | false =>
    refine Step.meets_ask (fun hans => hans.test .refute s hs hki) fun e he => ?_
    cases e with
    | true => exact Step.meets_fix hs hb (hfix .refute he)
    | false => exact Step.meets_pure .unchanged

theorem meets_step (hp : r.inner.Lawful H) (hs : s.WellFormed) (hk : s.Knows r.scope) :
    r.step.Meets s false r.inner.Answers (·.Sound s (r.Holds H)) := by
  refine Step.meets_narrow hs (knows_scope.1 hk).2 (fun a _ h => ?_) fun t ht hst _ => ?_
  · obtain ⟨m, hm, -⟩ := holds_iff.1 h
    exact Mode.exists_eq_flag_iff.1 ⟨m, hm⟩
  have hk := hk.shrinks hst
  obtain ⟨hki, hb⟩ := knows_scope.1 hk
  obtain ⟨d, hd⟩ := Table.lt_size_iff (k := r.truth).1 hb
  refine Step.meets_ask (fun _ => ⟨d, Domains.get_eq_ok_iff.2 hd⟩) fun d hd => ?_
  have hmeans : ∀ m : Mode, d.isFixedTo m.flag = true → ∀ a, t.Admits a → (r.Holds H a ↔ m.means H a) :=
    fun m h a ha => holds_iff_of_truth (ht.eq_of_isFixedTo hd h ha)
  split
  · next h1 => exact hp.meets_decide ht hki .enforce (hmeans .enforce h1)
  split
  · next h0 => exact hp.meets_decide ht hki .refute (hmeans .refute h0)
  · exact meets_inferTruth hp ht hk

theorem affirms_satisfied (hp : r.inner.Lawful H) : Affirms r.satisfied r.scope (r.Holds H) := by
  intro s hs hk h a ha
  obtain ⟨hki, -⟩ := knows_scope.1 hk
  obtain ⟨d, hd, h⟩ := bind_eq_ok_iff.1 h
  have hholds : ∀ m : Mode, d.isFixedTo m.flag = true → r.inner.test m s = .ok true → r.Holds H a :=
    fun m hm h => (holds_iff_of_truth (hs.eq_of_isFixedTo hd hm ha)).2 (hp.test m s hs hki h a ha)
  split at h
  · next h1 => exact hholds .enforce h1 h
  split at h
  · next h0 => exact hholds .refute h0 h
  · cases h

/-- Reification is lawful for whatever is lawful in both modes. The truth may be a variable that the propagator uses,
and it may have any domain. -/
theorem lawful_of_inner (r : Reified) (hp : r.inner.Lawful H) : r.toPropagator.Lawful (r.Holds H) ∧
    (r.inner.Answers → ∀ h s, s.WellFormed → s.Knows r.scope → ∃ o, r.step.start h s = .ok o) := by
  refine ⟨⟨Step.Meets.sound fun s => meets_step hp, affirms_satisfied hp⟩, fun hans h s hs hk => ?_⟩
  exact (meets_step hp hs hk h).2 hans

end Reified

namespace Greater

theorem meets_rule (g : Greater) (m : Mode) (hs : s.WellFormed) (hx : g.var.index < s.count) :
    (g.toReifiable.rule m).Meets s false T (·.Sound s (m.means g.Holds)) := by
  cases m with
  | enforce =>
    change g.step.Meets s false T (·.Sound s g.Holds)
    rw [step]
    split
    · next hc =>
      refine Step.meets_fail (.failed fun a ha hH => ?_)
      have hle := hs.sound.le_maxValue (Domains.admits_iff.1 ha g.var hx)
      exact absurd (hle.trans hc) (not_le.mpr hH)
    · exact Step.meets_restrict hs hx fun w hN => .of_narrows hN hx fun a _ hH => hH
  | refute =>
    change g.refuteStep.Meets s false T (·.Sound s fun a => ¬ g.Holds a)
    exact Step.meets_restrict hs hx fun w hN => .of_narrows hN hx fun a _ hH => Int.not_lt.mp hH

theorem lawful (g : Greater) : g.toReifiable.Lawful g.Holds where
  rule := fun m => Step.Meets.sound (T := True) fun s hs hk => g.meets_rule m hs (hk _ List.mem_cons_self)
  test := by
    intro m s hs hk h a ha
    have hx := hk g.var List.mem_cons_self
    obtain ⟨e, he, hside⟩ := test_eq m hs hx
    cases h.symm.trans he
    exact mem_side_iff.1 (hside.1 rfl (Domains.admits_iff.1 ha g.var hx))

theorem answers (g : Greater) : g.toReifiable.Answers where
  rule := fun m h s hs hk => (g.meets_rule (T := True) m hs (hk _ List.mem_cons_self) h).2 trivial
  test := by
    intro m s hs hk
    obtain ⟨e, he, -⟩ := test_eq m hs (hk _ List.mem_cons_self)
    exact ⟨e, he⟩

end Greater

theorem Reified.lawful_of_inner_aliased : ∃ (r q : Reified) (H K : Assignment → Prop) (s : Domains)
    (o w : Outcome Unit), (r.inner.Lawful H ∧ r.inner.scope = [r.truth]) ∧
    (q.inner.Lawful K ∧ q.inner.scope = [q.truth]) ∧ (s.WellFormed ∧ s.Knows r.scope ∧ s.Knows q.scope) ∧
    (r.step.start ⟨0⟩ s = .ok o ∧ o.result = .ok () ∧ o.entailed = true) ∧
    (∀ a, s.Admits a → r.Holds H a → o.domains.Admits a) ∧ (∀ a, o.domains.Admits a → r.Holds H a) ∧
    (q.step.start ⟨0⟩ s = .ok w ∧ w.result = .error ⟨⟨1⟩⟩) ∧ ∀ a, s.Admits a → ¬ q.Holds K a := by
  -- The truth variable is the compared one, and in `s` it is wider than 0 and 1 or fixed to a truth that fails.
  let g : Greater := { serial := ⟨0⟩, var := ⟨0⟩, constant := -1 }
  let k : Greater := { serial := ⟨1⟩, var := ⟨1⟩, constant := 1 }
  let r : Reified := ⟨⟨2⟩, g.toReifiable, ⟨0⟩⟩
  let q : Reified := ⟨⟨3⟩, k.toReifiable, ⟨1⟩⟩
  have hops : ∀ op ∈ [.add (-3) 3, .add 1 1], Domains.Operation.Allowed op := by
    simp [Domains.Operation.Allowed, minValue, maxValue]
  have hrun : (Domains.run {} [.add (-3) 3, .add 1 1]).toOption.any (fun s =>
      decide (∀ x ∈ r.scope, x.index < s.count) && decide (∀ x ∈ q.scope, x.index < s.count) &&
      ((r.step.start ⟨0⟩ s).toOption.any fun o => decide (o.result = .ok () ∧ o.entailed = true)) &&
      (q.step.start ⟨0⟩ s).toOption.any fun w => decide (w.result = .error ⟨⟨1⟩⟩)) = true := by
    decide +kernel
  obtain ⟨s, -, hs, hrun⟩ := Domains.exists_run hops hrun
  simp only [Bool.and_eq_true, decide_eq_true_eq] at hrun
  obtain ⟨⟨⟨hkr, hkq⟩, ho⟩, hw⟩ := hrun
  obtain ⟨hr, htotal⟩ := r.lawful_of_inner g.lawful
  obtain ⟨hq, -⟩ := q.lawful_of_inner k.lawful
  obtain ⟨o, hstart⟩ := htotal g.answers ⟨0⟩ s hs hkr
  rw [hstart] at ho
  obtain ⟨hok, hent⟩ := of_decide_eq_true ho
  obtain ⟨w, hw, herr⟩ := exists_ok_of_any hw
  have herr := of_decide_eq_true herr
  have hsound := hr.step ⟨0⟩ s o hs hkr hstart
  exact ⟨r, q, g.Holds, k.Holds, s, o, w, ⟨g.lawful, rfl⟩, ⟨k.lawful, rfl⟩, ⟨hs, hkr, hkq⟩, ⟨hstart, hok, hent⟩,
    hsound.keeps, hsound.entails hent, ⟨hw, herr⟩, (hq.step ⟨0⟩ s w hs hkq hw).fails _ herr⟩

end DomainPropagation
