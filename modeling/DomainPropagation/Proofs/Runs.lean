import DomainPropagation.Proofs.Snapshots
import DomainPropagation.Store.Request

/-! Runs of requests. Every store that they lead to is well formed, and remembers every level that none of
them goes below. -/

namespace DomainPropagation

/-- Values are 32-bit numbers, and what is imposed is of a given kind. Names are 32-bit numbers too, and there is one
left for what is imposed, and for a variable that values are taken out of. -/
def Request.Allowed (P : Propagator → Prop) (s : Store) : Request → Prop
  | .newVariable lower upper => minValue ≤ lower ∧ upper ≤ maxValue
  | .newSparseVariable values => s.domains.count < wordSize ∧ ∀ v ∈ values, minValue ≤ v ∧ v ≤ maxValue
  | .impose p => s.domains.Knows p.scope → s.imposed.size < wordSize ∧ P p
  | _ => True

theorem Request.Allowed.mono {P Q : Propagator → Prop} {s : Store} {q : Request} (h : q.Allowed P s)
    (hPQ : ∀ p, P p → Q p) : q.Allowed Q s := by
  cases q
  case impose p => exact fun hk => (h hk).imp_right (hPQ p)
  all_goals exact h

def Request.levelAfter (level : Nat) : Request → Nat
  | .openLevel => level + 1
  | .backtrack target => target
  | _ => level

namespace Store

variable {s t u : Store} {P : Propagator → Prop} {q : Request} {r : Reply Answer} {k : Nat} {h : Handle}
  {p : Propagator} {o : Options}

def Reachable (o : Options) (P : Propagator → Prop) : Store → Prop :=
  Leads (fun s q => q.Allowed P s) { options := o }

inductive Performed (s : Store) : Request → Answer → Store → Prop
  | newVariable {l u : Int} {d : Domain} : d.WellFormed →
      Performed s (.newVariable l u) (.variable (.ok (s.addDomain d).value)) (s.addDomain d).store
  | noVariable {l u : Int} : Performed s (.newVariable l u) (.variable (.error .emptyDomain)) s
  | newSparseVariable {vs : List Int} {d : Domain} : d.WellFormed →
      Performed s (.newSparseVariable vs) (.variable (.ok (s.addDomain d).value)) (s.addDomain d).store
  | noSparseVariable {vs : List Int} : Performed s (.newSparseVariable vs) (.variable (.error .emptyDomain)) s
  | newSerial : Performed s .newSerial (.serial s.newSerial.value) s.newSerial.store
  | impose {p : Propagator} {r : Reply (Except ModelError Handle)} : s.impose p = .ok r →
      Performed s (.impose p) (.propagator r.value) r.store
  | cut {x : Var} {c : Cut} {r : Reply Status} : s.cut x c = .ok r →
      Performed s (.cut x c) (.cut r.value) r.store
  | openLevel {t : Store} : s.openLevel = .ok t → Performed s .openLevel .done t
  | backtrack {k : Nat} {r : Reply Unit} : s.backtrack k = .ok r → Performed s (.backtrack k) .done r.store
  | propagate {r : Reply (Except Conflict Unit)} : s.propagate = .ok r →
      Performed s .propagate (.propagated r.value) r.store

theorem performed (hq : q.Allowed P s) (hr : s.perform q = .ok r) : s.Performed q r.value r.store := by
  cases q with
  | newVariable l u =>
    cases hr
    change s.Performed _ (.variable (s.newVariable l u).value) (s.newVariable l u).store
    rw [Store.newVariable]
    split
    · next h => exact .newVariable (Domain.wellFormed_interval hq.1 hq.2 h)
    · exact .noVariable
  | newSparseVariable vs =>
    obtain ⟨r', hr', rfl⟩ := map_eq_ok_iff.1 hr
    rw [Store.newSparseVariable] at hr'
    split at hr'
    · split at hr'
      · next d hd =>
        cases hr'
        exact .newSparseVariable (Domain.wellFormed_ofValues? hq.2 hd)
      · cases hr'
        exact .noSparseVariable
    · cases hr'
  | newSerial =>
    cases hr
    exact .newSerial
  | impose p =>
    obtain ⟨r', hr', rfl⟩ := map_eq_ok_iff.1 hr
    exact .impose hr'
  | cut x c =>
    obtain ⟨r', hr', rfl⟩ := map_eq_ok_iff.1 hr
    exact .cut hr'
  | openLevel =>
    obtain ⟨t, ht, hr⟩ := bind_eq_ok_iff.1 hr
    cases hr
    exact .openLevel ht
  | backtrack k =>
    obtain ⟨r', hr', rfl⟩ := map_eq_ok_iff.1 hr
    exact .backtrack hr'
  | propagate =>
    obtain ⟨r', hr', rfl⟩ := map_eq_ok_iff.1 hr
    exact .propagate hr'

theorem perform_propagate {r : Reply (Except Conflict Unit)} (hr : s.propagate = .ok r) :
    s.perform .propagate = .ok (r.map .propagated) := map_eq_ok_iff.2 ⟨r, hr, rfl⟩

theorem WellFormed.cut {x : Var} {c : Cut} {r : Reply Status} (hs : s.WellFormed) (hr : s.cut x c = .ok r) :
    r.store.WellFormed ∧ s.domains.Shrinks r.store.domains ∧ r.store = { s with domains := r.store.domains } := by
  obtain ⟨w, hw, hr⟩ := bind_eq_ok_iff.1 hr
  cases hr
  have hN := Domains.narrows_of_cut hs.domains hw
  exact ⟨hs.withDomains hN.wellFormed hN.shrinks.count hN.shrinks.level, hN.shrinks, rfl⟩

theorem WellFormed.perform (hs : s.WellFormed) (hq : q.Allowed Propagator.Standard s) (hr : s.perform q = .ok r) :
    r.store.WellFormed := by
  have h := performed hq hr
  generalize r.value = a, r.store = t at h
  cases h with
  | newVariable hd | newSparseVariable hd => exact hs.addDomain hd
  | noVariable | noSparseVariable => exact hs
  | newSerial => exact hs.withCounters rfl _
  | impose hr' =>
    rcases hs.impose hq hr' with ⟨-, heq⟩ | ⟨-, -, hwf, -⟩
    · exact heq.symm ▸ hs
    · exact hwf
  | cut hr' => exact (hs.cut hr').1
  | openLevel ht =>
    obtain ⟨w, t', -, ht', -, hwf, -⟩ := hs.openLevel
    cases ht.symm.trans ht'
    exact hwf
  | backtrack hr' =>
    obtain ⟨t, log, ht, hwf, -⟩ := hs.backtrack (lt_of_backtrack hr')
    cases hr'.symm.trans ht
    exact hwf
  | propagate hr' => exact hs.propagate hr'

theorem WellFormed.perform_remembers (hs : s.WellFormed) (hq : q.Allowed Propagator.Standard s)
    (hr : s.perform q = .ok r) (hk : k < s.level) (hb : ∀ j, q = .backtrack j → k < j) :
    Remembers k s r.store := by
  have h := performed hq hr
  generalize r.value = a, r.store = t at h
  cases h with
  | newVariable | newSparseVariable => exact hs.remembers_addDomain hk _
  | noVariable | noSparseVariable => exact .refl hk
  | newSerial => exact .of_restored hk rfl rfl (fun _ _ h => h) rfl rfl rfl
  | impose hr' => exact hs.remembers_impose hq hk hr'
  | cut hr' =>
    obtain ⟨-, hsh, heq⟩ := hs.cut hr'
    rw [heq]
    exact hs.remembers_shrinks hk hsh
  | openLevel ht => exact hs.remembers_openLevel hk ht
  | backtrack hr' => exact hs.remembers_backtrack (hb _ rfl) hr'
  | propagate hr' => exact hs.remembers_propagate hk hr'

theorem WellFormed.perform_effect (hs : s.WellFormed) (hq : q.Allowed Propagator.Standard s)
    (hr : s.perform q = .ok r) :
    r.store.level = q.levelAfter s.level ∧
      (r.store.propagator? = s.propagator? ∧ (∀ h, r.value ≠ .propagator (.ok h)) ∨
        ∃ p, q = .impose p ∧ s.domains.Knows p.scope ∧ r.value = .propagator (.ok ⟨s.imposed.size⟩) ∧
          (⟨s.imposed.size⟩ : Handle) ∈ r.store.agenda.toList ∧
          ∀ h p', r.store.propagator? h = some p' ↔ h = ⟨s.imposed.size⟩ ∧ p = p' ∨ s.propagator? h = some p') := by
  have h := performed hq hr
  generalize r.value = a, r.store = t at h
  cases h with
  | newVariable | newSparseVariable | noVariable | noSparseVariable | newSerial => exact ⟨rfl, .inl ⟨rfl, nofun⟩⟩
  | @impose p r hr' =>
    rcases hs.impose hq hr' with ⟨⟨x, hv⟩, heq⟩ | ⟨hk, hv, -, hdue, heq⟩
    · refine ⟨congrArg Store.level heq, .inl ⟨congrArg Store.propagator? heq, fun h he => ?_⟩⟩
      cases hv.symm.trans (Answer.propagator.inj he)
    · refine ⟨(congrArg Store.level heq :), .inr ⟨p, rfl, hk, congrArg _ hv, (hdue _).2 (.inl rfl), fun h p' => ?_⟩⟩
      exact propagator?_push_eq_some_iff (congrArg Store.imposed heq)
  | cut hr' =>
    obtain ⟨-, hsh, heq⟩ := hs.cut hr'
    exact ⟨hsh.level, .inl ⟨(congrArg Store.propagator? heq :), nofun⟩⟩
  | openLevel ht =>
    obtain ⟨w, t', hw, ht', -, -, -, heq⟩ := hs.openLevel
    cases ht.symm.trans ht'
    refine ⟨(hs.left_openLevel ht).1, .inl ⟨?_, nofun⟩⟩
    exact (congrArg Store.propagator? heq).trans (hs.continues_wake hw).imposed
  | backtrack hr' =>
    obtain ⟨t, log, ht, -, himp, -⟩ := hs.backtrack (lt_of_backtrack hr')
    have hl := (hs.now_backtrack hr').2
    cases hr'.symm.trans ht
    exact ⟨hl, .inl ⟨himp, nofun⟩⟩
  | propagate hr' =>
    have hcont := hs.continues_propagate hr'
    exact ⟨hcont.level, .inl ⟨hcont.imposed, nofun⟩⟩

theorem WellFormed.count_perform (hs : s.WellFormed) (hq : q.Allowed Propagator.Standard s)
    (hr : s.perform q = .ok r) : r.store.domains.count ≤ s.domains.count + 1 := by
  have h := performed hq hr
  generalize r.value = a, r.store = t at h
  cases h with
  | newVariable | newSparseVariable => exact (Table.size_push ..).le
  | noVariable | noSparseVariable | newSerial => exact Nat.le_succ _
  | impose hr' =>
    rcases hs.impose hq hr' with ⟨-, heq⟩ | ⟨-, -, -, -, heq⟩
    · exact heq ▸ Nat.le_succ _
    · rw [heq]
      exact Nat.le_succ _
  | cut hr' => exact (hs.cut hr').2.1.count.le.trans (Nat.le_succ _)
  | openLevel ht =>
    obtain ⟨w, t', hw, ht', -, -, -, heq⟩ := hs.openLevel
    cases ht.symm.trans ht'
    rw [heq, wake_eq hw]
    exact Nat.le_succ _
  | backtrack hr' =>
    obtain ⟨t, log, ht, -, -, -, -, heq⟩ := hs.backtrack (lt_of_backtrack hr')
    cases hr'.symm.trans ht
    rw [heq]
    exact (Domains.size_restored ..).le.trans (Nat.le_succ _)
  | propagate hr' => exact (hs.continues_propagate hr').count.le.trans (Nat.le_succ _)

theorem WellFormed.size_imposed_perform (hs : s.WellFormed) (hq : q.Allowed Propagator.Standard s)
    (hr : s.perform q = .ok r) : r.store.imposed.size ≤ s.imposed.size + 1 := by
  obtain ⟨-, ⟨heq, -⟩ | ⟨p, -, -, -, -, himp⟩⟩ := hs.perform_effect hq hr
  · exact (size_le_of_imposed fun h p hp => heq ▸ hp).trans (Nat.le_succ _)
  · apply Nat.le_of_not_lt
    intro hlt
    obtain ⟨i, hget⟩ := Table.lt_size_iff (k := (⟨s.imposed.size + 1⟩ : Handle)).1 hlt
    rcases (himp _ _).1 (propagator?_of_get? hget) with ⟨hh, -⟩ | hp
    · exact Nat.succ_ne_self _ (congrArg Handle.index hh)
    · exact Nat.not_succ_lt_self (lt_size_of_propagator? hp)

/-- There are names left for so many variables, and for so many propagators. -/
def HasNames (s : Store) (n : Nat) : Prop := s.domains.count + n ≤ wordSize ∧ s.imposed.size + n ≤ wordSize

instance {n : Nat} : Decidable (s.HasNames n) := inferInstanceAs (Decidable (_ ∧ _))

@[simp] theorem hasNames_one : s.HasNames 1 ↔ s.domains.count < wordSize ∧ s.imposed.size < wordSize := Iff.rfl

theorem hasNames_new {n : Nat} : HasNames { options := o } n ↔ n ≤ wordSize := by
  change 0 + n ≤ wordSize ∧ 0 + n ≤ wordSize ↔ _
  rw [and_self_iff, Nat.zero_add]

theorem HasNames.mono {m n : Nat} (hn : s.HasNames n) (h : m ≤ n) : s.HasNames m :=
  hn.imp (le_trans (Nat.add_le_add_left h _)) (le_trans (Nat.add_le_add_left h _))

theorem HasNames.perform {n : Nat} (hn : s.HasNames (n + 1)) (hs : s.WellFormed)
    (hq : q.Allowed Propagator.Standard s) (hr : s.perform q = .ok r) : r.store.HasNames n := by
  have hcount := hs.count_perform hq hr
  have hsize := hs.size_imposed_perform hq hr
  obtain ⟨hv, hp⟩ := hn
  constructor
  · omega
  · omega

theorem WellFormed.perform_keeps (hs : s.WellFormed) (hq : q.Allowed Propagator.Standard s)
    (hr : s.perform q = .ok r) (hp : s.propagator? h = some p) : r.store.propagator? h = some p := by
  obtain ⟨-, ⟨heq, -⟩ | ⟨p', -, -, -, -, himp⟩⟩ := hs.perform_effect hq hr
  · rw [heq]
    exact hp
  · exact (himp h p).2 (.inr hp)

theorem WellFormed.perform_imposed (hs : s.WellFormed) (hq : q.Allowed Propagator.Standard s)
    (hr : s.perform q = .ok r) (hp : r.store.propagator? h = some p) :
    s.propagator? h = some p ∨ q = .impose p ∧ s.domains.Knows p.scope := by
  obtain ⟨-, ⟨heq, -⟩ | ⟨p', rfl, hk, -, -, himp⟩⟩ := hs.perform_effect hq hr
  · exact .inl (heq ▸ hp)
  · rcases (himp h p).1 hp with ⟨-, rfl⟩ | hp
    · exact .inr ⟨rfl, hk⟩
    · exact .inl hp

theorem leads_wellFormed (hs : s.WellFormed) (ht : Leads (fun t q => q.Allowed Propagator.Standard t) s t) :
    t.WellFormed := by
  induction ht with
  | refl => exact hs
  | perform _ hq hr ih => exact ih.perform hq hr

theorem Leads.mono {ok ok' : Store → Request → Prop} (h : Leads ok s t) (hok : ∀ t q, ok t q → ok' t q) :
    Leads ok' s t := by
  induction h with
  | refl => exact .refl
  | perform _ hq hr ih => exact ih.perform (hok _ _ hq) hr

theorem Reachable.wellFormed (hP : ∀ p, P p → p.Standard) (hs : Reachable o P s) : s.WellFormed :=
  leads_wellFormed (wellFormed_new o) (hs.mono fun _ _ hq => hq.mono hP)

theorem Reachable.imposed (hP : ∀ p, P p → p.Standard) (hs : Reachable o P s) (hp : s.propagator? h = some p) :
    P p := by
  induction hs with
  | refl => cases hp
  | perform ht hq hr ih =>
    rcases (Reachable.wellFormed hP ht).perform_imposed (hq.mono hP) hr hp with hp | ⟨rfl, hk⟩
    · exact ih hp
    · exact (hq hk).2

theorem Reachable.propagate_total (hP : ∀ p, P p → p.Standard ∧ p.Total) (hs : Reachable o P s) :
    ∃ r, s.propagate = .ok r := by
  have hstd : ∀ p, P p → p.Standard := fun p hp => (hP p hp).1
  apply (hs.wellFormed hstd).propagate_total
  intro h p hp
  exact (hP p (hs.imposed hstd hp)).2

theorem leads_remembers (hs : s.WellFormed) (hk : k < s.level)
    (ht : Leads (fun t q => q.Allowed Propagator.Standard t ∧ ∀ j, q = .backtrack j → k < j) s t) :
    Remembers k s t := by
  induction ht with
  | refl => exact .refl hk
  | perform ht hq hr ih =>
    have htw := leads_wellFormed hs (ht.mono fun _ _ h => h.1)
    exact ih.trans (htw.perform_remembers hq.1 hr ih.level hq.2)

theorem Leads.trans {ok : Store → Request → Prop} (hst : Leads ok s t) (htu : Leads ok t u) : Leads ok s u := by
  induction htu with
  | refl => exact hst
  | perform _ hq hr ih => exact ih.perform hq hr

def performWithin (n : Nat) (s : Store) (q : Request) : Option Store :=
  if s.HasNames 1 then
    match q with
    | .propagate => (propagateWithin n s).map (·.store)
    | q =>
      match s.perform q with
      | .error _ => none
      | .ok r => some r.store
  else none

theorem perform_of_within {n : Nat} (h : performWithin n s q = some t) :
    s.HasNames 1 ∧ ∃ r, s.perform q = .ok r ∧ r.store = t := by
  unfold performWithin at h
  split at h
  · next hn =>
    refine ⟨hn, ?_⟩
    split at h
    · obtain ⟨r, hr, rfl⟩ := Option.map_eq_some_iff.1 h
      exact ⟨r.map .propagated, perform_propagate (propagate_of_within hr), rfl⟩
    · split at h
      · cases h
      · next r hr => exact ⟨r, hr, Option.some.inj h⟩
  · cases h

theorem exists_leads {ok : Store → Request → Prop} {n : Nat} {qs : List Request} {f : Store → Bool}
    (hst : Leads ok s t) (hok : ∀ q ∈ qs, ∀ u : Store, u.HasNames 1 → ok u q)
    (h : (qs.foldlM (performWithin n) t).any f = true) : ∃ u, Leads ok s u ∧ f u = true := by
  induction qs generalizing t with
  | nil => exact ⟨t, hst, h⟩
  | cons q qs ih =>
    obtain ⟨hq, hqs⟩ := List.forall_mem_cons.1 hok
    rw [List.foldlM_cons] at h
    cases hu : performWithin n t q with
    | none =>
      rw [hu] at h
      cases h
    | some u =>
      rw [hu] at h
      obtain ⟨hn, r, hr, rfl⟩ := perform_of_within hu
      exact ih (hst.perform (hq t hn) hr) hqs h

end Store

end DomainPropagation
