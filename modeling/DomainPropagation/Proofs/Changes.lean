import DomainPropagation.Proofs.Operations
import Mathlib.Data.List.Nodup

/-! What is pending accounts for what has changed. An event of a bound or of an assignment is pending if and only if it
has happened to the values that the variable had when nothing was pending, however many changes have been made
since; an event of a removal, if one of them was to take a value out. -/

namespace DomainPropagation

namespace Event

variable {e : Event} {a b c : Set Int}

theorem happens_iff_or (hba : b ⊆ a) (hcb : c ⊆ b) : e.Happens a c ↔ e.Happens a b ∨ e.Happens b c := by
  constructor
  · intro h
    by_contra hn
    cases e with
    | assign => exact hn (.inr ⟨fun hb => hn (.inl ⟨h.1, hb⟩), h.2⟩)
    | _ =>
      simp only [Happens, ne_eq, not_or, not_not] at h hn
      exact h (hn.1.trans hn.2)
  · rintro (h | h)
    · exact h.mono subset_rfl hba hcb
    · exact h.mono hba hcb subset_rfl

end Event

namespace Pending

variable {p q : Pending} {e : Event} {x : Var} {es : List Event}

theorem nodup_note (hp : p.WellFormed) (hn : p.events.toList.Nodup) (h : p.note e x = .ok q) :
    q.events.toList.Nodup := by
  rw [toList_note hp h]
  split
  · exact hn
  · next hnew =>
    have hnew : (e, x) ∉ p.events.toList := mt Array.mem_toList_iff.1 hnew
    exact List.nodup_append'.2 ⟨hn, List.nodup_singleton _, List.disjoint_singleton.2 hnew⟩

theorem nodup_foldlM_note (hp : p.WellFormed) (hx : x.index < p.seen.size) (hn : p.events.toList.Nodup)
    (h : es.foldlM (·.note · x) p = .ok q) : q.events.toList.Nodup := by
  induction es generalizing p with
  | nil =>
    cases h
    exact hn
  | cons e es ih =>
    obtain ⟨r, hr, h⟩ := bind_eq_ok_iff.1 h
    obtain ⟨r', hr', hwr, hsr, -⟩ := note_spec hp hx e
    cases hr.symm.trans hr'
    exact ih hwr (hsr ▸ hx) (nodup_note hp hn hr) h

end Pending

namespace Domains

variable {s t u : Domains} {x y : Var} {d e : Domain} {removed : Option Int} {events : List Event} {f : Event}
  {w : Written} {v : Int} {op : Operation} {before since ops : List Operation}

structure Accounts (s t : Domains) : Prop where
  count_le : s.count ≤ t.count
  subset : ∀ x, x.index < s.count → t.box x ⊆ s.box x
  nodup : s.pending.events.toList.Nodup → t.pending.events.toList.Nodup
  mem_iff : ∀ x, x.index < s.count → ∀ f ≠ .removal,
    ((f, x) ∈ t.pending.events ↔ (f, x) ∈ s.pending.events ∨ f.Happens (s.box x) (t.box x))
  exists_iff : ∀ x, x.index < s.count →
    ((∃ f, (f, x) ∈ t.pending.events) ↔ (∃ f, (f, x) ∈ s.pending.events) ∨ s.box x ≠ t.box x)

namespace Accounts

theorem of_eq (hc : s.count ≤ t.count) (hb : ∀ x, x.index < s.count → t.box x = s.box x)
    (he : t.pending.events = s.pending.events) : s.Accounts t where
  count_le := hc
  subset x hx := (hb x hx).subset
  nodup h := he ▸ h
  mem_iff x hx f _ := by rw [hb x hx, he, or_iff_left fun h => h.ne rfl]
  exists_iff x hx := by rw [hb x hx, he, or_iff_left fun h => h rfl]

theorem trans (h : s.Accounts t) (h' : t.Accounts u) : s.Accounts u where
  count_le := h.count_le.trans h'.count_le
  subset x hx := (h'.subset x (hx.trans_le h.count_le)).trans (h.subset x hx)
  nodup := fun hn => h'.nodup (h.nodup hn)
  mem_iff x hx f hf := by
    have hx' := hx.trans_le h.count_le
    rw [h'.mem_iff x hx' f hf, h.mem_iff x hx f hf, or_assoc, ← Event.happens_iff_or (h.subset x hx) (h'.subset x hx')]
  exists_iff x hx := by
    have hx' := hx.trans_le h.count_le
    have hne := Event.happens_iff_or (e := .removal) (h.subset x hx) (h'.subset x hx')
    simp only [Event.Happens] at hne
    rw [h'.exists_iff x hx', h.exists_iff x hx, or_assoc, hne]

end Accounts

theorem mem_events_replace (hs : s.WellFormed) (hx : x.index < s.count)
    (h : s.replace x d e removed events = .ok w) : (f, y) ∈ w.domains.pending.events ↔
      (f, y) ∈ s.pending.events ∨ f ∈ (if e.isFixed then events ++ [.assign] else events) ∧ y = x := by
  obtain ⟨p, hp, h⟩ := bind_eq_ok_iff.1 h
  cases h
  obtain ⟨p', hp', -, -, hm⟩ := Pending.foldlM_note_spec hs.pending (hs.seen ▸ hx) _
  cases hp.symm.trans hp'
  exact hm f y

theorem nodup_replace (hs : s.WellFormed) (hx : x.index < s.count) (hn : s.pending.events.toList.Nodup)
    (h : s.replace x d e removed events = .ok w) : w.domains.pending.events.toList.Nodup := by
  obtain ⟨p, hp, h⟩ := bind_eq_ok_iff.1 h
  cases h
  exact Pending.nodup_foldlM_note hs.pending (hs.seen ▸ hx) hn hp

theorem box_replace (hx : s.table.get? x = some d) (hle : e.toSet ⊆ d.toSet)
    (h : s.replace x d e removed events = .ok w) : w.domains.box = s.box.restrict x e.toSet := by
  obtain ⟨p, -, h⟩ := bind_eq_ok_iff.1 h
  cases h
  exact box_modify hx (Set.inter_eq_right.2 hle).symm

theorem Shrinks.exists_iff (h : s.Shrinks t) :
    (∃ f, (f, x) ∈ t.pending.events) ↔ (∃ f, (f, x) ∈ s.pending.events) ∨ s.box x ≠ t.box x := by
  constructor
  · rintro ⟨f, hf⟩
    exact (h.honest f x hf).imp (fun hf => ⟨f, hf⟩) Event.Happens.ne
  · rintro (⟨f, hf⟩ | hne)
    · exact ⟨f, h.kept _ hf⟩
    · obtain ⟨f, -, hf⟩ := h.told x .every hne
      exact ⟨f, hf⟩

theorem accounts_trim (hs : s.WellFormed) (hx : s.table.get? x = some d) (h : d.Trim removed events e)
    (hw : s.replace x d e removed events = .ok w) : w.domains.WellFormed ∧ s.Accounts w.domains := by
  have hd := hs.sound x d hx
  have hlt : x.index < s.count := Table.lt_size_iff.2 ⟨d, hx⟩
  have hS : e.toSet = d.toSet ∩ e.toSet := (Set.inter_eq_right.2 (h.subset hd)).symm
  obtain ⟨w', hw', hN⟩ := replace_spec hs hx h hS
  cases hw.symm.trans hw'
  refine ⟨hN.wellFormed, hN.shrinks.count.ge, fun y _ => hN.shrinks.le y, fun hn => nodup_replace hs hlt hn hw,
    fun y _ f hf => ?_, fun y _ => hN.shrinks.exists_iff⟩
  rw [mem_events_replace hs hlt hw, box_replace hx (h.subset hd) hw]
  apply or_congr_right
  by_cases hyx : y = x
  · subst hyx
    rw [Box.restrict_self, box_of_get? hx, ← hS, and_iff_left rfl, h.mem_iff_happens hd hf]
  · rw [Box.restrict_of_ne hyx]
    exact iff_of_false (fun h => hyx h.2) fun h => h.ne rfl

theorem accounts_trims (hs : s.WellFormed) (h : Trims x removed s t) : t.WellFormed ∧ s.Accounts t := by
  induction h with
  | refl => exact ⟨hs, .of_eq le_rfl (fun _ _ => rfl) rfl⟩
  | step hx hd hw _ ih =>
    obtain ⟨hwf, hacc⟩ := accounts_trim hs (get_eq_ok_iff.1 hx) hd hw
    exact ⟨(ih hwf).1, hacc.trans (ih hwf).2⟩

theorem removal_trims (hs : s.WellFormed) (h : Trims x removed s t) :
    (.removal, y) ∈ t.pending.events ↔
      (.removal, y) ∈ s.pending.events ∨ y = x ∧ ∃ v, removed = some v ∧ v ∈ s.box x ∧ v ∉ t.box x := by
  induction h with
  | refl =>
    rw [or_iff_left]
    rintro ⟨-, v, -, hv, hv'⟩
    exact hv' hv
  | @step s t d e events w hx hd hw h ih =>
    have hx := get_eq_ok_iff.1 hx
    have hlt : x.index < s.count := Table.lt_size_iff.2 ⟨d, hx⟩
    have hwd := hs.sound x d hx
    obtain ⟨hwf, hacc⟩ := accounts_trim hs hx hd hw
    have hsub := (accounts_trims hwf h).2.subset x (hlt.trans_le hacc.count_le)
    rw [ih hwf, mem_events_replace hs hlt hw, hd.removal_mem_iff]
    rw [box_replace hx (hd.subset hwd) hw, Box.restrict_self, box_of_get? hx,
      Set.inter_eq_right.2 (hd.subset hwd)] at hsub ⊢
    constructor
    · rintro ((hm | ⟨⟨v, hv⟩, rfl⟩) | ⟨rfl, v, hv, hve, hvt⟩)
      · exact .inl hm
      · have hvd := hd.not_mem_of_removed hwd hv
        exact .inr ⟨rfl, v, hv, hvd.1, fun hvt => hvd.2 (hsub hvt)⟩
      · exact .inr ⟨rfl, v, hv, hd.subset hwd hve, hvt⟩
    · rintro (hm | ⟨rfl, v, hv, -, -⟩)
      · exact .inl (.inl hm)
      · exact .inl (.inr ⟨⟨v, hv⟩, rfl⟩)

namespace Operation

/-- Whether nothing is pending after an operation. -/
def Settles : Operation → Prop
  | .backTo _ | .drain | .clear => True
  | _ => False

/-- Whether an operation leaves what is pending and adds what it changes. -/
def Notes : Operation → Prop
  | .add _ _ | .cut _ _ | .openLevel => True
  | _ => False

end Operation

theorem events_of_settles (hop : op.Settles) (h : s.perform op = .ok t) : t.pending.events = #[] := by
  cases op with
  | backTo k =>
    obtain ⟨a, -, h⟩ := bind_eq_ok_iff.1 h
    cases h
    rfl
  | drain | clear =>
    cases h
    rfl
  | _ => exact hop.elim

theorem events_of_last (hlast : ∀ op ∈ ops.getLast?, op.Settles) (h : run {} ops = .ok s) : s.pending.events = #[] := by
  cases ops using List.reverseRecOn with
  | nil =>
    cases h
    rfl
  | append_singleton ops op =>
    obtain ⟨u, -, h⟩ := run_append.1 h
    exact events_of_settles (hlast op (by simp)) (run_singleton.1 h)

theorem WellFormed.accounts_perform (hs : s.WellFormed) (hop : op.Allowed) (hn : op.Notes)
    (h : s.perform op = .ok t) : s.Accounts t := by
  cases op with
  | add l u =>
    cases hs.performed hop h
    exact .of_eq ((Nat.le_succ _).trans_eq (Table.size_push ..).symm) (fun x hx => box_push hx) rfl
  | cut x c =>
    obtain ⟨w, hw, rfl⟩ := map_eq_ok_iff.1 h
    exact (accounts_trims hs (trims_of_cut hw)).2
  | openLevel =>
    cases h
    exact .of_eq le_rfl (fun _ _ => rfl) rfl
  | _ => exact hn.elim

theorem WellFormed.removal_perform (hs : s.WellFormed) (hn : op.Notes) (h : s.perform op = .ok t) :
    (.removal, x) ∈ t.pending.events ↔ (.removal, x) ∈ s.pending.events ∨
      ∃ v, op = .cut x (.without v) ∧ v ∈ s.box x ∧ v ∉ t.box x := by
  cases op with
  | add l u =>
    rw [Domains.perform, addInterval] at h
    split at h
    · cases h
      refine (or_iff_left ?_).symm
      rintro ⟨v, hv, -⟩
      cases hv
    · cases h
  | cut y c =>
    obtain ⟨w, hw, rfl⟩ := map_eq_ok_iff.1 h
    rw [removal_trims hs (trims_of_cut hw)]
    apply or_congr_right
    constructor
    · rintro ⟨rfl, v, hv, hm⟩
      cases c <;> cases hv
      exact ⟨_, rfl, hm⟩
    · rintro ⟨v, hv, hm⟩
      cases hv
      exact ⟨rfl, v, rfl, hm⟩
  | openLevel =>
    cases h
    refine (or_iff_left ?_).symm
    rintro ⟨v, hv, -⟩
    cases hv
  | _ => exact hn.elim

theorem WellFormed.accounts_run (hs : s.WellFormed) (hops : ∀ op ∈ ops, op.Allowed ∧ op.Notes)
    (h : s.run ops = .ok t) : s.Accounts t := by
  induction ops generalizing s with
  | nil =>
    cases h
    exact .of_eq le_rfl (fun _ _ => rfl) rfl
  | cons op ops ih =>
    obtain ⟨⟨hop, hn⟩, hops⟩ := List.forall_mem_cons.1 hops
    obtain ⟨u, hu, h⟩ := bind_eq_ok_iff.1 h
    exact (hs.accounts_perform hop hn hu).trans (ih (hs.perform hop hu) hops h)

theorem contains_eq_ok_iff {b : Bool} (hx : x.index < s.count) :
    s.contains x v = .ok b ↔ (v ∈ s.box x ↔ b = true) := by
  obtain ⟨d, hd⟩ := Table.lt_size_iff (k := x).1 hx
  rw [contains, get_eq_ok_iff.2 hd, box_of_get? hd, ok_bind]
  change Except.ok (d.contains v) = .ok b ↔ (d.contains v = true ↔ b = true)
  rw [Except.ok.injEq, Bool.eq_iff_iff]

/-- One of the operations was to take a value out of the variable, and it did. -/
def TakesOut (s : Domains) (ops : List Operation) (x : Var) : Prop :=
  ∃ l r v u w, ops = l ++ .cut x (.without v) :: r ∧ s.run l = .ok u ∧ u.contains x v = .ok true ∧
    u.cut x (.without v) = .ok w ∧ w.domains.contains x v = .ok false

theorem takesOut_cons (hx : x.index < s.count) (hx' : x.index < t.count) (h : s.perform op = .ok t) :
    s.TakesOut (op :: ops) x ↔
      (∃ v, op = .cut x (.without v) ∧ v ∈ s.box x ∧ v ∉ t.box x) ∨ t.TakesOut ops x := by
  constructor
  · rintro ⟨l, r, v, u, w, hl, hu, hin, hw, hout⟩
    cases l with
    | nil =>
      cases hl
      cases hu
      cases (map_eq_ok_iff.2 ⟨w, hw, rfl⟩).symm.trans h
      exact .inl ⟨v, rfl, ((contains_eq_ok_iff hx).1 hin).2 rfl, mt ((contains_eq_ok_iff hx').1 hout).1 nofun⟩
    | cons op' l =>
      cases hl
      obtain ⟨t', ht', hu⟩ := bind_eq_ok_iff.1 hu
      cases ht'.symm.trans h
      exact .inr ⟨l, r, v, u, w, rfl, hu, hin, hw, hout⟩
  · rintro (⟨v, rfl, hin, hout⟩ | ⟨l, r, v, u, w, rfl, hu, hin, hw, hout⟩)
    · obtain ⟨w, hw, rfl⟩ := map_eq_ok_iff.1 h
      exact ⟨[], ops, v, s, w, rfl, rfl, (contains_eq_ok_iff hx).2 (iff_of_true hin rfl), hw,
        (contains_eq_ok_iff hx').2 (iff_of_false hout nofun)⟩
    · exact ⟨op :: l, r, v, u, w, rfl, bind_eq_ok_iff.2 ⟨t, h, hu⟩, hin, hw, hout⟩

theorem WellFormed.removal_run (hs : s.WellFormed) (hops : ∀ op ∈ ops, op.Allowed ∧ op.Notes) (hx : x.index < s.count)
    (h : s.run ops = .ok t) :
    (.removal, x) ∈ t.pending.events ↔ (.removal, x) ∈ s.pending.events ∨ s.TakesOut ops x := by
  induction ops generalizing s with
  | nil =>
    cases h
    refine (or_iff_left ?_).symm
    rintro ⟨l, r, v, u, w, hl, -⟩
    exact List.append_ne_nil_of_right_ne_nil l (List.cons_ne_nil _ r) hl.symm
  | cons op ops ih =>
    obtain ⟨⟨hop, hn⟩, hops⟩ := List.forall_mem_cons.1 hops
    obtain ⟨u, hu, h⟩ := bind_eq_ok_iff.1 h
    have hx' := hx.trans_le (hs.accounts_perform hop hn hu).count_le
    rw [ih (hs.perform hop hu) hops hx' h, hs.removal_perform hn hu, takesOut_cons hx hx' hu, or_assoc]

/-- What is pending tells exactly how each variable differs from what it was when nothing was pending, and tells it
once. A removal is pending if a call to take a value out has done so; values that go with a bound raise none. -/
theorem pending_exact (hbefore : ∀ op ∈ before, op.Allowed) (hlast : ∀ op ∈ before.getLast?, op.Settles)
    (hsince : ∀ op ∈ since, op.Allowed ∧ op.Notes) (hs : run {} before = .ok s) (ht : s.run since = .ok t) :
    t.pending.drain.1.Nodup ∧ ∀ x : Var, x.index < s.count → ∃ d e, s.get x = .ok d ∧ t.get x = .ok e ∧
      ((.lower, x) ∈ t.pending.drain.1 ↔ d.lower < e.lower) ∧
      ((.upper, x) ∈ t.pending.drain.1 ↔ e.upper < d.upper) ∧
      ((.assign, x) ∈ t.pending.drain.1 ↔ e.isFixed = true ∧ ¬ d.isFixed = true) ∧
      ((.removal, x) ∈ t.pending.drain.1 ↔ s.TakesOut since x) ∧
      ((∃ f, (f, x) ∈ t.pending.drain.1) ↔ d.toSet ≠ e.toSet) := by
  have hwf := wellFormed_new.run hbefore hs
  have hwf' := hwf.run (fun op hop => (hsince op hop).1) ht
  have hacc := hwf.accounts_run hsince ht
  have hnil := events_of_last hlast hs
  have hmem : ∀ p, p ∈ t.pending.drain.1 ↔ p ∈ t.pending.events := fun p => Array.mem_toList_iff
  have hnone : ∀ p, p ∉ s.pending.events := fun p => hnil ▸ Array.not_mem_empty p
  refine ⟨hacc.nodup (hnil ▸ List.nodup_nil), fun x hx => ?_⟩
  obtain ⟨d, hd⟩ := Table.lt_size_iff (k := x).1 hx
  obtain ⟨e, he⟩ := Table.lt_size_iff (k := x).1 (hx.trans_le hacc.count_le)
  have hdw := hwf.sound x d hd
  have hew := hwf'.sound x e he
  have hsub := hacc.subset x hx
  rw [box_of_get? hd, box_of_get? he] at hsub
  have hof := fun f (hf : f ≠ Event.removal) => hacc.mem_iff x hx f hf
  simp only [box_of_get? hd, box_of_get? he, or_iff_right (hnone _)] at hof
  simp only [hmem]
  refine ⟨d, e, get_eq_ok_iff.2 hd, get_eq_ok_iff.2 he, ?_, ?_, ?_, ?_, ?_⟩
  · rw [hof .lower (by decide), Event.Happens, Ne, hdw.lowerBounds_eq_iff hew]
    exact ⟨(Domain.lower_le (hsub hew.lower_mem)).lt_of_ne, ne_of_lt⟩
  · rw [hof .upper (by decide), Event.Happens, Ne, hdw.upperBounds_eq_iff hew]
    exact ⟨fun h => (Domain.le_upper (hsub hew.upper_mem)).lt_of_ne (Ne.symm h), ne_of_gt⟩
  · rw [hof .assign (by decide), Event.Happens, hdw.isFixed_iff, hew.isFixed_iff, and_comm]
  · rw [hwf.removal_run hsince hx ht, or_iff_right (hnone _)]
  · rw [hacc.exists_iff x hx, box_of_get? hd, box_of_get? he]
    exact or_iff_right (not_exists.mpr fun f => hnone (f, x))

theorem pending_exact_for_each : ∃ (before since : List Operation) (s t : Domains),
    (∀ op ∈ before, op.Allowed) ∧ (∀ op ∈ before.getLast?, op.Settles) ∧ (∀ op ∈ since, op.Allowed ∧ op.Notes) ∧
    run {} before = .ok s ∧ s.run since = .ok t ∧ s.count = 3 ∧
    t.pending.drain.1 = [(.removal, ⟨0⟩), (.lower, ⟨1⟩), (.removal, ⟨2⟩), (.lower, ⟨2⟩), (.assign, ⟨2⟩)] ∧
    t.pending.drain.1.Nodup ∧ ∀ x : Var, x.index < s.count → ∃ d e, s.get x = .ok d ∧ t.get x = .ok e ∧
      ((.lower, x) ∈ t.pending.drain.1 ↔ d.lower < e.lower) ∧
      ((.upper, x) ∈ t.pending.drain.1 ↔ e.upper < d.upper) ∧
      ((.assign, x) ∈ t.pending.drain.1 ↔ e.isFixed = true ∧ ¬ d.isFixed = true) ∧
      ((.removal, x) ∈ t.pending.drain.1 ↔ s.TakesOut since x) ∧
      ((∃ f, (f, x) ∈ t.pending.drain.1) ↔ d.toSet ≠ e.toSet) := by
  let before : List Operation := [.add 0 9, .add (-3) 3, .add 7 8, .openLevel, .cut ⟨1⟩ (.atLeast (-2)), .drain]
  let since : List Operation := [.cut ⟨0⟩ (.without 5), .openLevel, .cut ⟨1⟩ (.within (-1) 9), .add 4 4,
    .cut ⟨2⟩ (.without 7), .cut ⟨2⟩ (.without 8)]
  have hbefore : ∀ op ∈ before, op.Allowed := by simp [before, Operation.Allowed, minValue, maxValue]
  have hlast : ∀ op ∈ before.getLast?, op.Settles := by simp [before, Operation.Settles]
  have hsince : ∀ op ∈ since, op.Allowed ∧ op.Notes := by
    simp [since, Operation.Allowed, Operation.Notes, minValue, maxValue]
  have hrun : (run {} before).toOption.any (fun s => decide (s.count = 3) && (s.run since).toOption.any fun t =>
      decide (t.pending.drain.1 = [(.removal, ⟨0⟩), (.lower, ⟨1⟩), (.removal, ⟨2⟩), (.lower, ⟨2⟩), (.assign, ⟨2⟩)])) =
      true := by decide +kernel
  obtain ⟨s, hs, hrun⟩ := exists_ok_of_any hrun
  obtain ⟨hc, hrun⟩ := Bool.and_eq_true_iff.1 hrun
  obtain ⟨t, ht, hp⟩ := exists_ok_of_any hrun
  exact ⟨before, since, s, t, hbefore, hlast, hsince, hs, ht, of_decide_eq_true hc, of_decide_eq_true hp,
    pending_exact hbefore hlast hsince hs ht⟩

end Domains

end DomainPropagation
