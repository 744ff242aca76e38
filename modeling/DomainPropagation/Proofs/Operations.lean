import DomainPropagation.Proofs.Undo
import Mathlib.Data.List.Induction

/-! Runs of operations on the state of all domains, and what going back to a level takes back of them. -/

namespace DomainPropagation

namespace Domains

inductive Operation
  | add (lower upper : Int)
  | removeInitial (x : Var) (v : Int)
  | cut (x : Var) (c : Cut)
  | openLevel
  | backTo (target : Nat)
  | drain
  | clear

def perform (s : Domains) : Operation → Except Misuse Domains
  | .add lower upper => s.addInterval lower upper
  | .removeInitial x v => (·.domains) <$> s.removeInitial x v
  | .cut x c => (·.domains) <$> s.cut x c
  | .openLevel => .ok s.openLevel
  | .backTo target => s.backTo target
  | .drain => .ok { s with pending := s.pending.drain.2 }
  | .clear => .ok { s with pending := s.pending.clear }

def run (s : Domains) (ops : List Operation) : Except Misuse Domains := ops.foldlM perform s

namespace Operation

def Allowed : Operation → Prop
  | .add lower upper => minValue ≤ lower ∧ upper ≤ maxValue
  | _ => True

def added? : Operation → Option (Int × Int)
  | .add lower upper => some (lower, upper)
  | _ => none

def grow (T : Table Var Domain) : Operation → Table Var Domain
  | .add lower upper => T.push (.interval lower upper)
  | _ => T

def levelAfter (level : Nat) : Operation → Nat
  | .openLevel => level + 1
  | .backTo target => target
  | _ => level

end Operation

variable {s t u : Domains} {op : Operation} {ops before since : List Operation} {T : Table Var Domain} {x : Var}
  {k : Nat}

inductive Performed (s : Domains) : Operation → Domains → Prop
  | add {l u : Int} : (Domain.interval l u).WellFormed → Performed s (.add l u) (s.add (.interval l u))
  | unchanged {x : Var} {v : Int} : Performed s (.removeInitial x v) s
  | removeInitial {x : Var} {v : Int} {d : Domain} : s.level = 0 → d.WellFormed →
      Performed s (.removeInitial x v) { s with table := s.table.modify x fun _ => d }
  | cut {x : Var} {c : Cut} {t : Domains} : t.WellFormed → s.Shrinks t → Performed s (.cut x c) t
  | openLevel : Performed s .openLevel s.openLevel
  | backTo {k : Nat} : k < s.level → Performed s (.backTo k) (s.lowered k)
  | drain : Performed s .drain { s with pending := s.pending.drain.2 }
  | clear : Performed s .clear { s with pending := s.pending.clear }

theorem lt_of_backTo (h : s.backTo k = .ok t) : k < s.level := by
  obtain ⟨a, ha, -⟩ := bind_eq_ok_iff.1 h
  rw [Trail.backTo] at ha
  split at ha
  · assumption
  · cases ha

theorem WellFormed.performed (hs : s.WellFormed) (hop : op.Allowed) (ht : s.perform op = .ok t) :
    s.Performed op t := by
  cases op with
  | add l u =>
    rw [perform, addInterval] at ht
    split at ht
    · next hlu =>
      cases ht
      exact .add (Domain.wellFormed_interval hop.1 hop.2 hlu)
    · cases ht
  | removeInitial x v =>
    obtain ⟨w, hw, rfl⟩ := map_eq_ok_iff.1 ht
    rw [Domains.removeInitial] at hw
    split at hw
    · next hl =>
      obtain ⟨d, hd, hw⟩ := bind_eq_ok_iff.1 hw
      split at hw
      · next hv =>
        split at hw
        · cases hw
          exact .unchanged
        · next e he =>
          cases hw
          exact .removeInitial hl ((hs.sound x d (get_eq_ok_iff.1 hd)).erase?_eq_some hv he).1
      · cases hw
        exact .unchanged
    · cases hw
  | cut x c =>
    obtain ⟨w, hw, rfl⟩ := map_eq_ok_iff.1 ht
    have hN := narrows_of_cut hs hw
    exact .cut hN.wellFormed hN.shrinks
  | openLevel =>
    cases ht
    exact .openLevel
  | backTo k =>
    have hk := lt_of_backTo ht
    cases (backTo_eq hk).symm.trans ht
    exact .backTo hk
  | drain =>
    cases ht
    exact .drain
  | clear =>
    cases ht
    exact .clear

theorem WellFormed.modifyInitial (hs : s.WellFormed) {x : Var} {d : Domain} (hl : s.level = 0) (hd : d.WellFormed) :
    WellFormed { s with table := s.table.modify x fun _ => d } where
  sound := hs.sound.modify hd
  trail := hs.trail
  known := fun c hc => (hs.known c hc).trans_eq (Table.size_modify ..).symm
  restored := fun k hk => absurd (hl ▸ hk) (Nat.not_lt_zero k)
  pending := hs.pending
  seen := hs.seen.trans (Table.size_modify ..).symm

theorem WellFormed.perform (hs : s.WellFormed) (hop : op.Allowed) (ht : s.perform op = .ok t) : t.WellFormed := by
  cases hs.performed hop ht with
  | add hd => exact hs.add hd
  | unchanged => exact hs
  | removeInitial hl hd => exact hs.modifyInitial hl hd
  | cut ht => exact ht
  | openLevel => exact hs.openLevel
  | backTo hk => exact hs.lowered hk
  | drain => exact hs.withPending hs.pending.drain (Pending.size_drain _)
  | clear => exact hs.withPending (Pending.wellFormed_clear _) (Pending.size_clear _)

theorem WellFormed.level_perform (hs : s.WellFormed) (hop : op.Allowed) (ht : s.perform op = .ok t) :
    t.level = op.levelAfter s.level := by
  cases hs.performed hop ht with
  | cut ht hst => exact hst.level
  | backTo hk => exact level_lowered hk
  | _ => rfl

theorem WellFormed.run (hs : s.WellFormed) (hops : ∀ op ∈ ops, op.Allowed) (ht : s.run ops = .ok t) :
    t.WellFormed := by
  induction ops generalizing s with
  | nil =>
    cases ht
    exact hs
  | cons op ops ih =>
    obtain ⟨hop, hops⟩ := List.forall_mem_cons.1 hops
    obtain ⟨u, hu, ht⟩ := bind_eq_ok_iff.1 ht
    exact ih (hs.perform hop hu) hops ht

theorem exists_run (hops : ∀ op ∈ ops, op.Allowed) {f : Domains → Bool}
    (h : (Domains.run {} ops).toOption.any f = true) : ∃ s, Domains.run {} ops = .ok s ∧ s.WellFormed ∧ f s = true := by
  obtain ⟨s, hs, hf⟩ := exists_ok_of_any h
  exact ⟨s, hs, wellFormed_new.run hops hs, hf⟩

theorem run_append : s.run (before ++ since) = .ok t ↔ ∃ u, s.run before = .ok u ∧ u.run since = .ok t := by
  rw [run, List.foldlM_append]
  exact bind_eq_ok_iff

theorem run_singleton : s.run [op] = .ok t ↔ s.perform op = .ok t := by
  rw [run, List.foldlM_cons]
  simp only [List.foldlM_nil, bind_pure]

structure Above (s : Domains) (T : Table Var Domain) (t : Domains) : Prop where
  level : s.level < t.level
  trail : t.trail.lowered s.level = s.trail
  restored : t.restored s.level = T

theorem above_openLevel (s : Domains) : Above s s.table s.openLevel where
  level := Nat.lt_succ_self _
  trail := Trail.lowered_openLevel_level _
  restored := restored_openLevel_level s

theorem Above.perform (h : Above s T t) (ht : t.WellFormed) (hop : op.Allowed) (hu : t.perform op = .ok u)
    (hlow : ∀ j, op = .backTo j → s.level < j) : Above s (op.grow T) u := by
  cases ht.performed hop hu with
  | add hd => exact ⟨h.level, h.trail, by rw [ht.restored_add, h.restored]; rfl⟩
  | unchanged => exact h
  | removeInitial hl hd => exact absurd (hl ▸ h.level) (Nat.not_lt_zero _)
  | cut hu hst =>
    obtain ⟨cs, hcs, -⟩ := hst.changes
    refine ⟨h.level.trans_eq hst.level.symm, ?_, (hst.restored ht.trail _).trans h.restored⟩
    rw [hcs, ht.trail.lowered_extend, h.trail]
  | openLevel =>
    exact ⟨Nat.lt_succ_of_lt h.level, (Trail.lowered_openLevel h.level).trans h.trail,
      (restored_openLevel h.level).trans h.restored⟩
  | @backTo j hj =>
    have hlt := hlow j rfl
    exact ⟨hlt.trans_eq (level_lowered hj).symm, (ht.trail.lowered_lowered hlt hj).trans h.trail,
      (ht.restored_lowered hlt hj).trans h.restored⟩
  | drain | clear => exact ⟨h.level, h.trail, h.restored⟩

theorem Above.run (h : Above s T t) (ht : t.WellFormed) (hops : ∀ op ∈ ops, op.Allowed) (hu : t.run ops = .ok u)
    (hlow : ∀ j, .backTo j ∈ ops → s.level < j) : Above s (ops.foldl Operation.grow T) u := by
  induction ops generalizing t T with
  | nil =>
    cases hu
    exact h
  | cons op ops ih =>
    obtain ⟨hop, hops⟩ := List.forall_mem_cons.1 hops
    obtain ⟨v, hv, hu⟩ := bind_eq_ok_iff.1 hu
    have hv' := h.perform ht hop hv fun j hj => hlow j (hj ▸ List.mem_cons_self)
    exact ih hv' (ht.perform hop hv) hops hu fun j hj => hlow j (List.mem_cons_of_mem _ hj)

theorem WellFormed.exists_left (hs : s.WellFormed) (hops : ∀ op ∈ ops, op.Allowed) (ht : s.run ops = .ok t)
    (hk : s.level ≤ k) (hkt : k < t.level) :
    ∃ before since u, ops = before ++ .openLevel :: since ∧ s.run before = .ok u ∧ u.level = k ∧
      u.openLevel.run since = .ok t ∧ ∀ j, .backTo j ∈ since → k < j := by
  induction ops using List.reverseRecOn generalizing t with
  | nil =>
    cases ht
    omega
  | append_singleton ops op ih =>
    obtain ⟨hops, hop⟩ := List.forall_mem_append.1 hops
    have hop := hop op List.mem_cons_self
    obtain ⟨u, hu, ht⟩ := run_append.1 ht
    have hop' := run_singleton.1 ht
    have hl := (hs.run hops hu).level_perform hop hop'
    by_cases hku : k < u.level
    · obtain ⟨before, since, v, rfl, hv, hvk, hvu, hlow⟩ := ih hops hu hku
      refine ⟨before, since ++ [op], v, by simp, hv, hvk, run_append.2 ⟨u, hvu, run_singleton.2 hop'⟩, ?_⟩
      intro j hj
      rcases List.mem_append.1 hj with hj | hj
      · exact hlow j hj
      · cases List.mem_singleton.1 hj
        exact hkt.trans_eq hl
    · -- Only opening a level leads from `k` or below to above it.
      cases op with
      | openLevel =>
        cases hop'
        obtain rfl : u.level = k := le_antisymm (Nat.not_lt.1 hku) (Nat.lt_succ_iff.1 hkt)
        exact ⟨ops, [], u, rfl, hu, rfl, rfl, nofun⟩
      | backTo j => exact absurd ((hkt.trans_eq hl).trans (lt_of_backTo hop')) hku
      | _ => exact absurd (hkt.trans_eq hl) hku

theorem toList_foldl_grow (ops : List Operation) (T : Table Var Domain) : (ops.foldl Operation.grow T).toList =
    T.toList ++ (ops.filterMap Operation.added?).map fun (l, u) => Domain.interval l u := by
  induction ops generalizing T with
  | nil => simp
  | cons op ops ih =>
    rw [List.foldl_cons, ih]
    cases op with
    | add l u =>
      change (T.entries.push _).toList ++ _ = T.entries.toList ++ _ :: _
      rw [Array.toList_push, List.append_assoc]
      rfl
    | _ => rfl

theorem get?_foldl_grow_of_lt (hx : x.index < T.size) : (ops.foldl Operation.grow T).get? x = T.get? x := by
  have hl : Key.index x < T.toList.length := hx
  rw [Table.get?_eq, toList_foldl_grow, List.getElem?_append_left hl, Table.get?_eq]

theorem get?_foldl_grow_add {i : Nat} : (ops.foldl Operation.grow T).get? (⟨T.size + i⟩ : Var) =
    (ops.filterMap Operation.added?)[i]?.map fun (l, u) => Domain.interval l u := by
  have hi : Key.index (⟨T.size + i⟩ : Var) = T.toList.length + i := rfl
  rw [Table.get?_eq, toList_foldl_grow, hi, List.getElem?_append_right (Nat.le_add_right ..), Nat.add_sub_cancel_left,
    List.getElem?_map]

theorem size_foldl_grow :
    (ops.foldl Operation.grow T).size = T.size + (ops.filterMap Operation.added?).length := by
  have hl := congrArg List.length (toList_foldl_grow ops T)
  rwa [List.length_append, List.length_map] at hl

/-- Going back to a level gives all domains, with their bounds and values, as they were when the level was last
left, and the whole of every domain that was added since; what was recorded and noted since is gone. -/
theorem backTo_restores (hops : ∀ op ∈ ops, op.Allowed) (ht : run {} ops = .ok t) (hk : k < t.level) :
    ∃ before since s v, ops = before ++ .openLevel :: since ∧ run {} before = .ok s ∧ s.level = k ∧
      s.openLevel.run since = .ok t ∧ (∀ j, .backTo j ∈ since → k < j) ∧ t.backTo k = .ok v ∧
      (∀ x : Var, x.index < s.count → v.get x = s.get x) ∧
      (∀ i l u, (since.filterMap Operation.added?)[i]? = some (l, u) →
        v.get ⟨s.count + i⟩ = .ok (.interval l u)) ∧
      v.count = s.count + (since.filterMap Operation.added?).length ∧ v.trail = s.trail ∧
      v.pending.events = #[] := by
  obtain ⟨before, since, s, rfl, hs, rfl, hst, hlow⟩ := wellFormed_new.exists_left hops ht (Nat.zero_le k) hk
  obtain ⟨hbefore, hsince⟩ := List.forall_mem_append.1 hops
  obtain ⟨-, hsince⟩ := List.forall_mem_cons.1 hsince
  have hwf := wellFormed_new.run hbefore hs
  have habove := (above_openLevel s).run hwf.openLevel hsince hst hlow
  refine ⟨before, since, s, _, rfl, hs, rfl, hst, hlow, backTo_eq hk, fun x hx => ?_, fun i l u hi => ?_, ?_,
    habove.trail, rfl⟩
  · rw [get, get, Table.get, Table.get, lowered, habove.restored, get?_foldl_grow_of_lt hx]
  · rw [get_eq_ok_iff, lowered, habove.restored]
    change Table.get? _ (⟨s.table.size + i⟩ : Var) = _
    rw [get?_foldl_grow_add, hi]
    rfl
  · rw [count, lowered, habove.restored, size_foldl_grow]
    rfl

theorem backTo_restores_nested : ∃ (ops : List Operation) (t : Domains), (∀ op ∈ ops, op.Allowed) ∧
    ops.length = 15 ∧ run {} ops = .ok t ∧ 1 < t.level ∧
    ∃ before since s v, ops = before ++ .openLevel :: since ∧ run {} before = .ok s ∧ s.level = 1 ∧
      s.openLevel.run since = .ok t ∧ (∀ j, .backTo j ∈ since → 1 < j) ∧ t.backTo 1 = .ok v ∧
      (∀ x : Var, x.index < s.count → v.get x = s.get x) ∧
      (∀ i l u, (since.filterMap Operation.added?)[i]? = some (l, u) →
        v.get ⟨s.count + i⟩ = .ok (.interval l u)) ∧
      v.count = s.count + (since.filterMap Operation.added?).length ∧ v.trail = s.trail ∧
      v.pending.events = #[] := by
  -- Taking out 1 moves the lower bound over the hole at 2, and of the last three cuts one is refused, one idle.
  let ops : List Operation := [.add 0 5, .removeInitial ⟨0⟩ 2, .openLevel, .cut ⟨0⟩ (.atLeast 1), .openLevel,
    .cut ⟨0⟩ (.without 1), .add (-3) 3, .cut ⟨1⟩ (.within (-1) 1), .openLevel, .cut ⟨1⟩ (.without 0), .drain, .backTo 2,
    .cut ⟨0⟩ (.atLeast 6), .cut ⟨0⟩ (.atMost 6), .cut ⟨1⟩ (.atMost 0)]
  have hops : ∀ op ∈ ops, op.Allowed := by simp [ops, Operation.Allowed, minValue, maxValue]
  have hrun : (run {} ops).toOption.any (fun t => decide (1 < t.level)) = true := by decide +kernel
  cases ht : run {} ops with
  | error m =>
    rw [ht] at hrun
    cases hrun
  | ok t =>
    rw [ht] at hrun
    have hk : 1 < t.level := of_decide_eq_true hrun
    exact ⟨ops, t, hops, rfl, ht, hk, backTo_restores hops ht hk⟩

end Domains

end DomainPropagation
