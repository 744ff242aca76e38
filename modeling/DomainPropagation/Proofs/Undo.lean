import DomainPropagation.Proofs.Cuts

/-! Levels of the state of all domains. New variables do not disturb what is on record, and going back to a
level gives the table that was left there. -/

namespace DomainPropagation

namespace Domains

variable {s t : Domains} {T : Table Var Domain} {x : Var} {d : Domain} {cs : List Change} {j k : Nat}

theorem wellFormed_new : WellFormed {} where
  sound := nofun
  trail := List.pairwise_singleton _ _
  known := nofun
  restored := nofun
  pending := fun _ _ => iff_of_false (Array.not_mem_empty _) fun ⟨_, hes, _⟩ => nomatch hes
  seen := rfl

@[simp] theorem size_foldl_undo (cs : List Change) (T : Table Var Domain) :
    (cs.foldl undo T).size = T.size := by
  induction cs generalizing T with
  | nil => rfl
  | cons c cs ih => exact (ih _).trans (Table.size_modify ..)

theorem foldl_undo_push (h : ∀ c ∈ cs, c.var.index < T.size) :
    cs.foldl undo (T.push d) = (cs.foldl undo T).push d := by
  induction cs generalizing T with
  | nil => rfl
  | cons c cs ih =>
    have hc : Key.index c.var < T.size := h c (by simp)
    rw [List.foldl_cons, undo, Table.modify_push hc, ih]
    · rfl
    · intro e he
      rw [Table.size_modify]
      exact h e (List.mem_cons_of_mem c he)

theorem size_restored (s : Domains) (k : Nat) : (s.restored k).size = s.count := size_foldl_undo _ _

theorem WellFormed.known_above (h : s.WellFormed) (k : Nat) :
    ∀ c ∈ s.trail.above k, c.var.index < s.table.size :=
  fun c hc => h.known c (List.mem_of_mem_take hc)

theorem WellFormed.restored_add (h : s.WellFormed) (d : Domain) (k : Nat) :
    (s.add d).restored k = (s.restored k).push d :=
  foldl_undo_push (h.known_above k)

theorem WellFormed.add (h : s.WellFormed) (hd : d.WellFormed) : (s.add d).WellFormed where
  sound := h.sound.push hd
  trail := h.trail
  known := fun c hc => Nat.lt_of_lt_of_eq (Nat.lt_succ_of_lt (h.known c hc)) (Table.size_push ..).symm
  restored := by
    intro k hk
    rw [h.restored_add]
    exact (h.restored k hk).push hd
  pending := h.pending.grow
  seen := (Table.size_push ..).trans ((congrArg _ h.seen).trans (Table.size_push ..).symm)

theorem box_push (hx : x.index < T.size) : (T.push d).box x = T.box x := by
  have hne : Key.index x ≠ T.size := Nat.ne_of_lt hx
  simp only [Table.box, Table.get?_push, if_neg hne]

theorem WellFormed.withPending {p : Pending} (h : s.WellFormed) (hp : p.WellFormed)
    (hn : p.seen.size = s.pending.seen.size) : WellFormed { s with pending := p } where
  sound := h.sound
  trail := h.trail
  known := h.known
  restored := h.restored
  pending := hp
  seen := hn.trans h.seen

theorem restored_openLevel (hk : k < s.level) : s.openLevel.restored k = s.restored k := by
  rw [restored, openLevel, Trail.above_openLevel hk]
  rfl

theorem restored_openLevel_level (s : Domains) : s.openLevel.restored s.level = s.table := by
  rw [restored, openLevel, level, Trail.above_openLevel_level]
  rfl

theorem WellFormed.openLevel (h : s.WellFormed) : s.openLevel.WellFormed where
  sound := h.sound
  trail := h.trail.openLevel
  known := h.known
  restored := by
    intro k hk
    rcases Nat.eq_or_lt_of_le (Nat.lt_succ_iff.1 hk) with he | hk
    · obtain rfl : k = s.level := he
      rw [restored_openLevel_level]
      exact h.sound
    · rw [restored_openLevel hk]
      exact h.restored k hk
  pending := h.pending
  seen := h.seen

def lowered (s : Domains) (k : Nat) : Domains :=
  { table := s.restored k, trail := s.trail.lowered k, pending := s.pending.clear }

theorem backTo_eq (hk : k < s.level) : s.backTo k = .ok (s.lowered k) := by
  rw [backTo, Trail.backTo_eq hk]
  rfl

theorem level_lowered (hk : k < s.level) : (s.lowered k).level = k := Trail.level_lowered hk

theorem WellFormed.restored_lowered (h : s.WellFormed) (hj : j < k) (hk : k < s.level) :
    (s.lowered k).restored j = s.restored j := by
  rw [Domains.restored, Domains.restored, h.trail.above_lowered hj hk, List.foldl_append]
  rfl

theorem WellFormed.lowered (h : s.WellFormed) (hk : k < s.level) : (s.lowered k).WellFormed where
  sound := h.restored k hk
  trail := h.trail.lowered hk
  known := fun c hc => (h.known c (List.mem_of_mem_drop hc)).trans_eq (size_restored s k).symm
  restored := by
    intro j hj
    rw [level_lowered hk] at hj
    rw [h.restored_lowered hj hk]
    exact h.restored j (hj.trans hk)
  pending := Pending.wellFormed_clear _
  seen := (Pending.size_clear _).trans (h.seen.trans (size_restored s k).symm)

end Domains

end DomainPropagation
