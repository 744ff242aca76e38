import DomainPropagation.Domains
import DomainPropagation.Proofs.Events
import DomainPropagation.Proofs.Levels
import DomainPropagation.Proofs.Values
import Mathlib.Order.SetNotation

/-! Boxes: what each variable can still be, however its domain is represented. A state of the domains that
comes from another by cuts has a smaller box, tells of every difference, and can be undone exactly. -/

namespace DomainPropagation

/-- A variable that does not exist can be nothing. -/
abbrev Box := Var → Set Int

namespace Box

variable {A B : Box} {x y : Var} {S : Set Int} {v : Int}

def restrict (B : Box) (x : Var) (S : Set Int) : Box := fun y => {v ∈ B y | y = x → v ∈ S}

theorem mem_restrict : v ∈ B.restrict x S y ↔ v ∈ B y ∧ (y = x → v ∈ S) := Iff.rfl

theorem restrict_self : B.restrict x S x = B x ∩ S := by
  ext v
  simp [mem_restrict]

theorem restrict_of_ne (h : y ≠ x) : B.restrict x S y = B y := by
  ext v
  simp [mem_restrict, h]

theorem restrict_le : B.restrict x S ≤ B := fun _ _ h => h.1

theorem restrict_mono (h : A ≤ B) : A.restrict x S ≤ B.restrict x S :=
  fun y _ hv => ⟨h y hv.1, hv.2⟩

theorem restrict_eq_self_iff : B.restrict x S = B ↔ B x ⊆ S := by
  constructor
  · intro h u hu
    rw [← h] at hu
    exact hu.2 rfl
  · refine fun h => le_antisymm restrict_le fun y u hu => ⟨hu, ?_⟩
    rintro rfl
    exact h hu

end Box

namespace Table

variable {t : Table Var Domain} {x : Var} {d : Domain}

def box (t : Table Var Domain) : Box := fun x => {v | ∃ d, t.get? x = some d ∧ v ∈ d}

theorem box_of_get? (h : t.get? x = some d) : t.box x = d.toSet := by
  ext v
  simp [box, h]

def Sound (t : Table Var Domain) : Prop := ∀ x d, t.get? x = some d → d.WellFormed

theorem Sound.nonempty (h : t.Sound) (hx : x.index < t.size) : (t.box x).Nonempty := by
  obtain ⟨d, hd⟩ := lt_size_iff (k := x).1 hx
  exact ⟨d.lower, d, hd, (h x d hd).lower_mem⟩

theorem Sound.le_maxValue (h : t.Sound) {v : Int} (hv : v ∈ t.box x) : v ≤ maxValue := by
  obtain ⟨d, hd, hv⟩ := hv
  exact (Domain.le_upper hv).trans (h x d hd).le_max

theorem Sound.push (h : t.Sound) (hd : d.WellFormed) : (t.push d).Sound := by
  intro x e he
  rw [get?_push] at he
  split at he
  · cases he
    exact hd
  · exact h x e he

theorem Sound.modify (h : t.Sound) (hd : d.WellFormed) : (t.modify x fun _ => d).Sound := by
  intro y e he
  simp only [get?_modify, Var.key_inj] at he
  split at he
  · obtain ⟨_, -, rfl⟩ := Option.map_eq_some_iff.1 he
    exact hd
  · exact h y e he

end Table

namespace Domains

variable {s t u : Domains} {x : Var} {d : Domain} {k : Nat}

def box (s : Domains) : Box := s.table.box

theorem get_eq_ok_iff : s.get x = .ok d ↔ s.table.get? x = some d := Table.get_eq_ok_iff

theorem box_of_get? (h : s.table.get? x = some d) : s.box x = d.toSet := Table.box_of_get? h

def restored (s : Domains) (k : Nat) : Table Var Domain := (s.trail.above k).foldl undo s.table

structure WellFormed (s : Domains) : Prop where
  sound : s.table.Sound
  trail : s.trail.WellFormed
  known : ∀ c ∈ s.trail.entries, c.var.index < s.count
  restored : ∀ k < s.level, (s.restored k).Sound
  pending : s.pending.WellFormed
  seen : s.pending.seen.size = s.count

theorem WellFormed.isFixed_iff (hs : s.WellFormed) : s.isFixed x = .ok true ↔ ∃ v, s.box x = {v} := by
  constructor
  · intro h
    obtain ⟨d, hd, hfix⟩ := bind_eq_ok_iff.1 h
    have hd := get_eq_ok_iff.1 hd
    have hfix : d.isFixed = true := Except.ok.inj hfix
    refine ⟨d.lower, ?_⟩
    rw [box_of_get? hd, ← (hs.sound x d hd).isFixedTo_iff, Domain.isFixedTo, hfix, beq_self_eq_true]
    rfl
  · rintro ⟨v, hv⟩
    obtain ⟨d, hd, -⟩ : v ∈ s.box x := hv ▸ Set.mem_singleton v
    rw [box_of_get? hd, ← (hs.sound x d hd).isFixedTo_iff, Domain.isFixedTo, Bool.and_eq_true] at hv
    rw [isFixed, get_eq_ok_iff.2 hd, ok_bind, hv.1]
    rfl

/-- What cuts lead to: smaller domains, all changes on record, and events that have happened, among them one for
whatever a watcher can tell of the changes. -/
structure Shrinks (s t : Domains) : Prop where
  count : t.count = s.count
  le : t.box ≤ s.box
  changes : ∃ cs, t.trail = s.trail.extend cs ∧ cs.foldl undo t.table = s.table
  kept : ∀ p ∈ s.pending.events, p ∈ t.pending.events
  told : ∀ x need, Sensitivity.Tells need (s.box x) (t.box x) → ∃ e ∈ need.events, (e, x) ∈ t.pending.events
  honest : ∀ e x, (e, x) ∈ t.pending.events → (e, x) ∈ s.pending.events ∨ e.Happens (s.box x) (t.box x)
  eq_of_box : t.box = s.box → t = s

namespace Shrinks

theorem refl (s : Domains) : s.Shrinks s where
  count := rfl
  le := le_rfl
  changes := ⟨[], rfl, rfl⟩
  kept := fun _ h => h
  told := fun _ _ h => absurd rfl h.ne
  honest := fun _ _ h => .inl h
  eq_of_box := fun _ => rfl

theorem trans (h : s.Shrinks t) (h' : t.Shrinks u) : s.Shrinks u where
  count := h'.count.trans h.count
  le := h'.le.trans h.le
  changes := by
    obtain ⟨cs, ht, hs⟩ := h.changes
    obtain ⟨cs', hu, ht'⟩ := h'.changes
    refine ⟨cs' ++ cs, ?_, ?_⟩
    · rw [hu, ht, Trail.extend_extend]
    · rw [List.foldl_append, ht', hs]
  kept := fun p hp => h'.kept p (h.kept p hp)
  told := by
    intro x need hx
    rcases hx.split (t.box x) with hx | hx
    · obtain ⟨e, he, hm⟩ := h.told x need hx
      exact ⟨e, he, h'.kept _ hm⟩
    · exact h'.told x need hx
  honest := by
    intro e x hx
    rcases h'.honest e x hx with hx | hx
    · exact (h.honest e x hx).imp_right fun hx => hx.mono subset_rfl (h.le x) (h'.le x)
    · exact .inr (hx.mono (h.le x) (h'.le x) subset_rfl)
  eq_of_box := by
    intro he
    have ht : t.box = s.box := le_antisymm h.le (he ▸ h'.le)
    rw [h'.eq_of_box (he.trans ht.symm), h.eq_of_box ht]

theorem level (h : s.Shrinks t) : t.level = s.level := by
  obtain ⟨cs, ht, -⟩ := h.changes
  rw [Domains.level, ht]
  rfl

theorem restored (h : s.Shrinks t) (hs : s.trail.WellFormed) (k : Nat) : t.restored k = s.restored k := by
  obtain ⟨cs, ht, hu⟩ := h.changes
  rw [Domains.restored, ht, hs.above_extend, List.foldl_append, hu]
  rfl

theorem wellFormed (h : s.Shrinks t) (hs : s.WellFormed) (sound : t.table.Sound)
    (known : ∀ c ∈ t.trail.entries, c.var.index < t.count) (pending : t.pending.WellFormed)
    (seen : t.pending.seen.size = s.pending.seen.size) : t.WellFormed where
  sound := sound
  trail := by
    obtain ⟨cs, ht, -⟩ := h.changes
    exact ht ▸ hs.trail.extend cs
  known := known
  restored := by
    intro k hk
    rw [h.restored hs.trail]
    exact hs.restored k (h.level ▸ hk)
  pending := pending
  seen := seen.trans (hs.seen.trans h.count.symm)

end Shrinks

end Domains

end DomainPropagation
