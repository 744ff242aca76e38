import DomainPropagation.Proofs.Agendas
import DomainPropagation.Store.Basic
import Mathlib.Data.List.Nodup

/-! Scheduling of imposed propagators. The agenda files each under its priority, and what was due comes back in
the same order when it is made due again. -/

namespace DomainPropagation

namespace Store

variable {s t : Store} {hs : List Handle} {g h : Handle} {p : Propagator} {i : Imposed}

def propagator? (s : Store) (h : Handle) : Option Propagator := (s.imposed.get? h).map (·.propagator)

def rank (s : Store) (h : Handle) : Nat := ((s.propagator? h).map (·.priority.rank)).getD 0

theorem propagator?_of_get? (hi : s.imposed.get? h = some i) : s.propagator? h = some i.propagator := by
  rw [propagator?, hi]
  rfl

theorem get?_of_propagator? (hp : s.propagator? h = some p) : ∃ i, s.imposed.get? h = some i ∧ i.propagator = p :=
  Option.map_eq_some_iff.1 hp

theorem rank_lt (s : Store) (h : Handle) : s.rank h < Priority.levels := by
  rw [rank]
  cases s.propagator? h with
  | none => decide
  | some p => exact p.priority.rank_lt_levels

theorem rank_congr (hp : t.propagator? h = s.propagator? h) : t.rank h = s.rank h := by
  rw [rank, rank, hp]

theorem propagator?_push (himp : t.imposed = s.imposed.push i) :
    t.propagator? h = if h.index = s.imposed.size then some i.propagator else s.propagator? h := by
  rw [propagator?, himp, Table.get?_push]
  split
  · next hh => rw [if_pos (show h.index = _ from hh)]; rfl
  · next hh => rw [if_neg (show ¬h.index = _ from hh)]; rfl

theorem propagator?_flag {b : Bool} (himp : t.imposed = s.imposed.modify g ({ · with entailed := b })) :
    t.propagator? h = s.propagator? h := by
  rw [propagator?, propagator?, himp]
  simp only [Table.get?_modify, Handle.key_inj]
  split
  · rw [Option.map_map]
    rfl
  · rfl

theorem lt_size_of_propagator? (hp : s.propagator? h = some p) : h.index < s.imposed.size := by
  obtain ⟨i, hi, -⟩ := get?_of_propagator? hp
  exact Table.lt_size_iff.2 ⟨i, hi⟩

theorem size_le_of_imposed (hi : ∀ h p, s.propagator? h = some p → t.propagator? h = some p) :
    s.imposed.size ≤ t.imposed.size := by
  apply Nat.le_of_not_lt
  intro hlt
  obtain ⟨i, hget⟩ := Table.lt_size_iff (k := (⟨t.imposed.size⟩ : Handle)).1 hlt
  exact Nat.lt_irrefl _ (lt_size_of_propagator? (hi _ _ (propagator?_of_get? hget)))

theorem propagator?_push_eq_some_iff (himp : t.imposed = s.imposed.push i) :
    t.propagator? h = some p ↔ h = ⟨s.imposed.size⟩ ∧ i.propagator = p ∨ s.propagator? h = some p := by
  rw [propagator?_push himp]
  split
  · next hh =>
    have hn : ¬ s.propagator? h = some p := fun hp => Nat.ne_of_lt (lt_size_of_propagator? hp) hh
    have hh : h = ⟨s.imposed.size⟩ := Handle.key_inj.1 hh
    rw [Option.some_inj, or_iff_left hn, and_iff_right hh]
  · next hh =>
    rw [or_iff_right]
    rintro ⟨rfl, -⟩
    exact hh rfl

theorem schedule_spec (hf : s.agenda.Filed s.rank) (hp : s.propagator? h = some p) :
    ∃ a, s.schedule h = .ok { s with agenda := a } ∧ s.agenda.push h (s.rank h) = .ok a := by
  obtain ⟨i, hi, rfl⟩ := get?_of_propagator? hp
  obtain ⟨a, ha, -⟩ := hf.push (s.rank_lt h)
  have hr : s.rank h = i.propagator.priority.rank := by rw [rank, hp]; rfl
  refine ⟨a, ?_, ha⟩
  rw [schedule, Table.get_eq_ok_iff.2 hi, ok_bind]
  change (s.agenda.push h i.propagator.priority.rank >>= _) = _
  rw [← hr, ha]
  rfl

theorem scheduleAll_spec (hf : s.agenda.Filed s.rank) (hn : s.agenda.toList.Nodup)
    (hk : ∀ h ∈ hs, ∃ p, s.propagator? h = some p) :
    ∃ a, s.scheduleAll hs = .ok { s with agenda := a } ∧ a.Filed s.rank ∧ a.toList.Nodup ∧
      ∀ h, h ∈ a.toList ↔ h ∈ s.agenda.toList ∨ h ∈ hs := by
  induction hs generalizing s with
  | nil => exact ⟨s.agenda, rfl, hf, hn, by simp⟩
  | cons g hs ih =>
    obtain ⟨p, hp⟩ := hk g List.mem_cons_self
    obtain ⟨b, hb, hpush⟩ := schedule_spec hf hp
    obtain ⟨b', hb', hfb, hpos⟩ := hf.push (s.rank_lt g)
    cases hpush.symm.trans hb'
    have hnb : b.toList.Nodup ∧ ∀ h, h ∈ b.toList ↔ h ∈ s.agenda.toList ∨ h = g := by
      rcases hpos with ⟨hm, rfl⟩ | ⟨hm, L, R, ha, hb, -, -⟩
      · refine ⟨hn, fun h => ⟨.inl, ?_⟩⟩
        rintro (hh | rfl)
        · exact hh
        · exact hm
      · rw [hb, ha]
        rw [ha] at hn hm
        refine ⟨List.nodup_middle.2 (List.nodup_cons.2 ⟨hm, hn⟩), fun h => ?_⟩
        simp only [List.mem_append, List.mem_cons]
        tauto
    obtain ⟨a, ha, hfa, hna, hma⟩ := ih (s := { s with agenda := b }) hfb hnb.1
      fun h hh => hk h (List.mem_cons_of_mem g hh)
    refine ⟨a, ?_, hfa, hna, fun h => ?_⟩
    · rw [scheduleAll, List.foldlM_cons, hb]
      exact ha
    · rw [hma, hnb.2, List.mem_cons, or_assoc]

theorem scheduleAll_append {l : List Handle} (hf : s.agenda.Filed s.rank) (hn : (s.agenda.toList ++ l).Nodup)
    (hk : ∀ h ∈ l, ∃ p, s.propagator? h = some p) (ho : (s.agenda.toList ++ l).Pairwise (s.rank · ≤ s.rank ·)) :
    ∃ a, s.scheduleAll l = .ok { s with agenda := a } ∧ a.Filed s.rank ∧ a.toList = s.agenda.toList ++ l := by
  induction l generalizing s with
  | nil => exact ⟨s.agenda, rfl, hf, (List.append_nil _).symm⟩
  | cons g l ih =>
    obtain ⟨p, hp⟩ := hk g List.mem_cons_self
    obtain ⟨b, hb, hpush⟩ := schedule_spec hf hp
    obtain ⟨b', hb', hfb, hpos⟩ := hf.push (s.rank_lt g)
    cases hpush.symm.trans hb'
    have hlist : b.toList = s.agenda.toList ++ [g] := by
      rcases hpos with ⟨hm, -⟩ | ⟨-, L, R, ha, hb, -, hR⟩
      · exact absurd rfl ((List.nodup_append.1 hn).2.2 g hm g List.mem_cons_self)
      · have hle := (List.pairwise_append.1 ho).2.2
        cases R with
        | nil => rw [hb, ha, List.append_nil]
        | cons k R =>
          have := hle k (ha ▸ by simp) g List.mem_cons_self
          have := hR k List.mem_cons_self
          omega
    have hcons : b.toList ++ l = s.agenda.toList ++ g :: l := by rw [hlist, List.append_assoc]; rfl
    obtain ⟨a, ha, hfa, hla⟩ := ih (s := { s with agenda := b }) hfb (hcons ▸ hn)
      (fun h hh => hk h (List.mem_cons_of_mem g hh)) (hcons ▸ ho)
    refine ⟨a, ?_, hfa, hla.trans hcons⟩
    rw [scheduleAll, List.foldlM_cons, hb]
    exact ha

end Store

end DomainPropagation
