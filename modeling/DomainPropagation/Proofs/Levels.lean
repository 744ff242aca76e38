import DomainPropagation.Trail

/-! Trails as stacks of levels. What lies above a level and what lies below it make up the whole trail,
and going back to a level takes the one off and leaves the other, with all levels further down. -/

namespace DomainPropagation

namespace Trail

variable {α : Type} {t : Trail α} {j k : Nat}

def mark (t : Trail α) (k : Nat) : Nat := (t.marks.drop (t.level - k - 1)).headD 0

def above (t : Trail α) (k : Nat) : List α := t.entries.take (t.length - t.mark k)

def below (t : Trail α) (k : Nat) : List α := t.entries.drop (t.length - t.mark k)

def WellFormed (t : Trail α) : Prop := (t.length :: t.marks).Pairwise (· ≥ ·)

@[simp] theorem above_append_below (t : Trail α) (k : Nat) : t.above k ++ t.below k = t.entries :=
  List.take_append_drop _ _

def extend (t : Trail α) (new : List α) : Trail α := { t with entries := new ++ t.entries }

theorem push_eq_extend (t : Trail α) (a : α) : t.push a = t.extend [a] := rfl

theorem extend_extend (t : Trail α) (new newer : List α) :
    (t.extend new).extend newer = t.extend (newer ++ new) := by
  simp [extend]

@[simp] theorem length_extend (t : Trail α) (new : List α) :
    (t.extend new).length = new.length + t.length := List.length_append

@[simp] theorem mark_extend (t : Trail α) (new : List α) (k : Nat) : (t.extend new).mark k = t.mark k := rfl

@[simp] theorem level_openLevel (t : Trail α) : t.openLevel.level = t.level + 1 := rfl

theorem mark_eq (t : Trail α) (k : Nat) : t.mark k = (t.marks[t.level - k - 1]?).getD 0 := by
  rw [mark, List.headD_eq_head?_getD, List.head?_drop]

theorem WellFormed.mark_le (h : t.WellFormed) : t.mark k ≤ t.length := by
  rw [mark_eq]
  cases hm : t.marks[t.level - k - 1]? with
  | none => exact Nat.zero_le _
  | some m => exact (List.pairwise_cons.1 h).1 m (List.mem_of_getElem? hm)

theorem WellFormed.mark_mono (h : t.WellFormed) (hjk : j ≤ k) : t.mark j ≤ t.mark k := by
  rcases Nat.eq_or_lt_of_le hjk with rfl | hlt
  · exact Nat.le_refl _
  rw [mark_eq, mark_eq]
  have hp := List.pairwise_iff_getElem.1 (List.pairwise_cons.1 h).2
  by_cases hj : t.level - j - 1 < t.marks.length
  · have hk : t.level - k - 1 < t.marks.length := by omega
    rw [List.getElem?_eq_getElem hj, List.getElem?_eq_getElem hk]
    rcases Nat.eq_or_lt_of_le (show t.level - k - 1 ≤ t.level - j - 1 by omega) with he | hlt
    · simp [he]
    · exact hp _ _ hk hj hlt
  · simp [hj]

theorem WellFormed.extend (h : t.WellFormed) (new : List α) : (t.extend new).WellFormed := by
  refine List.pairwise_cons.2 ⟨fun m hm => ?_, (List.pairwise_cons.1 h).2⟩
  rw [length_extend]
  exact Nat.le_add_left_of_le ((List.pairwise_cons.1 h).1 m hm)

theorem WellFormed.openLevel (h : t.WellFormed) : t.openLevel.WellFormed := by
  refine List.pairwise_cons.2 ⟨fun m hm => ?_, h⟩
  rcases List.mem_cons.1 hm with rfl | hm
  · exact Nat.le_refl _
  · exact (List.pairwise_cons.1 h).1 m hm

theorem WellFormed.above_extend (h : t.WellFormed) (new : List α) :
    (t.extend new).above k = new ++ t.above k := by
  have := h.mark_le (k := k)
  rw [above, length_extend, mark_extend, Nat.add_sub_assoc this]
  exact List.take_length_add_append _

theorem WellFormed.below_extend (h : t.WellFormed) (new : List α) : (t.extend new).below k = t.below k := by
  have := h.mark_le (k := k)
  rw [below, length_extend, mark_extend, Nat.add_sub_assoc this]
  exact List.drop_length_add_append _

theorem mark_openLevel (hk : k < t.level) : t.openLevel.mark k = t.mark k := by
  have he : t.level + 1 - k - 1 = t.level - k - 1 + 1 := by omega
  rw [mark, level_openLevel, he]
  rfl

theorem above_openLevel (hk : k < t.level) : t.openLevel.above k = t.above k := by
  rw [above, mark_openLevel hk]
  rfl

theorem below_openLevel (hk : k < t.level) : t.openLevel.below k = t.below k := by
  rw [below, mark_openLevel hk]
  rfl

theorem mark_openLevel_level (t : Trail α) : t.openLevel.mark t.level = t.length := by
  rw [mark, level_openLevel, Nat.sub_right_comm, Nat.add_sub_cancel, Nat.sub_self]
  rfl

theorem above_openLevel_level (t : Trail α) : t.openLevel.above t.level = [] := by
  rw [above, mark_openLevel_level]
  simp [length, Trail.openLevel]

theorem below_openLevel_level (t : Trail α) : t.openLevel.below t.level = t.entries := by
  rw [below, mark_openLevel_level]
  simp [length, Trail.openLevel]

def lowered (t : Trail α) (k : Nat) : Trail α := ⟨t.below k, t.marks.drop (t.level - k)⟩

theorem backTo_eq (hk : k < t.level) : t.backTo k = .ok (t.above k, t.lowered k) := by
  have he : (t.marks.drop (t.level - k - 1)).tail = t.marks.drop (t.level - k) := by
    rw [List.tail_drop]
    congr 1
    omega
  simp only [backTo, if_pos hk, he]
  rfl

theorem level_lowered (hk : k < t.level) : (t.lowered k).level = k := by
  have : (t.lowered k).level = t.level - (t.level - k) := List.length_drop
  omega

theorem WellFormed.length_lowered (h : t.WellFormed) : (t.lowered k).length = t.mark k := by
  have hl : (t.lowered k).length = t.length - (t.length - t.mark k) := List.length_drop
  have := h.mark_le (k := k)
  omega

theorem mark_lowered (hj : j < k) (hk : k < t.level) : (t.lowered k).mark j = t.mark j := by
  rw [mark, level_lowered hk]
  change ((t.marks.drop (t.level - k)).drop (k - j - 1)).headD 0 = _
  rw [List.drop_drop, mark]
  congr 2
  omega

theorem WellFormed.lowered (h : t.WellFormed) (hk : k < t.level) : (t.lowered k).WellFormed := by
  refine List.pairwise_cons.2 ⟨fun m hm => ?_, ((List.pairwise_cons.1 h).2).drop⟩
  obtain ⟨i, hi, rfl⟩ := List.mem_iff_getElem.1 hm
  have hi' : t.level - k + i < t.marks.length := by
    have := hi
    simp only [Trail.lowered, List.length_drop] at this
    omega
  rw [h.length_lowered, mark_eq, List.getElem?_eq_getElem (by change _ < t.level; omega)]
  simp only [Trail.lowered, List.getElem_drop, Option.getD_some]
  exact List.pairwise_iff_getElem.1 (List.pairwise_cons.1 h).2 _ _ _ hi' (by omega)

theorem WellFormed.above_lowered (h : t.WellFormed) (hj : j < k) (hk : k < t.level) :
    t.above j = t.above k ++ (t.lowered k).above j := by
  have := h.mark_le (k := k)
  have := h.mark_mono (Nat.le_of_lt hj)
  have he : t.length - t.mark j = t.length - t.mark k + (t.mark k - t.mark j) := by omega
  rw [above, above, above, h.length_lowered, mark_lowered hj hk, he, List.take_add]
  rfl

theorem WellFormed.below_lowered (h : t.WellFormed) (hj : j < k) (hk : k < t.level) :
    (t.lowered k).below j = t.below j := by
  have := h.mark_le (k := k)
  have := h.mark_mono (Nat.le_of_lt hj)
  rw [below, h.length_lowered, mark_lowered hj hk]
  change (t.entries.drop _).drop _ = t.entries.drop _
  rw [List.drop_drop]
  congr 1
  omega

theorem WellFormed.lowered_extend (h : t.WellFormed) (new : List α) : (t.extend new).lowered k = t.lowered k := by
  rw [Trail.lowered, h.below_extend]
  rfl

theorem lowered_openLevel (hk : k < t.level) : t.openLevel.lowered k = t.lowered k := by
  have he : t.level + 1 - k = t.level - k + 1 := by omega
  rw [Trail.lowered, below_openLevel hk, level_openLevel, he]
  rfl

theorem lowered_openLevel_level (t : Trail α) : t.openLevel.lowered t.level = t := by
  have he : t.level + 1 - t.level = 1 := by omega
  rw [Trail.lowered, below_openLevel_level, level_openLevel, he]
  rfl

theorem WellFormed.lowered_lowered (h : t.WellFormed) (hj : j < k) (hk : k < t.level) :
    (t.lowered k).lowered j = t.lowered j := by
  have he : t.level - k + (k - j) = t.level - j := by omega
  rw [Trail.lowered, h.below_lowered hj hk, level_lowered hk]
  change Trail.mk _ ((t.marks.drop _).drop _) = _
  rw [List.drop_drop, he]
  rfl

end Trail

end DomainPropagation
