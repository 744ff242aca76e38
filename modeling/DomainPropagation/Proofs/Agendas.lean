import DomainPropagation.Agenda

/-! Agendas whose lanes hold what belongs into them. The lanes are then one list in order of rank, a push is
an insertion behind everything of its rank, and what comes in order of rank stays in that order. -/

namespace DomainPropagation

namespace Agenda

variable {rank rank' : Handle → Nat} {a b : Agenda} {lanes rest : List (List Handle)} {g h : Handle}
  {r i : Nat}

def FiledFrom (rank : Handle → Nat) : Nat → List (List Handle) → Prop
  | _, [] => True
  | r, lane :: lanes => (∀ h ∈ lane, rank h = r) ∧ FiledFrom rank (r + 1) lanes

theorem FiledFrom.le (hf : FiledFrom rank r lanes) (hg : g ∈ lanes.flatten) : r ≤ rank g := by
  induction lanes generalizing r with
  | nil => cases hg
  | cons lane lanes ih =>
    rcases List.mem_append.1 hg with hg | hg
    · exact Nat.le_of_eq (hf.1 g hg).symm
    · exact Nat.le_of_succ_le (ih hf.2 hg)

theorem FiledFrom.congr (hf : FiledFrom rank r lanes) (hr : ∀ h ∈ lanes.flatten, rank' h = rank h) :
    FiledFrom rank' r lanes := by
  induction lanes generalizing r with
  | nil => trivial
  | cons lane lanes ih =>
    constructor
    · exact fun h hh => (hr h (List.mem_append_left _ hh)).trans (hf.1 h hh)
    · exact ih hf.2 fun h hh => hr h (List.mem_append_right _ hh)

theorem FiledFrom.sorted (hf : FiledFrom rank r lanes) : lanes.flatten.Pairwise (rank · ≤ rank ·) := by
  induction lanes generalizing r with
  | nil => exact .nil
  | cons lane lanes ih =>
    refine List.pairwise_append.2 ⟨?_, ih hf.2, ?_⟩
    · apply List.pairwise_of_forall_mem_list
      intro g hg h hh
      exact Nat.le_of_eq ((hf.1 g hg).trans (hf.1 h hh).symm)
    · intro g hg h hh
      rw [hf.1 g hg]
      exact Nat.le_of_succ_le (hf.2.le hh)

theorem FiledFrom.modify (hf : FiledFrom rank r lanes) (hi : i < lanes.length) (hr : rank h = r + i) :
    FiledFrom rank r (lanes.modify i (· ++ [h])) ∧
      ∃ L R, lanes.flatten = L ++ R ∧ (lanes.modify i (· ++ [h])).flatten = L ++ h :: R ∧
        (∀ g ∈ L, rank g ≤ rank h) ∧ ∀ g ∈ R, rank h < rank g := by
  induction lanes generalizing r i with
  | nil => cases hi
  | cons lane lanes ih =>
    cases i with
    | zero =>
      refine ⟨⟨fun g hg => ?_, hf.2⟩, lane, lanes.flatten, rfl, by simp, fun g hg => ?_, fun g hg => ?_⟩
      · rcases List.mem_append.1 hg with hg | hg
        · exact hf.1 g hg
        · rwa [List.mem_singleton.1 hg]
      · rw [hf.1 g hg, hr]
        exact Nat.le_refl r
      · rw [hr]
        exact hf.2.le hg
    | succ i =>
      obtain ⟨hf', L, R, hl, hm, hL, hR⟩ := ih hf.2 (Nat.lt_of_succ_lt_succ hi) (by omega)
      refine ⟨⟨hf.1, hf'⟩, lane ++ L, R, ?_, ?_, fun g hg => ?_, hR⟩
      · rw [List.flatten_cons, hl, List.append_assoc]
      · rw [List.modify_succ_cons, List.flatten_cons, hm, List.append_assoc]
      · rcases List.mem_append.1 hg with hg | hg
        · rw [hf.1 g hg, hr]
          exact Nat.le_add_right r _
        · exact hL g hg

theorem FiledFrom.popLane (hf : FiledFrom rank r lanes) (hp : popLane? lanes = some (h, rest)) :
    FiledFrom rank r rest ∧ rest.length = lanes.length := by
  induction lanes generalizing r rest with
  | nil => cases hp
  | cons lane lanes ih =>
    cases lane with
    | nil =>
      obtain ⟨⟨g, rest'⟩, hg, he⟩ := Option.map_eq_some_iff.1 hp
      cases he
      obtain ⟨hf', hl⟩ := ih hf.2 hg
      exact ⟨⟨hf.1, hf'⟩, congrArg (· + 1) hl⟩
    | cons g lane =>
      cases hp
      exact ⟨⟨fun k hk => hf.1 k (List.mem_cons_of_mem _ hk), hf.2⟩, rfl⟩

structure Filed (rank : Handle → Nat) (a : Agenda) : Prop where
  length : a.lanes.length = Priority.levels
  lanes : FiledFrom rank 0 a.lanes

theorem Filed.congr (hf : a.Filed rank) (hr : ∀ h ∈ a.toList, rank' h = rank h) : a.Filed rank' :=
  ⟨hf.length, hf.lanes.congr hr⟩

theorem Filed.sorted (hf : a.Filed rank) : a.toList.Pairwise (rank · ≤ rank ·) := hf.lanes.sorted

theorem filedFrom_nil (h : ∀ lane ∈ lanes, lane = []) : FiledFrom rank r lanes := by
  induction lanes generalizing r with
  | nil => trivial
  | cons lane lanes ih =>
    obtain rfl := h lane List.mem_cons_self
    exact ⟨nofun, ih fun l hl => h l (List.mem_cons_of_mem _ hl)⟩

theorem filed_withLevels : (withLevels Priority.levels).Filed rank :=
  ⟨List.length_replicate, filedFrom_nil fun _ h => List.eq_of_mem_replicate h⟩

theorem Filed.clear (hf : a.Filed rank) : a.clear.Filed rank := by
  refine ⟨(List.length_map _).trans hf.length, filedFrom_nil fun lane hl => ?_⟩
  obtain ⟨_, -, rfl⟩ := List.mem_map.1 hl
  rfl

theorem Filed.pop (hf : a.Filed rank) (hp : a.pop? = some (h, b)) : b.Filed rank := by
  obtain ⟨⟨g, rest⟩, hl, he⟩ := Option.map_eq_some_iff.1 hp
  cases he
  obtain ⟨hf', hlen⟩ := hf.lanes.popLane hl
  exact ⟨hlen.trans hf.length, hf'⟩

theorem pop?_eq_none_iff : a.pop? = none ↔ a.toList = [] := by
  constructor
  · intro hp
    have := popLane?_eq a.lanes
    rw [Option.map_eq_none_iff.1 hp] at this
    by_cases he : a.toList = []
    · exact he
    · rw [toList] at he
      rw [if_neg he] at this
      cases this
  · intro he
    cases hp : a.pop? with
    | none => rfl
    | some q =>
      rw [toList_of_pop? hp] at he
      cases he

theorem perm_modify (hi : i < lanes.length) :
    (lanes.modify i (· ++ [h])).flatten.Perm (h :: lanes.flatten) := by
  induction lanes generalizing i with
  | nil => cases hi
  | cons lane lanes ih =>
    cases i with
    | zero =>
      rw [List.modify_zero_cons, List.flatten_cons, List.append_assoc]
      exact List.perm_middle
    | succ i =>
      rw [List.modify_succ_cons]
      exact ((ih (Nat.lt_of_succ_lt_succ hi)).append_left lane).trans List.perm_middle

theorem perm_push (hb : a.push h r = .ok b) : b = a ∨ h ∉ a.toList ∧ b.toList.Perm (h :: a.toList) := by
  rw [Agenda.push] at hb
  split at hb
  · cases hb
    exact .inl rfl
  · next hm =>
    split at hb
    · next hr =>
      cases hb
      exact .inr ⟨mt contains_iff.2 hm, perm_modify hr⟩
    · cases hb

theorem Filed.push (hf : a.Filed rank) (hr : rank h < Priority.levels) :
    ∃ b, a.push h (rank h) = .ok b ∧ b.Filed rank ∧
      (h ∈ a.toList ∧ b = a ∨ h ∉ a.toList ∧ ∃ L R, a.toList = L ++ R ∧ b.toList = L ++ h :: R ∧
        (∀ g ∈ L, rank g ≤ rank h) ∧ ∀ g ∈ R, rank h < rank g) := by
  have hlt : rank h < a.lanes.length := hf.length ▸ hr
  rw [Agenda.push]
  by_cases hm : a.contains h = true
  · rw [if_pos hm]
    exact ⟨a, rfl, hf, .inl ⟨contains_iff.1 hm, rfl⟩⟩
  · rw [if_neg hm, if_pos hlt]
    obtain ⟨hf', hL⟩ := hf.lanes.modify hlt (Nat.zero_add _).symm
    refine ⟨_, rfl, ⟨(List.length_modify ..).trans hf.length, hf'⟩, .inr ⟨mt contains_iff.2 hm, hL⟩⟩

end Agenda

end DomainPropagation
