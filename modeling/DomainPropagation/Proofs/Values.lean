import DomainPropagation.Domain
import Mathlib.Order.Bounds.Basic

/-! The values of a single domain. A search for a value finds the nearest one, bounds are the least and
greatest values, and every way of making a domain smaller removes exactly what it should. -/

namespace DomainPropagation

namespace Domain

/-- Both bounds are values, and no value lies where there are no flags or no 32-bit numbers. -/
structure WellFormed (d : Domain) : Prop where
  origin_le : d.origin ≤ d.lower
  min_le : minValue ≤ d.lower
  le_max : d.upper ≤ maxValue
  lower_mem : d.lower ∈ d
  upper_mem : d.upper ∈ d

def toSet (d : Domain) : Set Int := {v | v ∈ d}

variable {d e : Domain} {u v w l : Int} {n : Nat} {b : Bool}

@[simp] theorem mem_toSet : v ∈ d.toSet ↔ v ∈ d := Iff.rfl

theorem lower_le (h : v ∈ d) : d.lower ≤ v := (mem_iff.1 h).1.1

theorem le_upper (h : v ∈ d) : v ≤ d.upper := (mem_iff.1 h).1.2

theorem WellFormed.isLeast (h : d.WellFormed) : IsLeast d.toSet d.lower :=
  ⟨h.lower_mem, fun _ hv => lower_le hv⟩

theorem WellFormed.isGreatest (h : d.WellFormed) : IsGreatest d.toSet d.upper :=
  ⟨h.upper_mem, fun _ hv => le_upper hv⟩

theorem WellFormed.isLeast_iff (h : d.WellFormed) : IsLeast d.toSet v ↔ v = d.lower :=
  ⟨fun hv => hv.unique h.isLeast, fun hv => hv ▸ h.isLeast⟩

theorem WellFormed.isGreatest_iff (h : d.WellFormed) : IsGreatest d.toSet v ↔ v = d.upper :=
  ⟨fun hv => hv.unique h.isGreatest, fun hv => hv ▸ h.isGreatest⟩

theorem WellFormed.lowerBounds_eq_iff (hd : d.WellFormed) (he : e.WellFormed) :
    lowerBounds d.toSet = lowerBounds e.toSet ↔ d.lower = e.lower := by
  rw [hd.isLeast.lowerBounds_eq, he.isLeast.lowerBounds_eq, Set.Iic_inj]

theorem WellFormed.upperBounds_eq_iff (hd : d.WellFormed) (he : e.WellFormed) :
    upperBounds d.toSet = upperBounds e.toSet ↔ d.upper = e.upper := by
  rw [hd.isGreatest.upperBounds_eq, he.isGreatest.upperBounds_eq, Set.Ici_inj]

theorem WellFormed.isFixedTo_iff (h : d.WellFormed) : d.isFixedTo v = true ↔ d.toSet = {v} := by
  simp only [isFixedTo, isFixed, Bool.and_eq_true, beq_iff_eq]
  constructor
  · rintro ⟨he, rfl⟩
    ext u
    refine ⟨fun hu => ?_, fun hu => hu ▸ h.lower_mem⟩
    have := lower_le hu
    have := le_upper hu
    exact Set.mem_singleton_iff.mpr (by omega)
  · intro hs
    have hl : d.lower ∈ ({v} : Set Int) := hs ▸ h.lower_mem
    have hu : d.upper ∈ ({v} : Set Int) := hs ▸ h.upper_mem
    simp only [Set.mem_singleton_iff] at hl hu
    exact ⟨hl.trans hu.symm, hl⟩

theorem WellFormed.contains_and_isFixed (h : d.WellFormed) :
    (d.contains v && d.isFixed) = true ↔ d.toSet = {v} := by
  rw [← h.isFixedTo_iff, isFixedTo, Bool.and_comm, Bool.and_eq_true, Bool.and_eq_true, beq_iff_eq]
  apply and_congr_right
  intro hf
  have hf : d.lower = d.upper := by simpa [isFixed] using hf
  constructor
  · intro hv
    have := lower_le (d := d) hv
    have := le_upper (d := d) hv
    omega
  · rintro rfl
    exact h.lower_mem

theorem WellFormed.contains_and_not_isFixed (h : d.WellFormed) :
    (d.contains v && !d.isFixed) = true ↔ v ∈ d.toSet ∧ d.toSet ≠ {v} := by
  rw [ne_eq, ← h.contains_and_isFixed]
  change _ ↔ d.contains v = true ∧ _
  cases d.isFixed <;> cases d.contains v <;> simp

theorem not_mem_of_seekUp (hv : v ≤ u) (hu : u < (d.seekUp n v).getD (v + n)) : u ∉ d := by
  induction n generalizing v with
  | zero =>
    simp only [seekUp, Option.getD_none] at hu
    omega
  | succ n ih =>
    rw [seekUp] at hu
    split at hu
    · simp only [Option.getD_some] at hu
      omega
    · next hn =>
      rcases eq_or_lt_of_le hv with rfl | hlt
      · exact hn
      · have he : v + ((n + 1 : Nat) : Int) = v + 1 + n := by omega
        exact ih (by omega) (he ▸ hu)

theorem not_mem_of_seekDown (hv : u ≤ v) (hu : (d.seekDown n v).getD (v - n) < u) : u ∉ d := by
  induction n generalizing v with
  | zero =>
    simp only [seekDown, Option.getD_none] at hu
    omega
  | succ n ih =>
    rw [seekDown] at hu
    split at hu
    · simp only [Option.getD_some] at hu
      omega
    · next hn =>
      rcases eq_or_lt_of_le hv with rfl | hlt
      · exact hn
      · have he : v - ((n + 1 : Nat) : Int) = v - 1 - n := by omega
        exact ih (by omega) (he ▸ hu)

theorem not_mem_of_firstFrom? (hv : v ≤ u) (hu : ∀ w, d.firstFrom? v = some w → u < w) : u ∉ d := by
  intro hm
  have := le_upper hm
  refine not_mem_of_seekUp (n := (d.upper + 1 - max v d.lower).toNat) (max_le hv (lower_le hm)) ?_ hm
  rw [firstFrom?] at hu
  cases h : d.seekUp (d.upper + 1 - max v d.lower).toNat (max v d.lower) with
  | none =>
    simp only [Option.getD_none]
    omega
  | some w => exact hu w h

theorem not_mem_of_lastUpTo? (hv : u ≤ v) (hu : ∀ w, d.lastUpTo? v = some w → w < u) : u ∉ d := by
  intro hm
  have := lower_le hm
  refine not_mem_of_seekDown (n := (min v d.upper + 1 - d.lower).toNat) (le_min hv (le_upper hm)) ?_ hm
  rw [lastUpTo?] at hu
  cases h : d.seekDown (min v d.upper + 1 - d.lower).toNat (min v d.upper) with
  | none =>
    simp only [Option.getD_none]
    omega
  | some w => exact hu w h

theorem firstFrom?_eq_none (h : d.firstFrom? v = none) (hu : u ∈ d) : u < v := by
  by_contra hv
  exact not_mem_of_firstFrom? (not_lt.mp hv) (by simp [h]) hu

theorem firstFrom?_isLeast (h : d.firstFrom? v = some w) : IsLeast {u ∈ d.toSet | v ≤ u} w := by
  obtain ⟨hv, hw⟩ := of_firstFrom? h
  refine ⟨⟨hw, hv⟩, ?_⟩
  rintro u ⟨hu, hvu⟩
  by_contra hlt
  exact not_mem_of_firstFrom? hvu (by simpa [h] using hlt) hu

theorem lastUpTo?_eq_none (h : d.lastUpTo? v = none) (hu : u ∈ d) : v < u := by
  by_contra hv
  exact not_mem_of_lastUpTo? (not_lt.mp hv) (by simp [h]) hu

theorem lastUpTo?_isGreatest (h : d.lastUpTo? v = some w) : IsGreatest {u ∈ d.toSet | u ≤ v} w := by
  obtain ⟨hv, hw⟩ := of_lastUpTo? h
  refine ⟨⟨hw, hv⟩, ?_⟩
  rintro u ⟨hu, hvu⟩
  by_contra hlt
  exact not_mem_of_lastUpTo? hvu (by simpa [h] using hlt) hu

theorem mem_withLower (hl : d.lower ≤ l) : v ∈ { d with lower := l } ↔ v ∈ d ∧ l ≤ v := by
  simp only [mem_iff, flag, offset]
  constructor
  · rintro ⟨⟨h₁, h₂⟩, h₃⟩
    exact ⟨⟨⟨hl.trans h₁, h₂⟩, h₃⟩, h₁⟩
  · rintro ⟨⟨⟨_, h₂⟩, h₃⟩, h₁⟩
    exact ⟨⟨h₁, h₂⟩, h₃⟩

theorem mem_withUpper (hl : l ≤ d.upper) : v ∈ { d with upper := l } ↔ v ∈ d ∧ v ≤ l := by
  simp only [mem_iff, flag, offset]
  constructor
  · rintro ⟨⟨h₁, h₂⟩, h₃⟩
    exact ⟨⟨⟨h₁, h₂.trans hl⟩, h₃⟩, h₂⟩
  · rintro ⟨⟨⟨h₁, _⟩, h₃⟩, h₂⟩
    exact ⟨⟨h₁, h₂⟩, h₃⟩

theorem WellFormed.withLower (h : d.WellFormed) (hl : l ∈ d) :
    WellFormed { d with lower := l } where
  origin_le := h.origin_le.trans (lower_le hl)
  min_le := h.min_le.trans (lower_le hl)
  le_max := h.le_max
  lower_mem := (mem_withLower (lower_le hl)).2 ⟨hl, le_rfl⟩
  upper_mem := (mem_withLower (lower_le hl)).2 ⟨h.upper_mem, le_upper (d := d) hl⟩

theorem WellFormed.withUpper (h : d.WellFormed) (hl : l ∈ d) :
    WellFormed { d with upper := l } where
  origin_le := h.origin_le
  min_le := h.min_le
  le_max := (le_upper hl).trans h.le_max
  lower_mem := (mem_withUpper (le_upper hl)).2 ⟨h.lower_mem, lower_le (d := d) hl⟩
  upper_mem := (mem_withUpper (le_upper hl)).2 ⟨hl, le_rfl⟩

theorem toSet_withLower (hl : IsLeast {u ∈ d.toSet | v ≤ u} l) :
    toSet { d with lower := l } = {u ∈ d.toSet | v ≤ u} := by
  ext u
  refine (mem_withLower (lower_le hl.1.1)).trans (and_congr_right fun hu => ?_)
  exact ⟨fun hlu => le_trans hl.1.2 hlu, fun hvu => hl.2 ⟨hu, hvu⟩⟩

theorem toSet_withUpper (hl : IsGreatest {u ∈ d.toSet | u ≤ v} l) :
    toSet { d with upper := l } = {u ∈ d.toSet | u ≤ v} := by
  ext u
  refine (mem_withUpper (le_upper hl.1.1)).trans (and_congr_right fun hu => ?_)
  exact ⟨fun hlu => le_trans hlu hl.1.2, fun hvu => hl.2 ⟨hu, hvu⟩⟩

theorem offset_lt (h : v ∈ d) : d.offset v < d.present.size := by
  by_contra hn
  have hf := (mem_iff.1 h).2
  simp [flag, Array.getD, hn] at hf

theorem WellFormed.origin_le_of_mem (h : d.WellFormed) (hv : v ∈ d) : d.origin ≤ v :=
  h.origin_le.trans (lower_le hv)

theorem flag_setFlag (hv : d.origin ≤ v) (hu : d.origin ≤ u) (hs : d.offset v < d.present.size) :
    (d.setFlag v b).flag u = if u = v then b else d.flag u := by
  have he : d.offset u = d.offset v ↔ u = v := by
    simp only [offset]
    omega
  simp only [flag, setFlag, Array.getD_eq_getD_getElem?, Array.getElem?_setIfInBounds]
  change ((if d.offset v = d.offset u then _ else _) : Option Bool).getD false = _
  by_cases huv : u = v
  · simp [huv, hs]
  · rw [if_neg (fun h => huv (he.1 h.symm)), if_neg huv]
    rfl

theorem setFlag_setFlag (h : v ∈ d) : (d.setFlag v false).setFlag v true = d := by
  have hs := offset_lt h
  have hf : d.present[d.offset v] = true := by simpa [flag, Array.getD, hs] using (mem_iff.1 h).2
  have hp : (d.present.setIfInBounds (d.offset v) false).setIfInBounds (d.offset v) true = d.present := by
    apply Array.ext (by simp)
    intro i hi hj
    by_cases he : d.offset v = i
    · subst he
      simpa using hf.symm
    · simp only [Array.setIfInBounds_setIfInBounds]
      exact Array.getElem_setIfInBounds_ne hj he
  cases d
  simp only [setFlag, offset] at hp ⊢
  simp only [hp]

theorem WellFormed.toSet_setFlag (h : d.WellFormed) (hv : v ∈ d) :
    (d.setFlag v false).toSet = d.toSet \ {v} := by
  ext u
  change u ∈ d.setFlag v false ↔ u ∈ d ∧ u ≠ v
  rw [mem_iff, mem_iff]
  change (d.lower ≤ u ∧ u ≤ d.upper) ∧ _ ↔ _
  constructor
  · rintro ⟨hb, hf⟩
    rw [flag_setFlag (h.origin_le_of_mem hv) (h.origin_le.trans hb.1) (offset_lt hv)] at hf
    split at hf
    · cases hf
    · exact ⟨⟨hb, hf⟩, ‹_›⟩
  · rintro ⟨⟨hb, hf⟩, hne⟩
    refine ⟨hb, ?_⟩
    rwa [flag_setFlag (h.origin_le_of_mem hv) (h.origin_le.trans hb.1) (offset_lt hv), if_neg hne]

theorem leaveLower?_eq_none (hv : v ∉ d) (h : d.leaveLower? v = none) : u ∉ d := by
  intro hu
  rw [leaveLower?] at h
  split at h
  · next he =>
    have := firstFrom?_eq_none (Option.map_eq_none_iff.1 h) hu
    have := lower_le hu
    have : u ≠ v := fun h => hv (h ▸ hu)
    omega
  · cases h

theorem leaveUpper?_eq_none (hv : v ∉ d) (h : d.leaveUpper? v = none) : u ∉ d := by
  intro hu
  rw [leaveUpper?] at h
  split at h
  · next he =>
    have := lastUpTo?_eq_none (Option.map_eq_none_iff.1 h) hu
    have := le_upper hu
    have : u ≠ v := fun h => hv (h ▸ hu)
    omega
  · cases h

theorem leaveLower?_eq_some (hv : v ∉ d) (h : d.leaveLower? v = some e) :
    (∃ l, e = { d with lower := l } ∧ (l = d.lower ∧ v ≠ d.lower ∨ l ∈ d)) ∧ e.toSet = d.toSet := by
  rw [leaveLower?] at h
  split at h
  · next he =>
    obtain ⟨l, hl, rfl⟩ := Option.map_eq_some_iff.1 h
    have hl := firstFrom?_isLeast hl
    refine ⟨⟨l, rfl, .inr hl.1.1⟩, ?_⟩
    rw [toSet_withLower hl]
    ext u
    refine ⟨And.left, fun hu => ⟨hu, ?_⟩⟩
    have := lower_le hu
    have : u ≠ v := fun h => hv (h ▸ hu)
    omega
  · next he =>
    cases h
    exact ⟨⟨d.lower, rfl, .inl ⟨rfl, he⟩⟩, rfl⟩

theorem leaveUpper?_eq_some (hv : v ∉ d) (h : d.leaveUpper? v = some e) :
    (∃ l, e = { d with upper := l } ∧ (l = d.upper ∧ v ≠ d.upper ∨ l ∈ d)) ∧ e.toSet = d.toSet := by
  rw [leaveUpper?] at h
  split at h
  · next he =>
    obtain ⟨l, hl, rfl⟩ := Option.map_eq_some_iff.1 h
    have hl := lastUpTo?_isGreatest hl
    refine ⟨⟨l, rfl, .inr hl.1.1⟩, ?_⟩
    rw [toSet_withUpper hl]
    ext u
    refine ⟨And.left, fun hu => ⟨hu, ?_⟩⟩
    have := le_upper hu
    have : u ≠ v := fun h => hv (h ▸ hu)
    omega
  · next he =>
    cases h
    exact ⟨⟨d.upper, rfl, .inl ⟨rfl, he⟩⟩, rfl⟩

variable (h : d.WellFormed) (hv : v ∈ d)
include h hv

theorem WellFormed.not_mem_setFlag : v ∉ d.setFlag v false := by
  have hs := h.toSet_setFlag hv
  intro hm
  have : v ∈ d.toSet \ {v} := hs ▸ hm
  exact this.2 rfl

theorem WellFormed.erase?_eq_none (he : d.erase? v = none) : d.toSet = {v} := by
  have hn := h.not_mem_setFlag hv
  have hd : ∀ u, u ∉ (d.setFlag v false).toSet := by
    intro u
    cases hm : (d.setFlag v false).leaveLower? v with
    | none => exact leaveLower?_eq_none hn hm
    | some m =>
      obtain ⟨-, hs⟩ := leaveLower?_eq_some hn hm
      rw [← hs]
      exact leaveUpper?_eq_none (fun hv => hn (hs.subset hv)) (Option.bind_eq_none_iff.1 he m hm)
  rw [h.toSet_setFlag hv] at hd
  apply Set.Subset.antisymm
  · intro u hu
    by_contra hne
    exact hd u ⟨hu, hne⟩
  · rintro u rfl
    exact hv

theorem WellFormed.erase?_eq_some (he : d.erase? v = some e) :
    e.WellFormed ∧ e.toSet = d.toSet \ {v} ∧
      ({ e with lower := d.lower, upper := d.upper } : Domain).setFlag v true = d := by
  have hn := h.not_mem_setFlag hv
  obtain ⟨m, hm, he⟩ := Option.bind_eq_some_iff.1 he
  obtain ⟨⟨l, rfl, hl⟩, hms⟩ := leaveLower?_eq_some hn hm
  obtain ⟨⟨u, rfl, hu⟩, hes⟩ := leaveUpper?_eq_some (fun hv => hn (hms.subset hv)) he
  have hs := hes.trans (hms.trans (h.toSet_setFlag hv))
  have hl : l ∈ d.toSet \ {v} := by
    rcases hl with ⟨rfl, hne⟩ | hl
    · exact ⟨h.lower_mem, fun he => hne he.symm⟩
    · exact (h.toSet_setFlag hv).subset hl
  have hu : u ∈ d.toSet \ {v} := by
    rcases hu with ⟨rfl, hne⟩ | hu
    · exact ⟨h.upper_mem, fun he => hne he.symm⟩
    · exact (hms.trans (h.toSet_setFlag hv)).subset hu
  refine ⟨⟨?_, ?_, ?_, hs.superset hl, hs.superset hu⟩, hs, setFlag_setFlag hv⟩
  · exact h.origin_le_of_mem hl.1
  · exact h.min_le.trans (lower_le hl.1)
  · exact (le_upper hu.1).trans h.le_max

omit h hv

theorem mem_interval : v ∈ interval l u ↔ l ≤ v ∧ v ≤ u := by
  rw [mem_iff]
  change (l ≤ v ∧ v ≤ u) ∧ _ ↔ _
  refine ⟨And.left, fun hb => ⟨hb, ?_⟩⟩
  have : (v - l).toNat < (u + 1 - l).toNat := by omega
  simp [flag, interval, offset, Array.getD, this]

theorem wellFormed_interval (hl : minValue ≤ l) (hu : u ≤ maxValue) (h : l ≤ u) :
    (interval l u).WellFormed where
  origin_le := le_rfl
  min_le := hl
  le_max := hu
  lower_mem := mem_interval.2 ⟨le_rfl, h⟩
  upper_mem := mem_interval.2 ⟨h, le_rfl⟩

def blank (l u : Int) : Domain := ⟨l, l, u, Array.replicate (u + 1 - l).toNat false⟩

theorem ofValues?_eq_some {vs : List Int} (h : ofValues? vs = some d) :
    ∃ l u, (l ∈ vs ∧ ∀ v ∈ vs, l ≤ v) ∧ (u ∈ vs ∧ ∀ v ∈ vs, v ≤ u) ∧
      d = vs.foldl (·.setFlag · true) (blank l u) := by
  rw [ofValues?] at h
  split at h
  · next l u hl hu =>
    cases h
    exact ⟨l, u, List.min?_eq_some_iff.1 hl, List.max?_eq_some_iff.1 hu, rfl⟩
  · cases h

theorem foldl_setFlag_bounds (vs : List Int) :
    (vs.foldl (·.setFlag · true) d).lower = d.lower ∧ (vs.foldl (·.setFlag · true) d).upper = d.upper ∧
      (vs.foldl (·.setFlag · true) d).origin = d.origin := by
  induction vs generalizing d with
  | nil => exact ⟨rfl, rfl, rfl⟩
  | cons v vs ih => exact ih

theorem flag_foldl_setFlag {vs : List Int} (hu : d.origin ≤ u)
    (hs : ∀ v ∈ vs, d.origin ≤ v ∧ d.offset v < d.present.size) :
    (vs.foldl (·.setFlag · true) d).flag u = (decide (u ∈ vs) || d.flag u) := by
  induction vs generalizing d with
  | nil => simp
  | cons v vs ih =>
    have hv := hs v (by simp)
    have ho : (d.setFlag v true).origin ≤ u := hu
    rw [List.foldl_cons, ih ho, flag_setFlag hv.1 hu hv.2]
    · by_cases huv : u = v <;> simp [huv]
    · intro w hw
      simpa [setFlag, offset] using hs w (by simp [hw])

theorem mem_ofValues? {vs : List Int} (h : ofValues? vs = some d) : v ∈ d ↔ v ∈ vs := by
  obtain ⟨l, u, hl, hu, rfl⟩ := ofValues?_eq_some h
  obtain ⟨hdl, hdu, -⟩ := foldl_setFlag_bounds (d := blank l u) vs
  have hf : l ≤ v → ((vs.foldl (·.setFlag · true) (blank l u)).flag v = true ↔ v ∈ vs) := by
    intro hv
    rw [flag_foldl_setFlag hv]
    · simp [flag, blank, Array.getD]
    · intro w hw
      have := hl.2 w hw
      have := hu.2 w hw
      simp only [offset, blank, Array.size_replicate]
      omega
  rw [mem_iff, hdl, hdu]
  constructor
  · rintro ⟨hb, hv⟩
    exact (hf hb.1).1 hv
  · intro hv
    exact ⟨⟨hl.2 v hv, hu.2 v hv⟩, (hf (hl.2 v hv)).2 hv⟩

theorem wellFormed_ofValues? {vs : List Int} (hr : ∀ v ∈ vs, minValue ≤ v ∧ v ≤ maxValue)
    (h : ofValues? vs = some d) : d.WellFormed := by
  have hm := fun v => mem_ofValues? (v := v) h
  obtain ⟨l, u, hl, hu, rfl⟩ := ofValues?_eq_some h
  obtain ⟨hdl, hdu, hdo⟩ := foldl_setFlag_bounds (d := blank l u) vs
  refine ⟨hdo.trans_le hdl.ge, ?_, ?_, ?_, ?_⟩
  · rw [hdl]
    exact (hr _ hl.1).1
  · rw [hdu]
    exact (hr _ hu.1).2
  · rw [hdl, hm]
    exact hl.1
  · rw [hdu, hm]
    exact hu.1

end Domain

end DomainPropagation
