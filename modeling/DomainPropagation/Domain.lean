/-! Domains of single variables: a lower and an upper bound, and a flag for every value of the
interval the variable started from. -/

namespace DomainPropagation

def minValue : Int := -2147483648

def maxValue : Int := 2147483647

/-- A sum that is no value goes on from the other end of them. -/
def wrap (v : Int) : Int := v.bmod 4294967296

theorem wrap_eq_self_iff {v : Int} : wrap v = v ↔ minValue ≤ v ∧ v ≤ maxValue := by
  rw [wrap, Int.bmod_def, minValue, maxValue]
  split
  · omega
  · omega

theorem wrap_le_maxValue (v : Int) : wrap v ≤ maxValue := by
  rw [wrap, Int.bmod_def, maxValue]
  split
  · omega
  · omega

theorem wrap_wrap_add (u v : Int) : wrap (wrap u + wrap v) = wrap (u + v) := by
  rw [wrap, wrap, wrap, wrap, Int.bmod_add_bmod, Int.add_bmod_bmod]

/-- The flag of `origin + i` is `present[i]`. Flags outside the bounds are left as they were when a
bound passed them, which is what lets a bound be moved back without touching them. -/
structure Domain where
  origin : Int
  lower : Int
  upper : Int
  present : Array Bool
deriving DecidableEq

namespace Domain

def interval (lower upper : Int) : Domain :=
  ⟨lower, lower, upper, Array.replicate (upper + 1 - lower).toNat true⟩

def offset (d : Domain) (v : Int) : Nat := (v - d.origin).toNat

def flag (d : Domain) (v : Int) : Bool := d.present.getD (d.offset v) false

def setFlag (d : Domain) (v : Int) (b : Bool) : Domain :=
  { d with present := d.present.setIfInBounds (d.offset v) b }

def contains (d : Domain) (v : Int) : Bool :=
  decide (d.lower ≤ v) && decide (v ≤ d.upper) && d.flag v

instance : Membership Int Domain := ⟨fun d v => d.contains v = true⟩

instance (v : Int) (d : Domain) : Decidable (v ∈ d) :=
  inferInstanceAs (Decidable (d.contains v = true))

theorem mem_iff {d : Domain} {v : Int} :
    v ∈ d ↔ (d.lower ≤ v ∧ v ≤ d.upper) ∧ d.flag v = true := by
  simp [Membership.mem, contains]

def isFixed (d : Domain) : Bool := d.lower == d.upper

def isFixedTo (d : Domain) (v : Int) : Bool := d.isFixed && d.lower == v

def values (d : Domain) : List Int :=
  ((List.range (d.upper + 1 - d.lower).toNat).map fun i : Nat => d.lower + i).filter d.contains

theorem mem_values {d : Domain} {v : Int} : v ∈ d.values ↔ v ∈ d := by
  simp only [values, List.mem_filter, List.mem_map, List.mem_range]
  refine ⟨(·.2), fun h => ⟨⟨(v - d.lower).toNat, ?_⟩, h⟩⟩
  have := (mem_iff.1 h).1
  omega

def size (d : Domain) : Nat := d.values.length

def seekUp (d : Domain) : Nat → Int → Option Int
  | 0, _ => none
  | n + 1, v => if d.contains v then some v else d.seekUp n (v + 1)

def seekDown (d : Domain) : Nat → Int → Option Int
  | 0, _ => none
  | n + 1, v => if d.contains v then some v else d.seekDown n (v - 1)

theorem of_seekUp {d : Domain} {n : Nat} {v w : Int} (h : d.seekUp n v = some w) :
    v ≤ w ∧ w ∈ d := by
  induction n generalizing v with
  | zero => cases h
  | succ n ih =>
    rw [seekUp] at h
    split at h
    · cases h
      exact ⟨Int.le_refl _, ‹_›⟩
    · exact ⟨Int.le_trans (by omega) (ih h).1, (ih h).2⟩

theorem of_seekDown {d : Domain} {n : Nat} {v w : Int} (h : d.seekDown n v = some w) :
    w ≤ v ∧ w ∈ d := by
  induction n generalizing v with
  | zero => cases h
  | succ n ih =>
    rw [seekDown] at h
    split at h
    · cases h
      exact ⟨Int.le_refl _, ‹_›⟩
    · exact ⟨Int.le_trans (ih h).1 (by omega), (ih h).2⟩

def firstFrom? (d : Domain) (v : Int) : Option Int :=
  d.seekUp (d.upper + 1 - max v d.lower).toNat (max v d.lower)

def lastUpTo? (d : Domain) (v : Int) : Option Int :=
  d.seekDown (min v d.upper + 1 - d.lower).toNat (min v d.upper)

theorem of_firstFrom? {d : Domain} {v w : Int} (h : d.firstFrom? v = some w) : v ≤ w ∧ w ∈ d :=
  ⟨Int.le_trans (Int.le_max_left ..) (of_seekUp h).1, (of_seekUp h).2⟩

theorem of_lastUpTo? {d : Domain} {v w : Int} (h : d.lastUpTo? v = some w) : w ≤ v ∧ w ∈ d :=
  ⟨Int.le_trans (of_seekDown h).1 (Int.min_le_left ..), (of_seekDown h).2⟩

def leaveLower? (d : Domain) (v : Int) : Option Domain :=
  if v = d.lower then (d.firstFrom? (v + 1)).map fun lower => { d with lower } else some d

def leaveUpper? (d : Domain) (v : Int) : Option Domain :=
  if v = d.upper then (d.lastUpTo? (v - 1)).map fun upper => { d with upper } else some d

def erase? (d : Domain) (v : Int) : Option Domain :=
  ((d.setFlag v false).leaveLower? v).bind (·.leaveUpper? v)

def ofValues? (vs : List Int) : Option Domain :=
  match vs.min?, vs.max? with
  | some lower, some upper =>
    let empty := ⟨lower, lower, upper, Array.replicate (upper + 1 - lower).toNat false⟩
    some (vs.foldl (·.setFlag · true) empty)
  | _, _ => none

def runs (d : Domain) : List (Int × Int) :=
  d.values.foldr extend []
where
  extend (v : Int) : List (Int × Int) → List (Int × Int)
    | (first, last) :: rest => if v + 1 = first then (v, last) :: rest else (v, v) :: (first, last) :: rest
    | [] => [(v, v)]

end Domain

end DomainPropagation
