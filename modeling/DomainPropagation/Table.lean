import DomainPropagation.Failure

/-! Tables: one entry per key, for the keys below a size that only grows. -/

namespace DomainPropagation

structure Table (ι α : Type) where
  entries : Array α := #[]
deriving DecidableEq

namespace Table

variable {ι α : Type} [Key ι]

def size (t : Table ι α) : Nat := t.entries.size

def isEmpty (t : Table ι α) : Bool := t.entries.isEmpty

def toList (t : Table ι α) : List α := t.entries.toList

def keys (t : Table ι α) : List ι := (List.range t.size).map Key.ofIndex

def get? (t : Table ι α) (k : ι) : Option α := t.entries[Key.index k]?

def get (t : Table ι α) (k : ι) : Except Misuse α :=
  match t.get? k with
  | some a => .ok a
  | none => .error .indexOutOfBounds

def modify (t : Table ι α) (k : ι) (f : α → α) : Table ι α :=
  ⟨t.entries.modify (Key.index k) f⟩

def set (t : Table ι α) (k : ι) (a : α) : Except Misuse (Table ι α) :=
  if Key.index k < t.size then .ok (t.modify k fun _ => a) else .error .indexOutOfBounds

def push (t : Table ι α) (a : α) : Table ι α := ⟨t.entries.push a⟩

def nextKey (t : Table ι α) : ι := Key.ofIndex t.size

theorem index_nextKey {t : Table ι α} (h : t.size < wordSize) : Key.index t.nextKey = t.size := Key.index_ofIndex _ h

def reserve (t : Table ι α) (k : ι) (a : α) : Table ι α :=
  ⟨t.entries ++ Array.replicate (Key.index k + 1 - t.size) a⟩

def map (t : Table ι α) (f : α → α) : Table ι α := ⟨t.entries.map f⟩

def sum (t : Table ι α) (f : α → Nat) : Nat := t.toList.foldr (f · + ·) 0

theorem get_eq_ok_iff {t : Table ι α} {k : ι} {a : α} : t.get k = .ok a ↔ t.get? k = some a := by
  rw [get]
  cases t.get? k <;> simp

theorem get?_of_get {t : Table ι α} {k : ι} {a : α} (h : t.get k = .ok a) : t.get? k = some a :=
  get_eq_ok_iff.1 h

theorem get?_eq {t : Table ι α} {k : ι} : t.get? k = t.toList[Key.index k]? := Array.getElem?_toList.symm

theorem lt_size_iff {t : Table ι α} {k : ι} : Key.index k < t.size ↔ ∃ a, t.get? k = some a := by
  constructor
  · exact fun h => ⟨_, Array.getElem?_eq_getElem h⟩
  · rintro ⟨a, ha⟩
    exact (Array.getElem?_eq_some_iff.1 ha).1

theorem get?_modify {t : Table ι α} {k j : ι} {f : α → α} :
    (t.modify k f).get? j = if Key.index k = Key.index j then (t.get? j).map f else t.get? j :=
  Array.getElem?_modify

theorem get?_push {t : Table ι α} {a : α} {k : ι} :
    (t.push a).get? k = if Key.index k = t.size then some a else t.get? k :=
  Array.getElem?_push

theorem get?_map {t : Table ι α} {f : α → α} {k : ι} : (t.map f).get? k = (t.get? k).map f :=
  Array.getElem?_map ..

theorem set_eq_ok {t u : Table ι α} {k : ι} {a : α} :
    t.set k a = .ok u ↔ Key.index k < t.size ∧ u = t.modify k fun _ => a := by
  rw [set]
  split
  · next h => simp [h, eq_comm]
  · next h => simp [h]

@[simp] theorem size_modify (t : Table ι α) (k : ι) (f : α → α) : (t.modify k f).size = t.size :=
  Array.size_modify

omit [Key ι] in
@[simp] theorem size_push (t : Table ι α) (a : α) : (t.push a).size = t.size + 1 := Array.size_push a

omit [Key ι] in
@[simp] theorem size_map (t : Table ι α) (f : α → α) : (t.map f).size = t.size := Array.size_map

theorem modify_modify (t : Table ι α) (k : ι) (f g : α → α) :
    (t.modify k f).modify k g = t.modify k fun a => g (f a) := by
  rw [modify, mk.injEq]
  apply Array.ext_getElem?
  intro i
  simp only [modify, Array.getElem?_modify]
  split
  · exact Option.map_map ..
  · rfl

theorem modify_eq_self {t : Table ι α} {k : ι} {f : α → α} (h : ∀ a, t.get? k = some a → f a = a) :
    t.modify k f = t := by
  obtain ⟨entries⟩ := t
  rw [modify, mk.injEq]
  apply Array.ext_getElem?
  intro i
  rw [Array.getElem?_modify]
  split
  · next hi =>
    subst hi
    rw [get?] at h
    cases hk : entries[Key.index k]? with
    | none => rfl
    | some a => exact congrArg some (h a hk)
  · rfl

theorem modify_eq_const {t : Table ι α} {k : ι} {a : α} (h : t.get? k = some a) (f : α → α) :
    t.modify k f = t.modify k fun _ => f a := by
  rw [modify, modify, mk.injEq]
  apply Array.ext_getElem?
  intro i
  rw [Array.getElem?_modify, Array.getElem?_modify]
  split
  · next hi => rw [← hi, show t.entries[Key.index k]? = some a from h, Option.map_some, Option.map_some]
  · rfl

theorem modify_push {t : Table ι α} {k : ι} (h : Key.index k < t.size) (f : α → α) (a : α) :
    (t.push a).modify k f = (t.modify k f).push a := by
  rw [modify, push, mk.injEq]
  apply Array.ext_getElem?
  intro i
  have : Key.index k < t.entries.size := h
  simp only [push, modify, Array.getElem?_modify, Array.getElem?_push, Array.size_modify]
  by_cases hi : i = t.entries.size
  · rw [if_pos hi, if_pos hi, if_neg (by omega)]
  · rw [if_neg hi, if_neg hi]

theorem foldr_modify {l : List α} {i : Nat} {a : α} (h : l[i]? = some a) (f : α → α) (g : α → Nat) :
    (l.modify i f).foldr (g · + ·) 0 + g a = l.foldr (g · + ·) 0 + g (f a) := by
  induction l generalizing i with
  | nil => cases h
  | cons b l ih =>
    cases i with
    | zero =>
      cases h
      simp only [List.modify_zero_cons, List.foldr_cons]
      omega
    | succ i =>
      have := ih h
      simp only [List.modify_succ_cons, List.foldr_cons]
      omega

theorem sum_modify {t : Table ι α} {k : ι} {a : α} (h : t.get k = .ok a) (f : α → α) (g : α → Nat) :
    (t.modify k f).sum g + g a = t.sum g + g (f a) := by
  simp only [sum, toList, modify, Array.toList_modify]
  exact foldr_modify (by simpa [get?] using get?_of_get h) f g

end Table

end DomainPropagation
