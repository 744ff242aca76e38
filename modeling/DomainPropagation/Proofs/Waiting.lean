import DomainPropagation.Agenda.Indexed
import DomainPropagation.Proofs.Agendas
import DomainPropagation.Proofs.Calls
import Mathlib.Data.List.Nodup

/-! Agendas as plain lists. An agenda gives the same answers to every sequence of calls as the list of what is due,
from which the first entry of the least rank is taken; and so does an agenda with an index. -/

namespace DomainPropagation

namespace Table

variable {ι α : Type} [Key ι] {t : Table ι α} {j k : ι} {a : α}

theorem lt_size_reserve : Key.index k < (t.reserve k a).size := by
  have hs : (t.reserve k a).size = t.size + (Key.index k + 1 - t.size) := by simp [size, reserve]
  omega

theorem getD_get?_reserve : ((t.reserve k a).get? j).getD a = (t.get? j).getD a := by
  simp only [reserve, get?, Array.getElem?_append, Array.getElem?_replicate]
  split
  · rfl
  · next h =>
    rw [Array.getElem?_eq_none (Nat.not_lt.1 h)]
    split <;> rfl

end Table

namespace Agenda

variable {n r : Nat} {h : Handle} {lane : List Handle} {lanes : List (List Handle)}

inductive Call
  | push (h : Handle) (rank : Nat)
  | pop
  | clear
  | contains (h : Handle)

inductive Answer
  | done
  | popped (h : Option Handle)
  | contained (b : Bool)
deriving DecidableEq

def Call.Allowed (n : Nat) : Call → Prop
  | .push _ rank => rank < n
  | _ => True

instance : (c : Call) → Decidable (c.Allowed n)
  | .push _ rank => inferInstanceAs (Decidable (rank < n))
  | .pop | .clear | .contains _ => isTrue trivial

def answer (a : Agenda) : Call → Except Misuse (Answer × Agenda)
  | .push h rank => return (.done, ← a.push h rank)
  | .pop =>
    match a.pop? with
    | none => .ok (.popped none, a)
    | some (h, b) => .ok (.popped (some h), b)
  | .clear => .ok (.done, a.clear)
  | .contains h => .ok (.contained (a.contains h), a)

theorem popLane?_eq_some (hlt : ∀ i < r, lanes[i]? = some []) (hr : lanes[r]? = some (h :: lane)) :
    popLane? lanes = some (h, lanes.modify r List.tail) := by
  induction lanes generalizing r with
  | nil => cases hr
  | cons first lanes ih =>
    cases r with
    | zero =>
      cases hr
      rfl
    | succ r =>
      cases hlt 0 (Nat.succ_pos r)
      rw [popLane?, ih (fun i hi => hlt (i + 1) (Nat.succ_lt_succ hi)) hr]
      rfl

end Agenda

namespace IndexedAgenda

def answer (a : IndexedAgenda) : Agenda.Call → Except Misuse (Agenda.Answer × IndexedAgenda)
  | .push h rank => return (.done, ← a.push h rank)
  | .pop => do
    let (h, b) ← a.pop
    return (.popped h, b)
  | .clear => return (.done, ← a.clear)
  | .contains h => .ok (.contained (a.contains h), a)

end IndexedAgenda

/-- The propagators that are due, with their ranks and in the order in which they became due. -/
abbrev Waiting := List (Handle × Nat)

namespace Waiting

open Agenda

variable {l m : Waiting} {g h : Handle} {p : Handle × Nat} {n r i : Nat} {c : Call} {cs : List Call}
  {f : List Handle → List Handle}

def handles (l : Waiting) : List Handle := l.map Prod.fst

def push (l : Waiting) (h : Handle) (rank : Nat) : Waiting :=
  if h ∈ l.handles then l else l ++ [(h, rank)]

def first? (l : Waiting) : Option (Handle × Nat) := l.find? fun p => l.all fun q => p.2 ≤ q.2

def answer (l : Waiting) : Call → Answer × Waiting
  | .push h rank => (.done, l.push h rank)
  | .pop =>
    match l.first? with
    | none => (.popped none, l)
    | some p => (.popped (some p.1), l.erase p)
  | .clear => (.done, [])
  | .contains h => (.contained (decide (h ∈ l.handles)), l)

def answerAll (l : Waiting) : List Call → List Answer × Waiting
  | [] => ([], l)
  | c :: cs =>
    let (a, l) := l.answer c
    let (as, l) := answerAll l cs
    (a :: as, l)

theorem mem_handles_push : g ∈ (l.push h r).handles ↔ g = h ∨ g ∈ l.handles := by
  rw [push]
  split
  · next hh => exact ⟨.inr, fun hg => hg.elim (fun hg => hg ▸ hh) id⟩
  · simp [handles, or_comm]

theorem mem_handles : h ∈ l.handles ↔ ∃ r, (h, r) ∈ l := by
  simp [handles]

theorem first?_eq_none_iff : l.first? = none ↔ l = [] := by
  constructor
  · intro h
    by_contra hl
    have hl : (l.map Prod.snd).min? ≠ none := mt List.min?_eq_none_iff.1 (mt List.map_eq_nil_iff.1 hl)
    obtain ⟨r, hr⟩ := Option.ne_none_iff_exists'.1 hl
    obtain ⟨hr, hmin⟩ := List.min?_eq_some_iff.1 hr
    obtain ⟨p, hp, rfl⟩ := List.mem_map.1 hr
    apply List.find?_eq_none.1 h p hp
    simp only [List.all_eq_true, decide_eq_true_eq]
    exact fun q hq => hmin q.2 (List.mem_map_of_mem hq)
  · rintro rfl
    rfl

theorem of_first? (hp : l.first? = some p) :
    ∃ A B, l = A ++ p :: B ∧ l.erase p = A ++ B ∧ (∀ q ∈ A, p.2 < q.2) ∧ ∀ q ∈ l, p.2 ≤ q.2 := by
  obtain ⟨hall, A, B, hl, hA⟩ := List.find?_eq_some_iff_append.1 hp
  simp only [List.all_eq_true, decide_eq_true_eq] at hall
  -- No entry before it is of the least rank.
  have hlt : ∀ q ∈ A, p.2 < q.2 := by
    intro q hq
    obtain ⟨q', hq', hlt⟩ : ∃ q' ∈ l, q'.2 < q.2 := by simpa using hA q hq
    exact Nat.lt_of_le_of_lt (hall q' hq') hlt
  refine ⟨A, B, hl, ?_, hlt, hall⟩
  rw [hl, List.erase_append_right _ fun hpA => Nat.lt_irrefl _ (hlt p hpA), List.erase_cons_head]

theorem mem_handles_erase (hl : l.handles.Nodup) (hp : l.first? = some p) :
    g ∈ handles (l.erase p) ↔ g ∈ l.handles ∧ g ≠ p.1 := by
  obtain ⟨A, B, rfl, he, -⟩ := of_first? hp
  rw [he]
  simp only [handles, List.map_append, List.map_cons] at hl ⊢
  have hmid := (List.nodup_cons.1 (List.nodup_middle.1 hl)).1
  rw [List.perm_middle.mem_iff, List.mem_cons]
  constructor
  · intro hg
    exact ⟨.inr hg, fun h => hmid (h ▸ hg)⟩
  · rintro ⟨rfl | hg, hne⟩
    · exact absurd rfl hne
    · exact hg

theorem mem_of_first? (hp : l.first? = some p) : p ∈ l := List.mem_of_find?_eq_some hp

structure Orderly (n : Nat) (l : Waiting) : Prop where
  nodup : l.handles.Nodup
  lt : ∀ p ∈ l, p.2 < n

theorem orderly_nil : Orderly n [] := ⟨List.nodup_nil, nofun⟩

theorem Orderly.answer (hl : l.Orderly n) (hc : c.Allowed n) : Orderly n (l.answer c).2 := by
  cases c with
  | push h r =>
    rw [Waiting.answer, push]
    split
    · exact hl
    · next hh =>
      refine ⟨?_, List.forall_mem_append.2 ⟨hl.lt, List.forall_mem_singleton.2 hc⟩⟩
      rw [handles, List.map_append]
      exact List.nodup_append'.2 ⟨hl.nodup, List.nodup_singleton h, List.disjoint_singleton.2 hh⟩
  | pop =>
    rw [Waiting.answer]
    split
    · exact hl
    · next p hp =>
      have hsub : (l.erase p).Sublist l := List.erase_sublist
      exact ⟨hl.nodup.sublist (hsub.map Prod.fst), fun q hq => hl.lt q (hsub.subset hq)⟩
  | clear => exact orderly_nil
  | contains h => exact hl

theorem Orderly.answerAll (hl : l.Orderly n) (hcs : ∀ c ∈ cs, c.Allowed n) : Orderly n (l.answerAll cs).2 := by
  induction cs generalizing l with
  | nil => exact hl
  | cons c cs ih =>
    obtain ⟨hc, hcs⟩ := List.forall_mem_cons.1 hcs
    exact ih (hl.answer hc) hcs

theorem answerAll_eq {σ : Type} {answer : σ → Call → Except Misuse (Answer × σ)} {R : σ → Waiting → Prop} {s : σ}
    (hR : ∀ s l c, R s l → l.Orderly n → c.Allowed n →
      ∃ t, answer s c = .ok ((l.answer c).1, t) ∧ R t (l.answer c).2)
    (hs : R s l) (hl : l.Orderly n) (hcs : ∀ c ∈ cs, c.Allowed n) :
    ∃ t, answers answer s cs = .ok ((l.answerAll cs).1, t) ∧ R t (l.answerAll cs).2 := by
  induction cs generalizing s l with
  | nil => exact ⟨s, rfl, hs⟩
  | cons c cs ih =>
    obtain ⟨hc, hcs⟩ := List.forall_mem_cons.1 hcs
    obtain ⟨t, ht, hRt⟩ := hR s l c hs hl hc
    obtain ⟨u, hu, hRu⟩ := ih hRt (hl.answer hc) hcs
    refine ⟨u, ?_, hRu⟩
    rw [answers_cons ht, hu]
    rfl

def lane (l : Waiting) (r : Nat) : List Handle := handles (l.filter fun p => p.2 = r)

def lanes (n : Nat) (l : Waiting) : List (List Handle) := (List.range n).map l.lane

theorem mem_lane : h ∈ l.lane r ↔ (h, r) ∈ l := by
  simp [lane, handles]

theorem lane_eq_nil_iff : l.lane r = [] ↔ ∀ h, (h, r) ∉ l := by
  simp only [List.eq_nil_iff_forall_not_mem, mem_lane]

theorem lane_append : lane (l ++ m) r = l.lane r ++ m.lane r := by
  rw [lane, List.filter_append, handles, List.map_append]
  rfl

theorem lane_cons : lane (p :: l) r = if p.2 = r then p.1 :: l.lane r else l.lane r := by
  rw [lane, List.filter_cons]
  split <;> simp_all [lane, handles]

theorem lane_push (hh : h ∉ l.handles) (i : Nat) :
    (l.push h r).lane i = if i = r then l.lane i ++ [h] else l.lane i := by
  rw [push, if_neg hh, lane_append, lane_cons]
  simp only [eq_comm (a := r)]
  split
  · rfl
  · exact List.append_nil _

theorem lane_first? (hp : l.first? = some p) : l.lane p.2 = p.1 :: lane (l.erase p) p.2 := by
  obtain ⟨A, B, hl, he, hA, -⟩ := of_first? hp
  have hnil : lane A p.2 = [] := lane_eq_nil_iff.2 fun h hh => Nat.lt_irrefl _ (hA (h, p.2) hh)
  rw [he, hl, lane_append, lane_append, lane_cons, if_pos rfl, hnil, List.nil_append, List.nil_append]

theorem lane_erase (hp : l.first? = some p) (i : Nat) :
    lane (l.erase p) i = if i = p.2 then (l.lane i).tail else l.lane i := by
  split
  · next hi => rw [hi, lane_first? hp, List.tail_cons]
  · next hi =>
    obtain ⟨A, B, hl, he, -⟩ := of_first? hp
    rw [he, hl, lane_append, lane_append, lane_cons, if_neg (Ne.symm hi)]

theorem lane_eq_nil_of_lt (hp : l.first? = some p) (hi : i < p.2) : l.lane i = [] := by
  obtain ⟨A, B, -, -, -, hall⟩ := of_first? hp
  exact lane_eq_nil_iff.2 fun h hh => absurd (hall (h, i) hh) (Nat.not_le.2 hi)

theorem lane_filter_ne (r i : Nat) :
    lane (l.filter fun p => p.2 ≠ r) i = if i = r then [] else l.lane i := by
  rw [lane, List.filter_filter, lane]
  split
  · next hi =>
    have hnil : (l.filter fun p => decide (p.2 = i) && decide (p.2 ≠ r)) = [] := by
      apply List.filter_eq_nil_iff.2
      simp only [Bool.and_eq_true, decide_eq_true_eq, not_and, hi]
      exact fun _ _ => not_not_intro
    rw [hnil]
    rfl
  · next hi =>
    congr 1
    apply List.filter_congr
    intro p _
    by_cases hp : p.2 = i <;> simp [hp, hi]

theorem lanes_nil : lanes n [] = List.replicate n [] := by
  have h : lanes n [] = List.replicate (List.range n).length [] := List.map_const' ..
  rwa [List.length_range] at h

theorem length_lanes : (l.lanes n).length = n := by
  rw [lanes, List.length_map, List.length_range]

theorem getElem?_lanes : (l.lanes n)[i]? = if i < n then some (l.lane i) else none := by
  split
  · next hi => rw [lanes, List.getElem?_map, List.getElem?_range hi, Option.map_some]
  · next hi => exact List.getElem?_eq_none (length_lanes.symm ▸ Nat.not_lt.1 hi)

theorem mem_flatten_lanes (hl : l.Orderly n) : h ∈ (l.lanes n).flatten ↔ h ∈ l.handles := by
  simp only [mem_handles, List.mem_flatten, lanes, List.mem_map, List.mem_range]
  constructor
  · rintro ⟨_, ⟨r, -, rfl⟩, hh⟩
    exact ⟨r, mem_lane.1 hh⟩
  · rintro ⟨r, hr⟩
    exact ⟨_, ⟨r, hl.lt _ hr, rfl⟩, mem_lane.2 hr⟩

theorem modify_lanes (h : ∀ i, m.lane i = if i = r then f (l.lane i) else l.lane i) :
    (l.lanes n).modify r f = m.lanes n := by
  apply List.ext_getElem?
  intro i
  rw [List.getElem?_modify, getElem?_lanes, getElem?_lanes, h]
  by_cases hi : i < n
  · simp only [if_pos hi, eq_comm (a := r)]
    rfl
  · simp only [if_neg hi]
    rfl

theorem getElem?_lanes_of_mem (hl : l.Orderly n) (hp : p ∈ l) : (l.lanes n)[p.2]? = some (l.lane p.2) := by
  rw [getElem?_lanes, if_pos (hl.lt p hp)]

theorem popLane?_lanes (hl : l.Orderly n) (hp : l.first? = some p) :
    popLane? (l.lanes n) = some (p.1, lanes n (l.erase p)) := by
  have hpl := mem_of_first? hp
  rw [← modify_lanes (lane_erase hp)]
  apply popLane?_eq_some
  · intro i hi
    rw [getElem?_lanes, if_pos (Nat.lt_trans hi (hl.lt p hpl)), lane_eq_nil_of_lt hp hi]
  · rw [getElem?_lanes_of_mem hl hpl, lane_first? hp]

theorem answer_agenda (a : Agenda) (ha : a.lanes = l.lanes n) (hl : l.Orderly n) (hc : c.Allowed n) :
    ∃ b, a.answer c = .ok ((l.answer c).1, b) ∧ b.lanes = lanes n (l.answer c).2 := by
  obtain ⟨L⟩ := a
  obtain rfl : L = l.lanes n := ha
  have hmem : ∀ h, Agenda.contains ⟨l.lanes n⟩ h = true ↔ h ∈ l.handles :=
    fun h => contains_iff.trans (mem_flatten_lanes hl)
  cases c with
  | push h r =>
    rw [Agenda.answer, Agenda.push, answer]
    by_cases hh : h ∈ l.handles
    · rw [if_pos ((hmem h).2 hh), push, if_pos hh]
      exact ⟨_, rfl, rfl⟩
    · rw [if_neg (mt (hmem h).1 hh), if_pos (length_lanes.symm ▸ hc)]
      exact ⟨_, rfl, modify_lanes (lane_push hh)⟩
  | pop =>
    rw [Agenda.answer, Agenda.pop?, answer]
    cases hp : l.first? with
    | none =>
      obtain rfl := first?_eq_none_iff.1 hp
      have hnone : popLane? (lanes n []) = none := by
        have hnil : Agenda.toList ⟨lanes n []⟩ = [] :=
          List.eq_nil_iff_forall_not_mem.2 fun h => mt (mem_flatten_lanes hl).1 List.not_mem_nil
        exact Option.map_eq_none_iff.1 (pop?_eq_none_iff.2 hnil)
      rw [hnone]
      exact ⟨_, rfl, rfl⟩
    | some p =>
      rw [popLane?_lanes hl hp]
      exact ⟨_, rfl, rfl⟩
  | clear => exact ⟨_, rfl, List.map_map ..⟩
  | contains h =>
    rw [Agenda.answer, Bool.eq_iff_iff.2 ((hmem h).trans decide_eq_true_iff.symm)]
    exact ⟨_, rfl, rfl⟩

end Waiting

namespace IndexedAgenda

open Agenda

variable {a : IndexedAgenda} {l : Waiting} {h : Handle} {p : Handle × Nat} {n r : Nat} {rs : List Nat} {c : Call}

/-- The lanes hold what is due, which is what is marked; and the heap has each rank once whose lane is not empty. -/
structure Indexes (n : Nat) (a : IndexedAgenda) (l : Waiting) : Prop where
  lanes : a.lanes = l.lanes n
  marks : ∀ h, a.contains h = true ↔ h ∈ l.handles
  nodup : a.ranks.Nodup
  ranks : ∀ r, r ∈ a.ranks ↔ l.lane r ≠ []

theorem indexes_withLevels : (withLevels n).Indexes n [] where
  lanes := Waiting.lanes_nil.symm
  marks _ := ⟨nofun, nofun⟩
  nodup := List.nodup_nil
  ranks _ := ⟨nofun, fun h => absurd rfl h⟩

theorem set_marks {marks : Table Handle Bool} {b : Bool} (hh : Key.index h < marks.size) :
    ∃ m, marks.set h b = .ok m ∧
      ∀ g, (m.get? g).getD false = if g = h then b else (marks.get? g).getD false := by
  rw [Table.set, if_pos hh]
  refine ⟨_, rfl, fun g => ?_⟩
  rw [Table.get?_modify]
  simp only [Handle.key_inj, eq_comm (a := h)]
  split
  · next hg =>
    obtain ⟨a, ha⟩ := Table.lt_size_iff.1 hh
    rw [hg, ha]
    rfl
  · rfl

theorem Indexes.push (ha : a.Indexes n l) (hr : r < n) (h : Handle) :
    ∃ b, a.push h r = .ok b ∧ b.Indexes n (l.push h r) := by
  rw [IndexedAgenda.push]
  by_cases hh : h ∈ l.handles
  · rw [if_pos ((ha.marks h).2 hh), Waiting.push, if_pos hh]
    exact ⟨a, rfl, ha⟩
  have hlane : a.lanes[r]? = some (l.lane r) := by rw [ha.lanes, Waiting.getElem?_lanes, if_pos hr]
  obtain ⟨m, hm, hmarks⟩ := set_marks (b := true) (Table.lt_size_reserve (t := a.marks) (a := false))
  rw [if_neg (mt (ha.marks h).1 hh), hm, ok_bind, hlane]
  refine ⟨_, rfl, ?_, fun g => ?_, ?_, fun i => ?_⟩
  · rw [ha.lanes]
    exact Waiting.modify_lanes (Waiting.lane_push hh)
  · rw [contains, hmarks, Table.getD_get?_reserve, Waiting.mem_handles_push, ← ha.marks, contains]
    split <;> simp [*]
  · dsimp only
    split
    · next hnil => exact List.nodup_cons.2 ⟨fun hmem => (ha.ranks r).1 hmem hnil, ha.nodup⟩
    · exact ha.nodup
  · rw [Waiting.lane_push hh]
    have hi := ha.ranks i
    dsimp only
    by_cases hir : i = r
    · subst hir
      split <;> simp [*]
    · split <;> simp [*]

theorem Indexes.lt_size (ha : a.Indexes n l) (hh : h ∈ l.handles) : Key.index h < a.marks.size := by
  have hmark := (ha.marks h).2 hh
  rw [contains, Option.getD_eq_iff] at hmark
  exact Table.lt_size_iff.2 ⟨true, hmark.resolve_right nofun⟩

theorem Indexes.min?_eq (ha : a.Indexes n l) (hp : l.first? = some p) : a.ranks.min? = some p.2 := by
  have hmem : p.2 ∈ a.ranks := (ha.ranks p.2).2 (List.ne_nil_of_mem (Waiting.mem_lane.2 (Waiting.mem_of_first? hp)))
  refine List.min?_eq_some_iff.2 ⟨hmem, fun r hr => ?_⟩
  by_contra hlt
  exact (ha.ranks r).1 hr (Waiting.lane_eq_nil_of_lt hp (Nat.not_le.1 hlt))

theorem Indexes.mem_ranks_pop (ha : a.Indexes n l) (hp : l.first? = some p) (i : Nat) :
    i ∈ (if Waiting.lane (l.erase p) p.2 = [] then a.ranks.erase p.2 else a.ranks) ↔
      Waiting.lane (l.erase p) i ≠ [] := by
  have hi := ha.ranks i
  by_cases hip : i = p.2
  · subst hip
    split
    · next hnil => simp [ha.nodup.mem_erase_iff, hnil]
    · next hne => simp [hi, hne, Waiting.lane_first? hp]
  · rw [Waiting.lane_erase hp i, if_neg hip, ← hi]
    split
    · rw [ha.nodup.mem_erase_iff, and_iff_right hip]
    · rfl

theorem Indexes.pop (ha : a.Indexes n l) (hl : l.Orderly n) :
    ∃ b, a.pop = .ok (l.first?.map Prod.fst, b) ∧ b.Indexes n (l.answer .pop).2 := by
  rw [IndexedAgenda.pop, Waiting.answer]
  cases hp : l.first? with
  | none =>
    obtain rfl := Waiting.first?_eq_none_iff.1 hp
    have hnil : a.ranks = [] := List.eq_nil_iff_forall_not_mem.2 fun r hr => (ha.ranks r).1 hr rfl
    rw [hnil]
    exact ⟨a, rfl, ha⟩
  | some p =>
    have hpl := Waiting.mem_of_first? hp
    have hlane : a.lanes[p.2]? = some (p.1 :: Waiting.lane (l.erase p) p.2) := by
      rw [ha.lanes, Waiting.getElem?_lanes_of_mem hl hpl, Waiting.lane_first? hp]
    obtain ⟨m, hm, hmarks⟩ := set_marks (b := false) (ha.lt_size (Waiting.mem_handles.2 ⟨p.2, hpl⟩))
    rw [ha.min?_eq hp]
    dsimp only
    rw [hlane]
    dsimp only
    rw [hm, ok_bind]
    refine ⟨_, rfl, ?_, fun g => ?_, ?_, ha.mem_ranks_pop hp⟩
    · rw [ha.lanes]
      exact Waiting.modify_lanes (Waiting.lane_erase hp)
    · rw [contains, hmarks, Waiting.mem_handles_erase hl.nodup hp, ← ha.marks, contains]
      split <;> simp [*]
    · dsimp only
      split
      · exact ha.nodup.erase _
      · exact ha.nodup

theorem clearLane_lanes (hr : r < n) : clearLane (l.lanes n) r = .ok (Waiting.lanes n (l.filter fun p => p.2 ≠ r)) := by
  rw [clearLane, if_pos (Waiting.length_lanes.symm ▸ hr), Waiting.modify_lanes (Waiting.lane_filter_ne r)]

theorem foldlM_clearLane (hrs : ∀ r ∈ rs, r < n) :
    rs.foldlM clearLane (l.lanes n) = .ok (Waiting.lanes n (l.filter fun p => p.2 ∉ rs)) := by
  induction rs generalizing l with
  | nil =>
    rw [List.filter_eq_self.2 fun p _ => by simp]
    rfl
  | cons r rs ih =>
    obtain ⟨hr, hrs⟩ := List.forall_mem_cons.1 hrs
    rw [List.foldlM_cons, clearLane_lanes hr, ok_bind, ih hrs, List.filter_filter]
    simp [Bool.and_comm]

theorem Indexes.clear (ha : a.Indexes n l) (hl : l.Orderly n) : ∃ b, a.clear = .ok b ∧ b.Indexes n [] := by
  have hmem : ∀ r, r ∈ a.ranks ↔ ∃ h, (h, r) ∈ l := fun r => by
    rw [ha.ranks, Ne, Waiting.lane_eq_nil_iff, not_forall_not]
  have hrs : ∀ r ∈ a.ranks, r < n := fun r hr => by
    obtain ⟨h, hh⟩ := (hmem r).1 hr
    exact hl.lt (h, r) hh
  have hnil : (l.filter fun p => p.2 ∉ a.ranks) = [] := by
    apply List.filter_eq_nil_iff.2
    intro p hp
    simpa using (hmem p.2).2 ⟨p.1, hp⟩
  rw [IndexedAgenda.clear, ha.lanes, foldlM_clearLane hrs, ok_bind, hnil]
  refine ⟨_, rfl, rfl, fun h => ?_, List.nodup_nil, fun r => ⟨nofun, fun h => absurd rfl h⟩⟩
  rw [contains, Table.get?_map]
  cases a.marks.get? h <;> exact ⟨nofun, nofun⟩

theorem Indexes.answer (ha : a.Indexes n l) (hl : l.Orderly n) (hc : c.Allowed n) :
    ∃ b, a.answer c = .ok ((l.answer c).1, b) ∧ b.Indexes n (l.answer c).2 := by
  cases c with
  | push h r =>
    obtain ⟨b, hb, hi⟩ := ha.push hc h
    refine ⟨b, ?_, hi⟩
    rw [IndexedAgenda.answer, hb]
    rfl
  | pop =>
    obtain ⟨b, hb, hi⟩ := ha.pop hl
    refine ⟨b, ?_, hi⟩
    rw [IndexedAgenda.answer, hb, ok_bind, Waiting.answer]
    cases l.first? <;> rfl
  | clear =>
    obtain ⟨b, hb, hi⟩ := ha.clear hl
    refine ⟨b, ?_, hi⟩
    rw [IndexedAgenda.answer, hb]
    rfl
  | contains h =>
    refine ⟨a, ?_, ha⟩
    rw [IndexedAgenda.answer, Waiting.answer, Bool.eq_iff_iff.2 ((ha.marks h).trans decide_eq_true_iff.symm)]

end IndexedAgenda

/-- An agenda answers as the list of what is due: what is asked for again keeps its place and its rank, and what goes
first is the entry that has waited longest of the least rank there is. So does an agenda with an index. -/
theorem Agenda.answers_as_waiting (n : Nat) (cs : List Agenda.Call) (hcs : ∀ c ∈ cs, c.Allowed n) :
    ∃ as l, Waiting.answerAll [] cs = (as, l) ∧
      (∃ a, answers Agenda.answer (.withLevels n) cs = .ok (as, a) ∧ a.lanes = l.lanes n) ∧
      (∃ i, answers IndexedAgenda.answer (.withLevels n) cs = .ok (as, i) ∧ i.Indexes n l) ∧
      l.handles.Nodup ∧ (l.first? = none ↔ l = []) ∧
      ∀ p, l.first? = some p →
        ∃ A B, l = A ++ p :: B ∧ l.erase p = A ++ B ∧ (∀ q ∈ A, p.2 < q.2) ∧ ∀ q ∈ l, p.2 ≤ q.2 := by
  have hnil : Waiting.Orderly n [] := Waiting.orderly_nil
  obtain ⟨a, ha, hla⟩ := Waiting.answerAll_eq (R := fun a l => a.lanes = l.lanes n)
    (fun a l c => Waiting.answer_agenda a) (s := Agenda.withLevels n) Waiting.lanes_nil.symm hnil hcs
  obtain ⟨i, hi, hli⟩ := Waiting.answerAll_eq (R := IndexedAgenda.Indexes n)
    (fun i l c => IndexedAgenda.Indexes.answer) IndexedAgenda.indexes_withLevels hnil hcs
  exact ⟨_, _, rfl, ⟨a, ha, hla⟩, ⟨i, hi, hli⟩, (hnil.answerAll hcs).nodup, Waiting.first?_eq_none_iff,
    fun p => Waiting.of_first?⟩

theorem Agenda.answers_with_ranks :
    let early := [.push ⟨1⟩ 2, .push ⟨0⟩ 1, .push ⟨2⟩ 1, .push ⟨1⟩ 0, .contains ⟨1⟩, .pop, .contains ⟨0⟩, .pop]
    let late := [.clear, .contains ⟨1⟩, .push ⟨1⟩ 0, .pop, .pop]
    ∃ a i, answers Agenda.answer (.withLevels 3) (early ++ late) = .ok (a, i) ∧
      a = [.done, .done, .done, .done, .contained true, .popped (some ⟨0⟩), .contained false, .popped (some ⟨2⟩), .done,
        .contained false, .done, .popped (some ⟨1⟩), .popped none] := by
  intro early late
  have hcs : ∀ c ∈ early ++ late, c.Allowed 3 := by decide
  obtain ⟨as, l, hl, ⟨a, ha, -⟩, -⟩ := Agenda.answers_as_waiting 3 (early ++ late) hcs
  exact ⟨as, a, ha, (congrArg Prod.fst hl).symm⟩

end DomainPropagation
