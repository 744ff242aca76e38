import DomainPropagation.Proofs.Calls
import DomainPropagation.Proofs.Levels
import DomainPropagation.Trail.Delimited
import Mathlib.Data.List.Perm.Basic

/-! Trails in layers. A trail answers every sequence of calls as a list of layers does, one for each level, from which
going back takes those above a level; and so does a trail with the place where each level ends. -/

namespace DomainPropagation

/-- What is on record of each level, all newest first. There is always the layer of the root level. -/
structure Layers (α : Type) where
  current : List α := []
  lower : List (List α) := []
deriving DecidableEq

namespace Trail

variable {α : Type}

inductive Call (α : Type)
  | push (a : α)
  | openLevel
  | backTo (target : Nat)
  | level
  | length

inductive Answer (α : Type)
  | done
  | undone (entries : List α)
  | number (n : Nat)
deriving DecidableEq

namespace Call

def levelAfter (level : Nat) : Call α → Nat
  | .openLevel => level + 1
  | .backTo target => target
  | _ => level

def Allowed (level : Nat) : Call α → Prop
  | .backTo target => target < level
  | _ => True

instance (level : Nat) : (c : Call α) → Decidable (c.Allowed level)
  | .backTo target => inferInstanceAs (Decidable (target < level))
  | .push _ | .openLevel | .level | .length => isTrue trivial

def pushed? : Call α → Option α
  | .push a => some a
  | _ => none

/-- What was pushed stands, with the level it was pushed at, until a lower level is gone back to. -/
def standing (n : Nat) (entries : List (Nat × α)) : Call α → List (Nat × α)
  | .push a => (n, a) :: entries
  | .backTo target => entries.filter (·.1 ≤ target)
  | _ => entries

def standingAfter (n : Nat) (entries : List (Nat × α)) : List (Call α) → List (Nat × α)
  | [] => entries
  | c :: cs => standingAfter (c.levelAfter n) (c.standing n entries) cs

end Call

def Answer.handedBack : Answer α → List α
  | .undone entries => entries
  | _ => []

def answer (t : Trail α) : Call α → Except Misuse (Answer α × Trail α)
  | .push a => .ok (.done, t.push a)
  | .openLevel => .ok (.done, t.openLevel)
  | .backTo target => do
    let (undone, t) ← t.backTo target
    return (.undone undone, t)
  | .level => .ok (.number t.level, t)
  | .length => .ok (.number t.length, t)

end Trail

open Trail

variable {α : Type}

def DelimitedTrail.answer (t : DelimitedTrail α) : Call α → Except Misuse (Answer α × DelimitedTrail α)
  | .push a => .ok (.done, t.push a)
  | .openLevel => .ok (.done, t.openLevel)
  | .backTo target => do
    let (undone, t) ← t.backTo target
    return (.undone undone, t)
  | .level => .ok (.number t.level, t)
  | .length => .ok (.number t.entries.length, t)

namespace Layers

open scoped List

variable {l m : Layers α} {ls : List (List α)} {i j k : Nat} {c : Call α} {cs : List (Call α)} {a : Answer α}
  {as : List (Answer α)} {es : List (Nat × α)}

def toList (l : Layers α) : List (List α) := l.current :: l.lower

def level (l : Layers α) : Nat := l.lower.length

def push (l : Layers α) (a : α) : Layers α := { l with current := a :: l.current }

def openLevel (l : Layers α) : Layers α := ⟨[], l.toList⟩

def lowered (l : Layers α) (k : Nat) : Layers α :=
  let rest := l.toList.drop (l.level - k)
  ⟨rest.headD [], rest.tail⟩

def backTo (l : Layers α) (k : Nat) : Except Misuse (List α × Layers α) :=
  if k < l.level then .ok ((l.toList.take (l.level - k)).flatten, l.lowered k) else .error (.levelNotBelow l.level k)

def answer (l : Layers α) : Call α → Except Misuse (Answer α × Layers α)
  | .push a => .ok (.done, l.push a)
  | .openLevel => .ok (.done, l.openLevel)
  | .backTo k => do
    let (undone, l) ← l.backTo k
    return (.undone undone, l)
  | .level => .ok (.number l.level, l)
  | .length => .ok (.number l.toList.flatten.length, l)

def ends : List (List α) → List Nat
  | [] => []
  | l :: ls => (l :: ls).flatten.length :: ends ls

def toTrail (l : Layers α) : Trail α := ⟨l.toList.flatten, ends l.lower⟩

def toDelimited (l : Layers α) : DelimitedTrail α := ⟨l.level, (ends l.lower).reverse, l.toList.flatten.reverse⟩

def tagged : List (List α) → List (Nat × α)
  | [] => []
  | l :: ls => l.map (ls.length, ·) ++ tagged ls

theorem length_ends (ls : List (List α)) : (ends ls).length = ls.length := by
  induction ls with
  | nil => rfl
  | cons l ls ih => exact congrArg (· + 1) ih

theorem drop_ends (ls : List (List α)) (i : Nat) : (ends ls).drop i = ends (ls.drop i) := by
  induction ls generalizing i with
  | nil => rw [ends, List.drop_nil, List.drop_nil, ends]
  | cons l ls ih =>
    cases i with
    | zero => rfl
    | succ i => exact ih i

theorem getElem?_ends (hi : i < ls.length) : (ends ls)[i]? = some (ls.drop i).flatten.length := by
  rw [← List.head?_drop, drop_ends, List.drop_eq_getElem_cons hi]
  rfl

theorem toList_lowered (l : Layers α) (k : Nat) : (l.lowered k).toList = l.toList.drop (l.level - k) := by
  have hlt : l.level - k < l.toList.length := Nat.lt_succ_of_le (Nat.sub_le ..)
  rw [lowered, List.drop_eq_getElem_cons hlt]
  rfl

theorem level_lowered (hk : k < l.level) : (l.lowered k).level = k := by
  have hlen := congrArg List.length (toList_lowered l k)
  have hl : l.toList.length = l.level + 1 := rfl
  have hm : (l.lowered k).toList.length = (l.lowered k).level + 1 := rfl
  rw [List.length_drop] at hlen
  omega

theorem flatten_toList (l : Layers α) (k : Nat) :
    (l.toList.take (l.level - k)).flatten ++ (l.lowered k).toList.flatten = l.toList.flatten := by
  rw [toList_lowered, ← List.flatten_append, List.take_append_drop]

theorem getElem?_ends_lower (hk : k < l.level) :
    (ends l.lower)[l.level - k - 1]? = some (l.lowered k).toList.flatten.length := by
  obtain ⟨n, hn⟩ : ∃ n, l.level - k = n + 1 := ⟨l.level - k - 1, by omega⟩
  have hlt : n < l.lower.length := by
    change n < l.level
    omega
  rw [toList_lowered, hn, Nat.add_sub_cancel, getElem?_ends hlt]
  rfl

theorem ends_lowered (l : Layers α) (k : Nat) : ends (l.lowered k).lower = (ends l.lower).drop (l.level - k) := by
  have hd : (l.lowered k).lower = l.lower.drop (l.level - k) := by
    have ht := congrArg List.tail (toList_lowered l k)
    rwa [List.tail_drop] at ht
  rw [drop_ends, hd]

theorem toTrail_backTo (l : Layers α) (k : Nat) :
    l.toTrail.backTo k = Prod.map id toTrail <$> l.backTo k := by
  have hlevel : l.toTrail.level = l.level := length_ends l.lower
  by_cases hk : k < l.level
  · have hmark : l.toTrail.mark k = (l.lowered k).toList.flatten.length := by
      rw [Trail.mark_eq, hlevel]
      change ((ends l.lower)[l.level - k - 1]?).getD 0 = _
      rw [getElem?_ends_lower hk, Option.getD_some]
    have hlen : l.toTrail.length - l.toTrail.mark k = (l.toList.take (l.level - k)).flatten.length := by
      rw [hmark, Trail.length, toTrail, ← flatten_toList l k, List.length_append, Nat.add_sub_cancel]
    rw [Trail.backTo_eq (hlevel ▸ hk), Trail.above, Trail.lowered, Trail.below, hlen, hlevel, backTo, if_pos hk]
    change Except.ok (l.toList.flatten.take _, Trail.mk (l.toList.flatten.drop _) ((ends l.lower).drop _)) = _
    rw [← flatten_toList l k, List.take_left, List.drop_left, ← ends_lowered]
    rfl
  · rw [Trail.backTo, hlevel, if_neg hk, backTo, if_neg hk]
    rfl

theorem toDelimited_backTo (l : Layers α) (k : Nat) :
    l.toDelimited.backTo k = Prod.map id toDelimited <$> l.backTo k := by
  rw [DelimitedTrail.backTo, backTo]
  change (if k < l.level then _ else _) = _
  split
  · next hk =>
    let lower := (l.lowered k).toList.flatten
    have hend : l.toDelimited.ends[k]? = some lower.length := by
      have hlt : k < (ends l.lower).length := (length_ends l.lower).symm ▸ hk
      rw [toDelimited, List.getElem?_reverse hlt, length_ends, Nat.sub_right_comm]
      exact getElem?_ends_lower hk
    have hentries : l.toDelimited.entries = lower.reverse ++ (l.toList.take (l.level - k)).flatten.reverse := by
      rw [toDelimited, ← flatten_toList l k, List.reverse_append]
    have hends : l.toDelimited.ends.take k = (ends (l.lowered k).lower).reverse := by
      rw [toDelimited, List.take_reverse, length_ends, ends_lowered]
      rfl
    have hdrain : DelimitedTrail.drain l.toDelimited.entries lower.length =
        .ok ((l.toList.take (l.level - k)).flatten, lower.reverse) := by
      rw [DelimitedTrail.drain, hentries, if_pos (by simp), List.drop_left' (List.length_reverse ..),
        List.take_left' (List.length_reverse ..), List.reverse_reverse]
    rw [hend]
    change (DelimitedTrail.drain _ _ >>= _) = Except.ok (_, toDelimited _)
    rw [hdrain, ok_bind, hends, toDelimited, level_lowered hk]
    rfl
  · rfl

theorem toTrail_answer (l : Layers α) (c : Call α) : l.toTrail.answer c = Prod.map id toTrail <$> l.answer c := by
  cases c with
  | push a | openLevel | length => rfl
  | backTo k =>
    rw [Trail.answer, toTrail_backTo, answer]
    cases l.backTo k <;> rfl
  | level => exact congrArg (fun n => Except.ok (Answer.number n, l.toTrail)) (length_ends l.lower)

theorem toDelimited_answer (l : Layers α) (c : Call α) :
    l.toDelimited.answer c = Prod.map id toDelimited <$> l.answer c := by
  have hlen : l.toDelimited.entries.length = l.toList.flatten.length := List.length_reverse
  cases c with
  | push a =>
    have hentries : l.toDelimited.entries ++ [a] = (l.push a).toDelimited.entries := (List.reverse_cons ..).symm
    rw [DelimitedTrail.answer, DelimitedTrail.push, hentries]
    rfl
  | openLevel =>
    have hends : l.toDelimited.ends ++ [l.toDelimited.entries.length] = l.openLevel.toDelimited.ends := by
      rw [hlen]
      exact (List.reverse_cons ..).symm
    rw [DelimitedTrail.answer, DelimitedTrail.openLevel, hends]
    rfl
  | backTo k =>
    rw [DelimitedTrail.answer, toDelimited_backTo, answer]
    cases l.backTo k <;> rfl
  | level => rfl
  | length =>
    rw [DelimitedTrail.answer, hlen]
    rfl

theorem level_lt_of_mem_tagged {p : Nat × α} (hp : p ∈ tagged ls) : p.1 < ls.length := by
  induction ls with
  | nil => cases hp
  | cons l ls ih =>
    rcases List.mem_append.1 hp with hp | hp
    · obtain ⟨a, -, rfl⟩ := List.mem_map.1 hp
      exact Nat.lt_succ_self _
    · exact Nat.lt_succ_of_lt (ih hp)

theorem tagged_eq_append_drop (ls : List (List α)) (i : Nat) :
    ∃ es, tagged ls = es ++ tagged (ls.drop i) ∧ es.map Prod.snd = (ls.take i).flatten ∧
      ∀ p ∈ es, ls.length - i ≤ p.1 := by
  induction ls generalizing i with
  | nil => exact ⟨[], by rw [List.drop_nil]; rfl, by rw [List.take_nil]; rfl, nofun⟩
  | cons l ls ih =>
    cases i with
    | zero => exact ⟨[], rfl, rfl, nofun⟩
    | succ i =>
      obtain ⟨es, hes, hsnd, hlevel⟩ := ih i
      refine ⟨l.map (ls.length, ·) ++ es, ?_, ?_, fun p hp => ?_⟩
      · rw [tagged, hes, List.append_assoc]
        rfl
      · rw [List.map_append, hsnd, List.map_map, List.take_succ_cons, List.flatten_cons]
        exact congrArg (· ++ _) (List.map_id l)
      · rw [List.length_cons, Nat.add_sub_add_right]
        rcases List.mem_append.1 hp with hp | hp
        · obtain ⟨a, -, rfl⟩ := List.mem_map.1 hp
          exact Nat.sub_le ..
        · exact hlevel p hp

theorem tagged_lowered (hk : k < l.level) :
    tagged (l.lowered k).toList = (tagged l.toList).filter (·.1 ≤ k) ∧
      (l.toList.take (l.level - k)).flatten = ((tagged l.toList).filter (k < ·.1)).map Prod.snd := by
  obtain ⟨es, hes, hsnd, habove⟩ := tagged_eq_append_drop l.toList (l.level - k)
  rw [← toList_lowered] at hes
  have hlen : l.toList.length = l.level + 1 := rfl
  have habove : ∀ p ∈ es, k < p.1 := by
    intro p hp
    have := habove p hp
    omega
  have hbelow : ∀ p ∈ tagged (l.lowered k).toList, p.1 ≤ k := by
    intro p hp
    have hlt : p.1 < (l.lowered k).level + 1 := level_lt_of_mem_tagged hp
    rw [level_lowered hk] at hlt
    exact Nat.lt_succ_iff.1 hlt
  rw [hes, List.filter_append, List.filter_append]
  constructor
  · rw [List.filter_eq_nil_iff.2 fun p hp => by simpa using habove p hp, List.nil_append,
      List.filter_eq_self.2 fun p hp => decide_eq_true (hbelow p hp)]
  · rw [List.filter_eq_self.2 fun p hp => decide_eq_true (habove p hp),
      List.filter_eq_nil_iff.2 fun p hp => by simpa using hbelow p hp, List.append_nil, hsnd]

theorem answer_spec (hc : c.Allowed l.level) : ∃ a m, l.answer c = .ok (a, m) ∧
    m.level = c.levelAfter l.level ∧ tagged m.toList = c.standing l.level (tagged l.toList) ∧
    a.handedBack ++ m.toList.flatten = c.pushed?.toList ++ l.toList.flatten := by
  cases c with
  | push a | openLevel | level | length => exact ⟨_, _, rfl, rfl, rfl, rfl⟩
  | backTo k =>
    have hk : k < l.level := hc
    obtain ⟨hstanding, -⟩ := tagged_lowered hk
    refine ⟨.undone _, l.lowered k, ?_, level_lowered hk, hstanding, flatten_toList l k⟩
    rw [answer, backTo, if_pos hk]
    rfl

theorem answers_spec (hcs : AllFit Call.levelAfter Call.Allowed l.level cs) :
    ∃ as m, answers Layers.answer l cs = .ok (as, m) ∧ m.level = cs.foldl Call.levelAfter l.level ∧
    tagged m.toList = Call.standingAfter l.level (tagged l.toList) cs ∧
    (as.flatMap Answer.handedBack ++ m.toList.flatten).Perm (cs.filterMap Call.pushed? ++ l.toList.flatten) := by
  induction cs generalizing l with
  | nil => exact ⟨[], l, rfl, rfl, rfl, .refl _⟩
  | cons c cs ih =>
    obtain ⟨hc, hcs⟩ := hcs
    obtain ⟨a, m, ha, hlevel, hstanding, hback⟩ := answer_spec hc
    rw [← hlevel] at hcs
    obtain ⟨as, n, has, hlevel', hstanding', hback'⟩ := ih hcs
    refine ⟨a :: as, n, ?_, ?_, ?_, ?_⟩
    · rw [answers_cons ha, has]
      rfl
    · rw [List.foldl_cons, ← hlevel, hlevel']
    · rw [Call.standingAfter, ← hlevel, ← hstanding, hstanding']
    · -- What one call hands back comes before what the later ones do; only the order is another.
      have hpushed : (c :: cs).filterMap Call.pushed? = c.pushed?.toList ++ cs.filterMap Call.pushed? := by
        cases c <;> rfl
      rw [List.flatMap_cons, hpushed, List.append_assoc, List.append_assoc]
      calc a.handedBack ++ (as.flatMap Answer.handedBack ++ n.toList.flatten)
        _ ~ a.handedBack ++ (cs.filterMap Call.pushed? ++ m.toList.flatten) := hback'.append_left _
        _ ~ cs.filterMap Call.pushed? ++ (a.handedBack ++ m.toList.flatten) := List.perm_append_comm_assoc ..
        _ = cs.filterMap Call.pushed? ++ (c.pushed?.toList ++ l.toList.flatten) := by rw [hback]
        _ ~ c.pushed?.toList ++ (cs.filterMap Call.pushed? ++ l.toList.flatten) := List.perm_append_comm_assoc ..

end Layers

/-- A trail answers as its layers do: it counts the levels above the root and all entries, and going back to a level
hands back what was pushed above it and stands, the newest first, and leaves the layers up to the level. What was ever
pushed has been handed back once or stands. So it is with the ends of the levels in place of the marks. -/
theorem Trail.answers_as_layers (cs : List (Call α)) (hcs : AllFit Call.levelAfter Call.Allowed 0 cs) :
    ∃ as l, answers Layers.answer {} cs = .ok (as, l) ∧ answers Trail.answer {} cs = .ok (as, l.toTrail) ∧
      answers DelimitedTrail.answer {} cs = .ok (as, l.toDelimited) ∧ l.level = cs.foldl Call.levelAfter 0 ∧
      Layers.tagged l.toList = Call.standingAfter 0 [] cs ∧
      (as.flatMap Answer.handedBack ++ l.toList.flatten).Perm (cs.filterMap Call.pushed?) ∧
      ∀ k < l.level, ∃ (undone : List α) (m : Layers α),
        undone = ((Call.standingAfter 0 [] cs).filter (k < ·.1)).map Prod.snd ∧
        l.toTrail.backTo k = .ok (undone, m.toTrail) ∧ l.toDelimited.backTo k = .ok (undone, m.toDelimited) ∧
        m.toList = l.toList.drop (l.level - k) ∧
        Layers.tagged m.toList = (Call.standingAfter 0 [] cs).filter (·.1 ≤ k) := by
  obtain ⟨as, l, has, hlevel, hstanding, hback⟩ := Layers.answers_spec (l := {}) hcs
  have htrail := answers_comm Layers.toTrail_answer {} cs
  have hdelimited := answers_comm Layers.toDelimited_answer {} cs
  rw [has] at htrail hdelimited
  refine ⟨as, l, has, htrail, hdelimited, hlevel, hstanding, ?_, fun k hk => ?_⟩
  · simpa [Layers.toList] using hback
  · obtain ⟨hbelow, habove⟩ := Layers.tagged_lowered hk
    rw [hstanding] at hbelow habove
    have hback : l.backTo k = .ok ((l.toList.take (l.level - k)).flatten, l.lowered k) := if_pos hk
    refine ⟨_, l.lowered k, habove, ?_, ?_, l.toList_lowered k, hbelow⟩
    · rw [l.toTrail_backTo, hback]
      rfl
    · rw [l.toDelimited_backTo, hback]
      rfl

theorem Trail.answers_as_layers_reopened :
    let early : List (Call Nat) := [.push 1, .openLevel, .push 2, .openLevel, .openLevel, .push 3, .push 4, .backTo 1]
    let late : List (Call Nat) := [.push 5, .openLevel, .push 6, .length, .level]
    ∃ t, answers Trail.answer {} (early ++ late) = .ok ([.done, .done, .done, .done, .done, .done, .done,
        .undone [4, 3], .done, .done, .done, .number 4, .number 2], t) ∧
      ∃ u, t.backTo 0 = .ok ([6, 5, 2], u) ∧ u.entries = [1] := by
  intro early late
  obtain ⟨as, l, hl, ht, -, hlevel, -, -, hback⟩ := Trail.answers_as_layers (early ++ late) (by decide)
  obtain ⟨undone, m, hundone, hm, -, hlist, -⟩ := hback 0 (hlevel ▸ by decide)
  cases hl
  cases hundone
  refine ⟨_, ht, _, hm, ?_⟩
  rw [Layers.toTrail, hlist]
  rfl

end DomainPropagation
