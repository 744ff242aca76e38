import DomainPropagation.Proofs.Calls
import DomainPropagation.Proofs.Watching
import Mathlib.Order.Bounds.Basic
import Mathlib.Order.Nat

/-! Subscriptions. After any calls, a propagator is woken by what it has asked to watch for since it last left the
variable, and those that one event wakes are listed in the order in which they have asked for something. -/

namespace DomainPropagation

namespace Watchers

inductive Call
  | grow
  | watch (x : Var) (h : Handle) (es : EventSet)
  | unwatch (x : Var) (h : Handle)
deriving DecidableEq

namespace Call

def sizeAfter (n : Nat) : Call → Nat
  | .grow => n + 1
  | _ => n

def Fits (n : Nat) : Call → Prop
  | .grow => True
  | .watch x _ _ | .unwatch x _ => x.index < n

instance (n : Nat) : (c : Call) → Decidable (c.Fits n)
  | .grow => isTrue trivial
  | .watch x _ _ | .unwatch x _ => inferInstanceAs (Decidable (x.index < n))

end Call

def perform (w : Watchers) : Call → Except Misuse Watchers
  | .grow => .ok w.grow
  | .watch x h es => w.watch x h es
  | .unwatch x h => w.unwatch x h

def run (w : Watchers) (cs : List Call) : Except Misuse Watchers := cs.foldlM perform w

variable {w w' : Watchers} {ws : List Watcher} {cs before : List Call} {c : Call} {x y : Var} {g h : Handle}
  {es : EventSet} {e : Event} {i j : Nat}

/-- The call at place `i` subscribes to something, and the propagator has not left the variable since. -/
structure Stands (cs : List Call) (x : Var) (h : Handle) (i : Nat) (es : EventSet) : Prop where
  asked : cs[i]? = some (.watch x h es)
  something : es ≠ ∅
  stayed : ∀ j, i < j → cs[j]? ≠ some (.unwatch x h)

/-- The propagator has joined the variable at place `i`: with the first of its subscriptions that stand. -/
def Joined (cs : List Call) (x : Var) (h : Handle) (i : Nat) : Prop := IsLeast {i | ∃ es, Stands cs x h i es} i

theorem Stands.lt (hs : Stands cs x h i es) : i < cs.length := (List.getElem?_eq_some_iff.1 hs.asked).1

theorem getElem?_append_singleton_eq_some {d : Call} :
    (cs ++ [c])[i]? = some d ↔ cs[i]? = some d ∨ i = cs.length ∧ c = d := by
  rcases Nat.lt_trichotomy i cs.length with hlt | rfl | hgt
  · rw [List.getElem?_append_left hlt, or_iff_left fun h => hlt.ne h.1]
  · rw [List.getElem?_concat_length, List.getElem?_eq_none le_rfl]
    simp
  · have hlen : (cs ++ [c]).length ≤ i := by
      rw [List.length_append]
      exact hgt
    rw [List.getElem?_eq_none hlen, List.getElem?_eq_none hgt.le]
    simp [hgt.ne']

theorem stands_append_singleton : Stands (cs ++ [c]) x h i es ↔
    Stands cs x h i es ∧ c ≠ .unwatch x h ∨ i = cs.length ∧ c = .watch x h es ∧ es ≠ ∅ := by
  constructor
  · rintro ⟨hi, hes, hj⟩
    rcases getElem?_append_singleton_eq_some.1 hi with hi | ⟨rfl, rfl⟩
    · have hlt : i < cs.length := (List.getElem?_eq_some_iff.1 hi).1
      refine .inl ⟨⟨hi, hes, fun j hij hget => ?_⟩, fun hc => ?_⟩
      · exact hj j hij (getElem?_append_singleton_eq_some.2 (.inl hget))
      · exact hj cs.length hlt (getElem?_append_singleton_eq_some.2 (.inr ⟨rfl, hc⟩))
    · exact .inr ⟨rfl, rfl, hes⟩
  · rintro (⟨hs, hc⟩ | ⟨rfl, rfl, hes⟩)
    · refine ⟨getElem?_append_singleton_eq_some.2 (.inl hs.asked), hs.something, fun j hij hget => ?_⟩
      rcases getElem?_append_singleton_eq_some.1 hget with hget | ⟨-, rfl⟩
      · exact hs.stayed j hij hget
      · exact hc rfl
    · refine ⟨getElem?_append_singleton_eq_some.2 (.inr ⟨rfl, rfl⟩), hes, fun j hij hget => ?_⟩
      -- There is no call after the last.
      have hlt : j < cs.length + 1 := by simpa using (List.getElem?_eq_some_iff.1 hget).1
      omega

theorem exists_joined_iff : (∃ i, Joined cs x h i) ↔ ∃ i es, Stands cs x h i es := by
  classical
  constructor
  · rintro ⟨i, ⟨es, hs⟩, -⟩
    exact ⟨i, es, hs⟩
  · exact fun hex => ⟨Nat.find hex, Nat.find_spec hex, fun _ => Nat.find_min' hex⟩

theorem Joined.lt (hj : Joined cs x h i) : i < cs.length := by
  obtain ⟨es, hs⟩ := hj.1
  exact hs.lt

theorem Joined.append (hj : Joined cs x h i) (hc : c ≠ .unwatch x h) : Joined (cs ++ [c]) x h i := by
  obtain ⟨⟨es, hs⟩, hleast⟩ := hj
  refine ⟨⟨es, stands_append_singleton.2 (.inl ⟨hs, hc⟩)⟩, ?_⟩
  rintro j ⟨es', hs'⟩
  rcases stands_append_singleton.1 hs' with ⟨hs', -⟩ | ⟨rfl, -⟩
  · exact hleast ⟨es', hs'⟩
  · exact hs.lt.le

theorem joined_length (hnone : ¬∃ i, Joined cs x h i) (hes : es ≠ ∅) :
    Joined (cs ++ [.watch x h es]) x h cs.length := by
  refine ⟨⟨es, stands_append_singleton.2 (.inr ⟨rfl, rfl, hes⟩)⟩, ?_⟩
  rintro j ⟨es', hs⟩
  rcases stands_append_singleton.1 hs with ⟨hs, -⟩ | ⟨rfl, -⟩
  · exact absurd (exists_joined_iff.2 ⟨j, es', hs⟩) hnone
  · exact le_rfl

theorem handles_join (h : Handle) (es : EventSet) (ws : List Watcher) : (join h es ws).map Watcher.handle =
    if h ∈ ws.map Watcher.handle then ws.map Watcher.handle else ws.map Watcher.handle ++ [h] := by
  induction ws with
  | nil => rfl
  | cons v ws ih =>
    rw [join]
    split
    · next hv => simp [hv]
    · next hv =>
      have hne : h ≠ v.handle := Ne.symm hv
      rw [List.map_cons, ih, List.map_cons, apply_ite (v.handle :: ·), List.cons_append]
      simp only [List.mem_cons, hne, false_or]

structure Lists (cs : List Call) (x : Var) (ws : List Watcher) : Prop where
  events : ∀ h e, e ∈ interestIn ws h ↔ ∃ i es, Stands cs x h i es ∧ e ∈ es
  joined : ∀ h, h ∈ ws.map Watcher.handle ↔ ∃ i, Joined cs x h i
  order : (ws.map Watcher.handle).Pairwise fun g h => ∃ i j, Joined cs x g i ∧ Joined cs x h j ∧ i < j

namespace Lists

theorem nodup (hl : Lists cs x ws) : (ws.map Watcher.handle).Nodup := by
  refine hl.order.imp ?_
  rintro g h ⟨i, j, hi, hj, hlt⟩ rfl
  exact hlt.ne (hi.unique hj)

theorem of_none (hnone : ∀ h i es, ¬Stands cs x h i es) : Lists cs x [] where
  events h e := by
    have hempty : interestIn [] h = ∅ := rfl
    rw [hempty]
    exact ⟨fun he => absurd he (EventSet.not_mem_empty e), fun ⟨i, es, hs, _⟩ => absurd hs (hnone h i es)⟩
  joined h := by
    rw [exists_joined_iff]
    exact ⟨nofun, fun ⟨i, es, hs⟩ => absurd hs (hnone h i es)⟩
  order := .nil

theorem aside (hl : Lists cs x ws) (hleft : ∀ h, c ≠ .unwatch x h) (hasked : ∀ h es, c = .watch x h es → es = ∅) :
    Lists (cs ++ [c]) x ws := by
  have hstands : ∀ h i es, Stands (cs ++ [c]) x h i es ↔ Stands cs x h i es := by
    intro h i es
    rw [stands_append_singleton, and_iff_left (hleft h), or_iff_left]
    exact fun ⟨_, hc, hes⟩ => hes (hasked h es hc)
  refine ⟨fun h e => ?_, fun h => ?_, hl.order.imp ?_⟩
  · simp only [hl.events, hstands]
  · rw [hl.joined, exists_joined_iff, exists_joined_iff]
    simp only [hstands]
  · rintro g h ⟨i, j, hi, hj, hlt⟩
    exact ⟨i, j, hi.append (hleft g), hj.append (hleft h), hlt⟩

theorem join (hl : Lists cs x ws) (hes : es ≠ ∅) : Lists (cs ++ [.watch x h es]) x (join h es ws) where
  events g e := by
    rw [interestIn_join]
    simp only [stands_append_singleton, ne_eq, reduceCtorEq, not_false_iff, and_true, Call.watch.injEq, true_and]
    split
    · next hg =>
      subst hg
      rw [EventSet.mem_union, hl.events]
      constructor
      · rintro (⟨i, es', hs, he⟩ | he)
        · exact ⟨i, es', .inl hs, he⟩
        · exact ⟨cs.length, es, .inr ⟨rfl, ⟨rfl, rfl⟩, hes⟩, he⟩
      · rintro ⟨i, es', hs | ⟨-, ⟨-, rfl⟩, -⟩, he⟩
        · exact .inl ⟨i, es', hs, he⟩
        · exact .inr he
    · next hg =>
      rw [hl.events]
      constructor
      · exact fun ⟨i, es', hs, he⟩ => ⟨i, es', .inl hs, he⟩
      · rintro ⟨i, es', hs | ⟨-, ⟨rfl, -⟩, -⟩, he⟩
        · exact ⟨i, es', hs, he⟩
        · exact absurd rfl hg
  joined g := by
    rw [mem_handles_join, hl.joined, exists_joined_iff, exists_joined_iff]
    constructor
    · rintro (rfl | ⟨i, es', hs⟩)
      · exact ⟨cs.length, es, stands_append_singleton.2 (.inr ⟨rfl, rfl, hes⟩)⟩
      · exact ⟨i, es', stands_append_singleton.2 (.inl ⟨hs, nofun⟩)⟩
    · rintro ⟨i, es', hs⟩
      rcases stands_append_singleton.1 hs with ⟨hs, -⟩ | ⟨-, hc, -⟩
      · exact .inr ⟨i, es', hs⟩
      · cases hc
        exact .inl rfl
  order := by
    have hstay : ∀ k, Call.watch x h es ≠ .unwatch x k := nofun
    have horder : (ws.map Watcher.handle).Pairwise fun g k => ∃ i j, Joined (cs ++ [.watch x h es]) x g i ∧
        Joined (cs ++ [.watch x h es]) x k j ∧ i < j :=
      hl.order.imp fun ⟨i, j, hi, hj, hlt⟩ => ⟨i, j, hi.append (hstay _), hj.append (hstay _), hlt⟩
    rw [handles_join]
    split
    · exact horder
    · next hnew =>
      rw [hl.joined] at hnew
      refine List.pairwise_append.2 ⟨horder, List.pairwise_singleton .., fun g hg k hk => ?_⟩
      cases List.mem_singleton.1 hk
      obtain ⟨i, hi⟩ := (hl.joined g).1 hg
      exact ⟨i, cs.length, hi.append (hstay g), joined_length hnew hes, hi.lt⟩

theorem leave (hl : Lists cs x ws) : Lists (cs ++ [.unwatch x h]) x (leave h ws) := by
  have hstands : ∀ g i es, Stands (cs ++ [.unwatch x h]) x g i es ↔ Stands cs x g i es ∧ g ≠ h := by
    intro g i es
    simp [stands_append_singleton, eq_comm]
  have hhandles : (Watchers.leave h ws).map Watcher.handle = (ws.map Watcher.handle).filter (· ≠ h) := by
    rw [Watchers.leave, List.filter_map]
    rfl
  refine ⟨fun g e => ?_, fun g => ?_, ?_⟩
  · rw [interestIn_leave]
    simp only [hstands]
    split
    · next hg => simp [hg]
    · next hg => simp [hg, hl.events]
  · rw [hhandles, List.mem_filter, hl.joined, exists_joined_iff, exists_joined_iff]
    simp [hstands]
  · rw [hhandles]
    refine List.Pairwise.imp_of_mem ?_ (hl.order.filter _)
    rintro g k hg hk ⟨i, j, hi, hj, hlt⟩
    have hg : g ≠ h := of_decide_eq_true (List.mem_filter.1 hg).2
    have hk : k ≠ h := of_decide_eq_true (List.mem_filter.1 hk).2
    exact ⟨i, j, hi.append (by simpa using Ne.symm hg), hj.append (by simpa using Ne.symm hk), hlt⟩

end Lists

structure Traces (cs : List Call) (w : Watchers) : Prop where
  size : w.table.size = cs.foldl Call.sizeAfter 0
  lists : ∀ x ws, w.table.get? x = some ws → Lists cs x ws
  known : ∀ x h i es, Stands cs x h i es → x.index < w.table.size

namespace Traces

theorem change (ht : Traces cs w) (hx : w.table.get? x = some ws) {ws' : List Watcher} (hsize : ∀ n, c.sizeAfter n = n)
    (hl : Lists (cs ++ [c]) x ws') (hleft : ∀ y h, y ≠ x → c ≠ .unwatch y h)
    (hasked : ∀ y h es, y ≠ x → c ≠ .watch y h es) :
    Traces (cs ++ [c]) ⟨w.table.modify x fun _ => ws'⟩ where
  size := by
    rw [List.foldl_append, ← ht.size, Table.size_modify]
    exact (hsize _).symm
  lists y vs hy := by
    simp only [Table.get?_modify, Var.key_inj] at hy
    split at hy
    · next hxy =>
      subst hxy
      rw [hx] at hy
      cases hy
      exact hl
    · next hxy =>
      exact (ht.lists y vs hy).aside (fun h => hleft y h (Ne.symm hxy))
        fun h es hc => absurd hc (hasked y h es (Ne.symm hxy))
  known y h i es hs := by
    rw [Table.size_modify]
    by_cases hy : y = x
    · subst hy
      exact Table.lt_size_iff.2 ⟨ws, hx⟩
    · rcases stands_append_singleton.1 hs with ⟨hs, -⟩ | ⟨-, hc, -⟩
      · exact ht.known y h i es hs
      · exact absurd hc (hasked y h es hy)

theorem aside (ht : Traces cs w) (hsize : ∀ n, c.sizeAfter n = n) (hleft : ∀ y h, c ≠ .unwatch y h)
    (hasked : ∀ y h es, c = .watch y h es → es = ∅) : Traces (cs ++ [c]) w where
  size := by
    rw [List.foldl_append, ← ht.size]
    exact (hsize _).symm
  lists y vs hy := (ht.lists y vs hy).aside (hleft y) (hasked y)
  known y h i es hs := by
    rcases stands_append_singleton.1 hs with ⟨hs, -⟩ | ⟨-, hc, hes⟩
    · exact ht.known y h i es hs
    · exact absurd (hasked y h es hc) hes

theorem grow (ht : Traces cs w) : Traces (cs ++ [.grow]) w.grow where
  size := by
    rw [List.foldl_append, ← ht.size]
    exact Table.size_push ..
  lists y vs hy := by
    rw [Watchers.grow, Table.get?_push] at hy
    split at hy
    · next hnew =>
      cases hy
      refine Lists.of_none fun h i es hs => ?_
      rcases stands_append_singleton.1 hs with ⟨hs, -⟩ | ⟨-, hc, -⟩
      · exact (ht.known y h i es hs).ne hnew
      · cases hc
    · exact (ht.lists y vs hy).aside (by simp) (by simp)
  known y h i es hs := by
    rw [Watchers.grow, Table.size_push]
    rcases stands_append_singleton.1 hs with ⟨hs, -⟩ | ⟨-, hc, -⟩
    · exact Nat.lt_succ_of_lt (ht.known y h i es hs)
    · cases hc

theorem perform (ht : Traces cs w) (hc : c.Fits w.table.size) :
    ∃ w', w.perform c = .ok w' ∧ Traces (cs ++ [c]) w' := by
  cases c with
  | grow => exact ⟨w.grow, rfl, ht.grow⟩
  | watch x h es =>
    obtain ⟨ws, hx⟩ := Table.lt_size_iff (k := x).1 hc
    rw [Watchers.perform, Watchers.watch]
    split
    · next he => exact ⟨w, rfl, ht.aside (fun _ => rfl) (by simp) fun _ _ _ hc => by cases hc; exact he⟩
    · next he =>
      refine ⟨_, set_get hx, ht.change hx (fun _ => rfl) ((ht.lists x ws hx).join he) (by simp) ?_⟩
      rintro y g es' hy ⟨⟩
      exact hy rfl
  | unwatch x h =>
    obtain ⟨ws, hx⟩ := Table.lt_size_iff (k := x).1 hc
    refine ⟨_, set_get hx, ht.change hx (fun _ => rfl) (ht.lists x ws hx).leave ?_ (by simp)⟩
    rintro y g hy ⟨⟩
    exact hy rfl

theorem run (ht : Traces before w) (hcs : AllFit Call.sizeAfter Call.Fits w.table.size cs) :
    ∃ w', w.run cs = .ok w' ∧ Traces (before ++ cs) w' := by
  induction cs generalizing w before with
  | nil => exact ⟨w, rfl, (List.append_nil before).symm ▸ ht⟩
  | cons c cs ih =>
    obtain ⟨hc, hcs⟩ := hcs
    obtain ⟨v, hv, htv⟩ := ht.perform hc
    have hsize : v.table.size = c.sizeAfter w.table.size := by
      rw [htv.size, List.foldl_append, ← ht.size]
      rfl
    obtain ⟨w', hw', ht'⟩ := ih htv (hsize ▸ hcs)
    refine ⟨w', ?_, ?_⟩
    · rw [Watchers.run, List.foldlM_cons, hv]
      exact hw'
    · rwa [List.append_assoc] at ht'

end Traces

theorem traces_nil : Traces [] {} where
  size := rfl
  lists x ws hx := by
    have hnone : (Watchers.table {}).get? x = none := rfl
    rw [hnone] at hx
    cases hx
  known x h i es hs := absurd hs.lt (Nat.not_lt_zero i)

/-- After any calls, an event wakes exactly those who subscribed to it since they last left the variable, each once, and
in the order in which they have joined. -/
theorem affected_lists_subscribers (cs : List Call) (hcs : AllFit Call.sizeAfter Call.Fits 0 cs) :
    ∃ w, run {} cs = .ok w ∧ ∀ x, x.index < cs.foldl Call.sizeAfter 0 → ∀ e, ∃ hs, w.affected e x = .ok hs ∧
      (∀ h, h ∈ hs ↔ ∃ i es, Stands cs x h i es ∧ e ∈ es) ∧ hs.Nodup ∧
      hs.Pairwise fun g h => ∃ i j, Joined cs x g i ∧ Joined cs x h j ∧ i < j := by
  obtain ⟨w, hw, ht⟩ := traces_nil.run hcs
  refine ⟨w, hw, fun x hx e => ?_⟩
  obtain ⟨ws, hx⟩ := Table.lt_size_iff (k := x).1 (ht.size ▸ hx)
  have hl := ht.lists x ws hx
  have hsub : ((ws.filter fun v => decide (e ∈ v.events)).map Watcher.handle).Sublist (ws.map Watcher.handle) :=
    List.filter_sublist.map _
  refine ⟨_, by rw [affected, Table.get_eq_ok_iff.2 hx]; rfl, fun h => ?_, hl.nodup.sublist hsub, hl.order.sublist hsub⟩
  rw [mem_affected hl.nodup, hl.events, List.nil_append]

theorem affected_lists_subscribers_rejoined :
    let lower : EventSet := { lower := true }
    let cs : List Call := [.grow, .grow, .watch ⟨1⟩ ⟨0⟩ lower, .watch ⟨1⟩ ⟨2⟩ ∅, .watch ⟨1⟩ ⟨1⟩ lower,
      .watch ⟨0⟩ ⟨2⟩ lower, .watch ⟨1⟩ ⟨2⟩ { removal := true }, .unwatch ⟨1⟩ ⟨0⟩, .watch ⟨1⟩ ⟨2⟩ lower,
      .watch ⟨1⟩ ⟨0⟩ lower]
    ∃ w, run {} cs = .ok w ∧ ∃ hs, w.affected .lower ⟨1⟩ = .ok hs ∧ hs = [⟨1⟩, ⟨2⟩, ⟨0⟩] ∧
      hs.Pairwise fun g h => ∃ i j, Joined cs ⟨1⟩ g i ∧ Joined cs ⟨1⟩ h j ∧ i < j := by
  intro lower cs
  obtain ⟨w, hw, ha⟩ := affected_lists_subscribers cs (by decide)
  obtain ⟨hs, hhs, -, -, horder⟩ := ha ⟨1⟩ (by decide) .lower
  have hrun : (run {} cs >>= (·.affected .lower ⟨1⟩)) = .ok [⟨1⟩, ⟨2⟩, ⟨0⟩] := by decide +kernel
  rw [hw, ok_bind, hhs] at hrun
  exact ⟨w, hw, hs, hhs, Except.ok.inj hrun, horder⟩

end Watchers

end DomainPropagation
