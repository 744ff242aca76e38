import DomainPropagation.Sensitivities
import DomainPropagation.Watchers

/-! Who watches what. As long as nobody watches a variable twice, a propagator is woken by exactly the events
it watches for, and joining or leaving a variable changes nothing for anyone else or elsewhere. -/

namespace DomainPropagation

@[ext] theorem EventSet.ext {a b : EventSet} (h : ∀ e, e ∈ a ↔ e ∈ b) : a = b := by
  have hc : ∀ e, a.contains e = b.contains e := fun e => Bool.eq_iff_iff.2 (h e)
  rw [mk.injEq]
  exact ⟨hc .assign, hc .lower, hc .upper, hc .removal⟩

namespace Watchers

variable {w w' : Watchers} {ws : List Watcher} {x y : Var} {g h : Handle} {es : EventSet} {e : Event}
  {xs : List Var}

def interestIn (ws : List Watcher) (h : Handle) : EventSet :=
  ((ws.find? (·.handle == h)).map Watcher.events).getD ∅

theorem interestIn_cons (v : Watcher) (ws : List Watcher) (g : Handle) :
    interestIn (v :: ws) g = if v.handle = g then v.events else interestIn ws g := by
  by_cases hv : v.handle = g <;> simp [interestIn, hv]

theorem interestIn_join : interestIn (join h es ws) g =
    if g = h then interestIn ws h ∪ es else interestIn ws g := by
  induction ws with
  | nil =>
    have : (∅ : EventSet) ∪ es = es := by
      ext e
      simp
    by_cases hg : g = h
    · simp [join, hg, interestIn, this]
    · simp [join, hg, Ne.symm hg, interestIn]
  | cons v ws ih =>
    rw [join]
    split
    · next hv =>
      subst hv
      by_cases hg : g = v.handle
      · simp [interestIn_cons, hg]
      · simp [interestIn_cons, hg, Ne.symm hg]
    · next hv =>
      rw [interestIn_cons, interestIn_cons, interestIn_cons, ih, if_neg hv]
      by_cases hg : v.handle = g
      · subst hg
        rw [if_pos rfl, if_pos rfl, if_neg hv]
      · rw [if_neg hg, if_neg hg]

theorem interestIn_leave : interestIn (leave h ws) g = if g = h then ∅ else interestIn ws g := by
  induction ws with
  | nil => simp [leave, interestIn]
  | cons v ws ih =>
    rw [leave, List.filter_cons]
    split
    · next hv =>
      have hv : v.handle ≠ h := of_decide_eq_true hv
      rw [interestIn_cons, interestIn_cons, ← leave, ih]
      by_cases hg : v.handle = g
      · subst hg
        rw [if_pos rfl, if_neg hv, if_pos rfl]
      · rw [if_neg hg, if_neg hg]
    · next hv =>
      have hv : v.handle = h := by simpa using hv
      rw [← leave, ih, interestIn_cons, hv]
      by_cases hg : g = h
      · rw [if_pos hg, if_pos hg]
      · rw [if_neg hg, if_neg hg, if_neg (Ne.symm hg)]

theorem mem_handles_join : g ∈ (join h es ws).map Watcher.handle ↔ g = h ∨ g ∈ ws.map Watcher.handle := by
  induction ws with
  | nil => simp [join]
  | cons v ws ih =>
    rw [join]
    split
    · next hv =>
      subst hv
      simp
    · rw [List.map_cons, List.mem_cons, ih, List.map_cons, List.mem_cons, or_left_comm]

theorem nodup_join (hn : (ws.map Watcher.handle).Nodup) : ((join h es ws).map Watcher.handle).Nodup := by
  induction ws with
  | nil => simp [join]
  | cons v ws ih =>
    obtain ⟨hv, hws⟩ := List.nodup_cons.1 hn
    rw [join]
    split
    · exact hn
    · next hvh =>
      refine List.nodup_cons.2 ⟨fun hm => ?_, ih hws⟩
      exact (mem_handles_join.1 hm).elim hvh hv

theorem mem_affected (hn : (ws.map Watcher.handle).Nodup) :
    g ∈ (ws.filter fun v => decide (e ∈ v.events)).map Watcher.handle ↔ e ∈ interestIn ws g := by
  induction ws with
  | nil => simp [interestIn]
  | cons v ws ih =>
    obtain ⟨hv, hws⟩ := List.nodup_cons.1 hn
    rw [interestIn_cons, List.filter_cons]
    by_cases hg : v.handle = g
    · subst hg
      have hnot : v.handle ∉ (ws.filter fun u => decide (e ∈ u.events)).map Watcher.handle := by
        intro hm
        obtain ⟨u, hu, he⟩ := List.mem_map.1 hm
        exact hv (List.mem_map.2 ⟨u, (List.mem_filter.1 hu).1, he⟩)
      by_cases he : e ∈ v.events <;> simp_all
    · rw [if_neg hg, ← ih hws]
      by_cases he : e ∈ v.events <;> simp [he, Ne.symm hg]

def Distinct (w : Watchers) : Prop := ∀ x ws, w.table.get? x = some ws → (ws.map Watcher.handle).Nodup

theorem interest_of_get? (hx : w.table.get? x = some ws) (h : Handle) : w.interest x h = interestIn ws h := by
  rw [interest, hx]
  rfl

structure Rewires (w : Watchers) (x : Var) (h : Handle) (es : EventSet) (w' : Watchers) : Prop where
  size : w'.table.size = w.table.size
  distinct : w'.Distinct
  interest : ∀ y g, w'.interest y g = if y = x ∧ g = h then es else w.interest y g

theorem rewires_modify (hd : w.Distinct) (hx : w.table.get? x = some ws) {ws' : List Watcher}
    (hn : (ws'.map Watcher.handle).Nodup)
    (hi : ∀ g, interestIn ws' g = if g = h then es else interestIn ws g) :
    w.Rewires x h es ⟨w.table.modify x fun _ => ws'⟩ where
  size := Table.size_modify ..
  distinct := by
    intro y vs hy
    simp only [Table.get?_modify, Var.key_inj] at hy
    split at hy
    · obtain ⟨_, -, rfl⟩ := Option.map_eq_some_iff.1 hy
      exact hn
    · exact hd y vs hy
  interest := by
    intro y g
    by_cases hy : y = x
    · subst hy
      have hy : (Watchers.mk (w.table.modify y fun _ => ws')).table.get? y = some ws' := by
        simp [Table.get?_modify, hx]
      rw [interest_of_get? hy, interest_of_get? hx, hi]
      simp
    · rw [if_neg fun hc => hy hc.1, Watchers.interest, Watchers.interest]
      simp only [Table.get?_modify, Var.key_inj, if_neg (Ne.symm hy)]

theorem set_get {f : List Watcher → List Watcher} (hx : w.table.get? x = some ws) :
    (do return ⟨← w.table.set x (f (← w.table.get x))⟩ : Except Misuse Watchers) =
      .ok ⟨w.table.modify x fun _ => f ws⟩ := by
  rw [Table.get_eq_ok_iff.2 hx, ok_bind, Table.set_eq_ok.2 ⟨Table.lt_size_iff.2 ⟨ws, hx⟩, rfl⟩]
  rfl

theorem watch_spec (hd : w.Distinct) (hx : x.index < w.table.size) (h : Handle) (es : EventSet) :
    ∃ w', w.watch x h es = .ok w' ∧ w.Rewires x h (w.interest x h ∪ es) w' := by
  obtain ⟨ws, hx⟩ := Table.lt_size_iff (k := x).1 hx
  rw [watch]
  split
  · next he =>
    subst he
    refine ⟨w, rfl, rfl, hd, fun y g => ?_⟩
    split
    · next hyg =>
      obtain ⟨rfl, rfl⟩ := hyg
      ext e
      simp
    · rfl
  · refine ⟨_, set_get hx, rewires_modify hd hx (nodup_join (hd x ws hx)) fun g => ?_⟩
    rw [interestIn_join, interest_of_get? hx]

theorem unwatch_spec (hd : w.Distinct) (hx : x.index < w.table.size) (h : Handle) :
    ∃ w', w.unwatch x h = .ok w' ∧ w.Rewires x h ∅ w' := by
  obtain ⟨ws, hx⟩ := Table.lt_size_iff (k := x).1 hx
  refine ⟨_, set_get hx, rewires_modify hd hx ?_ fun g => interestIn_leave⟩
  exact (hd x ws hx).sublist (List.filter_sublist.map _)

theorem affected_spec (hd : w.Distinct) (hx : x.index < w.table.size) (e : Event) :
    ∃ hs, w.affected e x = .ok hs ∧ ∀ g, g ∈ hs ↔ e ∈ w.interest x g := by
  obtain ⟨ws, hx⟩ := Table.lt_size_iff (k := x).1 hx
  refine ⟨_, by rw [affected, Table.get_eq_ok_iff.2 hx]; rfl, fun g => ?_⟩
  rw [mem_affected (hd x ws hx), interest_of_get? hx]

theorem Distinct.grow (hd : w.Distinct) : w.grow.Distinct := by
  intro x ws hx
  rw [Watchers.grow, Table.get?_push] at hx
  split at hx
  · cases hx
    exact List.nodup_nil
  · exact hd x ws hx

theorem interest_grow (w : Watchers) (x : Var) (h : Handle) : w.grow.interest x h = w.interest x h := by
  rw [interest, interest, grow, Table.get?_push]
  by_cases hx : Key.index x = w.table.size
  · have hn : w.table.get? x = none := Array.getElem?_eq_none (Nat.le_of_eq hx.symm)
    rw [if_pos hx, hn]
    rfl
  · rw [if_neg hx]

theorem foldlM_watch_spec (need : Var → Sensitivity) (hd : w.Distinct)
    (hxs : ∀ x ∈ xs, x.index < w.table.size) (h : Handle) :
    ∃ w', (xs.map fun x => (x, need x)).foldlM (fun w (x, need) => w.watch x h need.events) w = .ok w' ∧
      w'.table.size = w.table.size ∧ w'.Distinct ∧ ∀ y g, w'.interest y g =
        if g = h ∧ y ∈ xs then w.interest y h ∪ (need y).events else w.interest y g := by
  induction xs generalizing w with
  | nil => exact ⟨w, rfl, rfl, hd, by simp⟩
  | cons x xs ih =>
    obtain ⟨v, hv, hsv, hdv, hiv⟩ := watch_spec hd (hxs x List.mem_cons_self) h (need x).events
    obtain ⟨w', hw', hs, hd', hi⟩ := ih hdv fun y hy => hsv ▸ hxs y (List.mem_cons_of_mem x hy)
    refine ⟨w', ?_, hs.trans hsv, hd', fun y g => ?_⟩
    · rw [List.map_cons, List.foldlM_cons]
      change (w.watch x h (need x).events >>= _) = _
      rw [hv]
      exact hw'
    · rw [hi, hiv, hiv]
      by_cases hg : g = h
      · subst hg
        by_cases hy : y = x
        · subst hy
          by_cases hm : y ∈ xs
          · simp only [hm, List.mem_cons, and_self, if_true, or_true]
            ext e
            simp
          · simp [hm]
        · by_cases hm : y ∈ xs <;> simp [hy, hm]
      · simp [hg]

theorem foldlM_unwatch_spec (hd : w.Distinct) (hxs : ∀ x ∈ xs, x.index < w.table.size) (h : Handle) :
    ∃ w', xs.foldlM (·.unwatch · h) w = .ok w' ∧ w'.table.size = w.table.size ∧ w'.Distinct ∧
      ∀ y g, w'.interest y g = if g = h ∧ y ∈ xs then ∅ else w.interest y g := by
  induction xs generalizing w with
  | nil => exact ⟨w, rfl, rfl, hd, by simp⟩
  | cons x xs ih =>
    obtain ⟨v, hv, hsv, hdv, hiv⟩ := unwatch_spec hd (hxs x List.mem_cons_self) h
    obtain ⟨w', hw', hs, hd', hi⟩ := ih hdv fun y hy => hsv ▸ hxs y (List.mem_cons_of_mem x hy)
    refine ⟨w', ?_, hs.trans hsv, hd', fun y g => ?_⟩
    · rw [List.foldlM_cons, hv]
      exact hw'
    · rw [hi, hiv]
      by_cases hg : g = h
      · by_cases hy : y = x <;> simp [hg, hy]
      · simp [hg]

end Watchers

end DomainPropagation
