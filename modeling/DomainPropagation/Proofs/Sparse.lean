import DomainPropagation.Guarded.Sparse
import DomainPropagation.Proofs.Guards
import DomainPropagation.Proofs.Sizes

/-! New variables with given values. Walking through the interval around the values beside the sorted list of them
neither leaves the list nor runs a domain empty, and leaves exactly the values, as the new variable has them. -/

namespace DomainPropagation

theorem Table.modify_push_size {ι α : Type} [Key ι] {T : Table ι α} {k : ι} (h : Key.index k = T.size) (f : α → α)
    (a : α) : (T.push a).modify k f = T.push (f a) := by
  rw [modify, push, mk.injEq]
  apply Array.ext_getElem?
  intro i
  have hk : Key.index k = T.entries.size := h
  simp only [push, Array.getElem?_modify, Array.getElem?_push, hk]
  by_cases hi : i = T.entries.size
  · simp [hi]
  · rw [if_neg (Ne.symm hi), if_neg hi, if_neg hi]

namespace Domain

variable {d e : Domain} {kept vs : List Int} {l u v w : Int}

theorem eq_of_flags (ho : e.origin = d.origin) (hl : e.lower = d.lower) (hu : e.upper = d.upper)
    (hs : e.present.size = d.present.size)
    (hf : ∀ i < d.present.size, e.flag (d.origin + i) = d.flag (d.origin + i)) : e = d := by
  obtain ⟨o, l, u, p⟩ := e
  obtain ⟨o', l', u', p'⟩ := d
  cases ho
  cases hl
  cases hu
  rw [mk.injEq]
  refine ⟨rfl, rfl, rfl, Array.ext hs fun i hi hi' => ?_⟩
  have hf := hf i hi'
  have hoff : (o + i - o).toNat = i := by omega
  simpa [flag, offset, hoff, Array.getD, hi, show i < p'.size from hi'] using hf

theorem size_foldl_setFlag (vs : List Int) :
    (vs.foldl (·.setFlag · true) d).present.size = d.present.size := by
  induction vs generalizing d with
  | nil => rfl
  | cons v vs ih => exact ih.trans Array.size_setIfInBounds

/-- Of the values of an interval, those from `v` on are there, and of those before it the ones to be kept. -/
structure Swept (kept : List Int) (l u v : Int) (e : Domain) : Prop where
  origin : e.origin = l
  lower : e.lower = l
  upper : e.upper = u
  size : e.present.size = (u + 1 - l).toNat
  flag : ∀ w, l ≤ w → w ≤ u → (e.flag w = true ↔ v ≤ w ∨ w ∈ kept)

namespace Swept

theorem interval (kept : List Int) (l u : Int) : Swept kept l u l (interval l u) where
  origin := rfl
  lower := rfl
  upper := rfl
  size := Array.size_replicate
  flag w hl hu := by
    have hw : w ∈ Domain.interval l u := mem_interval.2 ⟨hl, hu⟩
    exact iff_of_true (mem_iff.1 hw).2 (.inl hl)

theorem framed (he : Swept kept l u v e) (h : l ≤ u) : e.Framed where
  origin_le := (he.origin.trans he.lower.symm).le
  lt := by
    rw [he.origin, he.upper, he.size]
    omega

theorem keep (he : Swept kept l u v e) (hv : v ∈ kept) : Swept kept l u (v + 1) e where
  origin := he.origin
  lower := he.lower
  upper := he.upper
  size := he.size
  flag w hl hu := by
    rw [he.flag w hl hu]
    by_cases hw : w = v
    · subst hw
      exact iff_of_true (.inr hv) (.inr hv)
    · exact or_congr_left (by omega)

theorem remove (he : Swept kept l u v e) (hl : l ≤ v) (hu : v ≤ u) (hv : v ∉ kept) :
    Swept kept l u (v + 1) (e.setFlag v false) where
  origin := he.origin
  lower := he.lower
  upper := he.upper
  size := Array.size_setIfInBounds.trans he.size
  flag w hlw hwu := by
    obtain ⟨-, hs⟩ := (he.framed (hl.trans hu)).covers (he.lower.trans_le hl) (hu.trans_eq he.upper.symm)
    rw [flag_setFlag (he.origin.trans_le hl) (he.origin.trans_le hlw) hs]
    split
    · next hw =>
      subst hw
      exact iff_of_false Bool.false_ne_true (not_or.2 ⟨by omega, hv⟩)
    · next hw =>
      rw [he.flag w hlw hwu]
      exact or_congr_left (by omega)

theorem eq_ofValues (he : Swept kept l u (u + 1) e) (hmem : ∀ v, v ∈ kept ↔ v ∈ vs)
    (hb : ∀ v ∈ vs, l ≤ v ∧ v ≤ u) : e = vs.foldl (·.setFlag · true) (blank l u) := by
  obtain ⟨hl, hu, ho⟩ := foldl_setFlag_bounds (d := blank l u) vs
  have hsize : (vs.foldl (·.setFlag · true) (blank l u)).present.size = (u + 1 - l).toNat :=
    (size_foldl_setFlag vs).trans Array.size_replicate
  refine eq_of_flags (he.origin.trans ho.symm) (he.lower.trans hl.symm) (he.upper.trans hu.symm)
    (he.size.trans hsize.symm) fun i hi => ?_
  rw [hsize] at hi
  have hlo : l ≤ l + i := by omega
  have hup : l + (i : Int) ≤ u := by omega
  rw [ho]
  change e.flag (l + i) = Domain.flag _ (l + i)
  rw [Bool.eq_iff_iff, he.flag _ hlo hup, or_iff_right (by omega), hmem, flag_foldl_setFlag hlo fun w hw => ?_]
  · have hblank : (blank l u).flag (l + i) = false := by simp [Domain.flag, blank, Array.getD]
    rw [hblank, Bool.or_false, decide_eq_true_iff]
  · obtain ⟨hlw, hwu⟩ := hb w hw
    refine ⟨hlw, ?_⟩
    simp only [offset, blank, Array.size_replicate]
    omega

end Swept

end Domain

namespace Guarded

open Domain

variable {s : Domains} {d e : Domain} {x : Var} {kept vs : List Int} {a l u v w : Int} {n next : Nat}

theorem mem_eraseRepsLoop {as acc : List Int} :
    w ∈ List.eraseRepsBy.loop (· == ·) a as acc ↔ w = a ∨ w ∈ as ∨ w ∈ acc := by
  induction as generalizing a acc with
  | nil => simp [List.eraseRepsBy.loop, or_comm]
  | cons b as ih =>
    rw [List.eraseRepsBy.loop]
    split
    · next hab =>
      obtain rfl : a = b := beq_iff_eq.1 hab
      rw [ih, List.mem_cons]
      tauto
    · rw [ih, List.mem_cons, List.mem_cons]
      tauto

theorem pairwise_eraseRepsLoop {as acc : List Int} (hacc : (acc.reverse ++ [a]).Pairwise (· < ·))
    (has : (a :: as).Pairwise (· ≤ ·)) : (List.eraseRepsBy.loop (· == ·) a as acc).Pairwise (· < ·) := by
  induction as generalizing a acc with
  | nil => simpa [List.eraseRepsBy.loop] using hacc
  | cons b as ih =>
    obtain ⟨ha, has⟩ := List.pairwise_cons.1 has
    rw [List.eraseRepsBy.loop]
    split
    · next hab =>
      obtain rfl : a = b := beq_iff_eq.1 hab
      exact ih hacc has
    · next hab =>
      have hlt : a < b := lt_of_le_of_ne (ha b List.mem_cons_self) (by simpa using hab)
      refine ih ?_ has
      rw [List.reverse_cons]
      refine List.pairwise_append.2 ⟨hacc, List.pairwise_singleton .., fun c hc b' hb' => ?_⟩
      cases List.mem_singleton.1 hb'
      rcases List.mem_append.1 hc with hc | hc
      · exact ((List.pairwise_append.1 hacc).2.2 c hc a (List.mem_singleton_self a)).trans hlt
      · cases List.mem_singleton.1 hc
        exact hlt

theorem mem_listed : v ∈ listed vs ↔ v ∈ vs := by
  rw [← List.mem_mergeSort (a := v) (l := vs), listed, List.eraseReps]
  cases vs.mergeSort with
  | nil => rfl
  | cons a as => rw [List.eraseRepsBy, mem_eraseRepsLoop, List.mem_cons, or_iff_left List.not_mem_nil]

theorem pairwise_listed (vs : List Int) : (listed vs).Pairwise (· < ·) := by
  have hsorted : vs.mergeSort.Pairwise (· ≤ ·) := by
    refine (List.pairwise_mergeSort (fun a b c hab hbc => ?_) (fun a b => ?_) vs).imp of_decide_eq_true
    · exact decide_eq_true ((of_decide_eq_true hab).trans (of_decide_eq_true hbc))
    · simpa using le_total a b
  rw [listed, List.eraseReps]
  cases hvs : vs.mergeSort with
  | nil => exact .nil
  | cons a as => exact pairwise_eraseRepsLoop (List.pairwise_singleton ..) (hvs ▸ hsorted)

theorem ends_listed (h : vs ≠ []) : ∃ l u, (listed vs).head? = some l ∧ (listed vs).getLast? = some u ∧
    (l ∈ vs ∧ ∀ v ∈ vs, l ≤ v) ∧ u ∈ vs ∧ ∀ v ∈ vs, v ≤ u := by
  have hsorted := pairwise_listed vs
  have hmem : ∀ v, v ∈ listed vs ↔ v ∈ vs := fun _ => mem_listed
  obtain ⟨a, ha⟩ := List.exists_mem_of_ne_nil vs h
  have hne : listed vs ≠ [] := List.ne_nil_of_mem ((hmem a).2 ha)
  have hlast := List.dropLast_append_getLast hne
  generalize (listed vs).getLast hne = u at hlast
  obtain ⟨l, rest, hcons⟩ := List.exists_cons_of_ne_nil hne
  refine ⟨l, u, by rw [hcons]; rfl, by rw [← hlast, List.getLast?_concat], ⟨?_, fun v hv => ?_⟩, ?_, fun v hv => ?_⟩
  · rw [← hmem, hcons]
    exact List.mem_cons_self
  · rw [← hmem, hcons] at hv
    rw [hcons] at hsorted
    rcases List.mem_cons.1 hv with rfl | hv
    · exact le_rfl
    · exact ((List.pairwise_cons.1 hsorted).1 v hv).le
  · rw [← hmem, ← hlast]
    exact List.mem_append_right _ (List.mem_singleton_self u)
  · rw [← hmem, ← hlast] at hv
    rw [← hlast] at hsorted
    rcases List.mem_append.1 hv with hv | hv
    · exact ((List.pairwise_append.1 hsorted).2.2 v hv u (List.mem_singleton_self u)).le
    · exact (List.mem_singleton.1 hv).le

theorem removeInitial_within (hs : s.level = 0) (hx : s.table.get? x = some d) (hf : d.Framed) (hv : v ∈ d)
    (hl : d.lower < v) (hu : v < d.upper) : removeInitial s x v =
      .ok (Domains.unchanged { s with table := s.table.modify x fun _ => d.setFlag v false }) := by
  have hget : lift (s.get x) = .ok d := by
    rw [Domains.get, Table.get_eq_ok_iff.2 hx]
    rfl
  have hfixed : d.isFixed = false := beq_eq_false_iff_ne.2 (hl.trans hu).ne
  have herase : erase d v = .ok (d.setFlag v false) := by
    rw [erase, writeFlag_eq (hf.covers hl.le hu.le), ok_bind, leaveLower]
    change (if v = d.lower then _ else _) >>= _ = _
    rw [if_neg hl.ne', ok_bind, leaveUpper]
    exact if_neg hu.ne
  have hcont : d.contains v = true := hv
  rw [removeInitial, if_pos hs, hget, ok_bind, contains_eq hf, ok_bind, if_pos hcont, hfixed, herase]
  rfl

structure At (kept : List Int) (v : Int) (next : Nat) : Prop where
  passed : ∀ w ∈ kept.take next, w < v
  ahead : ∀ w ∈ kept.drop next, v ≤ w

theorem At.step (hat : At kept v next) (hkept : kept.Pairwise (· < ·)) (hu : u ∈ kept) (hv : v ≤ u) :
    (kept[next]? = some v ∧ v ∈ kept ∧ At kept (v + 1) (next + 1)) ∨
      ∃ w, kept[next]? = some w ∧ v ≠ w ∧ v ∉ kept ∧ At kept (v + 1) next := by
  have hmem : ∀ w, w ∈ kept ↔ w ∈ kept.take next ∨ w ∈ kept.drop next := fun w => by
    rw [← List.mem_append, List.take_append_drop]
  have hne : kept.drop next ≠ [] := by
    refine List.ne_nil_of_mem (((hmem u).1 hu).resolve_left fun hm => ?_)
    exact absurd (hat.passed u hm) hv.not_gt
  obtain ⟨a, rest, hdrop⟩ := List.exists_cons_of_ne_nil hne
  have hget : kept[next]? = some a := by
    rw [← List.head?_drop, hdrop]
    rfl
  have hrest : ∀ w ∈ rest, a < w := (List.pairwise_cons.1 (hdrop ▸ hkept.sublist (List.drop_sublist ..))).1
  have hpassed : ∀ w ∈ kept.take next, w < v + 1 := fun w hw => (hat.passed w hw).trans (Int.lt_succ v)
  by_cases hva : v = a
  · subst hva
    refine .inl ⟨hget, (hmem v).2 (.inr (hdrop ▸ List.mem_cons_self)), fun w hw => ?_, fun w hw => ?_⟩
    · rw [List.take_add_one, hget] at hw
      rcases List.mem_append.1 hw with hw | hw
      · exact hpassed w hw
      · cases List.mem_singleton.1 hw
        exact Int.lt_succ v
    · rw [← List.tail_drop, hdrop] at hw
      exact hrest w hw
  · have hlt : v < a := lt_of_le_of_ne (hat.ahead a (hdrop ▸ List.mem_cons_self)) hva
    have hahead : ∀ w ∈ kept.drop next, v < w := fun w hw => by
      rcases List.mem_cons.1 (hdrop ▸ hw) with rfl | hw
      · exact hlt
      · exact hlt.trans (hrest w hw)
    refine .inr ⟨a, hget, hva, fun hm => ?_, hpassed, hahead⟩
    rcases (hmem v).1 hm with hm | hm
    · exact lt_irrefl v (hat.passed v hm)
    · exact lt_irrefl v (hahead v hm)

theorem visit_of_getElem? (h : kept[next]? = some w) : visit kept x v next s =
    if v = w then .ok (next + 1, s.unchanged) else (next, ·) <$> removeInitial s x v := by
  rw [visit, h]
  rfl

theorem visit_spec (hs : s.level = 0) (hx : s.table.get? x = some e) (he : Swept kept l u v e)
    (hkept : kept.Pairwise (· < ·)) (hlk : l ∈ kept) (huk : u ∈ kept) (hl : l ≤ v) (hu : v ≤ u)
    (hat : At kept v next) : ∃ next' f,
      visit kept x v next s = .ok (next', Domains.unchanged { s with table := s.table.modify x fun _ => f }) ∧
      Swept kept l u (v + 1) f ∧ At kept (v + 1) next' := by
  rcases hat.step hkept huk hu with ⟨hget, hv, hat'⟩ | ⟨w, hget, hne, hv, hat'⟩
  · have hsame : s.table.modify x (fun _ => e) = s.table :=
      Table.modify_eq_self fun d hd => Option.some.inj (hx.symm.trans hd)
    refine ⟨next + 1, e, ?_, he.keep hv, hat'⟩
    rw [visit_of_getElem? hget, if_pos rfl, hsame]
  · -- The ends are listed, so what is taken out lies strictly between them, and neither moves.
    have hlv : e.lower < v := he.lower.trans_lt (lt_of_le_of_ne hl fun h => hv (h ▸ hlk))
    have hvu : v < e.upper := (lt_of_le_of_ne hu fun h => hv (h ▸ huk)).trans_eq he.upper.symm
    have hheld : v ∈ e := mem_iff.2 ⟨⟨hlv.le, hvu.le⟩, (he.flag v hl hu).2 (.inl le_rfl)⟩
    refine ⟨next, e.setFlag v false, ?_, he.remove hl hu hv, hat'⟩
    rw [visit_of_getElem? hget, if_neg hne, removeInitial_within hs hx (he.framed (hl.trans hu)) hheld hlv hvu]
    rfl

theorem sweep_spec (hs : s.level = 0) (hx : s.table.get? x = some e) (he : Swept kept l u v e)
    (hkept : kept.Pairwise (· < ·)) (hlk : l ∈ kept) (huk : u ∈ kept) (hl : l ≤ v) (hn : v + n = u)
    (hmin : minValue ≤ l) (hmax : u ≤ maxValue) (hat : At kept v next) :
    ∃ f, sweep kept x n v next s = .ok (Domains.unchanged { s with table := s.table.modify x fun _ => f }) ∧
      Swept kept l u (u + 1) f := by
  -- On how many values are still to come; `Swept` and `At` say how far the walk has come.
  induction n generalizing s e v next with
  | zero =>
    obtain rfl : v = u := by simpa using hn
    obtain ⟨next', f, hf, hsw, -⟩ := visit_spec hs hx he hkept hlk huk hl le_rfl hat
    exact ⟨f, by rw [sweep, hf]; rfl, hsw⟩
  | succ n ih =>
    obtain ⟨next', f, hf, hsw, hat'⟩ := visit_spec hs hx he hkept hlk huk hl (by omega) hat
    have hword : word (v + 1) = .ok (v + 1) := if_pos ⟨by omega, by omega⟩
    let t : Domains := { s with table := s.table.modify x fun _ => f }
    have hxt : t.table.get? x = some f := by
      simp only [t, Table.get?_modify, if_true, hx, Option.map_some]
    obtain ⟨g, hg, hsw'⟩ := ih (s := t) hs hxt hsw (by omega) (by omega) hat'
    rw [Table.modify_modify] at hg
    refine ⟨g, ?_, hsw'⟩
    rw [sweep, hf, ok_bind]
    change (word (v + 1) >>= _) = _
    rw [hword]
    exact hg

theorem ofValues?_eq (hl : l ∈ vs ∧ ∀ v ∈ vs, l ≤ v) (hu : u ∈ vs ∧ ∀ v ∈ vs, v ≤ u) :
    ofValues? vs = some (vs.foldl (·.setFlag · true) (blank l u)) := by
  rw [ofValues?, List.min?_eq_some_iff.2 hl, List.max?_eq_some_iff.2 hu]
  rfl

theorem newSparseVariable_eq (s : Store) (hname : s.domains.count < wordSize)
    (hvs : ∀ v ∈ vs, minValue ≤ v ∧ v ≤ maxValue) : newSparseVariable s vs = lift (s.newSparseVariable vs) := by
  rw [newSparseVariable, Store.newSparseVariable]
  split
  · next hs =>
    by_cases hne : vs = []
    · subst hne
      have hlisted : listed [] = [] := by rw [listed, List.mergeSort_nil]; rfl
      rw [hlisted]
      rfl
    obtain ⟨l, u, hhead, hlast, hl, hu⟩ := ends_listed hne
    have hlu : l ≤ u := hl.2 u hu.1
    have hroot : (s.domains.add (interval l u)).level = 0 := hs
    have hx : (s.domains.add (interval l u)).table.get? (⟨s.domains.count⟩ : Var) = some (interval l u) :=
      (Table.get?_push ..).trans (if_pos rfl)
    have hat : At (listed vs) l 0 :=
      ⟨fun _ hw => absurd hw List.not_mem_nil, fun w hw => hl.2 w (mem_listed.1 hw)⟩
    obtain ⟨d, hd, hsw⟩ := sweep_spec (n := (u - l).toNat) hroot hx (.interval (listed vs) l u) (pairwise_listed vs)
      (mem_listed.2 hl.1) (mem_listed.2 hu.1) le_rfl (by omega) (hvs l hl.1).1 (hvs u hu.1).2 hat
    have hmade := hsw.eq_ofValues (fun _ => mem_listed) fun v hv => ⟨hl.2 v hv, hu.2 v hv⟩
    have htable : (s.domains.add (interval l u)).table.modify (⟨s.domains.count⟩ : Var) (fun _ => d) =
        s.domains.table.push d := Table.modify_push_size rfl _ _
    rw [htable] at hd
    have hnew : s.newVariable l u = ⟨.ok ⟨s.domains.count⟩, (s.addDomain (interval l u)).store, []⟩ := by
      rw [← Store.addDomain_value hname]
      exact if_pos hlu
    rw [hhead, hlast, ofValues?_eq hl hu, ← hmade]
    simp only [hnew]
    change (sweep _ ⟨s.domains.count⟩ _ l 0 (s.domains.add (interval l u)) >>= _) = _
    rw [hd, Store.addDomain_value hname]
    rfl
  · rfl

end Guarded

namespace Store

variable {s : Store} {vs : List Int} {o : Options}

/-- As long as there is a name left, sparse variables are exact: without any value there is none and the store is as it
was; otherwise, by a walk that reads nothing beyond the list of values, there is one with just these values, and nothing
else is changed. -/
theorem newSparseVariable_exact (hs : Reachable o (fun _ => True) s) (hroot : s.level = 0)
    (hname : s.domains.count < wordSize) (hvs : ∀ v ∈ vs, minValue ≤ v ∧ v ≤ maxValue) :
    ∃ r, Guarded.newSparseVariable s vs = .ok r ∧ s.newSparseVariable vs = .ok r ∧
      (r.value = .error .emptyDomain ↔ vs = []) ∧ (vs = [] → r.store = s) ∧
      (vs ≠ [] → r.value = .ok ⟨s.domains.count⟩ ∧
        (∃ d, r.store.domains.get ⟨s.domains.count⟩ = .ok d ∧ d.WellFormed ∧ ∀ v, v ∈ d ↔ v ∈ vs) ∧
        (∀ x : Var, x ≠ ⟨s.domains.count⟩ → r.store.domains.get x = s.domains.get x) ∧
        r.store.domains.count = s.domains.count + 1 ∧ r.store.domains.trail = s.domains.trail ∧
        r.store.domains.pending.events = s.domains.pending.events) ∧
      s.Aligned ∧ r.store.Aligned := by
  have hreach (r : Reply (Except ModelError Var)) (hr : s.newSparseVariable vs = .ok r) : r.store.Aligned :=
    hs.aligned.perform (q := .newSparseVariable vs) hs.truthful ⟨hname, hvs⟩ (map_eq_ok_iff.2 ⟨r, hr, rfl⟩)
  have hguarded := Guarded.newSparseVariable_eq s hname hvs
  by_cases hne : vs = []
  · subst hne
    have hr : s.newSparseVariable [] = .ok ⟨.error .emptyDomain, s, []⟩ := if_pos hroot
    exact ⟨_, hguarded.trans (congrArg _ hr), hr, iff_of_true rfl rfl, fun _ => rfl, absurd rfl, hs.aligned, hs.aligned⟩
  obtain ⟨l, u, -, -, hl, hu⟩ := Guarded.ends_listed hne
  have hd := Guarded.ofValues?_eq hl hu
  generalize vs.foldl (·.setFlag · true) (Domain.blank l u) = d at hd
  have hr : s.newSparseVariable vs = .ok ⟨.ok (s.addDomain d).value, (s.addDomain d).store, []⟩ := by
    rw [Store.newSparseVariable, if_pos hroot, hd]
    rfl
  refine ⟨_, hguarded.trans (congrArg _ hr), hr, iff_of_false (by simp) hne, fun h => absurd h hne,
    fun _ => ⟨congrArg _ (addDomain_value hname d),
      ⟨d, ?_, Domain.wellFormed_ofValues? hvs hd, fun v => Domain.mem_ofValues? hd⟩, fun x hx => ?_,
      Table.size_push .., rfl, rfl⟩, hs.aligned, hreach _ hr⟩
  · exact Domains.get_eq_ok_iff.2 ((Table.get?_push ..).trans (if_pos rfl))
  · have hne : Key.index x ≠ s.domains.table.size := fun h => hx (congrArg Var.mk h)
    change (s.domains.table.push d).get x = s.domains.table.get x
    rw [Table.get, Table.get?_push, if_neg hne, Table.get]

theorem newSparseVariable_exact_at_ends : ∃ (s : Store) (r e : Reply (Except ModelError Var)) (d : Domain),
    Reachable {} (fun _ => True) s ∧ s.level = 0 ∧ s.domains.count = 1 ∧
    Guarded.newSparseVariable s [maxValue, minValue, 0, maxValue] = .ok r ∧ r.value = .ok ⟨1⟩ ∧
    r.store.domains.get ⟨1⟩ = .ok d ∧ (∀ v, v ∈ d ↔ v ∈ [maxValue, minValue, 0, maxValue]) ∧ r.store.Aligned ∧
    Guarded.newSparseVariable s [] = .ok e ∧ e.value = .error .emptyDomain ∧ e.store = s := by
  let qs : List Request := [.newVariable 0 3, .openLevel, .cut ⟨0⟩ (.atLeast 1), .backtrack 0]
  have hqs : ∀ q ∈ qs, ∀ t : Store, t.HasNames 1 → q.Allowed (fun _ => True) t := by
    simp +contextual [qs, Request.Allowed, minValue, maxValue]
  obtain ⟨s, hs, ht⟩ : ∃ s, Reachable {} (fun _ => True) s ∧ decide (s.level = 0 ∧ s.domains.count = 1) = true :=
    exists_leads (n := 1) .refl hqs (by decide +kernel)
  obtain ⟨hroot, hcount⟩ := of_decide_eq_true ht
  have hname : s.domains.count < wordSize := hcount ▸ by decide
  have hvs : ∀ v ∈ [maxValue, minValue, 0, maxValue], minValue ≤ v ∧ v ≤ maxValue := by decide
  have hnil : ∀ v ∈ ([] : List Int), minValue ≤ v ∧ v ≤ maxValue := List.forall_mem_nil _
  obtain ⟨r, hr, -, -, -, hmade, -, ha⟩ := newSparseVariable_exact hs hroot hname hvs
  obtain ⟨e, he, -, hv, hsame, -⟩ := newSparseVariable_exact hs hroot hname hnil
  obtain ⟨hval, ⟨d, hd, -, hmem⟩, -⟩ := hmade (List.cons_ne_nil _ _)
  rw [hcount] at hval hd
  exact ⟨s, r, e, d, hs, hroot, hcount, hr, hval, hd, hmem, ha, he, hv.2 rfl, hsame rfl⟩

end Store

end DomainPropagation
