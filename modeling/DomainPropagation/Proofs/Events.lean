import DomainPropagation.Pending
import Mathlib.Order.Bounds.Basic

/-! Pending events stay in step with their marks, so that no event is lost for being taken as listed
already; and what a watcher can tell of a change to the values of a variable. -/

namespace DomainPropagation

namespace Pending

variable {p q : Pending} {e f : Event} {x y : Var}

def WellFormed (p : Pending) : Prop :=
  ∀ e x, (e, x) ∈ p.events ↔ ∃ es, p.seen.get? x = some es ∧ e ∈ es

theorem note_eq {es : EventSet} (hes : p.seen.get? x = some es) (e : Event) :
    p.note e x = .ok (if e ∈ es then p
      else { seen := p.seen.modify x fun _ => es.insert e, events := p.events.push (e, x) }) := by
  rw [note, Table.get_eq_ok_iff.2 hes, ok_bind]
  split <;> rfl

theorem note_spec (h : p.WellFormed) (hx : x.index < p.seen.size) (e : Event) :
    ∃ q, p.note e x = .ok q ∧ q.WellFormed ∧ q.seen.size = p.seen.size ∧
      ∀ f y, (f, y) ∈ q.events ↔ (f, y) ∈ p.events ∨ f = e ∧ y = x := by
  obtain ⟨es, hes⟩ := Table.lt_size_iff (k := x).1 hx
  rw [note_eq hes]
  split
  · next he =>
    refine ⟨p, rfl, h, rfl, fun f y => ⟨.inl, ?_⟩⟩
    rintro (hp | ⟨rfl, rfl⟩)
    · exact hp
    · exact (h f y).2 ⟨es, hes, he⟩
  · next he =>
    have hq : ∀ f y, (f, y) ∈ p.events.push (e, x) ↔ (f, y) ∈ p.events ∨ f = e ∧ y = x := by
      intro f y
      rw [Array.mem_push, Prod.mk.injEq]
    refine ⟨_, rfl, ?_, Table.size_modify .., hq⟩
    intro f y
    simp only [hq, h f y, Table.get?_modify, Var.key_inj]
    by_cases hxy : x = y
    · subst hxy
      simp [hes, or_comm]
    · simp [hxy, Ne.symm hxy]

theorem toList_note (hp : p.WellFormed) (h : p.note e x = .ok q) :
    q.events.toList = if (e, x) ∈ p.events then p.events.toList else p.events.toList ++ [(e, x)] := by
  obtain ⟨es, hes, -⟩ := bind_eq_ok_iff.1 h
  have hes := Table.get_eq_ok_iff.1 hes
  have hmark : (e, x) ∈ p.events ↔ e ∈ es := by
    rw [hp e x, hes]
    simp
  rw [note_eq hes] at h
  cases h
  rw [if_congr hmark rfl rfl]
  split
  · rfl
  · exact Array.toList_push

theorem foldlM_note_spec (h : p.WellFormed) (hx : x.index < p.seen.size) (es : List Event) :
    ∃ q, es.foldlM (·.note · x) p = .ok q ∧ q.WellFormed ∧ q.seen.size = p.seen.size ∧
      ∀ f y, (f, y) ∈ q.events ↔ (f, y) ∈ p.events ∨ f ∈ es ∧ y = x := by
  induction es generalizing p with
  | nil => exact ⟨p, rfl, h, rfl, by simp⟩
  | cons e es ih =>
    obtain ⟨q, hq, hwq, hsq, hmq⟩ := note_spec h hx e
    obtain ⟨r, hr, hwr, hsr, hmr⟩ := ih hwq (hsq ▸ hx)
    refine ⟨r, ?_, hwr, hsr.trans hsq, fun f y => ?_⟩
    · rw [List.foldlM_cons, hq]
      exact hr
    · rw [hmr, hmq, List.mem_cons]
      tauto

theorem get?_foldl_erase {l : List (Event × Var)} {t : Table Var EventSet} {es : EventSet}
    (h : (l.foldl (fun t (e, x) => t.modify x (·.erase e)) t).get? x = some es) :
    ∃ es', t.get? x = some es' ∧ ∀ e, e ∈ es ↔ e ∈ es' ∧ (e, x) ∉ l := by
  induction l generalizing t with
  | nil => exact ⟨es, h, by simp⟩
  | cons p l ih =>
    obtain ⟨es', hes', he⟩ := ih h
    simp only [Table.get?_modify, Var.key_inj] at hes'
    split at hes'
    · next hx =>
      obtain ⟨es'', hes'', rfl⟩ := Option.map_eq_some_iff.1 hes'
      refine ⟨es'', hes'', fun e => ?_⟩
      rw [he, EventSet.mem_erase, List.mem_cons, Prod.ext_iff]
      simp only [hx, and_true]
      tauto
    · next hx =>
      refine ⟨es', hes', fun e => ?_⟩
      rw [he, List.mem_cons, Prod.ext_iff]
      have : ¬x = p.2 := fun h => hx h.symm
      tauto

theorem size_foldl_erase (l : List (Event × Var)) (t : Table Var EventSet) :
    (l.foldl (fun t (e, x) => t.modify x (·.erase e)) t).size = t.size := by
  induction l generalizing t with
  | nil => rfl
  | cons p l ih => exact (ih _).trans (Table.size_modify ..)

theorem size_drain (p : Pending) : p.drain.2.seen.size = p.seen.size := by
  rw [drain, ← Array.foldl_toList]
  exact size_foldl_erase _ _

theorem WellFormed.drain (h : p.WellFormed) : p.drain.2.WellFormed := by
  intro e x
  refine ⟨fun he => absurd he (Array.not_mem_empty _), ?_⟩
  rintro ⟨es, hes, he⟩
  rw [Pending.drain, ← Array.foldl_toList] at hes
  obtain ⟨es', hes', hm⟩ := get?_foldl_erase hes
  exact absurd (Array.mem_toList_iff.2 ((h e x).2 ⟨es', hes', ((hm e).1 he).1⟩)) ((hm e).1 he).2

theorem size_clear (p : Pending) : p.clear.seen.size = p.seen.size := Table.size_map ..

theorem wellFormed_clear (p : Pending) : p.clear.WellFormed := by
  intro e x
  refine ⟨fun he => absurd he (Array.not_mem_empty _), ?_⟩
  rintro ⟨es, hes, he⟩
  rw [clear, Table.get?_map] at hes
  obtain ⟨_, -, rfl⟩ := Option.map_eq_some_iff.1 hes
  exact absurd he (EventSet.not_mem_empty e)

theorem WellFormed.grow (h : p.WellFormed) : p.grow.WellFormed := by
  intro e x
  change (e, x) ∈ p.events ↔ ∃ es, (p.seen.push ∅).get? x = some es ∧ e ∈ es
  rw [h e x, Table.get?_push]
  split
  · next hx =>
    constructor
    · rintro ⟨es, hes, -⟩
      have := Table.lt_size_iff.2 ⟨es, hes⟩
      omega
    · rintro ⟨es, hes, he⟩
      cases hes
      exact absurd he (EventSet.not_mem_empty e)
  · rfl

end Pending

namespace Sensitivity

/-- What a watcher of a variable can tell when its values change: nothing, only whether there are other
bounds, or everything. -/
def Tells : Sensitivity → Set Int → Set Int → Prop
  | .never, _, _ => False
  | .bounds, a, b => lowerBounds a ≠ lowerBounds b ∨ upperBounds a ≠ upperBounds b
  | .every, a, b => a ≠ b

theorem Tells.ne {s : Sensitivity} {a b : Set Int} (h : s.Tells a b) : a ≠ b := by
  rintro rfl
  cases s with
  | never => exact h
  | bounds => exact h.elim (· rfl) (· rfl)
  | every => exact h rfl

theorem Tells.split {s : Sensitivity} {a c : Set Int} (b : Set Int) (h : s.Tells a c) :
    s.Tells a b ∨ s.Tells b c := by
  cases s with
  | never => exact .inl h
  | bounds =>
    by_contra hn
    simp only [Tells, ne_eq] at h hn
    grind
  | every =>
    by_contra hn
    simp only [Tells, ne_eq] at h hn
    grind

end Sensitivity

namespace Event

variable {e : Event} {a b c d : Set Int}

def Happens : Event → Set Int → Set Int → Prop
  | .assign, a, b => ¬ a.Subsingleton ∧ b.Subsingleton
  | .lower, a, b => lowerBounds a ≠ lowerBounds b
  | .upper, a, b => upperBounds a ≠ upperBounds b
  | .removal, a, b => a ≠ b

theorem Happens.mono (h : e.Happens b c) (hab : b ⊆ a) (hbc : c ⊆ b) (hcd : d ⊆ c) : e.Happens a d := by
  cases e with
  | assign => exact ⟨fun ha => h.1 (ha.anti hab), h.2.anti hcd⟩
  | lower =>
    intro had
    apply h
    apply (lowerBounds_mono_set hbc).antisymm
    exact (lowerBounds_mono_set hcd).trans (had.ge.trans (lowerBounds_mono_set hab))
  | upper =>
    intro had
    apply h
    apply (upperBounds_mono_set hbc).antisymm
    exact (upperBounds_mono_set hcd).trans (had.ge.trans (upperBounds_mono_set hab))
  | removal =>
    rintro rfl
    exact h ((hab.trans hcd).antisymm hbc)

theorem Happens.ne (h : e.Happens a b) : a ≠ b := by
  rintro rfl
  cases e with
  | assign => exact h.1 h.2
  | _ => exact h rfl

theorem Happens.bounds (h : e.Happens a b) (hb : b.Nonempty) (he : e ≠ .removal) : Sensitivity.bounds.Tells a b := by
  cases e with
  | assign =>
    obtain ⟨v, hv⟩ := hb
    by_contra ht
    simp only [Sensitivity.Tells, not_or, ne_eq, not_not] at ht
    -- With the same bounds as its only value, the larger set has no other value either.
    have hl : v ∈ lowerBounds a := ht.1.ge fun u hu => (h.2 hv hu).le
    have hu : v ∈ upperBounds a := ht.2.ge fun u hu => (h.2 hu hv).le
    exact h.1 fun u hua w hwa => ((hu hua).antisymm (hl hua)).trans ((hu hwa).antisymm (hl hwa)).symm
  | lower => exact .inl h
  | upper => exact .inr h
  | removal => exact absurd rfl he

theorem Happens.tells {need : Sensitivity} (h : e.Happens a b) (hb : b.Nonempty) (he : e ∈ need.events) :
    need.Tells a b := by
  cases need with
  | never => exact absurd he (EventSet.not_mem_empty e)
  | bounds =>
    apply h.bounds hb
    rintro rfl
    cases he
  | every => exact h.ne

end Event

end DomainPropagation
