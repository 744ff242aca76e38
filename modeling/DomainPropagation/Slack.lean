import DomainPropagation.Step
import DomainPropagation.Trims

/-! The slack of the domains: a number that every change lowers, whatever it changes. Main statements:
a cut, and so a step, leaves the domains as they are or lowers their slack. -/

namespace DomainPropagation

namespace Domain

def slack (d : Domain) : Nat := (d.upper - d.lower).toNat + d.present.count true

theorem slack_raise_lt {d : Domain} {l : Int} (h : d.lower < l) (hl : l ∈ d) :
    slack { d with lower := l } < d.slack := by
  have := (mem_iff.1 hl).1
  simp only [slack]
  omega

theorem slack_drop_lt {d : Domain} {u : Int} (h : u < d.upper) (hu : u ∈ d) :
    slack { d with upper := u } < d.slack := by
  have := (mem_iff.1 hu).1
  simp only [slack]
  omega

theorem count_setFlag_lt {d : Domain} {v : Int} (h : d.flag v = true) :
    (d.setFlag v false).present.count true < d.present.count true := by
  by_cases hi : d.offset v < d.present.size
  · have hf : d.present[d.offset v] = true := by simpa [flag, Array.getD, hi] using h
    have hm : 0 < d.present.count true := Array.count_pos_iff.2 (hf ▸ Array.getElem_mem hi)
    have hc := Array.count_set (a := false) (b := true) hi
    rw [hf] at hc
    simp only [setFlag, Array.setIfInBounds, dif_pos hi, hc, beq_self_eq_true, if_true]
    change d.present.count true - 1 + 0 < _
    omega
  · simp [flag, Array.getD, hi] at h

theorem slack_erase?_lt {d e : Domain} {v : Int} (hv : v ∈ d) (h : d.erase? v = some e) :
    e.slack < d.slack := by
  have hc := count_setFlag_lt (mem_iff.1 hv).2
  have hb := (mem_iff.1 hv).1
  obtain ⟨m, hm, hu⟩ := Option.bind_eq_some_iff.1 h
  have hl : d.lower ≤ m.lower ∧ m.upper = d.upper ∧ m.present = (d.setFlag v false).present := by
    rw [leaveLower?] at hm
    split at hm
    · obtain ⟨l, hl, rfl⟩ := Option.map_eq_some_iff.1 hm
      have := (of_firstFrom? hl).1
      exact ⟨by simp only; omega, rfl, rfl⟩
    · cases hm
      exact ⟨Int.le_refl _, rfl, rfl⟩
  have hu : e.lower = m.lower ∧ e.upper ≤ m.upper ∧ e.present = m.present := by
    rw [leaveUpper?] at hu
    split at hu
    · obtain ⟨u, hl, rfl⟩ := Option.map_eq_some_iff.1 hu
      have := (of_lastUpTo? hl).1
      exact ⟨rfl, by simp only; omega, rfl⟩
    · cases hu
      exact ⟨rfl, Int.le_refl _, rfl⟩
  simp only [slack, hu.2.2, hl.2.2]
  omega

theorem Trim.slack_lt {d e : Domain} {removed : Option Int} {events : List Event} (h : d.Trim removed events e) :
    e.slack < d.slack := by
  cases h with
  | raise hlt hl => exact slack_raise_lt hlt hl
  | drop hlt hu => exact slack_drop_lt hlt hu
  | take hv he => exact slack_erase?_lt hv he

theorem Trim.length_events_le {d e : Domain} {removed : Option Int} {events : List Event}
    (h : d.Trim removed events e) : events.length ≤ 3 := by
  cases h with
  | take _ _ =>
    split <;> split <;> simp
  | _ => simp

end Domain

namespace Pending

theorem size_note_le {p q : Pending} {e : Event} {x : Var} (h : p.note e x = .ok q) :
    q.events.size ≤ p.events.size + 1 := by
  obtain ⟨es, -, h⟩ := bind_eq_ok_iff.1 h
  split at h
  · cases h
    exact Nat.le_succ _
  · cases h
    simp

theorem size_foldlM_note_le {es : List Event} {p q : Pending} {x : Var}
    (h : es.foldlM (·.note · x) p = .ok q) : q.events.size ≤ p.events.size + es.length := by
  induction es generalizing p with
  | nil => cases h; simp
  | cons e es ih =>
    rw [List.foldlM_cons] at h
    obtain ⟨r, hr, h⟩ := bind_eq_ok_iff.1 h
    have := size_note_le hr
    have := ih h
    simp only [List.length_cons]
    omega

end Pending

namespace Domains

/-- A change raises at most four events, so the factor five makes up for the events it leaves. -/
def slack (s : Domains) : Nat := 5 * s.table.sum Domain.slack + s.pending.events.size

theorem slack_replace_lt {s : Domains} {x : Var} {old new : Domain} {removed : Option Int}
    {events : List Event} {w : Written} (hx : s.get x = .ok old) (hn : new.slack < old.slack)
    (he : events.length ≤ 3) (h : s.replace x old new removed events = .ok w) :
    w.domains.slack < s.slack := by
  obtain ⟨p, hp, h⟩ := bind_eq_ok_iff.1 h
  cases h
  have hp := Pending.size_foldlM_note_le hp
  have hs := Table.sum_modify hx (fun _ => new) Domain.slack
  have hl : (if new.isFixed then events ++ [Event.assign] else events).length ≤ 4 := by
    split
    · rw [List.length_append]
      exact Nat.add_le_add_right he 1
    · omega
  simp only [slack, unchanged]
  omega

inductive Edits (x : Var) : Domains → Domains → Prop
  | refl {s : Domains} : Edits x s s
  | step {s t : Domains} {old new : Domain} {removed : Option Int} {events : List Event} {w : Written} :
      s.get x = .ok old → new.slack < old.slack → events.length ≤ 3 →
      s.replace x old new removed events = .ok w → Edits x w.domains t → Edits x s t

theorem Edits.eq_or_slack_lt {s t : Domains} {x : Var} (h : Edits x s t) : t = s ∨ t.slack < s.slack := by
  induction h with
  | refl => exact .inl rfl
  | step hx hn he hw _ ih =>
    have hlt := slack_replace_lt hx hn he hw
    rcases ih with rfl | ih
    · exact .inr hlt
    · exact .inr (Nat.lt_trans ih hlt)

theorem Trims.edits {s t : Domains} {x : Var} {removed : Option Int} (h : Trims x removed s t) : Edits x s t := by
  induction h with
  | refl => exact .refl
  | step hx hd hw _ ih => exact .step hx hd.slack_lt hd.length_events_le hw ih

theorem edits_of_cut {s : Domains} {x : Var} {c : Cut} {w : Written} (h : s.cut x c = .ok w) : Edits x s w.domains :=
  (trims_of_cut h).edits

theorem cut_eq_or_slack_lt {s : Domains} {x : Var} {c : Cut} {w : Written}
    (h : s.cut x c = .ok w) : w.domains = s ∨ w.domains.slack < s.slack :=
  (edits_of_cut h).eq_or_slack_lt

end Domains

namespace Step

theorem run_eq_or_slack_lt {α : Type} {h : Handle} {step : Step α} {s : Domains} {e : Bool} {r : Outcome α}
    (hr : step.run h s e = .ok r) : r.domains = s ∨ r.domains.slack < s.slack := by
  induction step generalizing s e with
  | done a => cases hr; exact .inl rfl
  | fail x => cases hr; exact .inl rfl
  | abort m => cases hr
  | look next ih => exact ih _ hr
  | cut x c next ih =>
    rw [run] at hr
    split at hr
    · cases hr
    · next w hw =>
      rcases ih _ hr with hi | hi
      · exact hi ▸ Domains.cut_eq_or_slack_lt hw
      · rcases Domains.cut_eq_or_slack_lt hw with hc | hc
        · exact .inr (hc ▸ hi)
        · exact .inr (Nat.lt_trans hi hc)
  | entail next ih => exact ih hr

end Step

end DomainPropagation
