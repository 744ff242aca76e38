import DomainPropagation.Domains

/-! Trims: the single changes that all cuts are made of. -/

namespace DomainPropagation

inductive Domain.Trim (d : Domain) : Option Int → List Event → Domain → Prop
  | raise {l : Int} : d.lower < l → l ∈ d → d.Trim none [.lower] { d with lower := l }
  | drop {u : Int} : u < d.upper → u ∈ d → d.Trim none [.upper] { d with upper := u }
  | take {v : Int} {e : Domain} : v ∈ d → d.erase? v = some e →
      d.Trim (some v) (.removal :: ((if v = d.lower then [.lower] else []) ++ if v = d.upper then [.upper] else [])) e

def Cut.removed? : Cut → Option Int
  | .without v => some v
  | _ => none

namespace Domains

variable {s t u : Domains} {x : Var} {removed : Option Int} {w : Written} {l u b v : Int}

inductive Trims (x : Var) (removed : Option Int) : Domains → Domains → Prop
  | refl {s : Domains} : Trims x removed s s
  | step {s t : Domains} {d e : Domain} {events : List Event} {w : Written} :
      s.get x = .ok d → d.Trim removed events e → s.replace x d e removed events = .ok w →
      Trims x removed w.domains t → Trims x removed s t

theorem Trims.trans {s t u : Domains} (h : Trims x removed s t) (h' : Trims x removed t u) : Trims x removed s u := by
  induction h with
  | refl => exact h'
  | step hx hd hw _ ih => exact .step hx hd hw (ih h')

theorem trims_of_cutBelow (h : s.cutBelow x b = .ok w) : Trims x none s w.domains := by
  obtain ⟨d, hx, h⟩ := bind_eq_ok_iff.1 h
  split at h
  · cases h
    exact .refl
  · split at h
    · cases h
      exact .refl
    · next l hl =>
      obtain ⟨hb, hm⟩ := Domain.of_firstFrom? hl
      exact .step hx (.raise (by omega) hm) h .refl

theorem trims_of_cutAbove (h : s.cutAbove x b = .ok w) : Trims x none s w.domains := by
  obtain ⟨d, hx, h⟩ := bind_eq_ok_iff.1 h
  split at h
  · cases h
    exact .refl
  · split at h
    · cases h
      exact .refl
    · next u hu =>
      obtain ⟨hb, hm⟩ := Domain.of_lastUpTo? hu
      exact .step hx (.drop (by omega) hm) h .refl

theorem trims_of_cutOut (h : s.cutOut x v = .ok w) : Trims x (some v) s w.domains := by
  obtain ⟨d, hx, h⟩ := bind_eq_ok_iff.1 h
  split at h
  · next hv =>
    split at h
    · cases h
      exact .refl
    · next e he => exact .step hx (.take hv he) h .refl
  · cases h
    exact .refl

theorem trims_of_cutAround (h : s.cutAround x l u = .ok w) : Trims x none s w.domains := by
  obtain ⟨d, -, h⟩ := bind_eq_ok_iff.1 h
  split at h
  · obtain ⟨r, hr, h⟩ := bind_eq_ok_iff.1 h
    have hr := trims_of_cutBelow hr
    rw [Written.andThen] at h
    split at h
    · exact hr.trans (trims_of_cutAbove h)
    · cases h
      exact hr
  · cases h
    exact .refl

theorem trims_of_cut {c : Cut} (h : s.cut x c = .ok w) : Trims x c.removed? s w.domains := by
  cases c with
  | atLeast b => exact trims_of_cutBelow h
  | atMost b => exact trims_of_cutAbove h
  | without v => exact trims_of_cutOut h
  | within l u => exact trims_of_cutAround h

end Domains

end DomainPropagation
