import DomainPropagation.Failure

/-! Sequences of calls: what is answered to each in turn, and what there is after the last. -/

namespace DomainPropagation

variable {σ τ κ ρ : Type} {answer : σ → κ → Except Misuse (ρ × σ)} {answer' : τ → κ → Except Misuse (ρ × τ)}
  {s t u : σ} {c : κ} {cs : List κ} {a : ρ} {as : List ρ}

def answers (answer : σ → κ → Except Misuse (ρ × σ)) (s : σ) : List κ → Except Misuse (List ρ × σ)
  | [] => .ok ([], s)
  | c :: cs => do
    let (a, t) ← answer s c
    let (as, u) ← answers answer t cs
    return (a :: as, u)

/-- Every call fits what there is when it is made; `after` says what it makes of that. -/
def AllFit {ν : Type} (after : ν → κ → ν) (Fits : ν → κ → Prop) (n : ν) : List κ → Prop
  | [] => True
  | c :: cs => Fits n c ∧ AllFit after Fits (after n c) cs

instance decidableAllFit {ν : Type} {after : ν → κ → ν} {Fits : ν → κ → Prop} [∀ n c, Decidable (Fits n c)] :
    (n : ν) → (cs : List κ) → Decidable (AllFit after Fits n cs)
  | _, [] => isTrue trivial
  | n, c :: cs =>
    haveI : Decidable (AllFit after Fits (after n c) cs) := decidableAllFit _ _
    inferInstanceAs (Decidable (_ ∧ _))

theorem answers_cons (h : answer s c = .ok (a, t)) :
    answers answer s (c :: cs) = Prod.map (a :: ·) id <$> answers answer t cs := by
  rw [answers, h]
  change (answers answer t cs >>= _) = _
  cases answers answer t cs <;> rfl

theorem answers_cons_eq_ok (h : answers answer s (c :: cs) = .ok (as, u)) :
    ∃ a t as', answer s c = .ok (a, t) ∧ answers answer t cs = .ok (as', u) ∧ as = a :: as' := by
  obtain ⟨⟨a, t⟩, ha, h⟩ := bind_eq_ok_iff.1 h
  obtain ⟨⟨as', u'⟩, has, h⟩ := bind_eq_ok_iff.1 h
  cases h
  exact ⟨a, t, as', ha, has, rfl⟩

theorem answers_map {f : σ → τ} {I : σ → List κ → Prop}
    (hI : ∀ s c cs a t, I s (c :: cs) → answer s c = .ok (a, t) → I t cs)
    (hf : ∀ s c cs, I s (c :: cs) → answer' (f s) c = Prod.map id f <$> answer s c) (hs : I s cs) :
    answers answer' (f s) cs = Prod.map id f <$> answers answer s cs := by
  induction cs generalizing s with
  | nil => rfl
  | cons c cs ih =>
    have hfc := hf s c cs hs
    cases ha : answer s c with
    | error m =>
      rw [ha] at hfc
      rw [answers, answers, hfc, ha]
      rfl
    | ok p =>
      obtain ⟨a, t⟩ := p
      rw [ha] at hfc
      rw [answers_cons hfc, answers_cons ha, ih (hI s c cs a t hs ha)]
      cases answers answer t cs <;> rfl

theorem answers_comm {f : σ → τ} (hf : ∀ s c, answer' (f s) c = Prod.map id f <$> answer s c) (s : σ) (cs : List κ) :
    answers answer' (f s) cs = Prod.map id f <$> answers answer s cs :=
  answers_map (I := fun _ _ => True) (fun _ _ _ _ _ _ _ => trivial) (fun s c _ _ => hf s c) trivial

theorem answers_mono {answer' : σ → κ → Except Misuse (ρ × σ)}
    (h : ∀ s c a t, answer s c = .ok (a, t) → answer' s c = .ok (a, t)) (hcs : answers answer s cs = .ok (as, u)) :
    answers answer' s cs = .ok (as, u) := by
  induction cs generalizing s as with
  | nil => exact hcs
  | cons c cs ih =>
    obtain ⟨a, t, as', ha, has, rfl⟩ := answers_cons_eq_ok hcs
    rw [answers_cons (h s c a t ha), ih has]
    rfl

end DomainPropagation
