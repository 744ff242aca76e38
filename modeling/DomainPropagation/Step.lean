import DomainPropagation.Domains

/-! Steps: the programs that propagators run. A step sees the domains and may change them only by
cuts, so whatever a propagator does, domains only shrink, and every change can be undone and told. -/

namespace DomainPropagation

structure View where
  domains : Domains
  handle : Handle

def View.level (v : View) : Nat := v.domains.level

inductive Step (α : Type) where
  | done (a : α)
  | fail (x : Var)
  | abort (m : Misuse)
  | look (next : View → Step α)
  | cut (x : Var) (c : Cut) (next : Status → Step α)
  | entail (next : Step α)

/-- The end of a step. What was changed before a failure stays changed. -/
structure Outcome (α : Type) where
  domains : Domains
  entailed : Bool
  result : Except Wipeout α

namespace Step

variable {α β : Type}

def bind : Step α → (α → Step β) → Step β
  | done a, f => f a
  | fail x, _ => fail x
  | abort m, _ => abort m
  | look next, f => look fun v => (next v).bind f
  | cut x c next, f => cut x c fun s => (next s).bind f
  | entail next, f => entail (next.bind f)

instance : Monad Step where
  pure := done
  bind := bind

def ask (question : Domains → Except Misuse α) : Step α :=
  look fun v =>
    match question v.domains with
    | .ok a => done a
    | .error m => abort m

def restrict (x : Var) (c : Cut) : Step Unit :=
  cut x c fun
    | .ok () => done ()
    | .error w => fail w.var

def declareEntailed : Step Unit := entail (done ())

def run (h : Handle) : Step α → Domains → Bool → Except Misuse (Outcome α)
  | done a, s, entailed => .ok ⟨s, entailed, .ok a⟩
  | fail x, s, entailed => .ok ⟨s, entailed, .error ⟨x⟩⟩
  | abort m, _, _ => .error m
  | look next, s, entailed => run h (next ⟨s, h⟩) s entailed
  | cut x c next, s, entailed =>
    match s.cut x c with
    | .error m => .error m
    | .ok w => run h (next w.status) w.domains entailed
  | entail next, s, _ => run h next s true

theorem run_bind (step : Step α) (f : α → Step β) (h : Handle) (s : Domains) (e : Bool) :
    (step >>= f).run h s e =
      match step.run h s e with
      | .error m => .error m
      | .ok ⟨t, e, .error w⟩ => .ok ⟨t, e, .error w⟩
      | .ok ⟨t, e, .ok a⟩ => (f a).run h t e := by
  change (step.bind f).run h s e = _
  induction step generalizing s e with
  | done a => rfl
  | fail x => rfl
  | abort m => rfl
  | look next ih => exact ih _ s e
  | cut x c next ih =>
    simp only [bind, run]
    cases s.cut x c with
    | error m => rfl
    | ok w => exact ih _ w.domains e
  | entail next ih => exact ih s true

theorem run_ask (question : Domains → Except Misuse α) (h : Handle) (s : Domains) (e : Bool) :
    (ask question).run h s e = (question s).map (⟨s, e, .ok ·⟩) := by
  simp only [ask, run]
  cases question s <;> rfl

theorem run_restrict (x : Var) (c : Cut) (h : Handle) (s : Domains) (e : Bool) :
    (restrict x c).run h s e = (s.cut x c).map fun w => ⟨w.domains, e, w.status⟩ := by
  simp only [restrict, run]
  cases s.cut x c with
  | error m => rfl
  | ok w => obtain ⟨t, _ | _⟩ := w <;> rfl

def start (step : Step α) (h : Handle) (s : Domains) : Except Misuse (Outcome α) :=
  step.run h s false

end Step

end DomainPropagation
