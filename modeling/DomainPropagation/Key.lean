/-! Keys: the numbered names of variables, of imposed propagators and of constraints. -/

namespace DomainPropagation

/-- A name is one 32-bit word; a number that does not fit keeps its low bits. -/
def wordSize : Nat := 4294967296

class Key (ι : Type) where
  index : ι → Nat
  ofIndex : Nat → ι
  index_ofIndex : ∀ n < wordSize, index (ofIndex n) = n

structure Var where
  index : Nat
deriving DecidableEq

structure Handle where
  index : Nat
deriving DecidableEq

structure Serial where
  index : Nat
deriving DecidableEq

instance : Key Nat := ⟨id, id, fun _ _ => rfl⟩
instance : Key Var := ⟨Var.index, fun n => ⟨n % wordSize⟩, fun _ => Nat.mod_eq_of_lt⟩
instance : Key Handle := ⟨Handle.index, fun n => ⟨n % wordSize⟩, fun _ => Nat.mod_eq_of_lt⟩
instance : Key Serial := ⟨Serial.index, fun n => ⟨n % wordSize⟩, fun _ => Nat.mod_eq_of_lt⟩

@[simp] theorem Var.key_inj {x y : Var} : Key.index x = Key.index y ↔ x = y := by
  cases x
  cases y
  simp [Key.index]

@[simp] theorem Handle.key_inj {h g : Handle} : Key.index h = Key.index g ↔ h = g := by
  cases h
  cases g
  simp [Key.index]

instance : ToString Var := ⟨fun x => s!"x{x.index}"⟩
instance : ToString Handle := ⟨fun h => s!"PropagatorId({h.index})"⟩
instance : ToString Serial := ⟨fun c => toString c.index⟩

structure Supply (ι : Type) where
  issued : Nat := 0
deriving DecidableEq

namespace Supply

variable {ι : Type} [Key ι]

def next (s : Supply ι) : ι × Supply ι :=
  (Key.ofIndex s.issued, ⟨s.issued + 1⟩)

def take (s : Supply ι) : Nat → List ι
  | 0 => []
  | n + 1 => s.next.1 :: s.next.2.take n

end Supply

end DomainPropagation
