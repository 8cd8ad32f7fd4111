import Mathlib.Algebra.GroupWithZero.Nat

namespace OsProjects.Slots

/-- Numerals of `Fin n` for the sizes of the tables, found in one way whatever a module imports. -/
instance (priority := 1100) numeral (n k : ℕ) : OfNat (Fin (n + 1)) k := ⟨Fin.ofNat (n + 1) k⟩

end OsProjects.Slots
