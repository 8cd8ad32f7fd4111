import Mathlib.Data.Int.Basic

namespace OsProjects.Threads

/-- `Zem_t`, reduced to the field its callers see: every `Zem_wait` and `Zem_post` is one atomic step. -/
structure Zem where
  value : ℤ
  deriving DecidableEq, Repr

def zemInit (value : ℤ) : Zem := ⟨value⟩

def zemWait (z : Zem) : Option Zem :=
  if z.value ≤ 0 then none else some ⟨z.value - 1⟩

def zemPost (z : Zem) : Zem := ⟨z.value + 1⟩

@[simp] theorem zemInit_value (value : ℤ) : (zemInit value).value = value := rfl

@[simp, grind =] theorem zemPost_value (z : Zem) : (zemPost z).value = z.value + 1 := rfl

theorem zemWait_eq_none {z : Zem} : zemWait z = none ↔ z.value ≤ 0 := by
  unfold zemWait
  split <;> simp_all

theorem zemWait_eq_some {z after : Zem} :
    zemWait z = some after ↔ 0 < z.value ∧ after.value = z.value - 1 := by
  obtain ⟨value⟩ := after
  unfold zemWait
  split
  · simp; omega
  · simp only [Option.some.injEq, Zem.mk.injEq]; omega

end OsProjects.Threads
