import Mathlib.Data.Nat.Notation
import Mathlib.Data.Int.Notation
import Mathlib.Logic.Function.Basic

namespace OsProjects.Arrays

/-! Arrays whose accesses are checked, and counted loops over them. -/

variable {α σ : Type} {n : ℕ}

def load (a : Vector α n) (i : ℤ) : Option α := if 0 ≤ i then a[i.toNat]? else none

def store (a : Vector α n) (i : ℤ) (v : α) : Option (Vector α n) :=
  if inside : 0 ≤ i ∧ i.toNat < n then some (a.set i.toNat v inside.2) else none

/-- `for (; j < stop; j++)`. -/
def forUp (stop : ℕ) (body : ℕ → σ → Option σ) (j : ℕ) (s : σ) : Option σ :=
  if j < stop then body j s >>= forUp stop body (j + 1) else some s
termination_by stop - j

/-- `for (; j > stop; j -= step + 1)`. -/
def forDown (stop step : ℕ) (body : ℕ → σ → Option σ) (j : ℕ) (s : σ) : Option σ :=
  if stop < j then body j s >>= forDown stop step body (j - (step + 1)) else some s
termination_by j

/-! ## What an array holds -/

variable [Inhabited α] {a b : Vector α n} {i k : ℕ} {v : α}

def cell (a : Vector α n) (i : ℕ) : α := a[i]?.getD default

theorem cell_ext (same : ∀ i < n, cell a i = cell b i) : a = b := by
  refine Vector.ext fun i less => ?_
  have equal := same i less
  rwa [cell, cell, Vector.getElem?_eq_getElem less, Vector.getElem?_eq_getElem less] at equal

theorem cell_of_le (out : n ≤ i) : cell a i = default := by
  rw [cell, Vector.getElem?_eq_none out, Option.getD_none]

theorem load_eq {j : ℤ} (index : j = i) (less : i < n) : load a j = some (cell a i) := by
  subst index
  rw [load, if_pos (Int.natCast_nonneg i), Int.toNat_natCast, cell, Vector.getElem?_eq_getElem less, Option.getD_some]

theorem store_eq {j : ℤ} (index : j = i) (less : i < n) (v : α) :
    ∃ b, store a j v = some b ∧ cell b = Function.update (cell a) i v := by
  subst index
  refine ⟨a.set i v less, dif_pos ⟨Int.natCast_nonneg i, less⟩, funext fun k => ?_⟩
  by_cases same : k = i
  · subst same
    simp [cell, less]
  · rw [Function.update_of_ne same, cell, cell, Vector.getElem?_set, if_neg (Ne.symm same)]

/-! ## Invariants of loops -/

variable {body : ℕ → σ → Option σ} {stop j : ℕ} {s : σ}

theorem forUp_spec (inv : ℕ → σ → Prop) (start : inv j s) (le : j ≤ stop)
    (turn : ∀ i s, j ≤ i → i < stop → inv i s → ∃ s', body i s = some s' ∧ inv (i + 1) s') :
    ∃ s', forUp stop body j s = some s' ∧ inv stop s' := by
  fun_induction forUp stop body j s with
  | case1 j s more ih =>
    obtain ⟨s', ran, next⟩ := turn j s (Nat.le_refl j) more start
    rw [ran]
    exact ih s' next more fun i s first => turn i s (Nat.le_of_succ_le first)
  | case2 j s done =>
    obtain rfl : j = stop := Nat.le_antisymm le (Nat.not_lt.mp done)
    exact ⟨s, rfl, start⟩

theorem forDown_spec {step : ℕ} (inv : ℕ → σ → Prop) (start : inv j s)
    (turn : ∀ i s, stop < i → i ≤ j → inv i s → ∃ s', body i s = some s' ∧ inv (i - (step + 1)) s') :
    ∃ last s', forDown stop step body j s = some s' ∧ last ≤ stop ∧ inv last s' := by
  fun_induction forDown stop step body j s with
  | case1 j s more ih =>
    obtain ⟨s', ran, next⟩ := turn j s more (Nat.le_refl j) start
    rw [ran]
    exact ih s' next fun i s first less => turn i s first (Nat.le_trans less (Nat.sub_le _ _))
  | case2 j s done => exact ⟨j, s, rfl, Nat.not_lt.mp done, start⟩

end OsProjects.Arrays
