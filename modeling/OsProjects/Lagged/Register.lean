import Mathlib.RingTheory.AdjoinRoot
import Mathlib.Algebra.CharP.Two
import Mathlib.Algebra.CharP.Algebra
import Mathlib.Algebra.Field.ZMod

namespace OsProjects.Lagged
open Finset

/-! ## Lagged sequences -/

section
variable {k l : ℕ} {m : ℤ} {X : ℕ → ℤ}

/-- `X j = (X (j - k) - X (j - l)) mod m`. -/
def IsLagged (k l : ℕ) (m : ℤ) (X : ℕ → ℤ) : Prop := ∀ j, X (j + k) = (X j - X (j + (k - l))) % m

theorem IsLagged.even_back (lagged : IsLagged k l m X) (even : 2 ∣ m) (short : 0 < l) (less : l < k) {j : ℕ}
    (window : ∀ i < k, Even (X (j + 1 + i))) : Even (X j) := by
  have last : Even (X (j + k)) := by
    have := window (k - 1) (by omega)
    rwa [show j + 1 + (k - 1) = j + k by omega] at this
  have middle : Even (X (j + (k - l))) := by
    have := window (k - l - 1) (by omega)
    rwa [show j + 1 + (k - l - 1) = j + (k - l) by omega] at this
  have rule := lagged j
  rw [Int.even_iff] at *
  obtain ⟨half, rfl⟩ := even
  have parity := Int.emod_emod_of_dvd (X j - X (j + (k - l))) (Dvd.intro half rfl : (2 : ℤ) ∣ 2 * half)
  omega

/-- The recurrence runs backwards, so a window of even terms would have one before it. -/
theorem IsLagged.exists_odd (lagged : IsLagged k l m X) (even : 2 ∣ m) (short : 0 < l) (less : l < k)
    (start : ∃ i < k, Odd (X i)) (j : ℕ) : ∃ i < k, Odd (X (j + i)) := by
  induction j with
  | zero => simpa using start
  | succ j ih =>
    by_contra none
    push Not at none
    have window : ∀ i < k, Even (X (j + 1 + i)) := fun i inside => Int.not_odd_iff_even.mp (none i inside)
    obtain ⟨i, inside, odd⟩ := ih
    cases i with
    | zero => exact Int.not_odd_iff_even.mpr (lagged.even_back even short less window) odd
    | succ i => exact none i (by omega) (by rwa [show j + 1 + i = j + (i + 1) by omega])

end

/-! ## Words as elements of a ring of characteristic two

The coefficients are numbers of which only the parity counts. -/

section
variable {R : Type*} [CommRing R] [CharP R 2] {z : R} {c d : ℕ → ℕ} {n k l : ℕ}

def value (z : R) (c : ℕ → ℕ) (n : ℕ) : R := ∑ i ∈ range n, (c i : R) * z ^ i

theorem cast_congr {a b : ℕ} (same : a % 2 = b % 2) : (a : R) = b := by
  rw [CharP.cast_eq_mod R 2 a, same, ← CharP.cast_eq_mod]

theorem value_congr (same : ∀ i < n, c i % 2 = d i % 2) : value z c n = value z d n :=
  sum_congr rfl fun i member => by rw [cast_congr (same i (mem_range.mp member))]

theorem value_eq_zero (even : ∀ i < n, c i % 2 = 0) : value z c n = 0 := by
  rw [value_congr (d := fun _ => 0) even]
  simp [value]

theorem value_spread (same : ∀ i < n, d (2 * i) % 2 = c i % 2) (zero : ∀ i < n, d (2 * i + 1) % 2 = 0) :
    value z d (2 * n) = value z c n ^ 2 := by
  induction n with
  | zero => simp [value]
  | succ n ih =>
    have earlier := ih (fun i less => same i (by omega)) fun i less => zero i (by omega)
    have square : (c n : R) ^ 2 = c n := by
      have parity : (c n ^ 2) % 2 = c n % 2 := by
        rw [Nat.pow_mod]
        rcases Nat.mod_two_eq_zero_or_one (c n) with even | odd <;> simp [*]
      exact_mod_cast cast_congr (R := R) parity
    have top : (d (2 * n) : R) = c n := cast_congr (same n (by omega))
    have gap : (d (2 * n + 1) : R) = 0 := by
      simpa using cast_congr (R := R) (b := 0) (zero n (by omega))
    rw [value] at earlier
    rw [show 2 * (n + 1) = 2 * n + 1 + 1 by omega, value, sum_range_succ, sum_range_succ, earlier, top, gap, value, value,
      sum_range_succ, CharTwo.add_sq, mul_pow, square]
    ring

section
variable (root : z ^ k = z ^ l + 1) (less : l < k)
include root less

theorem value_reduce {j : ℕ} (high : k ≤ j)
    (same : ∀ i < j, d i % 2 = (c i + (if i = j - k then c j else 0) + (if i = j - k + l then c j else 0)) % 2) :
    value z d j = value z c (j + 1) := by
  have lower : z ^ j = z ^ (j - k) + z ^ (j - k + l) := by
    calc z ^ j = z ^ (j - k) * z ^ k := by rw [← pow_add, Nat.sub_add_cancel high]
      _ = z ^ (j - k) + z ^ (j - k + l) := by rw [root, pow_add]; ring
  rw [value_congr same, value, value, sum_range_succ, lower]
  simp only [Nat.cast_add, Nat.cast_ite, Nat.cast_zero, add_mul, ite_mul, zero_mul, sum_add_distrib, sum_ite_eq', mem_range]
  rw [if_pos (by omega), if_pos (by omega)]
  ring

theorem value_shift (short : 0 < l)
    (same : ∀ i < k, d i % 2 = ((if i = 0 then c (k - 1) else c (i - 1)) + (if i = l then c (k - 1) else 0)) % 2) :
    value z d k = z * value z c k := by
  obtain ⟨m, rfl⟩ : ∃ m, k = m + 1 := ⟨k - 1, by omega⟩
  rw [value_congr same, value, value, mul_sum]
  simp only [Nat.cast_add, Nat.cast_ite, Nat.cast_zero, add_mul, ite_mul, zero_mul, sum_add_distrib, sum_ite_eq', mem_range]
  rw [if_pos less, sum_range_succ', sum_range_succ]
  simp only [Nat.add_sub_cancel, Nat.add_one_ne_zero, if_false, if_true]
  have lower : z * (c m * z ^ m) = c m * z ^ 0 + c m * z ^ l := by
    calc z * (c m * z ^ m) = c m * z ^ (m + 1) := by ring
      _ = c m * z ^ 0 + c m * z ^ l := by rw [root]; ring
  have moved : ∀ i, (c i : R) * z ^ (i + 1) = z * (c i * z ^ i) := fun i => by ring
  rw [lower, sum_congr rfl fun i _ => moved i]
  ring

theorem pow_root_ne_zero [Nontrivial R] (short : 0 < l) (e : ℕ) : z ^ e ≠ 0 := by
  have unit : IsUnit z := by
    refine IsUnit.of_mul_eq_one (z ^ (k - 1) + z ^ (l - 1)) ?_
    rw [mul_add, ← pow_succ', ← pow_succ', Nat.sub_add_cancel (by omega), Nat.sub_add_cancel short, root]
    rw [add_comm, ← add_assoc, CharTwo.add_self_eq_zero, zero_add]
  exact (unit.pow e).ne_zero

end

end

/-! ## The ring of the register -/

section
open Polynomial

noncomputable def trinomial (k l : ℕ) : (ZMod 2)[X] := X ^ k + (X ^ l + 1)

theorem degree_trinomial {k l : ℕ} (less : l < k) : (trinomial k l).degree = k := by
  rw [trinomial, degree_add_eq_left_of_degree_lt, degree_X_pow]
  refine lt_of_le_of_lt (degree_add_le _ _) ?_
  rw [degree_X_pow, degree_X_pow, degree_one, max_lt_iff]
  exact ⟨by exact_mod_cast less, by exact_mod_cast Nat.zero_lt_of_lt less⟩

theorem eval₂_trinomial {R : Type*} [CommRing R] (f : ZMod 2 →+* R) (z : R) (k l : ℕ) :
    (trinomial k l).eval₂ f z = z ^ k + (z ^ l + 1) := by
  simp [trinomial]

theorem exists_root {k l : ℕ} (less : l < k) :
    ∃ (R : Type) (_ : CommRing R) (_ : CharP R 2) (_ : Nontrivial R) (z : R), z ^ k = z ^ l + 1 := by
  have degree : (trinomial k l).degree ≠ 0 := by
    rw [degree_trinomial less]
    exact_mod_cast Nat.ne_zero_of_lt less
  have nontrivial := AdjoinRoot.nontrivial _ degree
  have char := charP_of_injective_algebraMap (algebraMap (ZMod 2) (AdjoinRoot (trinomial k l))).injective 2
  refine ⟨AdjoinRoot (trinomial k l), inferInstance, char, nontrivial, AdjoinRoot.root _, ?_⟩
  exact CharTwo.add_eq_zero.mp ((eval₂_trinomial _ _ k l).symm.trans (AdjoinRoot.eval₂_root _))

end

end OsProjects.Lagged
