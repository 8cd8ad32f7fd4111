import Mathlib.Algebra.BigOperators.Group.Finset.Piecewise
import Mathlib.Algebra.Order.BigOperators.Group.Finset

namespace OsProjects.Transition

variable {Thread Place : Type*} [Fintype Thread]

/-- The sum over all threads of the weight of the place each of them is at. -/
def weigh (weight : Place → ℕ) (places : Thread → Place) : ℕ := ∑ thread, weight (places thread)

theorem le_weigh (weight : Place → ℕ) (places : Thread → Place) (thread : Thread) :
    weight (places thread) ≤ weigh weight places :=
  Finset.single_le_sum (f := fun t => weight (places t)) (fun _ _ => Nat.zero_le _)
    (Finset.mem_univ thread)

theorem weigh_const_zero {weight : Place → ℕ} {places : Thread → Place}
    (zero : ∀ thread, weight (places thread) = 0) : weigh weight places = 0 :=
  Finset.sum_eq_zero fun thread _ => zero thread

theorem weigh_add (first second : Place → ℕ) (places : Thread → Place) :
    weigh (fun place => first place + second place) places = weigh first places + weigh second places :=
  Finset.sum_add_distrib

theorem weigh_mono (first second : Place → ℕ) (le : ∀ place, first place ≤ second place)
    (places : Thread → Place) : weigh first places ≤ weigh second places :=
  Finset.sum_le_sum fun thread _ => le (places thread)

theorem weigh_le_card (weight : Place → ℕ) (le : ∀ place, weight place ≤ 1) (places : Thread → Place) :
    weigh weight places ≤ Fintype.card Thread := by
  have bound := weigh_mono weight (fun _ => 1) le places
  simpa [weigh] using bound

variable [DecidableEq Thread]

theorem weigh_update (weight : Place → ℕ) (places : Thread → Place) (thread : Thread) (place : Place) :
    weigh weight (Function.update places thread place) + weight (places thread) =
      weigh weight places + weight place := by
  have moved := Finset.add_sum_erase Finset.univ
    (fun t => weight (Function.update places thread place t)) (Finset.mem_univ thread)
  have stayed := Finset.add_sum_erase Finset.univ (fun t => weight (places t)) (Finset.mem_univ thread)
  have others : ∑ t ∈ Finset.univ.erase thread, weight (Function.update places thread place t) =
      ∑ t ∈ Finset.univ.erase thread, weight (places t) :=
    Finset.sum_congr rfl fun t member => by rw [Function.update_of_ne (Finset.ne_of_mem_erase member)]
  simp only [Function.update_self] at moved
  unfold weigh
  omega

theorem pair_le_weigh (weight : Place → ℕ) (places : Thread → Place) {first second : Thread}
    (distinct : first ≠ second) :
    weight (places first) + weight (places second) ≤ weigh weight places := by
  have whole := Finset.sum_le_sum_of_subset (f := fun t => weight (places t))
    (Finset.subset_univ {first, second})
  rwa [Finset.sum_pair distinct] at whole

end OsProjects.Transition
