import Mathlib.Algebra.BigOperators.Group.List.Basic
import Mathlib.Algebra.Order.BigOperators.Group.List
import Mathlib.Order.Interval.Finset.Nat
import Mathlib.Data.Int.Interval
import Mathlib.Tactic

namespace OsProjects.Selection

def pick : List ℤ → ℤ → Option ℕ
  | [], _ => none
  | weight :: rest, ticket => if ticket ≤ weight then some 0 else (pick rest (ticket - weight)).map (· + 1)

def before (weights : List ℤ) (i : ℕ) : ℤ := (weights.take i).sum

@[simp]
theorem before_zero (weights : List ℤ) : before weights 0 = 0 := by simp [before]

@[simp]
theorem before_cons_succ (weight : ℤ) (rest : List ℤ) (i : ℕ) :
    before (weight :: rest) (i + 1) = weight + before rest i := by
  simp [before]

variable {weights : List ℤ} {i : ℕ}

theorem before_nonneg (nonneg : ∀ weight ∈ weights, 0 ≤ weight) (i : ℕ) : 0 ≤ before weights i :=
  List.sum_nonneg fun weight member => nonneg weight (List.mem_of_mem_take member)

theorem before_add_le_sum (nonneg : ∀ weight ∈ weights, 0 ≤ weight) {weight : ℤ}
    (here : weights[i]? = some weight) : before weights i + weight ≤ weights.sum := by
  induction weights generalizing i with
  | nil => simp at here
  | cons first rest ih =>
    have restNonneg : ∀ weight ∈ rest, 0 ≤ weight := fun weight member => nonneg weight (by simp [member])
    cases i with
    | zero =>
      have := List.sum_nonneg restNonneg
      simp only [List.getElem?_cons_zero, Option.some.injEq] at here
      simp only [before_zero, List.sum_cons]
      omega
    | succ i =>
      have := ih restNonneg (by simpa using here)
      simp only [before_cons_succ, List.sum_cons]
      omega

theorem pick_eq_some_iff (nonneg : ∀ weight ∈ weights, 0 ≤ weight) {ticket : ℤ} (positive : 0 < ticket) :
    pick weights ticket = some i ↔
      ∃ weight, weights[i]? = some weight ∧ before weights i < ticket ∧ ticket ≤ before weights i + weight := by
  induction weights generalizing ticket i with
  | nil => simp [pick]
  | cons first rest ih =>
    have restNonneg : ∀ weight ∈ rest, 0 ≤ weight := fun weight member => nonneg weight (by simp [member])
    by_cases within : ticket ≤ first
    · cases i with
      | zero => simp [pick, within, positive]
      | succ i =>
        have := before_nonneg restNonneg i
        simp only [pick, within, if_true, before_cons_succ, Option.some.injEq]
        constructor
        · intro absurd
          omega
        · rintro ⟨weight, _, low, _⟩
          omega
    · cases i with
      | zero => simp [pick, within]
      | succ i =>
        have shifted : pick rest (ticket - first) = some i ↔ _ := ih restNonneg (by omega)
        simp only [pick, within, if_false, before_cons_succ, Option.map_eq_some_iff,
          List.getElem?_cons_succ]
        constructor
        · rintro ⟨j, picked, equal⟩
          obtain rfl : j = i := by omega
          obtain ⟨weight, here, low, high⟩ := shifted.mp picked
          exact ⟨weight, here, by omega, by omega⟩
        · rintro ⟨weight, here, low, high⟩
          exact ⟨i, shifted.mpr ⟨weight, here, by omega, by omega⟩, rfl⟩

theorem exists_pick {ticket : ℤ} (bound : ticket ≤ weights.sum) (positive : 0 < ticket) :
    ∃ i, pick weights ticket = some i := by
  induction weights generalizing ticket with
  | nil =>
    simp only [List.sum_nil] at bound
    omega
  | cons first rest ih =>
    by_cases within : ticket ≤ first
    · exact ⟨0, by simp [pick, within]⟩
    · simp only [List.sum_cons] at bound
      obtain ⟨i, picked⟩ : ∃ i, pick rest (ticket - first) = some i := ih (by omega) (by omega)
      exact ⟨i + 1, by simp [pick, within, picked]⟩

theorem card_pick (nonneg : ∀ weight ∈ weights, 0 ≤ weight) {weight : ℤ} (here : weights[i]? = some weight) :
    (((Finset.Icc 1 weights.sum).filter fun ticket => pick weights ticket = some i).card : ℤ) = weight := by
  have tickets : (Finset.Icc 1 weights.sum).filter (fun ticket => pick weights ticket = some i) =
      Finset.Ioc (before weights i) (before weights i + weight) := by
    have low := before_nonneg nonneg i
    have high := before_add_le_sum nonneg here
    ext ticket
    simp only [Finset.mem_filter, Finset.mem_Icc, Finset.mem_Ioc]
    constructor
    · rintro ⟨⟨positive, _⟩, picked⟩
      obtain ⟨other, there, bounds⟩ := (pick_eq_some_iff nonneg (by omega)).mp picked
      obtain rfl : weight = other := by simpa [here] using there
      exact bounds
    · rintro ⟨above, below⟩
      exact ⟨⟨by omega, by omega⟩, (pick_eq_some_iff nonneg (by omega)).mpr ⟨weight, here, above, below⟩⟩
  have positive := nonneg weight (List.mem_of_getElem? here)
  rw [tickets, Int.card_Ioc]
  omega

end OsProjects.Selection
