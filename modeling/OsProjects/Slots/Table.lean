import Mathlib.Data.List.Basic
import Mathlib.Data.Nat.Basic
import Mathlib.Logic.Function.Basic

namespace OsProjects.Slots

/-! Tables whose slots are free or hold a key and its value, as finite maps. -/

variable {κ ν : Type*}

/-- The value of a slot with a key. -/
def valueAt [DecidableEq κ] (k : κ) (slot : Option (κ × ν)) : Option ν :=
  match slot with
  | none => none
  | some (k', v) => if k' = k then some v else none

/-- The value a table has for a key. -/
def find [DecidableEq κ] (t : List (Option (κ × ν))) (k : κ) : Option ν := t.findSome? (valueAt k)

/-- No key is in two slots. -/
def Unique (t : List (Option (κ × ν))) : Prop :=
  ∀ (i j : ℕ) k v w, t[i]? = some (some (k, v)) → t[j]? = some (some (k, w)) → i = j

/-- A slot is replaced, or one is added at the end. -/
def place (t : List (Option (κ × ν))) (i : ℕ) (slot : Option (κ × ν)) : List (Option (κ × ν)) :=
  if i < t.length then t.set i slot else t ++ [slot]

variable {t : List (Option (κ × ν))} {i j : ℕ} {k : κ} {v : ν} {slot : Option (κ × ν)}

theorem getElem?_place (le : i ≤ t.length) : (place t i slot)[j]? = if j = i then some slot else t[j]? := by
  unfold place
  split
  · rw [List.getElem?_set]
    by_cases same : i = j
    · rw [if_pos same, if_pos (by omega), if_pos same.symm]
    · rw [if_neg same, if_neg (Ne.symm same)]
  · by_cases same : j = i
    · have last : i = t.length := by omega
      rw [if_pos same, same, last, List.getElem?_append_right (Nat.le_refl _)]
      simp
    · rw [if_neg same]
      by_cases less : j < t.length
      · exact List.getElem?_append_left less
      · rw [List.getElem?_eq_none (by rw [List.length_append, List.length_singleton]; omega),
          List.getElem?_eq_none (by omega)]

section
variable [DecidableEq κ]

theorem valueAt_eq_some : valueAt k slot = some v ↔ slot = some (k, v) := by
  cases slot with
  | none => simp [valueAt]
  | some pair =>
    obtain ⟨k', v'⟩ := pair
    simp only [valueAt, Option.ite_none_right_eq_some, Option.some.injEq, Prod.mk.injEq]

theorem find_eq_none : find t k = none ↔ ∀ (j : ℕ) v, t[j]? ≠ some (some (k, v)) := by
  simp only [find, List.findSome?_eq_none_iff]
  constructor
  · intro none j v here
    have other := none _ (List.mem_iff_getElem?.mpr ⟨j, here⟩)
    rw [valueAt_eq_some.mpr rfl] at other
    cases other
  · intro none slot mem
    obtain ⟨j, here⟩ := List.mem_iff_getElem?.mp mem
    cases value : valueAt k slot with
    | none => rfl
    | some v =>
      rw [valueAt_eq_some.mp value] at here
      exact absurd here (none j v)

theorem exists_of_find (found : find t k = some v) : ∃ j : ℕ, t[j]? = some (some (k, v)) := by
  obtain ⟨slot, mem, value⟩ := List.exists_of_findSome?_eq_some found
  rw [valueAt_eq_some.mp value] at mem
  exact List.mem_iff_getElem?.mp mem

theorem find_of_getElem? (unique : Unique t) (here : t[j]? = some (some (k, v))) : find t k = some v := by
  cases found : find t k with
  | none => exact absurd here (find_eq_none.mp found j v)
  | some w =>
    obtain ⟨i, there⟩ := exists_of_find found
    rw [unique i j k w v there here, here] at there
    cases there
    rfl

/-- Tables that agree but for one slot, which goes from one key to none or back. -/
theorem find_eq_update {t' : List (Option (κ × ν))} {o : Option ν} (unique : Unique t')
    (others : ∀ k' v (j : ℕ), k' ≠ k → (t'[j]? = some (some (k', v)) ↔ t[j]? = some (some (k', v)))) (here : find t' k = o) :
    find t' = Function.update (find t) k o := by
  funext k'
  by_cases same : k' = k
  · rw [same, here, Function.update_self]
  · rw [Function.update_of_ne same]
    cases found : find t k' with
    | none => exact find_eq_none.mpr fun j v there => find_eq_none.mp found j v ((others k' v j same).mp there)
    | some v =>
      obtain ⟨j, there⟩ := exists_of_find found
      exact find_of_getElem? unique ((others k' v j same).mpr there)

/-! ## A free slot is taken -/

section
variable (unique : Unique t) (le : i ≤ t.length) (free : ∀ s, t[i]? = some s → s = none) (missing : find t k = none)
include unique le missing

theorem unique_put : Unique (place t i (some (k, v))) := by
  intro a b k' w w' first second
  rw [getElem?_place le] at first second
  by_cases atFirst : a = i <;> by_cases atSecond : b = i
  · rw [atFirst, atSecond]
  · rw [if_pos atFirst] at first
    rw [if_neg atSecond] at second
    cases first
    exact absurd second (find_eq_none.mp missing b w')
  · rw [if_neg atFirst] at first
    rw [if_pos atSecond] at second
    cases second
    exact absurd first (find_eq_none.mp missing a w)
  · rw [if_neg atFirst] at first
    rw [if_neg atSecond] at second
    exact unique a b k' w w' first second

include free

theorem find_put : find (place t i (some (k, v))) = Function.update (find t) k (some v) := by
  have unique' : Unique (place t i (some (k, v))) := unique_put unique le missing
  refine find_eq_update unique' (fun k' w j other => ?_) (find_of_getElem? unique' (j := i) ?_)
  · rw [getElem?_place le]
    by_cases same : j = i
    · rw [if_pos same, same]
      constructor
      · intro equal
        cases equal
        exact absurd rfl other
      · intro there
        cases free _ there
    · rw [if_neg same]
  · rw [getElem?_place le, if_pos rfl]

end

/-! ## A slot is freed -/

section
variable (unique : Unique t) (here : t[i]? = some (some (k, v)))
include unique here

omit [DecidableEq κ] in
theorem unique_clear : Unique (place t i none) := by
  have le : i ≤ t.length := Nat.le_of_lt (List.getElem?_eq_some_iff.mp here).1
  intro a b k' w w' first second
  rw [getElem?_place le] at first second
  split at first
  · cases first
  · split at second
    · cases second
    · exact unique a b k' w w' first second

theorem find_clear : find (place t i none) = Function.update (find t) k none := by
  have le : i ≤ t.length := Nat.le_of_lt (List.getElem?_eq_some_iff.mp here).1
  refine find_eq_update (unique_clear unique here) (fun k' w j other => ?_) (find_eq_none.mpr fun j w there => ?_)
  · rw [getElem?_place le]
    by_cases same : j = i
    · rw [if_pos same, same, here]
      constructor
      · intro equal
        cases equal
      · intro equal
        cases equal
        exact absurd rfl other
    · rw [if_neg same]
  · rw [getElem?_place le] at there
    split at there
    · cases there
    · exact absurd (unique j i k w v there here) ‹_›

end

end

end OsProjects.Slots
