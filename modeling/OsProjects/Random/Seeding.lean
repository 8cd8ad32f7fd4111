import OsProjects.Lagged.Register
import OsProjects.Random.Model

namespace OsProjects.Random
open Arrays Kernel Lagged

def Small (v : Long) : Prop := v.toNat < 2 ^ 30

theorem small_modDiff (x y : Long) : Small (modDiff x y) := by
  rw [Small, toNat_modDiff]
  exact Nat.mod_lt _ (by decide)

theorem parity_modDiff (x y : Long) : (modDiff x y).toNat % 2 = (x.toNat + y.toNat) % 2 := by
  have high := y.isLt
  rw [toNat_modDiff, BitVec.toNat_sub]
  omega

/-! ## The loops of a turn

Each invariant says what the array `y` holds before the turn with index `j`, in terms of the array `x` before the loop. -/

section
variable {x y : Local} {j : ℕ}

def SpreadTo (x : Local) (j : ℕ) (y : Local) : Prop :=
  ∀ i < 199, cell y i = if i % 2 = 0 ∧ 2 * j < i then cell x (i / 2) else cell x i

theorem spreadTo_turn (first : 0 < j) (last : j < 100) (held : SpreadTo x j y) :
    ∃ y', (do store y (j + j) (← load y j)) = some y' ∧ SpreadTo x (j - 1) y' := by
  have loaded := load_eq (a := y) rfl (by omega : j < 199)
  obtain ⟨y', stored, after⟩ := store_eq (a := y) (j := j + j) (by omega) (by omega : 2 * j < 199) (cell y j)
  refine ⟨y', by simp [loaded, stored], fun i inside => ?_⟩
  rw [after, Function.update_apply]
  by_cases here : i = 2 * j
  · subst i
    rw [if_pos rfl, held j (by omega), if_neg (by omega), if_pos (by omega), Nat.mul_div_cancel_left j (by decide)]
  · rw [if_neg here, held i inside]
    refine if_congr ?_ rfl rfl
    omega

theorem spread_spec (x : Local) : ∃ x', spread x = some x' ∧ SpreadTo x 0 x' := by
  have start : SpreadTo x 99 x := fun i inside => (if_neg (by omega)).symm
  obtain ⟨last, x', ran, ended, done⟩ := forDown_spec (fun j y => j < 100 ∧ SpreadTo x j y) ⟨by decide, start⟩
    fun j y (first : 0 < j) _ ⟨less, held⟩ =>
      (spreadTo_turn first less held).imp fun y' next => ⟨next.1, by omega, next.2⟩
  obtain rfl : last = 0 := by omega
  exact ⟨x', ran, done.2⟩

def FilledTo (x : Local) (j : ℕ) (y : Local) : Prop :=
  ∀ i < 199, cell y i = if i % 2 = 1 ∧ i + j < 199 then evenize (cell x (199 - i)) else cell x i

theorem filledTo_turn (first : 63 < j) (last : j ≤ 198) (even : j % 2 = 0) (held : FilledTo x j y) :
    ∃ y', (do store y (KK + KK - 1 - j) (evenize (← load y j))) = some y' ∧ FilledTo x (j - 2) y' := by
  have loaded := load_eq (a := y) rfl (by omega : j < 199)
  obtain ⟨y', stored, after⟩ := store_eq (a := y) (j := KK + KK - 1 - j) (by simp only [KK]; omega)
    (by omega : 199 - j < 199) (evenize (cell y j))
  refine ⟨y', by simp [loaded, stored], fun i inside => ?_⟩
  rw [after, Function.update_apply]
  by_cases here : i = 199 - j
  · rw [if_pos here, held j (by omega), if_neg (by omega), if_pos (by omega), here, Nat.sub_sub_self (by omega)]
  · rw [if_neg here, held i inside]
    refine if_congr ?_ rfl rfl
    omega

theorem fillOdd_spec (x : Local) : ∃ x', fillOdd x = some x' ∧ FilledTo x 62 x' := by
  have start : FilledTo x 198 x := fun i inside => (if_neg (by omega)).symm
  obtain ⟨last, x', ran, ended, done⟩ := forDown_spec
    (fun j y => (j % 2 = 0 ∧ 62 ≤ j ∧ j ≤ 198) ∧ FilledTo x j y) ⟨by decide, start⟩
    fun j y (first : 63 < j) _ ⟨range, held⟩ =>
      (filledTo_turn first range.2.2 range.1 held).imp fun y' next => ⟨next.1, by omega, next.2⟩
  obtain rfl : last = 62 := by omega
  exact ⟨x', ran, done.2⟩

theorem reduceAt_spec (x : Local) (low : 100 ≤ j) (high : j < 199) :
    ∃ x', reduceAt j x = some x' ∧ ∀ i,
      cell x' i = if isOdd (cell x j) ∧ (i = j - 63 ∨ i = j - 100) then modDiff (cell x i) (cell x j) else cell x i := by
  have here := load_eq (a := x) rfl (high : j < 199)
  by_cases odd : isOdd (cell x j)
  · obtain ⟨y, stored, after⟩ := store_eq (a := x) (j := j - (KK - LL)) (by simp only [KK, LL]; omega)
      (by omega : j - 63 < 199) (modDiff (cell x (j - 63)) (cell x j))
    obtain ⟨w, again, result⟩ := store_eq (a := y) (j := j - KK) (by simp only [KK]; omega)
      (by omega : j - 100 < 199) (modDiff (cell x (j - 100)) (cell x j))
    have near := load_eq (a := x) (j := j - (KK - LL)) (by simp only [KK, LL]; omega) (by omega : j - 63 < 199)
    have far : load y (j - KK) = some (cell x (j - 100)) := by
      rw [load_eq (a := y) (j := j - KK) (by simp only [KK]; omega) (by omega : j - 100 < 199), after, Function.update_of_ne (by omega)]
    have same : load y j = some (cell x j) := by
      rw [load_eq (a := y) rfl (high : j < 199), after, Function.update_of_ne (by omega)]
    refine ⟨w, by simp [reduceAt, here, odd, near, stored, far, same, again], fun i => ?_⟩
    rw [result, after, Function.update_apply, Function.update_apply]
    grind
  · exact ⟨x, by simp [reduceAt, here, odd], fun i => by simp [odd]⟩

def ShiftedTo (x : Local) (j : ℕ) (y : Local) : Prop :=
  ∀ i < 199, cell y i = if j < i ∧ i ≤ 100 then cell x (i - 1) else cell x i

theorem shiftedTo_turn (first : 0 < j) (last : j ≤ 100) (held : ShiftedTo x j y) :
    ∃ y', (do store y j (← load y (j - 1))) = some y' ∧ ShiftedTo x (j - 1) y' := by
  obtain ⟨y', stored, after⟩ := store_eq (a := y) rfl (by omega : j < 199) (cell y (j - 1))
  have loaded := load_eq (a := y) (j := (j : ℤ) - 1) (by omega) (by omega : j - 1 < 199)
  refine ⟨y', by simp [loaded, stored], fun i inside => ?_⟩
  rw [after, Function.update_apply]
  by_cases here : i = j
  · rw [if_pos here, held (j - 1) (by omega), if_neg (by omega), if_pos (by omega), here]
  · rw [if_neg here, held i inside]
    refine if_congr ?_ rfl rfl
    omega

theorem shift_spec (x : Local) : ∃ x', shift x = some x' ∧ ∀ i < 199, cell x' i =
    if i = 0 then cell x 99
    else if i = 37 ∧ isOdd (cell x 99) then modDiff (cell x 36) (cell x 99)
    else if i ≤ 100 then cell x (i - 1) else cell x i := by
  have start : ShiftedTo x 100 x := fun i inside => (if_neg (by omega)).symm
  obtain ⟨last, y, ran, ended, moved⟩ := forDown_spec (fun j y => j ≤ 100 ∧ ShiftedTo x j y) ⟨by decide, start⟩
    fun j y (first : 0 < j) _ ⟨less, held⟩ =>
      (shiftedTo_turn first less held).imp fun y' next => ⟨next.1, by omega, next.2⟩
  obtain rfl : last = 0 := by omega
  have top : load y KK = some (cell x 99) := (load_eq rfl (by decide)).trans (congrArg some (moved.2 100 (by decide)))
  obtain ⟨w, stored, after⟩ := store_eq (a := y) (j := 0) (i := 0) rfl (by decide) (cell x 99)
  have kept (i : ℕ) (nonzero : i ≠ 0) (inside : i < 199) : cell w i = if i ≤ 100 then cell x (i - 1) else cell x i := by
    rw [after, Function.update_of_ne nonzero, moved.2 i inside]
    exact if_congr (by omega) rfl rfl
  have again : load w KK = some (cell x 99) := (load_eq rfl (by decide)).trans (congrArg some (kept 100 (by decide) (by decide)))
  have low : load w LL = some (cell x 36) := (load_eq rfl (by decide)).trans (congrArg some (kept 37 (by decide) (by decide)))
  have zero : cell w 0 = cell x 99 := by rw [after, Function.update_self]
  unfold shift
  simp only [show forDown 0 0 (fun j x => do store x j (← load x (j - 1))) KK x = some y from ran]
  by_cases odd : isOdd (cell x 99)
  · obtain ⟨v, last, result⟩ := store_eq (a := w) (j := LL) rfl (by decide) (modDiff (cell x 36) (cell x 99))
    refine ⟨v, by simp [top, stored, again, low, odd, last], fun i inside => ?_⟩
    rw [result, Function.update_apply]
    by_cases first : i = 0
    · rw [if_neg (by rw [first]; decide), if_pos first, first, zero]
    · rw [kept i first inside, if_neg first]
      exact if_congr (by simp [odd, LL]) rfl rfl
  · refine ⟨w, by simp [top, stored, again, odd], fun i inside => ?_⟩
    by_cases first : i = 0
    · rw [if_pos first, first, zero]
    · rw [if_neg first, if_neg (by simp [odd]), kept i first inside]

end

/-! ## The first array -/

theorem toNat_double {ss : Long} (small : Small ss) (even : ss.toNat % 2 = 0) :
    Small (double ss) ∧ (double ss).toNat % 2 = 0 := by
  have doubled : (ss <<< 1).toNat = 2 * ss.toNat := by
    rw [BitVec.toNat_shiftLeft, Nat.shiftLeft_eq]
    unfold Small at small
    omega
  have order : MM.sle (ss <<< 1) = true ↔ 2 ^ 30 ≤ 2 * ss.toNat := by
    rw [BitVec.sle_iff_toInt_le, BitVec.toInt_eq_toNat_of_lt (x := ss <<< 1) (by unfold Small at small; omega), doubled]
    exact Int.ofNat_le (m := 2 ^ 30)
  unfold Small at *
  simp only [double]
  by_cases large : 2 ^ 30 ≤ 2 * ss.toNat
  · rw [if_pos (order.mpr large), BitVec.toNat_sub, doubled, show (MM - 2).toNat = 2 ^ 30 - 2 from rfl]
    omega
  · rw [if_neg (mt order.mp large), doubled]
    omega

def firstSs (seed : ℤ) : Long := evenize (.ofInt 64 (int (seed + 2)))

def started (seed : ℤ) (i : ℕ) : Long :=
  if i = 1 then double (firstSs seed) + 1 else if i < 100 then double^[i] (firstSs seed) else 0

theorem iterate_double (seed : ℤ) (i : ℕ) :
    Small (double^[i] (firstSs seed)) ∧ (double^[i] (firstSs seed)).toNat % 2 = 0 := by
  induction i with
  | zero => exact toNat_evenize _
  | succ i ih =>
    rw [Function.iterate_succ_apply']
    exact toNat_double ih.1 ih.2

theorem started_spec (seed : ℤ) (i : ℕ) : Small (started seed i) ∧ (started seed i).toNat % 2 = if i = 1 then 1 else 0 := by
  unfold started
  by_cases one : i = 1
  · obtain ⟨small, even⟩ := iterate_double seed 1
    rw [if_pos one, if_pos one, Small, BitVec.toNat_add, show (1 : Long).toNat = 1 from rfl]
    rw [Small, Function.iterate_one] at small
    rw [Function.iterate_one] at even
    omega
  · rw [if_neg one, if_neg one]
    split
    · exact iterate_double seed i
    · exact ⟨Nat.two_pow_pos 30, rfl⟩

theorem startArray_spec (seed : ℤ) (x : Local) : ∃ x', startArray seed x = some x' ∧ ∀ i < 199, cell x' i = started seed i := by
  obtain ⟨⟨y, ss⟩, filled, _, held⟩ : ∃ s', forUp KK (fun j s => do pure (← store s.1 j s.2, double s.2)) 0 (x, firstSs seed) =
      some s' ∧ s'.2 = double^[KK] (firstSs seed) ∧ ∀ i < KK, cell s'.1 i = double^[i] (firstSs seed) := by
    refine forUp_spec (fun j (s : Local × Long) => s.2 = double^[j] (firstSs seed) ∧ ∀ i < j, cell s.1 i = double^[i] (firstSs seed))
      ⟨rfl, by simp⟩ (by decide) ?_
    rintro j ⟨y, ss⟩ _ (less : j < 100) ⟨same, held⟩
    obtain ⟨y', stored, after⟩ := store_eq (a := y) rfl (by omega : j < 199) ss
    refine ⟨(y', double ss), by simp [stored], by rw [Function.iterate_succ_apply', ← same], fun i inside => ?_⟩
    rw [after, Function.update_apply]
    split
    · subst i
      exact same
    · exact held i (by omega)
  obtain ⟨w, cleared, zero, kept⟩ : ∃ w, forUp (KK + KK - 1) (fun j x => store x j 0) KK y = some w ∧
      (∀ i, KK ≤ i → i < KK + KK - 1 → cell w i = 0) ∧ ∀ i < KK, cell w i = cell y i := by
    refine forUp_spec (fun j w => (∀ i, KK ≤ i → i < j → cell w i = 0) ∧ ∀ i < KK, cell w i = cell y i)
      ⟨fun i high low => by omega, fun _ _ => rfl⟩ (by decide) ?_
    rintro j w first (less : j < 199) ⟨zero, kept⟩
    obtain ⟨w', stored, after⟩ := store_eq (a := w) rfl less 0
    refine ⟨w', stored, fun i high low => ?_, fun i inside => ?_⟩
    · rw [after, Function.update_apply]
      split
      · rfl
      · exact zero i high (by omega)
    · rw [after, Function.update_of_ne (by omega), kept i inside]
  have one : load w 1 = some (double (firstSs seed)) := by
    rw [load_eq (a := w) (j := 1) (i := 1) rfl (by decide), kept 1 (by decide), held 1 (by decide), Function.iterate_one]
  obtain ⟨v, stored, after⟩ := store_eq (a := w) (j := 1) (i := 1) rfl (by decide) (double (firstSs seed) + 1)
  have ran : startArray seed x = some v := Option.bind_eq_some_iff.mpr ⟨(y, ss), filled,
    Option.bind_eq_some_iff.mpr ⟨w, cleared, Option.bind_eq_some_iff.mpr ⟨_, one, stored⟩⟩⟩
  refine ⟨v, ran, fun i inside => ?_⟩
  rw [after, Function.update_apply, started]
  split
  · rfl
  · split
    · rw [kept i (by assumption), held i (by assumption)]
    · exact zero i (by simp only [KK]; omega) inside

/-! ## Powers of `z` -/

section
variable {R : Type} [CommRing R] [CharP R 2] {z : R}

def coefficients (x : Local) (i : ℕ) : ℕ := (cell x i).toNat

theorem coefficients_of_le {x : Local} {i : ℕ} (out : 199 ≤ i) : coefficients x i = 0 := by
  rw [coefficients, cell_of_le (a := x) out]
  rfl

/-- The low bits of the first half are a power of `z`, and those of the odd cells of the second half that no loop writes
are zero. -/
structure Seeded (z : R) (x : Local) : Prop where
  small : ∀ i < 199, Small (cell x i)
  even : ∀ i, 136 < i → i % 2 = 1 → coefficients x i % 2 = 0
  power : ∃ e, value z (coefficients x) 100 = z ^ e

theorem Seeded.start {seed : ℤ} {x : Local} (held : ∀ i < 199, cell x i = started seed i) : Seeded z x where
  small i inside := by
    rw [held i inside]
    exact (started_spec seed i).1
  even i high _ := by
    by_cases inside : i < 199
    · rw [coefficients, held i inside, (started_spec seed i).2, if_neg (by omega)]
    · rw [coefficients_of_le (by omega)]
  power := by
    refine ⟨1, ?_⟩
    rw [value_congr (d := fun i => if i = 1 then 1 else 0)]
    · simp [value]
    · intro i inside
      rw [coefficients, held i (by omega), (started_spec seed i).2]
      split <;> rfl

theorem small_ite {c : Prop} [Decidable c] {v w : Long} (first : c → Small v) (second : ¬c → Small w) :
    Small (if c then v else w) := by
  split
  · exact first ‹_›
  · exact second ‹_›

theorem Seeded.square {x y w : Local} (seeded : Seeded z x) (spreaded : SpreadTo x 0 y) (filled : FilledTo y 62 w) :
    (∀ i < 199, Small (cell w i)) ∧ (∀ i, 136 < i → i % 2 = 1 → coefficients w i % 2 = 0) ∧
      ∃ e, value z (coefficients w) 199 = z ^ e := by
  have small : ∀ i < 199, Small (cell w i) := by
    intro i inside
    rw [filled i inside]
    refine small_ite (fun _ => (toNat_evenize _).1) fun _ => ?_
    rw [spreaded i inside]
    exact small_ite (fun _ => seeded.small _ (by omega)) fun _ => seeded.small i inside
  have even : ∀ i, 136 < i → i % 2 = 1 → coefficients w i % 2 = 0 := by
    intro i high odd
    by_cases inside : i < 199
    · rw [coefficients, filled i inside, if_neg (by omega), spreaded i inside, if_neg (by omega)]
      exact seeded.even i high odd
    · rw [coefficients_of_le (by omega)]
  have doubled : value z (coefficients w) (2 * 100) = value z (coefficients x) 100 ^ 2 := by
    refine value_spread (fun i inside => ?_) fun i inside => ?_
    · rw [coefficients, filled _ (by omega), if_neg (by omega), spreaded _ (by omega)]
      by_cases zero : i = 0
      · rw [zero]
        rfl
      · rw [if_pos (by omega), Nat.mul_div_cancel_left i (by decide), coefficients]
    · by_cases low : 2 * i + 1 ≤ 136
      · rw [coefficients, filled _ (by omega), if_pos (by omega)]
        exact (toNat_evenize _).2
      · exact even _ (by omega) (by omega)
  refine ⟨small, even, ?_⟩
  obtain ⟨e, power⟩ := seeded.power
  rw [power, value, Finset.sum_range_succ, coefficients_of_le le_rfl, Nat.cast_zero, zero_mul, add_zero] at doubled
  exact ⟨e * 2, by rw [pow_mul]; exact doubled⟩

section
variable (root : z ^ 100 = z ^ 37 + 1)
include root

theorem reduce_spec {x : Local} (small : ∀ i < 199, Small (cell x i)) (even : ∀ i, 136 < i → i % 2 = 1 → coefficients x i % 2 = 0)
    (power : ∃ e, value z (coefficients x) 199 = z ^ e) : ∃ x', reduce x = some x' ∧ Seeded z x' := by
  have step (j : ℕ) (y : Local) (first : 99 < j) (high : j < 199) (small : ∀ i < 199, Small (cell y i))
      (even : ∀ i, 136 < i → i % 2 = 1 → coefficients y i % 2 = 0) : ∃ y', reduceAt j y = some y' ∧
      (∀ i < 199, Small (cell y' i)) ∧ (∀ i, 136 < i → i % 2 = 1 → coefficients y' i % 2 = 0) ∧
      value z (coefficients y') (j - 1 + 1) = value z (coefficients y) (j + 1) := by
    obtain ⟨y', ran, cells⟩ := reduceAt_spec y first high
    refine ⟨y', ran, fun i inside => ?_, fun i far odd => ?_, ?_⟩
    · rw [cells i]
      exact small_ite (fun _ => small_modDiff _ _) fun _ => small i inside
    · rw [coefficients, cells i, if_neg (by omega)]
      exact even i far odd
    · rw [Nat.sub_add_cancel (by omega)]
      refine value_reduce root (by decide) first fun i less => ?_
      have parity := parity_modDiff (cell y i) (cell y j)
      rw [coefficients, cells i]
      simp only [coefficients, isOdd_iff]
      split <;> grind
  obtain ⟨last, x', ran, ended, range, small, even, power⟩ := forDown_spec
    (fun j y => (99 ≤ j ∧ j ≤ 198) ∧ (∀ i < 199, Small (cell y i)) ∧ (∀ i, 136 < i → i % 2 = 1 → coefficients y i % 2 = 0) ∧
      ∃ e, value z (coefficients y) (j + 1) = z ^ e) ⟨by decide, small, even, power⟩
    fun j y (first : 99 < j) _ ⟨range, small, even, power⟩ =>
      (step j y first (by omega) small even).imp fun y' next =>
        ⟨next.1, by omega, next.2.1, next.2.2.1, power.imp fun e same => next.2.2.2.trans same⟩
  obtain rfl : last = 99 := by omega
  exact ⟨x', ran, small, even, power⟩

theorem seeded_shift {x : Local} (seeded : Seeded z x) : ∃ x', shift x = some x' ∧ Seeded z x' := by
  obtain ⟨x', ran, cells⟩ := shift_spec x
  refine ⟨x', ran, fun i inside => ?_, fun i high odd => ?_, ?_⟩
  · rw [cells i inside]
    exact small_ite (fun _ => seeded.small 99 (by decide)) fun _ => small_ite (fun _ => small_modDiff _ _) fun _ =>
      small_ite (fun _ => seeded.small _ (by omega)) fun _ => seeded.small i inside
  · by_cases inside : i < 199
    · rw [coefficients, cells i inside, if_neg (by omega), if_neg (by omega), if_neg (by omega)]
      exact seeded.even i high odd
    · rw [coefficients_of_le (not_lt.mp inside)]
  · obtain ⟨e, power⟩ := seeded.power
    refine ⟨e + 1, ?_⟩
    rw [pow_succ', ← power]
    refine value_shift root (by decide) (by decide) fun i less => ?_
    have parity := parity_modDiff (cell x 36) (cell x 99)
    rw [coefficients, cells i (by omega)]
    simp only [coefficients, isOdd_iff]
    grind

theorem seeded_turn {x : Local} (seeded : Seeded z x) (ss : Long) : ∃ x', turn ss x = some x' ∧ Seeded z x' := by
  obtain ⟨y, ran, spreaded⟩ := spread_spec x
  obtain ⟨w, again, filled⟩ := fillOdd_spec y
  obtain ⟨small, even, power⟩ := seeded.square spreaded filled
  obtain ⟨v, reduced, seeded⟩ := reduce_spec root small even power
  have start : turn ss x = if isOdd ss then shift v else some v := by
    simp only [turn, ran, again, reduced, Option.bind_eq_bind, Option.bind_some]
    rfl
  rw [start]
  split
  · exact seeded_shift root seeded
  · exact ⟨v, rfl, seeded⟩

theorem seeded_turns {fuel bits t : ℕ} {ss : Long} {x : Local} (seeded : Seeded z x) (small : ss.toNat < 2 ^ bits)
    (short : bits ≤ 30) (enough : bits + t ≤ fuel) : ∃ x', turns fuel t ss x = some x' ∧ Seeded z x' := by
  induction fuel generalizing bits t ss x with
  | zero =>
    obtain rfl : t = 0 := by omega
    exact ⟨x, rfl, seeded⟩
  | succ fuel ih =>
    cases t with
    | zero => exact ⟨x, rfl, seeded⟩
    | succ t =>
      obtain ⟨y, ran, seeded⟩ := seeded_turn root seeded ss
      rw [turns, ran, Option.bind_eq_bind, Option.bind_some]
      by_cases zero : ss = 0
      · obtain ⟨x', rest, done⟩ := ih seeded small short (by omega : bits + t ≤ fuel)
        exact ⟨x', by rw [if_neg (not_not.mpr zero), rest], done⟩
      · have positive : bits ≠ 0 := by
          rintro rfl
          exact zero (BitVec.eq_of_toNat_eq (by simpa using small))
        obtain ⟨b, rfl⟩ := Nat.exists_eq_succ_of_ne_zero positive
        have half : (ss.sshiftRight 1).toNat < 2 ^ b := by
          have least : ss.toNat < 2 ^ 30 := lt_of_lt_of_le small (Nat.pow_le_pow_right (by decide) short)
          rw [BitVec.sshiftRight_eq_of_msb_false (by rw [BitVec.msb_eq_false_iff_two_mul_lt]; omega), BitVec.toNat_ushiftRight,
            Nat.shiftRight_one]
          rw [Nat.pow_succ] at small
          omega
        obtain ⟨x', rest, done⟩ := ih seeded half (by omega) (by omega : b + (t + 1) ≤ fuel)
        exact ⟨x', by rw [if_pos zero, rest], done⟩

end

end

/-! ## `ran_x` before the first call of `ran_array` -/

theorem copyOut_spec (x : Local) (ranX : Vector Long KK) :
    ∃ r, copyOut x ranX = some r ∧ ∀ i < 100, cell r i = if i < 63 then cell x (i + 37) else cell x (i - 63) := by
  obtain ⟨y, copied, high⟩ : ∃ y, forUp LL (fun j ranX => do store ranX (j + KK - LL) (← load x j)) 0 ranX = some y ∧
      ∀ i, 63 ≤ i → i < 63 + LL → cell y i = cell x (i - 63) := by
    refine forUp_spec (fun j y => ∀ i, 63 ≤ i → i < 63 + j → cell y i = cell x (i - 63)) (fun i low high => by omega) (by decide)
      fun j y _ (less : j < 37) held => ?_
    have loaded := load_eq (a := x) rfl (by omega : j < 199)
    obtain ⟨y', stored, after⟩ := store_eq (a := y) (j := j + KK - LL) (by simp only [KK, LL]; omega) (by omega : 63 + j < 100)
      (cell x j)
    refine ⟨y', by simp [loaded, stored], fun i low inside => ?_⟩
    rw [after, Function.update_apply]
    split
    · subst i
      rw [Nat.add_sub_cancel_left]
    · exact held i low (by omega)
  obtain ⟨r, copiedLow, both⟩ : ∃ r, forUp KK (fun j ranX => do store ranX (j - LL) (← load x j)) LL y = some r ∧
      (∀ i < KK - 37, cell r i = cell x (i + 37)) ∧ ∀ i, 63 ≤ i → i < 100 → cell r i = cell x (i - 63) := by
    refine forUp_spec (fun j r => (∀ i < j - 37, cell r i = cell x (i + 37)) ∧ ∀ i, 63 ≤ i → i < 100 → cell r i = cell x (i - 63))
      ⟨by simp [LL], high⟩ (by decide) fun j r (first : 37 ≤ j) (less : j < 100) ⟨low, high⟩ => ?_
    have loaded := load_eq (a := x) rfl (by omega : j < 199)
    obtain ⟨r', stored, after⟩ := store_eq (a := r) (j := j - LL) (by simp only [LL]; omega) (by omega : j - 37 < 100) (cell x j)
    refine ⟨r', by simp [loaded, stored], fun i inside => ?_, fun i far inside => ?_⟩
    · rw [after, Function.update_apply]
      split
      · subst i
        rw [Nat.sub_add_cancel first]
      · exact low i (by omega)
    · rw [after, Function.update_of_ne (by omega), high i far inside]
  refine ⟨r, Option.bind_eq_some_iff.mpr ⟨y, copied, copiedLow⟩, fun i inside => ?_⟩
  split
  · exact both.1 i (by simpa [KK])
  · exact both.2 i (by omega) inside

theorem firstTerms_spec (seed : ℤ) : ∃ r, (∀ x ranX, firstTerms seed x ranX = some r) ∧
    (∀ i < 100, Small (cell r i)) ∧ ∃ i < 100, (cell r i).toNat % 2 = 1 := by
  obtain ⟨R, ring, char, nontrivial, z, root⟩ := exists_root (show 37 < 100 by decide)
  obtain ⟨x₀, _, held₀⟩ := startArray_spec seed (.replicate _ 0)
  have bound : (BitVec.ofInt 64 seed &&& (MM - 1)).toNat < 2 ^ 30 := by
    rw [BitVec.toNat_and]
    exact lt_of_le_of_lt Nat.and_le_right (by decide)
  obtain ⟨x₁, turned, seeded⟩ : ∃ x₁, turns (30 + (TT - 1)) (TT - 1) (BitVec.ofInt 64 seed &&& (MM - 1)) x₀ = some x₁ ∧
      Seeded z x₁ := seeded_turns root (.start held₀) bound le_rfl le_rfl
  obtain ⟨r, _, cells⟩ := copyOut_spec x₁ (.replicate _ 0)
  refine ⟨r, fun x ranX => ?_, fun i inside => ?_, ?_⟩
  · obtain ⟨x', started, held⟩ := startArray_spec seed x
    obtain rfl : x' = x₀ := cell_ext fun i inside => (held i inside).trans (held₀ i inside).symm
    obtain ⟨r', copied, same⟩ := copyOut_spec x₁ ranX
    obtain rfl : r' = r := cell_ext fun i inside => (same i inside).trans (cells i inside).symm
    exact Option.bind_eq_some_iff.mpr ⟨x', started, Option.bind_eq_some_iff.mpr ⟨x₁, turned, copied⟩⟩
  · rw [cells i inside]
    exact small_ite (fun _ => seeded.small _ (by omega)) fun _ => seeded.small _ (by omega)
  · by_contra none
    push Not at none
    obtain ⟨e, power⟩ := seeded.power
    refine pow_root_ne_zero root (by decide) (by decide) e (power.symm.trans (value_eq_zero fun i inside => ?_))
    by_cases low : i < 37
    · have even := none (i + 63) (by omega)
      rw [cells _ (by omega), if_neg (by omega), Nat.add_sub_cancel] at even
      exact Nat.mod_two_ne_one.mp even
    · have even := none (i - 37) (by omega)
      rw [cells _ (by omega), if_pos (by omega), Nat.sub_add_cancel (by omega)] at even
      exact Nat.mod_two_ne_one.mp even

end OsProjects.Random
