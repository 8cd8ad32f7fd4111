import OsProjects.Random.Seeding

namespace OsProjects.Random
open Arrays Kernel Lagged Transition

/-! ## `ran_array` continues a lagged sequence -/

variable {i q : ℕ} {first : ℕ → ℤ} {seed : ℤ} {s : Vars}

section
variable {X : ℕ → ℤ} {len n : ℕ} {aa : Vector Long len} {ranX : Vector Long KK}

def Holds (X : ℕ → ℤ) (a : Vector Long len) (n : ℕ) : Prop := ∀ i < n, cell a i = .ofInt 64 (X i)

theorem holds_store (less : i < len) (held : Holds X aa i) :
    ∃ aa', store aa i (.ofInt 64 (X i)) = some aa' ∧ Holds X aa' (i + 1) := by
  obtain ⟨aa', stored, after⟩ := store_eq (a := aa) rfl less (.ofInt 64 (X i))
  refine ⟨aa', stored, fun k inside => ?_⟩
  rw [after, Function.update_apply]
  split
  · subst k
    rfl
  · exact held k (by omega)

theorem holds_load {j : ℤ} (held : Holds X aa n) (high : n ≤ len) (index : j = i) (less : i < n) :
    load aa j = some (.ofInt 64 (X i)) := by
  rw [load_eq index (by omega), held i less]

variable (lagged : IsLagged KK LL (2 ^ 30) X)
include lagged

theorem modDiff_terms {j : ℕ} (high : 100 ≤ j) :
    modDiff (.ofInt 64 (X (j - 100))) (.ofInt 64 (X (j - 37))) = BitVec.ofInt 64 (X j) := by
  have rule := lagged (j - 100)
  rw [show j - 100 + KK = j from Nat.sub_add_cancel high, show j - 100 + (KK - LL) = j - 37 by simp only [KK, LL]; omega] at rule
  rw [modDiff_ofInt, rule]

theorem fillArray_spec (aa : Vector Long len) (first : Holds X ranX 100) (low : 100 ≤ n) (high : n ≤ len) :
    ∃ aa', fillArray n ranX aa = some aa' ∧ Holds X aa' n := by
  obtain ⟨y, copied, held⟩ : ∃ y, forUp KK (fun j aa => do store aa j (← load ranX j)) 0 aa = some y ∧ Holds X y KK := by
    refine forUp_spec (fun j y => Holds X y j) (fun i less => by omega) (by decide) fun j y _ (less : j < 100) held => ?_
    rw [holds_load first le_rfl rfl less]
    exact holds_store (by omega) held
  obtain ⟨w, filled, held⟩ : ∃ w, forUp n (fun j aa => do store aa j (modDiff (← load aa (j - KK)) (← load aa (j - LL)))) KK y =
      some w ∧ Holds X w n := by
    refine forUp_spec (fun j w => Holds X w j) held low fun j w (first : 100 ≤ j) less held => ?_
    have far := holds_load (i := j - 100) (j := j - KK) held (by omega) (by simp only [KK]; omega) (by omega)
    have near := holds_load (i := j - 37) (j := j - LL) held (by omega) (by simp only [LL]; omega) (by omega)
    simp only [far, near, Option.bind_eq_bind, Option.bind_some, modDiff_terms lagged first]
    exact holds_store (by omega) held
  exact ⟨w, Option.bind_eq_some_iff.mpr ⟨y, copied, filled⟩, held⟩

theorem refill_spec (ranX : Vector Long KK) (held : Holds X aa n) (low : 100 ≤ n) (high : n ≤ len) :
    ∃ ranX', refill aa n ranX = some ranX' ∧ Holds (fun i => X (n + i)) ranX' 100 := by
  have far (i : ℕ) (less : i < 100) : load aa ((n + i : ℕ) - KK) = some (.ofInt 64 (X (n + i - 100))) :=
    holds_load held high (by simp only [KK]; omega) (by omega)
  obtain ⟨⟨y, j⟩, copied, rfl, first⟩ : ∃ s, forUp LL (fun i (s : Vector Long KK × ℕ) => do
      pure (← store s.1 i (modDiff (← load aa (s.2 - KK)) (← load aa (s.2 - LL))), s.2 + 1)) 0 (ranX, n) = some s ∧
      s.2 = n + LL ∧ Holds (fun i => X (n + i)) s.1 LL := by
    refine forUp_spec (fun i (s : Vector Long KK × ℕ) => s.2 = n + i ∧ Holds (fun i => X (n + i)) s.1 i)
      ⟨rfl, fun i less => by omega⟩ (by decide) ?_
    rintro i ⟨y, j⟩ _ (less : i < 37) ⟨same, first⟩
    obtain rfl : j = n + i := same
    have near := holds_load (i := n + i - 37) (j := (n + i : ℕ) - LL) held high (by simp only [LL]; omega) (by omega)
    obtain ⟨y', stored, next⟩ := holds_store (by omega : i < 100) first
    simp only [far i (by omega), near, Option.bind_eq_bind, Option.bind_some, modDiff_terms lagged (by omega : 100 ≤ n + i)]
    exact ⟨(y', n + i + 1), Option.bind_eq_some_iff.mpr ⟨y', stored, rfl⟩, rfl, next⟩
  obtain ⟨⟨w, j⟩, rest, _, all⟩ : ∃ s, forUp KK (fun i (s : Vector Long KK × ℕ) => do
      pure (← store s.1 i (modDiff (← load aa (s.2 - KK)) (← load s.1 (i - LL))), s.2 + 1)) LL (y, n + LL) = some s ∧
      s.2 = n + KK ∧ Holds (fun i => X (n + i)) s.1 KK := by
    refine forUp_spec (fun i (s : Vector Long KK × ℕ) => s.2 = n + i ∧ Holds (fun i => X (n + i)) s.1 i)
      ⟨rfl, first⟩ (by decide) ?_
    rintro i ⟨y, j⟩ (later : 37 ≤ i) (less : i < 100) ⟨same, first⟩
    obtain rfl : j = n + i := same
    have near := holds_load (i := i - 37) (j := i - LL) first less.le (by simp only [LL]; omega) (by omega)
    rw [← Nat.add_sub_assoc later] at near
    obtain ⟨y', stored, next⟩ := holds_store (by omega : i < 100) first
    simp only [far i (by omega), near, Option.bind_eq_bind, Option.bind_some, modDiff_terms lagged (by omega : 100 ≤ n + i)]
    exact ⟨(y', n + i + 1), Option.bind_eq_some_iff.mpr ⟨y', stored, rfl⟩, rfl, next⟩
  exact ⟨w, Option.bind_eq_some_iff.mpr ⟨_, copied, Option.bind_eq_some_iff.mpr ⟨_, rest, rfl⟩⟩, all⟩

theorem ranArray_spec (aa : Vector Long len) (first : Holds X ranX 100) (low : 100 ≤ n) (high : n ≤ len) :
    ∃ aa' ranX', ranArray aa n ranX = some (aa', ranX') ∧ Holds X aa' n ∧ Holds (fun i => X (n + i)) ranX' 100 := by
  obtain ⟨aa', filled, held⟩ := fillArray_spec lagged aa first low high
  obtain ⟨ranX', refilled, next⟩ := refill_spec lagged ranX held low high
  refine ⟨aa', ranX', Option.bind_eq_some_iff.mpr ⟨aa', filled, Option.bind_eq_some_iff.mpr ⟨ranX', ?_, rfl⟩⟩, held, next⟩
  rwa [show max KK n = n from max_eq_right low]

end

/-! ## The sequence of a seed -/

def stream (first : ℕ → ℤ) (j : ℕ) : ℤ :=
  if j < KK then first j else (stream first (j - KK) - stream first (j - LL)) % 2 ^ 30
termination_by j
decreasing_by all_goals simp only [KK, LL] at *; omega

def zeros (n : ℕ) : Vector Long n := .replicate n 0

def terms (seed : ℤ) : ℕ → ℤ := stream fun i =>
  match firstTerms seed (zeros _) (zeros _) with
  | some ranX => (cell ranX i).toInt
  | none => 0

theorem stream_lagged (first : ℕ → ℤ) : IsLagged KK LL (2 ^ 30) (stream first) := by
  intro j
  rw [stream, if_neg (by omega), Nat.add_sub_cancel, Nat.add_sub_assoc (by decide)]

theorem stream_range (range : ∀ i < 100, 0 ≤ first i ∧ first i < 2 ^ 30) (j : ℕ) :
    0 ≤ stream first j ∧ stream first j < 2 ^ 30 := by
  rw [stream]
  split
  · exact range j ‹_›
  · exact ⟨Int.emod_nonneg _ (by decide), Int.emod_lt_of_pos _ (by decide)⟩

theorem toInt_of_small {v : Long} (small : Small v) : v.toInt = v.toNat := by
  unfold Small at small
  exact BitVec.toInt_eq_toNat_of_lt (by omega)

theorem toInt_ofInt_of_range {v : ℤ} (range : 0 ≤ v ∧ v < 2 ^ 30) : (BitVec.ofInt 64 v).toInt = v := by
  rw [BitVec.toInt_ofInt, Int.bmod_eq_of_le] <;> omega

theorem stream_holds (ranX : Vector Long KK) : Holds (stream fun i => (cell ranX i).toInt) ranX 100 := by
  intro i inside
  rw [stream, if_pos (show i < KK from inside), BitVec.ofInt_toInt]

theorem small_of_holds {len n m : ℕ} {a : Vector Long len} (range : ∀ i < 100, 0 ≤ first i ∧ first i < 2 ^ 30)
    (held : Holds (fun i => stream first (m + i)) a n) : ∀ i < n, Small (cell a i) := by
  intro i inside
  obtain ⟨low, high⟩ := stream_range range (m + i)
  rw [Small, held i inside, BitVec.toNat_ofInt]
  dsimp only
  omega

theorem ranArray_small {len n : ℕ} (aa : Vector Long len) {ranX : Vector Long KK} (small : ∀ i < 100, Small (cell ranX i))
    (low : 100 ≤ n) (high : n ≤ len) : ∃ aa' ranX', ranArray aa n ranX = some (aa', ranX') ∧
      (∀ i < n, Small (cell aa' i)) ∧ ∀ i < 100, Small (cell ranX' i) := by
  have range (i : ℕ) (inside : i < 100) : 0 ≤ (cell ranX i).toInt ∧ (cell ranX i).toInt < 2 ^ 30 := by
    have bound := small i inside
    rw [toInt_of_small bound]
    unfold Small at bound
    omega
  obtain ⟨aa', ranX', ran, held, next⟩ := ranArray_spec (stream_lagged _) aa (stream_holds ranX) low high
  refine ⟨aa', ranX', ran, small_of_holds (m := 0) range ?_, small_of_holds range next⟩
  simpa only [Nat.zero_add] using held

theorem firstTerms_holds (seed : ℤ) : ∃ ranX, (∀ x before, firstTerms seed x before = some ranX) ∧
    (∀ i < 100, Small (cell ranX i)) ∧ (∃ i < 100, (cell ranX i).toNat % 2 = 1) ∧ terms seed = stream fun i => (cell ranX i).toInt := by
  obtain ⟨ranX, ran, small, odd⟩ := firstTerms_spec seed
  refine ⟨ranX, ran, small, odd, ?_⟩
  rw [terms, ran]

theorem terms_range (seed : ℤ) (j : ℕ) : 0 ≤ terms seed j ∧ terms seed j < 2 ^ 30 := by
  obtain ⟨ranX, _, small, _, same⟩ := firstTerms_holds seed
  rw [same]
  refine stream_range (fun i inside => ?_) j
  have bound := small i inside
  rw [toInt_of_small bound]
  unfold Small at bound
  omega

theorem terms_lagged (seed : ℤ) (m : ℕ) : IsLagged KK LL (2 ^ 30) fun i => terms seed (m + i) :=
  fun j => stream_lagged _ (m + j)

/-! ## The calls of a run -/

def draws : ℕ → Vars → Option (List ℤ × Vars)
  | 0, s => some ([], s)
  | k + 1, s => do
    let (values, s) ← draws k s
    let (value, s) ← nextRand s
    pure (values ++ [value], s)

structure InBlock (seed : ℤ) (q i : ℕ) (s : Vars) : Prop where
  index : s.randIndex = i
  inside : i ≤ 100
  block : Holds (fun k => terms seed (1009 * q + k)) s.aa 1009
  next : Holds (fun k => terms seed (1009 * (q + 1) + k)) s.ranX 100

theorem randInit_inBlock (seed : ℤ) (x : Local) (s : Vars) : ∃ s', randInit seed x s = some s' ∧ InBlock seed 0 0 s' := by
  obtain ⟨ranX, ran, _, _, same⟩ := firstTerms_holds seed
  have first : Holds (fun i => terms seed (0 + i)) ranX 100 := by
    simpa only [Nat.zero_add, same] using stream_holds ranX
  obtain ⟨aa', ranX', filled, block, next⟩ := ranArray_spec (terms_lagged seed 0) s.aa first (by decide : 100 ≤ 1009) (by decide)
  refine ⟨⟨ranX', aa', 0⟩, Option.bind_eq_some_iff.mpr ⟨ranX, ran x s.ranX, Option.bind_eq_some_iff.mpr ⟨_, filled, rfl⟩⟩, rfl,
    by decide, by simpa only [Nat.mul_zero] using block, ?_⟩
  simpa only [Nat.zero_add, Nat.mul_one] using next

theorem InBlock.load (here : InBlock seed q i s) :
    load s.aa s.randIndex = some (.ofInt 64 (terms seed (1009 * q + i))) := by
  have inside := here.inside
  exact holds_load (X := fun k => terms seed (1009 * q + k)) here.block (by decide) here.index (by omega)

theorem int_toInt_term (seed : ℤ) (j : ℕ) : int (BitVec.ofInt 64 (terms seed j)).toInt = terms seed j := by
  obtain ⟨low, high⟩ := terms_range seed j
  rw [toInt_ofInt_of_range ⟨low, high⟩, int_eq_self] <;> omega

theorem nextRand_inBlock (here : InBlock seed q i s) :
    ∃ q' i' s', nextRand s = some (terms seed (1009 * q' + i'), s') ∧ InBlock seed q' i' s' ∧ 101 * q' + i' = 101 * q + i + 1 := by
  have inside := here.inside
  have index : int (s.randIndex + 1) = (i + 1 : ℕ) := by
    rw [here.index, int_eq_self] <;> omega
  obtain ⟨q', i', s', moved, after, count⟩ : ∃ q' i' s', nextIndex s = some s' ∧ InBlock seed q' i' s' ∧
      101 * q' + i' = 101 * q + i + 1 := by
    unfold nextIndex
    simp only [index]
    by_cases last : i = 100
    · obtain ⟨aa', ranX', filled, block, next⟩ := ranArray_spec (terms_lagged seed (1009 * (q + 1))) s.aa here.next
        (by decide : 100 ≤ 1009) (by decide)
      simp only [← Nat.add_assoc, ← Nat.mul_succ] at next
      rw [if_pos (by omega)]
      exact ⟨q + 1, 0, ⟨ranX', aa', 0⟩, Option.bind_eq_some_iff.mpr ⟨_, filled, rfl⟩, ⟨rfl, by decide, block, next⟩, by omega⟩
    · rw [if_neg (by omega)]
      exact ⟨q, i + 1, _, rfl, ⟨rfl, by omega, here.block, here.next⟩, by omega⟩
  refine ⟨q', i', s', Option.bind_eq_some_iff.mpr ⟨s', moved, Option.bind_eq_some_iff.mpr ⟨_, after.load, ?_⟩⟩, after, count⟩
  rw [int_toInt_term]
  rfl

theorem draws_inBlock (start : InBlock seed 0 0 s) (k : ℕ) :
    ∃ s', draws k s = some ((List.range k).map fun j => terms seed (1009 * ((j + 1) / 101) + (j + 1) % 101), s') ∧
      InBlock seed (k / 101) (k % 101) s' := by
  induction k with
  | zero => exact ⟨s, rfl, start⟩
  | succ k ih =>
    obtain ⟨s', ran, here⟩ := ih
    obtain ⟨q, i, s'', called, after, count⟩ := nextRand_inBlock here
    have inside := after.inside
    obtain ⟨rfl, rfl⟩ : q = (k + 1) / 101 ∧ i = (k + 1) % 101 := by omega
    refine ⟨s'', ?_, after⟩
    simp only [draws, ran, called, Option.bind_eq_bind, Option.bind_some, Option.pure_def, List.range_succ, List.map_append,
      List.map_cons, List.map_nil]

end OsProjects.Random
