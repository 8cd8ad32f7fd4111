import OsProjects.Random.Stream

namespace OsProjects.Random
open Arrays Kernel Lagged Transition

/-- `ran_array` takes up the sequence where it is, and `nextRand` reads the first 101 terms of each block of 1009, without
the very first. -/
theorem random_stream (seed : ℤ) :
    (∀ x before, ∃ ranX, firstTerms seed x before = some ranX ∧ ∀ i < 100, terms seed i = (cell ranX i).toInt) ∧
      (∀ j ≥ 100, terms seed j = (terms seed (j - 100) - terms seed (j - 37)) % 2 ^ 30) ∧
      (∀ {len : ℕ} (aa : Vector Long len) ranX m n, 100 ≤ n → n ≤ len → (∀ i < 100, (cell ranX i).toInt = terms seed (m + i)) →
        ∃ aa' ranX', ranArray aa n ranX = some (aa', ranX') ∧ (∀ i < n, (cell aa' i).toInt = terms seed (m + i)) ∧
          ∀ i < 100, (cell ranX' i).toInt = terms seed (m + n + i)) ∧
      ∀ x before k, ∃ s s', randInit seed x before = some s ∧
        draws k s = some ((List.range k).map fun j => terms seed (1009 * ((j + 1) / 101) + (j + 1) % 101), s') := by
  refine ⟨fun x before => ?_, fun j high => ?_, fun aa ranX m n low high first => ?_, fun x before k => ?_⟩
  · obtain ⟨ranX, ran, _, _, same⟩ := firstTerms_holds seed
    refine ⟨ranX, ran x before, fun i inside => ?_⟩
    rw [same, stream, if_pos (show i < KK from inside)]
  · have rule := terms_lagged seed 0 (j - 100)
    simp only [Nat.zero_add] at rule
    rwa [show j - 100 + KK = j from Nat.sub_add_cancel high, show j - 100 + (KK - LL) = j - 37 by simp only [KK, LL]; omega] at rule
  · have holds : Holds (fun i => terms seed (m + i)) ranX 100 := fun i inside => by
      dsimp only
      rw [← first i inside, BitVec.ofInt_toInt]
    obtain ⟨aa', ranX', ran, block, next⟩ := ranArray_spec (terms_lagged seed m) aa holds low high
    refine ⟨aa', ranX', ran, fun i inside => ?_, fun i inside => ?_⟩
    · rw [block i inside, toInt_ofInt_of_range (terms_range _ _)]
    · rw [next i inside, toInt_ofInt_of_range (terms_range _ _), Nat.add_assoc]
  · obtain ⟨s, ran, start⟩ := randInit_inBlock seed x before
    obtain ⟨s', drawn, _⟩ := draws_inBlock start k
    exact ⟨s, s', ran, drawn⟩

/-- Seed 17, as in the user program, with the 1009 values that `ran_start` itself draws. -/
theorem random_stream_seventeen : ∃ aa' ranX ranX', firstTerms 17 (zeros _) (zeros _) = some ranX ∧
    ranArray (zeros 2000) 1009 ranX = some (aa', ranX') ∧ ∀ i < 1009, (cell aa' i).toInt = terms 17 (0 + i) := by
  obtain ⟨first, _, array, _⟩ := random_stream 17
  obtain ⟨ranX, ran, held⟩ := first (zeros _) (zeros _)
  obtain ⟨aa', ranX', filled, block, _⟩ := array (zeros 2000) ranX 0 1009 (by decide) (by decide)
    fun i inside => by rw [Nat.zero_add, held i inside]
  exact ⟨aa', ranX, ranX', ran, filled, block⟩

/-! ## Oddness -/

def ranArrays {len : ℕ} : List ℕ → Vector Long len → Vector Long KK → Option (List ℤ × Vector Long KK)
  | [], _, ranX => some ([], ranX)
  | n :: rest, aa, ranX => do
    let (aa, ranX) ← ranArray aa n ranX
    let (values, ranX) ← ranArrays rest aa ranX
    pure ((List.range n).map (fun i => (cell aa i).toInt) ++ values, ranX)

theorem ranArrays_spec {seed : ℤ} {len m : ℕ} {calls : List ℕ} (aa : Vector Long len) {ranX : Vector Long KK}
    (first : Holds (fun i => terms seed (m + i)) ranX 100) (fit : ∀ n ∈ calls, 100 ≤ n ∧ n ≤ len) :
    ∃ ranX', ranArrays calls aa ranX = some ((List.range calls.sum).map fun i => terms seed (m + i), ranX') ∧
      Holds (fun i => terms seed (m + calls.sum + i)) ranX' 100 := by
  induction calls generalizing m aa ranX with
  | nil => exact ⟨ranX, rfl, first⟩
  | cons n rest ih =>
    obtain ⟨low, high⟩ := fit n (by simp)
    obtain ⟨aa', ranX', ran, block, next⟩ := ranArray_spec (terms_lagged seed m) aa first low high
    simp only [← Nat.add_assoc] at next
    obtain ⟨ranX'', others, last⟩ := ih aa' next fun n member => fit n (by simp [member])
    have written : (List.range n).map (fun i => (cell aa' i).toInt) = (List.range n).map fun i => terms seed (m + i) :=
      List.map_congr_left fun i member => by
        rw [block i (List.mem_range.mp member), toInt_ofInt_of_range (terms_range _ _)]
    refine ⟨ranX'', ?_, by rwa [List.sum_cons, ← Nat.add_assoc]⟩
    simp only [ranArrays, ran, others, written, Option.bind_eq_bind, Option.bind_some, Option.pure_def, List.sum_cons,
      List.range_add, List.map_append, List.map_map, Function.comp_def, Nat.add_assoc]

theorem terms_odd (seed : ℤ) (j : ℕ) : ∃ i < 100, Odd (terms seed (j + i)) := by
  obtain ⟨ranX, _, small, ⟨i, inside, odd⟩, same⟩ := firstTerms_holds seed
  have first : Odd (terms seed i) := by
    rw [same, stream, if_pos (show i < KK from inside), toInt_of_small (small i inside), Int.odd_iff]
    omega
  have lagged : IsLagged KK LL (2 ^ 30) (terms seed) := stream_lagged _
  exact lagged.exists_odd (by decide) (by decide) (by decide) ⟨i, inside, first⟩ j

theorem odd_of_holds {seed : ℤ} {m : ℕ} {ranX : Vector Long KK} (held : Holds (fun i => terms seed (m + i)) ranX 100) :
    ∃ i < 100, isOdd (cell ranX i) := by
  obtain ⟨i, inside, odd⟩ := terms_odd seed m
  obtain ⟨low, high⟩ := terms_range seed (m + i)
  refine ⟨i, inside, ?_⟩
  rw [isOdd_iff, held i inside, BitVec.toNat_ofInt]
  rw [Int.odd_iff] at odd
  dsimp only
  omega

theorem random_never_degenerates (seed : ℤ) (x : Local) (before : Vars) : ∃ s, ranStart seed x before = some s ∧
    (∃ i < 100, isOdd (cell s.ranX i)) ∧ (∀ j, ∃ i < 100, Odd (terms seed (j + i))) ∧
    ∀ {len : ℕ} (aa : Vector Long len) (calls : List ℕ), (∀ n ∈ calls, 100 ≤ n ∧ n ≤ len) →
      ∃ values ranX, ranArrays calls aa s.ranX = some (values, ranX) ∧ values.length = calls.sum ∧
        (∃ i < 100, isOdd (cell ranX i)) ∧ ∀ j, j + 100 ≤ values.length → ∃ v ∈ (values.drop j).take 100, Odd v := by
  obtain ⟨s, ran, start⟩ := randInit_inBlock seed x before
  refine ⟨s, ran, odd_of_holds start.next, terms_odd seed, fun aa calls fit => ?_⟩
  obtain ⟨ranX, called, next⟩ := ranArrays_spec aa start.next fit
  refine ⟨_, ranX, called, by simp, odd_of_holds next, fun j short => ?_⟩
  obtain ⟨i, inside, odd⟩ := terms_odd seed (1009 * (0 + 1) + j)
  refine ⟨_, ?_, odd⟩
  rw [List.length_map, List.length_range] at short
  refine List.mem_iff_getElem.mpr ⟨i, by simp; omega, ?_⟩
  simp [Nat.add_assoc]

theorem random_never_degenerates_boot : ∃ s values ranX, ranStart 17 (zeros _) boot = some s ∧
    ranArrays [1009, 1009] (zeros 2000) s.ranX = some (values, ranX) ∧ ∃ v ∈ (values.drop 1918).take 100, Odd v := by
  obtain ⟨s, ran, _, _, calls⟩ := random_never_degenerates 17 (zeros _) boot
  obtain ⟨values, ranX, called, length, _, odd⟩ := calls (zeros 2000) [1009, 1009] (by decide)
  exact ⟨s, values, ranX, ran, called, odd 1918 (by rw [length]; decide)⟩

/-! ## Ranges -/

structure InRange (s : Vars) : Prop where
  ranX : ∀ i < 100, Small (cell s.ranX i)
  aa : ∀ i < 1009, Small (cell s.aa i)
  index : 0 ≤ s.randIndex ∧ s.randIndex ≤ 100

theorem InRange.boot : InRange boot where
  ranX i inside := by
    rw [Random.boot, cell, Vector.getElem?_replicate, if_pos (show i < KK from inside)]
    exact Nat.two_pow_pos 30
  aa i inside := by
    rw [Random.boot, cell, Vector.getElem?_replicate, if_pos (by omega)]
    exact Nat.two_pow_pos 30
  index := by decide

theorem inRange_randInit (seed : ℤ) (x : Local) (s : Vars) : ∃ s', randInit seed x s = some s' ∧ InRange s' := by
  obtain ⟨ranX, ran, small, _⟩ := firstTerms_holds seed
  obtain ⟨aa', ranX', filled, block, next⟩ := ranArray_small s.aa small (by decide : 100 ≤ 1009) (by decide)
  exact ⟨⟨ranX', aa', 0⟩, Option.bind_eq_some_iff.mpr ⟨ranX, ran x s.ranX, Option.bind_eq_some_iff.mpr ⟨_, filled, rfl⟩⟩,
    next, block, le_rfl, (by decide : (0 : ℤ) ≤ 100)⟩

theorem inRange_nextRand {s : Vars} (range : InRange s) :
    ∃ v s', nextRand s = some (v, s') ∧ InRange s' ∧ (0 ≤ v ∧ v < 2 ^ 30) ∧
      v = (cell s'.aa s'.randIndex.toNat).toInt := by
  obtain ⟨s', moved, after⟩ : ∃ s', nextIndex s = some s' ∧ InRange s' := by
    have bound := range.index
    unfold nextIndex
    rw [int_eq_self (by omega) (by omega)]
    dsimp only
    split
    · obtain ⟨aa', ranX', filled, block, next⟩ := ranArray_small s.aa range.ranX (by decide : 100 ≤ 1009) (by decide)
      exact ⟨⟨ranX', aa', 0⟩, Option.bind_eq_some_iff.mpr ⟨_, filled, rfl⟩, next, block, le_rfl, (by decide : (0 : ℤ) ≤ 100)⟩
    · exact ⟨_, rfl, range.ranX, range.aa, by dsimp only; omega⟩
  have bound := after.index
  have small := after.aa s'.randIndex.toNat (by omega)
  have loaded : load s'.aa s'.randIndex = some (cell s'.aa s'.randIndex.toNat) := load_eq (by omega) (by omega)
  have value := toInt_of_small small
  unfold Small at small
  refine ⟨_, s', ?_, after, ?_, rfl⟩
  · refine Option.bind_eq_some_iff.mpr ⟨s', moved, Option.bind_eq_some_iff.mpr ⟨_, loaded, ?_⟩⟩
    rw [int_eq_self (by omega) (by omega)]
    rfl
  · omega

theorem scaledRandom_range {low high val : ℤ} (least : -2 ^ 31 ≤ low) (greatest : high ≤ 2 ^ 31 - 1) (order : low ≤ high)
    (narrow : high - low < 2 ^ 31 - 1) (nonneg : 0 ≤ val) :
    low ≤ Kernel.scaledRandom low high val ∧ Kernel.scaledRandom low high val ≤ high := by
  have range : int (int (high - low) + 1) = high - low + 1 := by
    rw [int_eq_self (x := high - low) (by omega) (by omega), int_eq_self (by omega) (by omega)]
  have first := Int.emod_nonneg val (by omega : high - low + 1 ≠ 0)
  have last := Int.emod_lt_of_pos val (by omega : 0 < high - low + 1)
  unfold Kernel.scaledRandom
  simp only [range, Int.tmod_eq_emod_of_nonneg nonneg]
  rw [int_eq_self (by omega) (by omega)]
  omega

theorem inRange_scaledRandom {s : Vars} (range : InRange s) (low high : ℤ) :
    ∃ v s', scaledRandom low high s = some (v, s') ∧ InRange s' ∧
      (-2 ^ 31 ≤ low → high ≤ 2 ^ 31 - 1 → low ≤ high → high - low < 2 ^ 31 - 1 → low ≤ v ∧ v ≤ high) := by
  obtain ⟨v, s', ran, after, bounds, _⟩ := inRange_nextRand range
  exact ⟨_, s', Option.bind_eq_some_iff.mpr ⟨_, ran, rfl⟩, after,
    fun least greatest order narrow => scaledRandom_range least greatest order narrow bounds.1⟩

theorem inRange_perform {s s' : Vars} {call : Call} (range : InRange s) (action : perform s call = some s') : InRange s' := by
  cases call with
  | randInit seed stack =>
    obtain ⟨after, ran, range⟩ := inRange_randInit seed stack s
    exact Option.some.inj (ran.symm.trans action) ▸ range
  | nextRand =>
    obtain ⟨v, after, ran, range, _⟩ := inRange_nextRand range
    rw [perform, ran, Option.map_some] at action
    exact Option.some.inj action ▸ range
  | scaledRandom low high =>
    obtain ⟨v, after, ran, range, _⟩ := inRange_scaledRandom range low high
    rw [perform, ran, Option.map_some] at action
    exact Option.some.inj action ▸ range

theorem random_in_range {s : Vars} (reached : system.Reachable s) :
    InRange s ∧ (∀ call, ∃ s', perform s call = some s') ∧
      (∀ v s', nextRand s = some (v, s') → (0 ≤ v ∧ v < 2 ^ 30) ∧ v = (cell s'.aa s'.randIndex.toNat).toInt) ∧
      ∀ low high v s', scaledRandom low high s = some (v, s') → -2 ^ 31 ≤ low → high ≤ 2 ^ 31 - 1 → low ≤ high →
        high - low < 2 ^ 31 - 1 → low ≤ v ∧ v ≤ high := by
  have range : InRange s := reached.invariant InRange InRange.boot fun _ _ _ _ range action => inRange_perform range action
  refine ⟨range, fun call => ?_, fun v s' called => ?_, fun low high v s' called => ?_⟩
  · cases call with
    | randInit seed stack => exact (inRange_randInit seed stack s).imp fun _ => And.left
    | nextRand =>
      obtain ⟨v, s', ran, _⟩ := inRange_nextRand range
      exact ⟨s', by rw [perform, ran, Option.map_some]⟩
    | scaledRandom low high =>
      obtain ⟨v, s', ran, _⟩ := inRange_scaledRandom range low high
      exact ⟨s', by rw [perform, ran, Option.map_some]⟩
  · obtain ⟨v₀, s₀, ran, _, bounds, loaded⟩ := inRange_nextRand range
    obtain ⟨rfl, rfl⟩ := Prod.mk.inj (Option.some.inj (ran.symm.trans called))
    exact ⟨bounds, loaded⟩
  · obtain ⟨v₀, s₀, ran, _, bounds⟩ := inRange_scaledRandom range low high
    obtain ⟨rfl, rfl⟩ := Prod.mk.inj (Option.some.inj (ran.symm.trans called))
    exact bounds

theorem random_in_range_seventeen : ∃ s v s', system.run boot [.randInit 17 (zeros _), .nextRand] = some s ∧
    scaledRandom 1 1000 s = some (v, s') ∧ 1 ≤ v ∧ v ≤ 1000 := by
  have start : system.Reachable boot := .initial
  obtain ⟨s₁, seeded⟩ : ∃ s₁, system.step boot (.randInit 17 (zeros _)) = some s₁ :=
    (random_in_range start).2.1 (.randInit 17 (zeros _))
  have first : system.Reachable s₁ := .next start trivial seeded
  obtain ⟨s₂, drawn⟩ : ∃ s₂, system.step s₁ .nextRand = some s₂ := (random_in_range first).2.1 .nextRand
  have second : system.Reachable s₂ := .next first trivial drawn
  obtain ⟨_, all, _, scaled⟩ := random_in_range second
  obtain ⟨s₃, ran⟩ := all (.scaledRandom 1 1000)
  obtain ⟨⟨v, s'⟩, called, _⟩ := Option.map_eq_some_iff.mp (show (scaledRandom 1 1000 s₂).map Prod.snd = some s₃ from ran)
  refine ⟨s₂, v, s', ?_, called, scaled 1 1000 v s' called (by decide) (by decide) (by decide) (by decide)⟩
  exact Option.bind_eq_some_iff.mpr ⟨s₁, seeded, Option.bind_eq_some_iff.mpr ⟨s₂, drawn, rfl⟩⟩

end OsProjects.Random
