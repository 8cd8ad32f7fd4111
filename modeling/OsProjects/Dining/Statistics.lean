import OsProjects.Dining.Bitmap
import OsProjects.Transition.Recorded

namespace OsProjects.Dining.Bitmap
open Threads Transition

variable {n : ℕ} {malloc : Fin n → BitVec 32} {s after : State n} {p : Fin n} {meals : Fin n → ℕ}

/-! ## Meals and counters -/

def startMeal (s : State n) (p : Fin n) (meals : Fin n → ℕ) : Fin n → ℕ :=
  if s.pc p = .markLeft then Function.update meals p (meals p + 1) else meals

def total (meals : Fin n → ℕ) : ℕ := ∑ p, meals p

def Pc.uncounted : Pc → ℕ
  | .statistics => 1
  | _ => 0

/-- The counters are those of the meals in `counted`, by fork and on top of what `malloc` has returned. -/
structure Tallied (malloc : Fin n → BitVec 32) (counted : Fin n → ℕ) (s : State n) (meals : Fin n → ℕ) : Prop where
  meals : ∀ p, meals p = counted p + (s.pc p).uncounted
  counter : s.bitmapUpdatedCounter = BitVec.ofNat 32 (2 * total counted)
  distribution : ∀ p, s.eatingDistribution (right p) = malloc (right p) + BitVec.ofNat 32 (counted p + counted (right p))

theorem philosopher_statistics (action : philosopher s p = some after) (other : s.pc p ≠ .statistics) :
    after.bitmapUpdatedCounter = s.bitmapUpdatedCounter ∧ after.eatingDistribution = s.eatingDistribution ∧
      (after.pc p).uncounted = if s.pc p = .markLeft then 1 else 0 := by
  cases pc : s.pc p <;>
    simp only [philosopher, pc, Seats.waitFork, Seats.postFork, Seats.goto, Option.map_map, Option.map_eq_some_iff,
      Option.some.injEq, Function.comp_apply] at action
  case statistics => exact absurd pc other
  case test => split at action <;> cases action <;> simp [Pc.uncounted]
  case waitMutex | waitDone | getRight | getLeft =>
    obtain ⟨z, _, rfl⟩ := action
    simp [Pc.uncounted]
  all_goals
    subst action
    simp [Pc.uncounted]

theorem total_update (counted : Fin n → ℕ) (p : Fin n) :
    total (Function.update counted p (counted p + 1)) = total counted + 1 := by
  have moved := weigh_update id counted p (counted p + 1)
  simp only [weigh, id_eq] at moved
  unfold total
  omega

theorem update_add_one (counted : Fin n → ℕ) (p q : Fin n) :
    Function.update counted p (counted p + 1) q = counted q + if q = p then 1 else 0 := by
  by_cases same : q = p
  · subst same
    simp
  · simp [same]

theorem ate_eq (distribution : Fin n → BitVec 32) (f g : Fin n) :
    ate distribution f g = distribution g + BitVec.ofNat 32 (if g = f then 1 else 0) := by
  unfold ate
  by_cases same : g = f
  · subst same
    simp
  · simp [same]

theorem tallied_step (action : philosopher s p = some after) {counted : Fin n → ℕ} (tallied : Tallied malloc counted s meals) :
    ∃ counted', Tallied malloc counted' after (startMeal s p meals) := by
  have places := philosopher_pc action
  by_cases here : s.pc p = .statistics
  · have next : { s with
        bitmapUpdatedCounter := s.bitmapUpdatedCounter + 2
        eatingDistribution := ate (ate s.eatingDistribution (right p)) (left p)
        toSeats := s.goto p .postMarked } = after := by
      simpa [philosopher, here] using action
    refine ⟨Function.update counted p (counted p + 1), fun q => ?_, ?_, fun q => ?_⟩
    · rw [startMeal, if_neg (by rw [here]; simp), tallied.meals q, ← next]
      by_cases same : q = p
      · subst same
        simp [Seats.goto, here, Pc.uncounted]
      · simp [Seats.goto, same]
    · rw [total_update, ← next]
      change s.bitmapUpdatedCounter + 2 = _
      rw [tallied.counter, Nat.mul_add, BitVec.ofNat_add]
      rfl
    · rw [← next]
      change ate (ate s.eatingDistribution (right p)) (left p) (right q) = _
      have more : Function.update counted p (counted p + 1) q + Function.update counted p (counted p + 1) (right q) =
          counted q + counted (right q) + (if right q = right p then 1 else 0) + if right q = left p then 1 else 0 := by
        rw [show left p = p from rfl]
        simp only [update_add_one, right_inj]
        omega
      simp only [ate_eq, tallied.distribution q, more, BitVec.ofNat_add, BitVec.add_assoc]
  · obtain ⟨counter, distribution, started⟩ := philosopher_statistics action here
    refine ⟨counted, fun q => ?_, counter.trans tallied.counter, fun q => ?_⟩
    · by_cases same : q = p
      · subst same
        rw [started, startMeal]
        have before := tallied.meals q
        by_cases marks : s.pc q = .markLeft
        · simp only [marks, Pc.uncounted] at before
          simp [marks, before]
        · have none : (s.pc q).uncounted = 0 := by
            cases pc : s.pc q with
            | statistics => exact absurd pc here
            | _ => rfl
          rw [if_neg marks, if_neg marks, before, none]
      · have stays : after.pc q = s.pc q := by rw [places, Function.update_of_ne same]
        rw [stays, ← tallied.meals q, startMeal]
        split <;> simp [same]
    · rw [distribution]
      exact tallied.distribution q

theorem reachable_tallied {x : State n × (Fin n → ℕ)}
    (reachable : ((system n malloc).recorded (fun _ => 0) startMeal).Reachable x) : ∃ counted, Tallied malloc counted x.1 x.2 := by
  refine reachable.invariant (fun x => ∃ counted, Tallied malloc counted x.1 x.2) ⟨fun _ => 0, ?_⟩ ?_
  · exact ⟨fun _ => rfl, by simp [System.recorded, system, main, total], fun _ => by simp [System.recorded, system, main]⟩
  · rintro before label after _ ⟨counted, tallied⟩ action
    obtain ⟨moved, noted⟩ := System.recorded_step action
    rw [noted]
    exact tallied_step moved tallied

/-! ## What is printed -/

/-- While `mutex` is free and the counters have not overflowed, the counter of the bitmap is right, and the number
printed for a philosopher is that of its meals exactly if the one to its left has not eaten and `malloc` had returned
zero, up to a multiple of 2^32. -/
theorem meal_statistics_iff (two : 2 ≤ n) (max : n ≤ 32) (malloc : Fin n → BitVec 32) {s : State n} {meals : Fin n → ℕ}
    (reachable : ((system n malloc).recorded (fun _ => 0) startMeal).Reachable (s, meals)) (free : MutexFree s)
    (small : 2 * total meals < 2 ^ 31) :
    s.bitmapUpdatedCounter.toInt = 2 * total meals ∧
      ∀ p, (s.eatingDistribution (right p)).toInt = meals (right p) ↔ malloc (right p) + BitVec.ofNat 32 (meals p) = 0 := by
  obtain ⟨counted, tallied⟩ := reachable_tallied reachable
  have inv := reachable_inv two max reachable.forget
  have all : counted = meals := by
    funext p
    have outside := inv.outside_of_free free p
    have none : (s.pc p).uncounted = 0 := by
      cases pc : s.pc p with
      | statistics => simp [pc, Pc.inMutex] at outside
      | _ => rfl
    have counts : meals p = counted p + (s.pc p).uncounted := tallied.meals p
    omega
  subst all
  have toInt {k : ℕ} (less : k < 2 ^ 31) : (BitVec.ofNat 32 k).toInt = k := by
    rw [BitVec.toInt_eq_toNat_of_lt] <;> rw [BitVec.toNat_ofNat] <;> omega
  refine ⟨?_, fun p => ?_⟩
  · rw [tallied.counter, toInt small]
    push_cast
    rfl
  · have le : counted (right p) ≤ total counted := Finset.single_le_sum (fun _ _ => Nat.zero_le _) (Finset.mem_univ (right p))
    rw [← toInt (show counted (right p) < 2 ^ 31 by omega), BitVec.toInt_inj, tallied.distribution p, BitVec.ofNat_add,
      ← BitVec.add_assoc]
    simp

def firstMeal (n : ℕ) (p : Fin n) : List (Fin n) := List.replicate 6 p

/-- The first of three philosophers has started a meal: the number of the last one is right. -/
theorem meal_statistics_iff_firstMeal :
    ∃ (s : State 3) (meals : Fin 3 → ℕ), ((system 3 fun _ => 0).recorded (fun _ => 0) startMeal).Reachable (s, meals) ∧
      MutexFree s ∧ total meals = 1 ∧ s.bitmapUpdatedCounter.toInt = 2 ∧ (s.eatingDistribution 2).toInt = meals 2 := by
  have checked : (((system 3 fun _ => 0).recorded (fun _ => 0) startMeal).run (main 3 fun _ => 0, fun _ => 0) (firstMeal 3 0)).map
      (fun x => (x.1.mutex.value, List.ofFn x.2)) = some (1, [1, 0, 0]) := by decide +kernel
  obtain ⟨⟨s, meals⟩, ran, values⟩ := Option.map_eq_some_iff.mp checked
  have reachable := System.Reachable.run .initial ran
  have free : MutexFree s := congrArg Prod.fst values
  have each : List.ofFn meals = [1, 0, 0] := congrArg Prod.snd values
  obtain ⟨first, second, third⟩ : meals 0 = 1 ∧ meals 1 = 0 ∧ meals 2 = 0 := by simpa [List.ofFn_succ] using each
  have sum : total meals = 1 := by simp [total, Fin.sum_univ_three, first, second, third]
  obtain ⟨counter, printed⟩ := meal_statistics_iff (by decide) (by decide) (fun _ => 0) reachable free (by omega)
  exact ⟨s, meals, reachable, free, sum, by simpa [sum] using counter, (printed 1).mpr (by simp [second])⟩

/-- With `malloc` returning zeroes, one meal of the first of two philosophers is printed as a meal of each of them. -/
theorem neighbour_meal_counted :
    ∃ (s : State 2) (meals : Fin 2 → ℕ), ((system 2 fun _ => 0).recorded (fun _ => 0) startMeal).Reachable (s, meals) ∧
      MutexFree s ∧ meals 1 = 0 ∧ (s.eatingDistribution 1).toInt = 1 := by
  have checked : (((system 2 fun _ => 0).recorded (fun _ => 0) startMeal).run (main 2 fun _ => 0, fun _ => 0) (firstMeal 2 0)).map
      (fun x => (x.1.mutex.value, x.2 1, (x.1.eatingDistribution 1).toInt)) = some (1, 0, 1) := by decide +kernel
  obtain ⟨⟨s, meals⟩, ran, values⟩ := Option.map_eq_some_iff.mp checked
  obtain ⟨free, none, printed⟩ : s.mutex.value = 1 ∧ meals 1 = 0 ∧ (s.eatingDistribution 1).toInt = 1 := by simpa using values
  exact ⟨s, meals, System.Reachable.run .initial ran, free, none, printed⟩

end OsProjects.Dining.Bitmap
