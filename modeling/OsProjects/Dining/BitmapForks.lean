import OsProjects.Dining.Bitmap

namespace OsProjects.Dining.Bitmap
open Threads Transition

variable {n : ℕ} {s : State n} {p : Fin n} {malloc : Fin n → BitVec 32}

/-! ## Fork semaphores -/

def Pc.holdsRight : Pc → ℕ
  | .getLeft | .eat | .waitDone | .putRight => 1
  | _ => 0

def Pc.holdsLeft : Pc → ℕ
  | .eat | .waitDone | .putRight | .putLeft => 1
  | _ => 0

abbrev Forks (s : State n) : Prop := ForksAccounted Pc.holdsRight Pc.holdsLeft s.forks s.pc

theorem holdsRight_le_setsRight (pc : Pc) : pc.holdsRight ≤ pc.setsRight := by cases pc <;> decide

theorem holdsLeft_le_setsLeft (pc : Pc) : pc.holdsLeft ≤ pc.setsLeft := by cases pc <;> decide

theorem main_forks (n : ℕ) (malloc : Fin n → BitVec 32) : Forks (main n malloc) := by
  intro p
  simp [main, Pc.holdsRight, Pc.holdsLeft]

theorem philosopher_forks (two : 2 ≤ n) {after : State n} (forks : Forks s)
    (action : philosopher s p = some after) : Forks after := by
  cases pc : s.pc p <;>
    simp only [philosopher, pc, Seats.waitFork, Seats.postFork, Seats.goto, Option.map_map, Option.map_eq_some_iff,
      Option.some.injEq, Function.comp_apply] at action
  case getRight =>
    obtain ⟨z, taken, rfl⟩ := action
    obtain ⟨positive, value⟩ := zemWait_eq_some.mp taken
    exact forks.right_step two (by omega) (by simp [pc, Pc.holdsRight, value]) (by simp [pc, Pc.holdsLeft])
  case getLeft =>
    obtain ⟨z, taken, rfl⟩ := action
    obtain ⟨positive, value⟩ := zemWait_eq_some.mp taken
    exact forks.left_step two (by omega) (by simp [pc, Pc.holdsLeft, value]) (by simp [pc, Pc.holdsRight])
  case putRight =>
    subst action
    have nonneg := forks.nonneg (right p)
    exact forks.right_step two (by simp only [zemPost_value]; omega) (by simp [pc, Pc.holdsRight])
      (by simp [pc, Pc.holdsLeft])
  case putLeft =>
    subst action
    have nonneg := forks.nonneg (left p)
    exact forks.left_step two (by simp only [zemPost_value]; omega) (by simp [pc, Pc.holdsLeft])
      (by simp [pc, Pc.holdsRight])
  case test =>
    split at action <;> cases action <;>
      exact forks.kept_step two (by simp [pc, Pc.holdsRight]) (by simp [pc, Pc.holdsLeft])
  case waitMutex | waitDone =>
    obtain ⟨z, _, rfl⟩ := action
    exact forks.kept_step two (by simp [pc, Pc.holdsRight]) (by simp [pc, Pc.holdsLeft])
  all_goals
    subst action
    exact forks.kept_step two (by simp [pc, Pc.holdsRight]) (by simp [pc, Pc.holdsLeft])

theorem reachable_forks (two : 2 ≤ n) (reachable : (system n malloc).Reachable s) : Forks s :=
  reachable.invariant Forks (main_forks n malloc) fun _ _ _ _ forks action => philosopher_forks two forks action

def getsFork (p : Fin n) : Pc → Option (Fin n)
  | .getRight => some (right p)
  | .getLeft => some (left p)
  | _ => none

theorem Forks.le_one (forks : Forks s) (f : Fin n) : (s.forks f).value ≤ 1 := by
  obtain ⟨p, rfl⟩ := Finite.surjective_of_injective right_injective f
  have fork := ForksAccounted.fork forks p
  omega

-- The bitmap lets at most one user of a fork past the test, and that user has not taken it yet.
theorem Forks.free_of_gets (forks : Forks s) (inv : Inv s) {f : Fin n}
    (gets : getsFork p (s.pc p) = some f) : (s.forks f).value = 1 := by
  cases pc : s.pc p <;> simp only [pc, getsFork, Option.some.injEq, reduceCtorEq] at gets
  case getRight =>
    subst gets
    have fork := ForksAccounted.fork forks p
    have alone := inv.bits.not_both (p := p) (by simp [pc, Pc.setsRight])
    have bound := holdsLeft_le_setsLeft (s.pc (right p))
    simp only [pc, Pc.holdsRight] at fork
    omega
  case getLeft =>
    obtain ⟨q, rfl⟩ := Finite.surjective_of_injective right_injective p
    subst gets
    have fork := ForksAccounted.fork forks q
    have bits := inv.bits q
    have bound := holdsRight_le_setsRight (s.pc q)
    simp only [pc, Pc.setsLeft, Pc.holdsLeft] at fork bits
    simp only [left]
    omega

/-! ## Progress -/

theorem blocked_cases (blocked : ¬ (system n malloc).CanStep s p) :
    ((s.pc p).inMutex = 0 ∧ s.mutex.value ≤ 0) ∨ ∃ f, getsFork p (s.pc p) = some f ∧ (s.forks f).value ≤ 0 := by
  have stuck : philosopher s p = none := by
    cases action : philosopher s p with
    | none => rfl
    | some after => exact absurd ⟨after, action⟩ blocked
  cases pc : s.pc p <;> simp only [philosopher, pc, Seats.waitFork, Option.map_map, Option.map_eq_none_iff,
    zemWait_eq_none, reduceCtorEq] at stuck
  case test => split at stuck <;> cases stuck
  case waitMutex | waitDone => exact .inl ⟨rfl, stuck⟩
  case getRight | getLeft => exact .inr ⟨_, rfl, stuck⟩

theorem Inv.holder_steps (inv : Inv s) (forks : Forks s)
    (inside : (s.pc p).inMutex = 1) : (system n malloc).CanStep s p := by
  by_contra blocked
  rcases blocked_cases blocked with ⟨outside, _⟩ | ⟨f, gets, empty⟩
  · omega
  · have free := forks.free_of_gets inv gets
    omega

theorem Inv.exists_holder (inv : Inv s) (taken : s.mutex.value ≠ 1) : ∃ p, (s.pc p).inMutex = 1 := by
  by_contra nobody
  apply taken
  have mutex := inv.mutex
  rw [weigh_const_zero fun p => ?_] at mutex
  · omega
  · by_contra inside
    apply nobody
    refine ⟨p, ?_⟩
    revert inside
    cases s.pc p <;> simp [Pc.inMutex]

theorem Inv.progress (inv : Inv s) (forks : Forks s) (two : 2 ≤ n) : ∃ p, (system n malloc).CanStep s p := by
  by_cases free : s.mutex.value = 1
  · let p : Fin n := ⟨0, by omega⟩
    refine ⟨p, by_contra fun blocked => ?_⟩
    rcases blocked_cases blocked with ⟨_, empty⟩ | ⟨f, gets, empty⟩
    · omega
    · have free := forks.free_of_gets inv gets
      omega
  · obtain ⟨p, inside⟩ := inv.exists_holder free
    exact ⟨p, inv.holder_steps forks inside⟩

theorem bitmap_deadlock_free (two : 2 ≤ n) (max : n ≤ 32) (malloc : Fin n → BitVec 32) (s : State n)
    (reachable : (system n malloc).Reachable s) :
    (∀ p f, getsFork p (s.pc p) = some f → (s.forks f).value = 1) ∧
    (∀ f, (s.forks f).value ≤ 1) ∧
    (MutexFree s ∨ ∃ p, (s.pc p).inMutex = 1 ∧ (∀ q, (s.pc q).inMutex = 1 → q = p) ∧
      (system n malloc).CanStep s p) ∧
    ∃ p, (system n malloc).CanStep s p := by
  have inv := reachable_inv two max reachable
  have forks := reachable_forks two reachable
  refine ⟨fun p f => forks.free_of_gets inv, forks.le_one, ?_, inv.progress forks two⟩
  by_cases free : s.mutex.value = 1
  · exact .inl free
  · obtain ⟨p, inside⟩ := inv.exists_holder free
    exact .inr ⟨p, inside, fun q other => inv.exclusive other inside, inv.holder_steps forks inside⟩

/-- Philosopher 31 has put back its right fork and not its left one; philosopher 1 is about to get its own. -/
def bothPaths : List (Fin 32) := List.replicate 6 31 ++ List.replicate 6 1 ++ List.replicate 5 31

theorem bitmap_deadlock_free_bothPaths :
    ∃ s, (system 32 fun _ => 0).run (main 32 fun _ => 0) bothPaths = some s ∧ s.mutex.value = 0 ∧
      s.pc 31 = .putLeft ∧ getsFork (1 : Fin 32) (s.pc 1) = some (right 1) ∧ (s.forks (right 1)).value = 1 ∧
      ∃ p, (system 32 fun _ => 0).CanStep s p := by
  obtain ⟨s, result⟩ : ∃ s, (system 32 fun _ => 0).run (main 32 fun _ => 0) bothPaths = some s := ⟨_, rfl⟩
  have facts : s.mutex.value = 0 ∧ s.pc 31 = .putLeft ∧ s.pc 1 = .getRight := by
    cases result
    exact ⟨rfl, rfl, rfl⟩
  have gets : getsFork (1 : Fin 32) (s.pc 1) = some (right 1) := by rw [facts.2.2]; rfl
  have free := bitmap_deadlock_free (by decide) (by decide) (fun _ => 0) s (System.Reachable.run .initial result)
  exact ⟨s, result, facts.1, facts.2.1, gets, free.1 1 _ gets, free.2.2.2⟩

end OsProjects.Dining.Bitmap
