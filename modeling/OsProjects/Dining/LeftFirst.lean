import OsProjects.Dining.Ring
import OsProjects.Threads.Zemaphore
import OsProjects.Transition.System
import Mathlib.Tactic

namespace OsProjects.Dining.LeftFirst
open Threads Transition

def left (p : ℕ) : ℕ := p

def right (p : ℕ) : ℕ := (p + 1) % 5

inductive Pc
  | think | getLeft | getRight | eat | putLeft | putRight
  deriving DecidableEq, Repr

abbrev State (n : ℕ) := Seats n Pc

variable {n : ℕ}

def Pc.index (p : ℕ) : Pc → Option ℕ
  | .getLeft | .putLeft => some (left p)
  | .getRight | .putRight => some (right p)
  | .think | .eat => none

-- There is no fork past the end of the array, and no step that would use one.
def waitFork (s : State n) (i : ℕ) : Option (State n) := if bound : i < n then s.waitFork ⟨i, bound⟩ else none

def postFork (s : State n) (i : ℕ) : Option (State n) := if bound : i < n then some (s.postFork ⟨i, bound⟩) else none

def philosopher (s : State n) (p : Fin n) : Option (State n) :=
  match s.pc p with
  | .think => some (s.goto p .getLeft)
  | .getLeft => (waitFork s (left p)).map (·.goto p .getRight)
  | .getRight => (waitFork s (right p)).map (·.goto p .eat)
  | .eat => some (s.goto p .putLeft)
  | .putLeft => (postFork s (left p)).map (·.goto p .putRight)
  | .putRight => (postFork s (right p)).map (·.goto p .think)

def main (n : ℕ) : State n where
  forks _ := zemInit 1
  pc _ := .think

def system (n : ℕ) : System (State n) (Fin n) := ⟨main n, philosopher⟩

def Eating (s : State n) (p : Fin n) : Prop := s.pc p = .eat ∨ s.pc p = .putLeft

def ForkSafe (s : State n) : Prop :=
  (∀ p i, (s.pc p).index p = some i → i < n) ∧ ∀ p, ¬ (Eating s p ∧ Eating s (Dining.right p))

theorem waitFork_eq_some {s after : State n} {i : ℕ} : waitFork s i = some after ↔
    ∃ (bound : i < n) (z : Zem), zemWait (s.forks ⟨i, bound⟩) = some z ∧
      { s with forks := Function.update s.forks ⟨i, bound⟩ z } = after := by
  unfold waitFork
  split <;> simp_all [Seats.waitFork]

theorem postFork_eq_some {s after : State n} {i : ℕ} : postFork s i = some after ↔
    ∃ bound : i < n, { s with forks := Function.update s.forks ⟨i, bound⟩ (zemPost (s.forks ⟨i, bound⟩)) } = after := by
  unfold postFork
  split <;> simp_all [Seats.postFork]

/-! ## Five philosophers -/

def Pc.holdsRight : Pc → ℕ
  | .eat | .putLeft | .putRight => 1
  | _ => 0

def Pc.holdsLeft : Pc → ℕ
  | .getRight | .eat | .putLeft => 1
  | _ => 0

abbrev Forks (s : State n) : Prop := ForksAccounted Pc.holdsRight Pc.holdsLeft s.forks s.pc

theorem main_forks (n : ℕ) : Forks (main n) := by
  intro p
  simp [main, Pc.holdsRight, Pc.holdsLeft]

theorem philosopher_forks {s after : State 5} {p : Fin 5} (forks : Forks s)
    (action : philosopher s p = some after) : Forks after := by
  have two : 2 ≤ 5 := by decide
  cases pc : s.pc p <;> simp only [philosopher, pc, Option.map_eq_some_iff, Option.some.injEq, waitFork_eq_some,
    postFork_eq_some] at action
  case think | eat =>
    subst action
    exact forks.kept_step two (by simp [pc, Pc.holdsRight]) (by simp [pc, Pc.holdsLeft])
  case getLeft =>
    obtain ⟨_, ⟨bound, z, taken, rfl⟩, rfl⟩ := action
    obtain ⟨positive, value⟩ := zemWait_eq_some.mp taken
    exact forks.left_step (p := p) two (by omega) (by rw [value]; simp [pc, Pc.holdsLeft, Dining.left, left])
      (by simp [pc, Pc.holdsRight])
  case getRight =>
    obtain ⟨_, ⟨bound, z, taken, rfl⟩, rfl⟩ := action
    obtain ⟨positive, value⟩ := zemWait_eq_some.mp taken
    exact forks.right_step two (by omega) (by rw [value]; simp [pc, Pc.holdsRight, Dining.right, right])
      (by simp [pc, Pc.holdsLeft])
  case putLeft =>
    obtain ⟨_, ⟨bound, rfl⟩, rfl⟩ := action
    have nonneg := forks.nonneg p
    exact forks.left_step (p := p) two (by simp only [zemPost_value]; exact Int.le_add_one nonneg)
      (by simp [pc, Pc.holdsLeft, Dining.left, left]) (by simp [pc, Pc.holdsRight])
  case putRight =>
    obtain ⟨_, ⟨bound, rfl⟩, rfl⟩ := action
    have nonneg := forks.nonneg (Dining.right p)
    exact forks.right_step two (by simp only [zemPost_value]; exact Int.le_add_one nonneg)
      (by simp [pc, Pc.holdsRight, Dining.right, right]) (by simp [pc, Pc.holdsLeft])

theorem reachable_forks {s : State 5} (reachable : (system 5).Reachable s) : Forks s :=
  reachable.invariant Forks (main_forks 5) fun _ _ _ _ forks action => philosopher_forks forks action

theorem Forks.safe {s : State 5} (forks : Forks s) : ForkSafe s := by
  constructor
  · intro p i used
    cases pc : s.pc p <;> simp only [pc, Pc.index, Option.some.injEq, reduceCtorEq] at used <;> subst used
    case getLeft | putLeft => exact p.isLt
    case getRight | putRight => exact Nat.mod_lt _ (by decide)
  · rintro p ⟨mine, theirs⟩
    have held : (s.pc p).holdsRight = 1 := by rcases mine with pc | pc <;> simp [pc, Pc.holdsRight]
    have free := forks.not_both held
    rcases theirs with pc | pc <;> simp [pc, Pc.holdsLeft] at free

/-! ## Any other number -/

theorem small_table_unsafe (two : 2 ≤ n) (small : n < 5) : ∃ s, (system n).Reachable s ∧ ¬ ForkSafe s := by
  let last : Fin n := ⟨n - 1, by omega⟩
  obtain ⟨s, result, pc⟩ : ∃ s, (system n).run (main n) [last, last] = some s ∧ s.pc last = .getRight := by
    simp [System.run, system, main, philosopher, Seats.goto, waitFork, Seats.waitFork, left, zemWait]
  refine ⟨s, System.Reachable.run .initial result, fun safe => ?_⟩
  have bound := safe.1 last (right last) (by rw [pc]; rfl)
  have atEnd : right last = n := by
    simp only [right, last]
    omega
  omega

theorem reachable_eats {s : State n} {p : Fin n} (reachable : (system n).Reachable s) (thinking : s.pc p = .think)
    (bound : right p < n) (distinct : right p ≠ p) (leftFree : 0 < (s.forks p).value)
    (rightFree : 0 < (s.forks ⟨right p, bound⟩).value) :
    ∃ after, (system n).Reachable after ∧ after.pc p = .eat ∧ (∀ q, q ≠ p → after.pc q = s.pc q) ∧
      ∀ f : Fin n, f.val ≠ p → f.val ≠ right p → after.forks f = s.forks f := by
  have apart : (⟨right p, bound⟩ : Fin n) ≠ p := fun equal => distinct (congrArg Fin.val equal)
  obtain ⟨after, result, facts⟩ : ∃ after, (system n).run s [p, p, p] = some after ∧ after.pc p = .eat ∧
      (∀ q, q ≠ p → after.pc q = s.pc q) ∧
      ∀ f : Fin n, f.val ≠ p → f.val ≠ right p → after.forks f = s.forks f := by
    simp +contextual [System.run, system, philosopher, thinking, Seats.goto, waitFork, Seats.waitFork, left, zemWait, bound, apart,
      leftFree, rightFree, Fin.ext_iff, not_le.mpr]
  exact ⟨after, System.Reachable.run reachable result, facts⟩

theorem large_table_unsafe (large : 5 < n) : ∃ s, (system n).Reachable s ∧ ¬ ForkSafe s := by
  let four : Fin n := ⟨4, by omega⟩
  let five : Fin n := ⟨5, by omega⟩
  -- Philosopher 4 takes the forks 4 and 0, philosopher 5 the forks 5 and 1.
  obtain ⟨middle, reached, eats, others, rest⟩ := reachable_eats (p := four) .initial rfl
    (by simp [right, four]; omega) (by simp [right, four]) (by simp [system, main]) (by simp [system, main])
  obtain ⟨s, reachable, eatsToo, others', _⟩ := reachable_eats (p := five) reached
    ((others five (by simp [four, five])).trans rfl) (by simp [right, five]; omega) (by simp [right, five])
    (by rw [rest five (by simp [four, five]) (by simp [four, five, right])]; simp [system, main])
    (by rw [rest _ (by simp [four, five, right]) (by simp [four, five, right])]; simp [system, main])
  refine ⟨s, reachable, fun safe => ?_⟩
  have neighbour : Dining.right four = five := by
    apply Fin.ext
    rw [right_val, if_neg (by simp [four]; omega)]
  have first : s.pc four = .eat := (others' four (by simp [four, five])).trans eats
  exact safe.2 four ⟨.inl first, .inl (neighbour ▸ eatsToo)⟩

theorem fork_safe_iff (two : 2 ≤ n) (max : n ≤ 32) : (∀ s, (system n).Reachable s → ForkSafe s) ↔ n = 5 := by
  constructor
  · intro safe
    by_contra other
    obtain ⟨s, reachable, broken⟩ : ∃ s, (system n).Reachable s ∧ ¬ ForkSafe s := by
      rcases Nat.lt_or_gt_of_ne other with small | large
      · exact small_table_unsafe two small
      · exact large_table_unsafe large
    exact broken (safe s reachable)
  · rintro rfl s reachable
    exact (reachable_forks reachable).safe

theorem fork_safe_iff_five :
    ∃ s, (system 5).run (main 5) [4, 4, 4] = some s ∧ Eating s 4 ∧ ForkSafe s := by
  obtain ⟨s, result⟩ : ∃ s, (system 5).run (main 5) [4, 4, 4] = some s := ⟨_, rfl⟩
  have eating : Eating s 4 := by
    cases result
    exact .inl rfl
  have safe := (fork_safe_iff (n := 5) (by decide) (by decide)).mpr rfl
  exact ⟨s, result, eating, safe s (System.Reachable.run .initial result)⟩

theorem forks_wrap_at_five :
    (∃ s, (system 2).Reachable s ∧ (s.pc 1).index (1 : Fin 2) = some 2 ∧ ¬ ForkSafe s) ∧
    ∃ s, (system 6).Reachable s ∧ Eating s 4 ∧ Eating s 5 ∧ ¬ ForkSafe s := by
  constructor
  · obtain ⟨s, result⟩ : ∃ s, (system 2).run (main 2) [1, 1] = some s := ⟨_, rfl⟩
    have index : (s.pc 1).index (1 : Fin 2) = some 2 := by
      cases result
      rfl
    exact ⟨s, System.Reachable.run .initial result, index, fun safe => absurd (safe.1 1 2 index) (by decide)⟩
  · obtain ⟨s, result⟩ : ∃ s, (system 6).run (main 6) [4, 4, 4, 5, 5, 5] = some s := ⟨_, rfl⟩
    have eating : Eating s 4 ∧ Eating s 5 := by
      cases result
      exact ⟨.inl rfl, .inl rfl⟩
    exact ⟨s, System.Reachable.run .initial result, eating.1, eating.2, fun safe => safe.2 4 eating⟩

end OsProjects.Dining.LeftFirst
