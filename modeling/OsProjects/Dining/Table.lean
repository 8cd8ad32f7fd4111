import OsProjects.Dining.Ring
import OsProjects.Threads.Zemaphore
import OsProjects.Transition.System
import OsProjects.Transition.Count
import Mathlib.Tactic

namespace OsProjects.Dining.Table
open Threads Transition

inductive Pc
  | waitTable | waitRight | waitLeft | eat | postRight | postLeft | postTable | think
  deriving DecidableEq, Repr

structure State (n : ℕ) extends Seats n Pc where
  table : Zem

variable {n : ℕ} {s : State n} {p : Fin n}

def philosopher (s : State n) (p : Fin n) : Option (State n) :=
  match s.pc p with
  | .waitTable => (zemWait s.table).map fun z => { table := z, toSeats := s.goto p .waitRight }
  | .waitRight => (s.waitFork (right p)).map fun t => { s with toSeats := t.goto p .waitLeft }
  | .waitLeft => (s.waitFork (left p)).map fun t => { s with toSeats := t.goto p .eat }
  | .eat => some { s with toSeats := s.goto p .postRight }
  | .postRight => some { s with toSeats := (s.postFork (right p)).goto p .postLeft }
  | .postLeft => some { s with toSeats := (s.postFork (left p)).goto p .postTable }
  | .postTable => some { table := zemPost s.table, toSeats := s.goto p .think }
  | .think => some { s with toSeats := s.goto p .waitTable }

def main (n : ℕ) : State n where
  table := zemInit (n - 1)
  forks _ := zemInit 1
  pc _ := .waitTable

def system (n : ℕ) : System (State n) (Fin n) := ⟨main n, philosopher⟩

def Pc.seated : Pc → ℕ
  | .waitTable | .think => 0
  | _ => 1

def Pc.holdsRight : Pc → ℕ
  | .waitLeft | .eat | .postRight => 1
  | _ => 0

def Pc.holdsLeft : Pc → ℕ
  | .eat | .postRight | .postLeft => 1
  | _ => 0

/-- Both forks are held: from the return of `get_forks` to the first post of `put_forks`. -/
def Eating (s : State n) (p : Fin n) : Prop := s.pc p = .eat ∨ s.pc p = .postRight

def Seated (s : State n) (p : Fin n) : Prop := (s.pc p).seated = 1

def seatedCount (s : State n) : ℕ := weigh Pc.seated s.pc

structure Inv (s : State n) : Prop where
  seats : s.table.value + seatedCount s = n - 1
  seat_nonneg : 0 ≤ s.table.value
  forks : ForksAccounted Pc.holdsRight Pc.holdsLeft s.forks s.pc

theorem main_inv (n : ℕ) (two : 2 ≤ n) : Inv (main n) where
  seats := by simp [main, seatedCount, weigh, Pc.seated]
  seat_nonneg := by simp [main]; omega
  forks p := by simp [main, Pc.holdsRight, Pc.holdsLeft]

theorem seatedCount_update (s : State n) (p : Fin n) (next : Pc) :
    weigh Pc.seated (Function.update s.pc p next) + (s.pc p).seated = seatedCount s + next.seated :=
  weigh_update Pc.seated s.pc p next

theorem philosopher_inv (two : 2 ≤ n) {after : State n} (inv : Inv s)
    (action : philosopher s p = some after) : Inv after := by
  obtain ⟨seats, nonneg, forks⟩ := inv
  cases pc : s.pc p with
  | waitTable =>
    simp only [philosopher, pc, Seats.goto, Option.map_eq_some_iff, zemWait_eq_some] at action
    obtain ⟨z, ⟨positive, value⟩, rfl⟩ := action
    have moved := seatedCount_update s p .waitRight
    simp only [pc, Pc.seated] at moved
    refine ⟨?_, ?_, forks.kept_step two (by simp [pc, Pc.holdsRight]) (by simp [pc, Pc.holdsLeft])⟩
    · simp only [seatedCount] at moved seats ⊢
      omega
    · simp only
      omega
  | waitRight =>
    simp only [philosopher, pc, Seats.waitFork, Seats.goto, Option.map_map, Option.map_eq_some_iff,
      zemWait_eq_some] at action
    obtain ⟨z, ⟨positive, value⟩, rfl⟩ := action
    have moved := seatedCount_update s p .waitLeft
    simp only [pc, Pc.seated] at moved
    refine ⟨?_, nonneg, ForksAccounted.right_step two forks (by omega)
      (by simp [pc, value, Pc.holdsRight]) (by simp [pc, Pc.holdsLeft])⟩
    simp only [seatedCount, Function.comp_apply] at moved seats ⊢
    omega
  | waitLeft =>
    simp only [philosopher, pc, Seats.waitFork, Seats.goto, Option.map_map, Option.map_eq_some_iff,
      zemWait_eq_some] at action
    obtain ⟨z, ⟨positive, value⟩, rfl⟩ := action
    have moved := seatedCount_update s p .eat
    simp only [pc, Pc.seated] at moved
    refine ⟨?_, nonneg, ForksAccounted.left_step two forks (by omega)
      (by simp [pc, value, Pc.holdsLeft]) (by simp [pc, Pc.holdsRight])⟩
    simp only [seatedCount, Function.comp_apply] at moved seats ⊢
    omega
  | eat =>
    simp only [philosopher, pc, Seats.goto, Option.some.injEq] at action
    subst action
    have moved := seatedCount_update s p .postRight
    simp only [pc, Pc.seated] at moved
    refine ⟨?_, nonneg, forks.kept_step two (by simp [pc, Pc.holdsRight]) (by simp [pc, Pc.holdsLeft])⟩
    simp only [seatedCount] at moved seats ⊢
    omega
  | postRight =>
    simp only [philosopher, pc, Seats.goto, Seats.postFork, Option.some.injEq] at action
    subst action
    have onTable := forks.nonneg (right p)
    have moved := seatedCount_update s p .postLeft
    simp only [pc, Pc.seated] at moved
    refine ⟨?_, nonneg, ForksAccounted.right_step two forks (by simp only [zemPost_value]; omega)
      (by simp [pc, Pc.holdsRight]) (by simp [pc, Pc.holdsLeft])⟩
    simp only [seatedCount] at moved seats ⊢
    omega
  | postLeft =>
    simp only [philosopher, pc, Seats.goto, Seats.postFork, Option.some.injEq] at action
    subst action
    have onTable := forks.nonneg (left p)
    have moved := seatedCount_update s p .postTable
    simp only [pc, Pc.seated] at moved
    refine ⟨?_, nonneg, ForksAccounted.left_step two forks (by simp only [zemPost_value]; omega)
      (by simp [pc, Pc.holdsLeft]) (by simp [pc, Pc.holdsRight])⟩
    simp only [seatedCount] at moved seats ⊢
    omega
  | postTable =>
    simp only [philosopher, pc, Seats.goto, Option.some.injEq] at action
    subst action
    have moved := seatedCount_update s p .think
    simp only [pc, Pc.seated] at moved
    refine ⟨?_, ?_, forks.kept_step two (by simp [pc, Pc.holdsRight]) (by simp [pc, Pc.holdsLeft])⟩
    · simp only [seatedCount, zemPost_value] at moved seats ⊢
      omega
    · simp only [zemPost_value]
      omega
  | think =>
    simp only [philosopher, pc, Seats.goto, Option.some.injEq] at action
    subst action
    have moved := seatedCount_update s p .waitTable
    simp only [pc, Pc.seated] at moved
    refine ⟨?_, nonneg, forks.kept_step two (by simp [pc, Pc.holdsRight]) (by simp [pc, Pc.holdsLeft])⟩
    simp only [seatedCount] at moved seats ⊢
    omega

theorem reachable_inv (two : 2 ≤ n) (reachable : (system n).Reachable s) : Inv s :=
  reachable.invariant Inv (main_inv n two) fun _ _ _ _ inv action => philosopher_inv two inv action

/-! ## Exclusion and progress -/

theorem Inv.neighbours_not_eating (inv : Inv s) (p : Fin n) : ¬ (Eating s p ∧ Eating s (right p)) := by
  rintro ⟨mine, theirs⟩
  have held : (s.pc p).holdsRight = 1 := by rcases mine with pc | pc <;> simp [pc, Pc.holdsRight]
  have free := inv.forks.not_both held
  rcases theirs with pc | pc <;> simp [pc, Pc.holdsLeft] at free

theorem blocked_cases (blocked : ¬ (system n).CanStep s p) :
    (s.pc p = .waitTable ∧ s.table.value ≤ 0) ∨
    (s.pc p = .waitRight ∧ (s.forks (right p)).value ≤ 0) ∨
    (s.pc p = .waitLeft ∧ (s.forks p).value ≤ 0) := by
  have stuck : philosopher s p = none := by
    cases action : philosopher s p with
    | none => rfl
    | some after => exact absurd ⟨after, action⟩ blocked
  cases pc : s.pc p <;> simp only [philosopher, pc, Seats.waitFork, Option.map_map, Option.map_eq_none_iff,
    zemWait_eq_none, left, reduceCtorEq] at stuck
  · exact .inl ⟨rfl, stuck⟩
  · exact .inr (.inl ⟨rfl, stuck⟩)
  · exact .inr (.inr ⟨rfl, stuck⟩)

theorem Inv.waitLeft_of_blocked (inv : Inv s)
    (stuck : ∀ p, Seated s p → ¬ (system n).CanStep s p) (seated : Seated s p) :
    s.pc p = .waitLeft ∧ (s.forks p).value ≤ 0 := by
  rcases blocked_cases (stuck p seated) with ⟨pc, _⟩ | ⟨pc, empty⟩ | blocked
  · simp [Seated, pc, Pc.seated] at seated
  · -- The missing fork is the neighbour's left one, and its holder never blocks.
    obtain ⟨onTable, fork⟩ := ForksAccounted.fork inv.forks p
    have held : (s.pc (right p)).holdsLeft = 1 := by
      simp only [pc, Pc.holdsRight] at fork
      omega
    have neighbourSeated : Seated s (right p) := by
      cases theirs : s.pc (right p) <;> simp_all [Pc.holdsLeft, Seated, Pc.seated]
    rcases blocked_cases (stuck _ neighbourSeated) with ⟨theirs, _⟩ | ⟨theirs, _⟩ | ⟨theirs, _⟩ <;>
      simp [theirs, Pc.holdsLeft] at held
  · exact blocked

theorem Inv.seated_progress (inv : Inv s) (occupied : ∃ p, Seated s p) : ∃ p, Seated s p ∧ (system n).CanStep s p := by
  by_contra none
  have stuck : ∀ p, Seated s p → ¬ (system n).CanStep s p := fun p seated can => none ⟨p, seated, can⟩
  obtain ⟨start, seated⟩ := occupied
  have everyone : ∀ p, s.pc p = .waitLeft := by
    apply ring_induction (motive := fun p => s.pc p = .waitLeft) ?_ (inv.waitLeft_of_blocked stuck seated).1
    intro p waiting
    obtain ⟨onTable, fork⟩ := ForksAccounted.fork inv.forks p
    have empty := (inv.waitLeft_of_blocked stuck (p := right p) (by simp [Seated, waiting, Pc.seated])).2
    have held : (s.pc p).holdsRight = 1 := by
      simp only [waiting, Pc.holdsLeft] at fork
      omega
    apply (inv.waitLeft_of_blocked stuck _).1
    cases mine : s.pc p <;> simp_all [Pc.holdsRight, Seated, Pc.seated]
  have full : seatedCount s = n := by simp [seatedCount, weigh, everyone, Pc.seated]
  have seats := inv.seats
  have nonneg := inv.seat_nonneg
  omega

theorem Inv.progress (inv : Inv s) (two : 2 ≤ n) : ∃ p, (system n).CanStep s p := by
  by_cases occupied : ∃ p, Seated s p
  · obtain ⟨p, _, can⟩ := inv.seated_progress occupied
    exact ⟨p, can⟩
  · let p : Fin n := ⟨0, by omega⟩
    refine ⟨p, by_contra fun blocked => ?_⟩
    have empty : seatedCount s = 0 := weigh_const_zero fun q => by
      by_contra seated
      apply occupied
      exact ⟨q, by cases pc : s.pc q <;> simp_all [Seated, Pc.seated]⟩
    have seats := inv.seats
    rcases blocked_cases blocked with ⟨_, noSeat⟩ | ⟨pc, _⟩ | ⟨pc, _⟩
    · omega
    all_goals exact occupied ⟨p, by simp [Seated, pc, Pc.seated]⟩

theorem table_deadlock_free (two : 2 ≤ n) (s : State n) (reachable : (system n).Reachable s) :
    s.table.value + seatedCount s = n - 1 ∧
    (∀ p, ¬ (Eating s p ∧ Eating s (right p))) ∧
    (∃ p, (system n).CanStep s p) ∧
    ((∃ p, Seated s p) → ∃ p, Seated s p ∧ (system n).CanStep s p) := by
  have inv := reachable_inv two reachable
  exact ⟨inv.seats, inv.neighbours_not_eating, inv.progress two, inv.seated_progress⟩

def twoSeated : List (Fin 3) := [0, 0, 1, 1]

theorem table_deadlock_free_twoSeated :
    ∃ s, (system 3).run (main 3) twoSeated = some s ∧ s.table.value = 0 ∧
      s.table.value + seatedCount s = (3 : ℕ) - 1 ∧
      (∀ p, ¬ (Eating s p ∧ Eating s (right p))) ∧
      (∃ p, (system 3).CanStep s p) ∧
      ((∃ p, Seated s p) → ∃ p, Seated s p ∧ (system 3).CanStep s p) := by
  obtain ⟨s, result⟩ : ∃ s, (system 3).run (main 3) twoSeated = some s := ⟨_, rfl⟩
  have empty : s.table.value = 0 := by
    cases result
    rfl
  have reachable : (system 3).Reachable s := System.Reachable.run .initial result
  exact ⟨s, result, empty, table_deadlock_free (by decide) s reachable⟩

end OsProjects.Dining.Table
