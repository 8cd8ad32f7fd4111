import OsProjects.Dining.Ring
import OsProjects.Transition.System
import Mathlib.Tactic

namespace OsProjects.Dining.LastReversed
open Threads Transition

/-- The last philosopher waits for its right fork first and for its left one second, all others the other way. -/
inductive Pc
  | think | rightFirst | leftSecond | leftFirst | rightSecond | eat | postLeft | postRight
  deriving DecidableEq, Repr

abbrev State (n : ℕ) := Seats n Pc

variable {n : ℕ}

-- One step of philosopher(p), with get_forks and put_forks inlined.
def philosopher (s : State n) (p : Fin n) : Option (State n) :=
  match s.pc p with
  | .think => some (s.goto p (if p.val = n - 1 then .rightFirst else .leftFirst))
  | .rightFirst => (s.waitFork (right p)).map (·.goto p .leftSecond)
  | .leftSecond => (s.waitFork (left p)).map (·.goto p .eat)
  | .leftFirst => (s.waitFork (left p)).map (·.goto p .rightSecond)
  | .rightSecond => (s.waitFork (right p)).map (·.goto p .eat)
  | .eat => some (s.goto p .postLeft)
  | .postLeft => some ((s.postFork (left p)).goto p .postRight)
  | .postRight => some ((s.postFork (right p)).goto p .think)

def main (n : ℕ) : State n where
  forks _ := zemInit 1
  pc _ := .think

def system (n : ℕ) : System (State n) (Fin n) := ⟨main n, philosopher⟩

def Pc.holdsRight : Pc → ℕ
  | .leftSecond | .eat | .postLeft | .postRight => 1
  | _ => 0

def Pc.holdsLeft : Pc → ℕ
  | .rightSecond | .eat | .postLeft => 1
  | _ => 0

def Pc.Side (last : Prop) : Pc → Prop
  | .rightFirst | .leftSecond => last
  | .leftFirst | .rightSecond => ¬ last
  | _ => True

def Eating (s : State n) (p : Fin n) : Prop := s.pc p = .eat ∨ s.pc p = .postLeft

structure Inv (s : State n) : Prop where
  side : ∀ p, (s.pc p).Side (p.val = n - 1)
  forks : ForksAccounted Pc.holdsRight Pc.holdsLeft s.forks s.pc

theorem main_inv (n : ℕ) : Inv (main n) where
  side _ := trivial
  forks p := by simp [main, Pc.holdsRight, Pc.holdsLeft]

theorem Inv.goto {s : State n} (inv : Inv s) {p : Fin n} {pc : Pc} (mine : pc.Side (p.val = n - 1)) (q : Fin n) :
    (Function.update s.pc p pc q).Side (q.val = n - 1) := by
  by_cases same : q = p
  · subst same
    rwa [Function.update_self]
  · rw [Function.update_of_ne same]
    exact inv.side q

theorem philosopher_inv (two : 2 ≤ n) {s after : State n} {p : Fin n} (inv : Inv s)
    (action : philosopher s p = some after) : Inv after := by
  have side := inv.side p
  have forks := inv.forks
  cases pc : s.pc p <;>
    simp only [philosopher, pc, Seats.waitFork, Seats.postFork, Seats.goto, Option.map_map, Option.map_eq_some_iff, Option.some.injEq,
      Function.comp_apply, zemWait_eq_some] at action
  case think =>
    subst action
    refine ⟨inv.goto ?_, forks.kept_step two ?_ ?_⟩
    · split <;> assumption
    all_goals
      simp only [pc]
      split <;> rfl
  case eat =>
    subst action
    exact ⟨inv.goto trivial, forks.kept_step two (by simp [pc, Pc.holdsRight]) (by simp [pc, Pc.holdsLeft])⟩
  case rightFirst | rightSecond =>
    obtain ⟨z, ⟨positive, value⟩, rfl⟩ := action
    rw [pc] at side
    exact ⟨inv.goto (by first | exact side | trivial), ForksAccounted.right_step two forks (by omega)
      (by simp [pc, value, Pc.holdsRight]) (by simp [pc, Pc.holdsLeft])⟩
  case leftFirst | leftSecond =>
    obtain ⟨z, ⟨positive, value⟩, rfl⟩ := action
    rw [pc] at side
    exact ⟨inv.goto (by first | exact side | trivial), ForksAccounted.left_step two forks (by omega)
      (by simp [pc, value, Pc.holdsLeft]) (by simp [pc, Pc.holdsRight])⟩
  case postLeft =>
    subst action
    have onTable := forks.nonneg (left p)
    exact ⟨inv.goto trivial, ForksAccounted.left_step two forks (by simp only [zemPost_value]; omega)
      (by simp [pc, Pc.holdsLeft]) (by simp [pc, Pc.holdsRight])⟩
  case postRight =>
    subst action
    have onTable := forks.nonneg (right p)
    exact ⟨inv.goto trivial, ForksAccounted.right_step two forks (by simp only [zemPost_value]; omega)
      (by simp [pc, Pc.holdsRight]) (by simp [pc, Pc.holdsLeft])⟩

theorem reachable_inv (two : 2 ≤ n) {s : State n} (reachable : (system n).Reachable s) : Inv s :=
  reachable.invariant Inv (main_inv n) fun _ _ _ _ inv action => philosopher_inv two inv action

/-! ## Exclusion and progress -/

theorem Inv.neighbours_not_eating {s : State n} (inv : Inv s) (p : Fin n) : ¬ (Eating s p ∧ Eating s (right p)) := by
  rintro ⟨mine, theirs⟩
  have held : (s.pc p).holdsRight = 1 := by rcases mine with pc | pc <;> rw [pc] <;> rfl
  have free := inv.forks.not_both held
  rcases theirs with pc | pc <;> rw [pc] at free <;> cases free

theorem blocked_cases {s : State n} {p : Fin n} (blocked : ¬ (system n).CanStep s p) :
    ((s.pc p = .leftFirst ∨ s.pc p = .leftSecond) ∧ (s.forks p).value ≤ 0) ∨
      (s.pc p = .rightFirst ∨ s.pc p = .rightSecond) ∧ (s.forks (right p)).value ≤ 0 := by
  have stuck : philosopher s p = none := by
    cases action : philosopher s p with
    | none => rfl
    | some after => exact absurd ⟨after, action⟩ blocked
  cases pc : s.pc p <;>
    simp_all [philosopher, Seats.waitFork, zemWait_eq_none, left]

section
variable (two : 2 ≤ n) {s : State n} (inv : Inv s) (stuck : ∀ p, s.pc p ≠ .think → ¬ (system n).CanStep s p)
include stuck

theorem holdsLeft_stuck {p : Fin n} (held : (s.pc p).holdsLeft = 1) : s.pc p = .rightSecond := by
  have blocked := stuck p fun pc => by simp [pc, Pc.holdsLeft] at held
  rcases blocked_cases blocked with ⟨pc | pc, _⟩ | ⟨pc | pc, _⟩ <;> simp_all [Pc.holdsLeft]

theorem holdsRight_stuck {p : Fin n} (held : (s.pc p).holdsRight = 1) : s.pc p = .leftSecond := by
  have blocked := stuck p fun pc => by simp [pc, Pc.holdsRight] at held
  rcases blocked_cases blocked with ⟨pc | pc, _⟩ | ⟨pc | pc, _⟩ <;> simp_all [Pc.holdsRight]

include inv

-- From one who waits with a left fork the next one on the right does too, and the last one never does.
theorem not_rightSecond (p : Fin n) : s.pc p ≠ .rightSecond := by
  have size := p.isLt
  have last : s.pc ⟨n - 1, by omega⟩ ≠ .rightSecond := by
    intro pc
    have side := inv.side ⟨n - 1, by omega⟩
    rw [pc] at side
    exact side rfl
  refine ring_induction (motive := fun q => s.pc q ≠ .rightSecond) (fun q free pc => ?_) last p
  have fork := ForksAccounted.fork inv.forks q
  rcases blocked_cases (stuck q (by simp [pc])) with ⟨other | other, _⟩ | ⟨_, empty⟩
  · simp [pc] at other
  · simp [pc] at other
  · rw [pc] at fork
    simp only [Pc.holdsRight] at fork
    exact free (holdsLeft_stuck stuck (by omega))

include two

theorem not_leftSecond (p : Fin n) : s.pc p ≠ .leftSecond := by
  intro pc
  obtain ⟨q, rfl⟩ := Finite.surjective_of_injective right_injective p
  have fork := ForksAccounted.fork inv.forks q
  rcases blocked_cases (stuck (right q) (by simp [pc])) with ⟨_, empty⟩ | ⟨other | other, _⟩
  · rw [pc] at fork
    simp only [Pc.holdsLeft] at fork
    have theirs := holdsRight_stuck stuck (p := q) (by omega)
    have first := inv.side q
    have second := inv.side (right q)
    rw [theirs] at first
    rw [pc] at second
    exact right_ne two q (Fin.ext (second.trans first.symm))
  · simp [pc] at other
  · simp [pc] at other

theorem all_think (p : Fin n) : s.pc p = .think := by
  by_contra busy
  rcases blocked_cases (stuck p busy) with ⟨pc | pc, empty⟩ | ⟨pc | pc, empty⟩
  · obtain ⟨q, rfl⟩ := Finite.surjective_of_injective right_injective p
    have fork := ForksAccounted.fork inv.forks q
    rw [pc] at fork
    simp only [Pc.holdsLeft] at fork
    exact not_leftSecond two inv stuck q (holdsRight_stuck stuck (by omega))
  · exact not_leftSecond two inv stuck p pc
  · have fork := ForksAccounted.fork inv.forks p
    rw [pc] at fork
    simp only [Pc.holdsRight] at fork
    exact not_rightSecond inv stuck _ (holdsLeft_stuck stuck (p := right p) (by omega))
  · exact not_rightSecond inv stuck p pc

end

theorem one_deadlocks : ∃ s, (system 1).Reachable s ∧ s.pc 0 = .leftSecond ∧ ∀ p, ¬ (system 1).CanStep s p := by
  obtain ⟨s, result⟩ : ∃ s, (system 1).run (main 1) [0, 0] = some s := ⟨_, rfl⟩
  refine ⟨s, System.Reachable.run .initial result, ?_⟩
  cases result
  refine ⟨rfl, fun p => ?_⟩
  obtain rfl := Subsingleton.elim p 0
  rintro ⟨after, action⟩
  cases action

/-- Neighbours never eat at once, and as long as somebody wants to eat or eats, one of those can go on. A single
philosopher, whose two forks are one, waits for ever. -/
theorem dines_iff (one : 1 ≤ n) :
    (∀ s, (system n).Reachable s → (∀ p, ¬ (Eating s p ∧ Eating s (right p))) ∧
      ((∃ p, s.pc p ≠ .think) → ∃ p, s.pc p ≠ .think ∧ (system n).CanStep s p)) ↔ 2 ≤ n := by
  constructor
  · intro dines
    by_contra small
    obtain rfl : n = 1 := by omega
    obtain ⟨s, reachable, pc, stuck⟩ := one_deadlocks
    obtain ⟨p, _, moves⟩ := (dines s reachable).2 ⟨0, by simp [pc]⟩
    exact stuck p moves
  · intro two s reachable
    have inv := reachable_inv two reachable
    refine ⟨inv.neighbours_not_eating, fun ⟨p, busy⟩ => ?_⟩
    by_contra stuck
    push Not at stuck
    exact busy (all_think two inv stuck p)

theorem dines_iff_two : ∃ s, (system 2).run (main 2) [0, 0, 1] = some s ∧ ¬ (system 2).CanStep s 1 ∧
    ∃ p, s.pc p ≠ .think ∧ (system 2).CanStep s p := by
  obtain ⟨s, result⟩ : ∃ s, (system 2).run (main 2) [0, 0, 1] = some s := ⟨_, rfl⟩
  have dines := ((dines_iff (n := 2) (by decide)).mpr (by decide) s (System.Reachable.run .initial result)).2
  have facts : s.pc 1 = .rightFirst ∧ philosopher s 1 = none := by
    cases result
    exact ⟨rfl, rfl⟩
  refine ⟨s, result, ?_, dines ⟨1, by simp [facts.1]⟩⟩
  rintro ⟨after, action⟩
  have moved := facts.2.symm.trans action
  cases moved

end OsProjects.Dining.LastReversed
