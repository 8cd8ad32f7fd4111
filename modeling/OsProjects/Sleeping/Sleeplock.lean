import OsProjects.Slots.Sizes
import OsProjects.Transition.Monitor
import Mathlib.Data.Int.Notation
import Mathlib.Data.List.FinRange

namespace OsProjects.Locking
open Transition

abbrev NPROC : ℕ := 64

structure Sleeplock where
  locked : Bool
  pid : ℤ

/-- A process between two calls, without the lock or with it, or in `releasesleep` after its `wakeup`. -/
inductive Place
  | outside | holds | woke

def acquiresleep (pid : ℤ) (lk : Sleeplock) : Turn Sleeplock Unit Place :=
  if lk.locked then .wait () else .leave ⟨true, pid⟩ .holds

def releasesleep : Turn Sleeplock Unit Place := .wake ⟨false, 0⟩ () .woke

def holdingsleep (pid : ℤ) (lk : Sleeplock) : Bool := lk.locked && lk.pid == pid

/-- The spin lock of the sleep lock is the shared one, and `p->lock` the own one of a process. -/
def code (pid : Fin NPROC → ℤ) : Monitor (Fin NPROC) Sleeplock Unit Place Unit Empty where
  enter l _ := l
  turn p
    | .outside, lk => acquiresleep (pid p) lk
    | .holds, _ => releasesleep
    | .woke, lk => .leave lk .outside
  device d _ := nomatch d

def system (pid : Fin NPROC → ℤ) := (code pid).system (List.finRange NPROC) ⟨false, 0⟩ fun _ => .outside

variable {pid : Fin NPROC → ℤ}

theorem code_obeys : (code pid).Obeys (fun _ lk => lk.locked = true) (fun l => l = .woke) where
  waits {_ l _ _} turn := by cases l <;> grind [code, acquiresleep, releasesleep]
  stays {_ l _ _ _} turn := by cases l <;> grind [code, acquiresleep, releasesleep]
  wakes _ c' other := absurd rfl other
  leaves {_ l _ _ _} turn := by cases l <;> grind [code, acquiresleep, releasesleep]
  moves {d} := nomatch d

structure Owned (pid : Fin NPROC → ℤ) (lk : Sleeplock) (loc : Fin NPROC → Place) : Prop where
  holder : lk.locked = true → ∃ p, loc p = .holds
  only : ∀ p, loc p = .holds → lk = ⟨true, pid p⟩ ∧ ∀ q, loc q = .holds → q = p

theorem reachable_owned {s : Monitor.State (Fin NPROC) Sleeplock Unit Place} (reachable : (system pid).Reachable s) :
    Owned pid s.shared fun p => (s.pc p).loc := by
  refine Monitor.reachable_shared code_obeys List.mem_finRange (Owned pid) (by simp) ⟨by simp, by simp⟩ ?_ ?_ ?_ reachable
  · intro lk loc p _ owned
    rwa [show Function.update loc p ((code pid).enter (loc p) ()) = loc from Function.update_eq_self p loc]
  · intro lk loc p lk' next owned _ turn
    cases place : loc p <;> simp only [code, place, acquiresleep, releasesleep] at turn
    · split at turn <;> rename_i locked <;> simp [Turn.result] at turn
      obtain ⟨rfl, rfl⟩ := turn
      have nobody : ∀ q, loc q ≠ .holds := fun q holds => locked (by rw [(owned.only q holds).1])
      refine ⟨fun _ => ⟨p, Function.update_self _ _ _⟩, fun q holds => ?_⟩
      have here : ∀ q, Function.update loc p .holds q = .holds → q = p := fun q holds => by
        by_contra other
        rw [Function.update_of_ne other] at holds
        exact nobody q holds
      obtain rfl := here q holds
      exact ⟨rfl, here⟩
    · simp [Turn.result] at turn
      obtain ⟨rfl, rfl⟩ := turn
      refine ⟨by simp, fun q holds => ?_⟩
      by_cases other : q = p
      · simp [other] at holds
      · rw [Function.update_of_ne other] at holds
        exact absurd ((owned.only p place).2 q holds) other
    · simp [Turn.result] at turn
      obtain ⟨rfl, rfl⟩ := turn
      have same : ∀ q, Function.update loc p .outside q = .holds ↔ loc q = .holds := fun q => by
        by_cases other : q = p
        · simp [other, place]
        · rw [Function.update_of_ne other]
      exact ⟨fun locked => (owned.holder locked).imp fun q holds => (same q).mpr holds, fun q holds =>
        ⟨(owned.only q ((same q).mp holds)).1, fun r holds' => (owned.only q ((same q).mp holds)).2 r ((same r).mp holds')⟩⟩
  · intro _ _ d
    cases d

/-- At most one process is between `acquiresleep` and `releasesleep`, and `holdingsleep` answers for it alone. While the
spin lock is free no process sleeps for a lock that nobody holds. -/
theorem sleeplock_excludes {s : Monitor.State (Fin NPROC) Sleeplock Unit Place} (distinct : Function.Injective pid)
    (reachable : (system pid).Reachable s) :
    (∀ p q, (s.pc p).loc = .holds → (s.pc q).loc = .holds → p = q) ∧
      (∀ p, holdingsleep (pid p) s.shared = true ↔ (s.pc p).loc = .holds) ∧
      (s.lock .shared = none → ∀ p, s.sleeping p = some () → ∃ q, (s.pc q).loc = .holds) := by
  have owned := reachable_owned reachable
  refine ⟨fun p q holds holds' => (owned.only q holds').2 p holds, fun p => ⟨fun answer => ?_, fun holds => ?_⟩, fun free p sleeps => ?_⟩
  · obtain ⟨locked, same⟩ := Bool.and_eq_true_iff.mp answer
    obtain ⟨q, holds⟩ := owned.holder locked
    have equal := (owned.only q holds).1
    rw [equal] at same
    obtain rfl := distinct (beq_iff_eq.mp same)
    exact holds
  · simp [holdingsleep, (owned.only p holds).1]
  · have calm := Monitor.sleepers_blocked code_obeys List.mem_finRange (by simp) reachable free
    exact owned.holder (calm.1 p () sleeps)

def waitsForHolder : List (Monitor.Label (Fin NPROC) Unit Empty) :=
  List.replicate 2 (.thread 0 ()) ++ List.replicate 6 (.thread 1 ())

theorem sleeplock_excludes_waitsForHolder : ∃ s, (system fun p => p.val + 1).Reachable s ∧ s.lock .shared = none ∧
    s.sleeping 1 = some () ∧ ∃ q, (s.pc q).loc = .holds := by
  have checked : ((system fun p => p.val + 1).run (system fun p => p.val + 1).initial waitsForHolder).map
      (fun s => (s.lock .shared, s.sleeping 1)) = some (none, some ()) := by decide +kernel
  obtain ⟨s, result, shown⟩ := Option.map_eq_some_iff.mp checked
  obtain ⟨free, sleeps⟩ := Prod.mk.inj shown
  have reachable := System.Reachable.run .initial result
  have distinct : Function.Injective fun p : Fin NPROC => (p.val + 1 : ℤ) := fun p q same => by
    have values : (p.val + 1 : ℤ) = q.val + 1 := same
    exact Fin.ext (by omega)
  exact ⟨s, reachable, free, sleeps, (sleeplock_excludes distinct reachable).2.2 free 1 sleeps⟩

end OsProjects.Locking
