import OsProjects.Kernel.Cores
import OsProjects.Transition.WaitFor

namespace OsProjects.Kernel
open Transition

variable {ncpu : ℕ} {s : State ncpu} {c : Fin ncpu} {t : Slot → Proc} {o : Oracle} {l held : Lock}

def Acquires (s : State ncpu) (c : Fin ncpu) (l : Lock) : Prop :=
  match s.stack c with
  | some p => ∃ o e, kernel s.proc s.nextpid p o (s.kthread p) = some e ∧ e.op = .acquire l
  | none => ∃ o, (scheduler s.proc o (s.scheduler c)).op = .acquire l

def Spins (s : State ncpu) (c : Fin ncpu) (l : Lock) : Prop := Acquires s c l ∧ s.lock l ≠ none

def Holds (s : State ncpu) (c : Fin ncpu) (l : Lock) : Prop := s.lock l = some c

theorem kernel_acquires {nextpid : ℤ} {p : Slot} {pc : Pc} {e : Effect Next}
    (code : kernel t nextpid p o pc = some e) (wf : pc.wf p) (acquires : e.op = .acquire l)
    (member : held ∈ pc.held p) :
    (held = .wait ∧ ∃ q, l = .proc q) ∨
    ∃ np, held = .proc np ∧ (l = .pid ∨ l = .proc p ∧ pc.forking = some np) := by
  cases pc <;> simp only [kernel, Option.some.injEq, reduceCtorEq] at code
  case wakeupAcquire chan i next =>
    split at code <;> cases code <;> cases acquires
    exact .inl ⟨wf.1 _ member, i, rfl⟩
  case waitChildAcquire addr i =>
    repeat' split at code
    all_goals
      cases code
      cases acquires
      exact .inl ⟨by simpa [Pc.held] using member, i, rfl⟩
  case exitLockAcquire | waitKilledAcquire =>
    subst code
    cases acquires
    exact .inl ⟨by simpa [Pc.held] using member, p, rfl⟩
  case sleepAcquire k =>
    subst code
    cases acquires
    cases k with
    | wait addr => exact .inl ⟨by simpa [Pc.held, Sleeper.lock] using member, p, rfl⟩
    | exit | other => simp [Pc.held, Sleeper.lock] at member
  case allocpidAcquire np =>
    subst code
    cases acquires
    exact .inr ⟨np, by simpa [Pc.held] using member, .inl rfl⟩
  case forkTicketsAcquire np pid =>
    subst code
    cases acquires
    exact .inr ⟨np, by simpa [Pc.held] using member, .inr ⟨rfl, rfl⟩⟩
  case allocpidRelease | exitClose | reparent | waitScan =>
    split at code <;> cases code <;> cases acquires
  case killAcquire => split at code <;> cases code <;> simp [Pc.held] at member
  case sleepReacquire k => cases k <;> cases code <;> simp [Pc.held] at member
  case sleepRelease k => cases k <;> cases code <;> cases acquires
  case growproc k => cases k <;> cases code <;> cases acquires
  all_goals
    subst code
    first
      | cases acquires; done
      | simp [Pc.held] at member

theorem scheduler_acquires {pc : SchedPc} (acquires : (scheduler t o pc).op = .acquire l) : pc.held = [] := by
  cases pc <;> first | rfl | cases acquires

def rank (s : State ncpu) : Lock → ℕ
  | .wait => 0
  | .proc p => if (s.proc p).state = .unused ∨ (s.proc p).state = .used then 1 else 2
  | .pid => 3

theorem rank_proc (s : State ncpu) (p : Slot) : 0 < rank s (.proc p) ∧ rank s (.proc p) < 3 := by
  simp only [rank]
  split <;> simp

theorem Cores.acquires_ascending (cores : Cores s) (acquires : Acquires s c l)
    (holds : Holds s c held) : rank s held < rank s l := by
  have member := (cores.holds c held).mp holds
  cases on : s.stack c with
  | none =>
    simp only [Acquires, on] at acquires
    obtain ⟨o, acquires⟩ := acquires
    simp [State.held, on, scheduler_acquires acquires] at member
  | some p =>
    simp only [Acquires, on] at acquires
    obtain ⟨o, e, code, acquires⟩ := acquires
    rw [Cores.held_of_stack on] at member
    rcases kernel_acquires code (cores.wf p) acquires member with
      ⟨rfl, q, rfl⟩ | ⟨np, rfl, rfl | ⟨rfl, forking⟩⟩
    · exact (rank_proc s q).1
    · exact (rank_proc s np).2
    · -- the child is USED, its parent is not
      have child := cores.fork p np forking
      have parent := cores.live_of_stack on
      simp [rank, child, parent]

theorem kernel_deadlock_free (ncpu : ℕ) (s : State ncpu) (reachable : (system ncpu).Reachable s) :
    ¬ CircularWait (Spins s) (Holds s) := by
  have cores := reachable_cores reachable
  refine not_circularWait_of_rank (rank s) ?_
  intro c wanted held spins holds
  exact cores.acquires_ascending spins.1 holds

def forkMeetsCount : List (Fin 2 × Input) :=
  List.replicate 130 (0, .run ⟨.fork, true, true, true, true, 0, .done⟩) ++
    List.replicate 8 (0, .run ⟨.fork, true, true, true, true, 0, .done⟩) ++ [(1, .run ⟨.fork, true, true, true, true, 0, .done⟩)]

set_option maxRecDepth 10000 in
theorem kernel_deadlock_free_fork :
    ∃ s, (system 2).run (userinit 2) forkMeetsCount = some s ∧ Spins s 0 (.proc 0) ∧ Holds s 1 (.proc 0) ∧
      Holds s 0 (.proc 1) ∧ ¬ CircularWait (Spins s) (Holds s) := by
  have checked : ((system 2).run (userinit 2) forkMeetsCount).map
      (fun s => (s.stack 0, s.kthread 0, s.lock (.proc 0), s.lock (.proc 1))) =
        some (some 0, .forkTicketsAcquire 1 2, some 1, some 0) := by decide +kernel
  obtain ⟨s, result, facts⟩ := Option.map_eq_some_iff.mp checked
  simp only [Prod.mk.injEq] at facts
  obtain ⟨on, thread, parent, child⟩ := facts
  have spins : Spins s 0 (.proc 0) := by
    refine ⟨?_, by simp [parent]⟩
    simp only [Acquires, on, thread]
    exact ⟨⟨.fork, true, true, true, true, 0, .done⟩, _, rfl, rfl⟩
  exact ⟨s, result, spins, parent, child, kernel_deadlock_free 2 s (System.Reachable.run .initial result)⟩

end OsProjects.Kernel
