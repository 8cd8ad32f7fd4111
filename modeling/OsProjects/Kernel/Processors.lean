import OsProjects.Kernel.Cores

namespace OsProjects.Kernel
open Transition

variable {ncpu : ℕ} {s after : State ncpu} {c : Fin ncpu} {p : Slot}

namespace Cores

theorem cpuProc_of_stack (cores : Cores s) (on : s.stack c = some p) : s.cpuProc c = some p :=
  (cores.cpuProc c).trans (cores.running c p on)

theorem cpuProc_unique (cores : Cores s) {c' : Fin ncpu} (here : s.cpuProc c = some p)
    (there : s.cpuProc c' = some p) : c = c' :=
  cores.single c c' p ((cores.cpuProc c).symm.trans here) ((cores.cpuProc c').symm.trans there)

theorem stack_of_cpuProc (cores : Cores s) (here : s.cpuProc c = some p) (free : s.lock (.proc p) ≠ some c) :
    s.stack c = some p := by
  have dispatched : (s.scheduler c).dispatched = some p := (cores.cpuProc c).symm.trans here
  cases on : s.stack c with
  | none =>
    refine (free ((cores.holds c _).mpr ?_)).elim
    simp [State.held, on, swtched_of_dispatched dispatched, SchedPc.held]
  | some q =>
    have := cores.running c q on
    rw [← this, dispatched]

theorem running_iff (cores : Cores s) (free : s.lock (.proc p) = none) :
    (s.proc p).state = .running ↔ ∃! c, s.cpuProc c = some p := by
  constructor
  · intro running
    by_cases on : ∃ c, s.stack c = some p
    · obtain ⟨c, on⟩ := on
      have here := cores.cpuProc_of_stack on
      exact ⟨c, here, fun c' there => cores.cpuProc_unique there here⟩
    · have parked := cores.parked p fun c here => on ⟨c, here⟩
      rw [running] at parked
      exact parked.elim
  · rintro ⟨c, here, _⟩
    exact cores.running_of_stack (cores.stack_of_cpuProc here (by simp [free])) (by simp [free])

theorem off_of_runnable (cores : Cores s) (runnable : (s.proc p).state = .runnable)
    (free : s.lock (.proc p) = none) (c : Fin ncpu) : s.stack c ≠ some p := by
  intro there
  simp [cores.running_of_stack there (by simp [free])] at runnable

end Cores

theorem moved_dispatch {input : Input} (cores : Cores s) (moved : Moved s (c, input) after) (before : s.stack c ≠ some p)
    (now : after.stack c = some p) (c' : Fin ncpu) : s.stack c' ≠ some p := by
  cases moved with
  | advance | schedule | idle | trap | schedulerTrap => exact absurd now before
  | swtch => simp at now
  | dispatch off scanning runnable _ free =>
    obtain rfl := by simpa using now
    exact cores.off_of_runnable runnable free c'

theorem moved_freed {input : Input} (cores : Cores s) (moved : Moved s (c, input) after) (before : (s.proc p).state ≠ .unused)
    (now : (after.proc p).state = .unused) (c' : Fin ncpu) : s.stack c' ≠ some p := by
  intro on
  have cores' := moved_cores cores moved
  cases moved with
  | advance | schedule | trap | schedulerTrap | idle => exact (cores'.live_of_stack on).1 now
  | swtch => exact before now
  | dispatch off =>
    have distinct : c' ≠ c := by
      rintro rfl
      simp [off] at on
    exact (cores'.live_of_stack (c := c') (by simpa [distinct] using on)).1 now

def SchedPc.iterates : SchedPc → Bool
  | .totalAcquire _ _ | .scanAcquire _ _ _ => true
  | _ => false

theorem Cores.iterates_unlocked (cores : Cores s) (off : s.stack c = none)
    (iterates : (s.scheduler c).iterates) (l : Lock) : s.lock l ≠ some c := by
  intro holds
  have member := (cores.holds c l).mp holds
  simp only [State.held, off] at member
  cases pc : s.scheduler c <;> simp_all [SchedPc.iterates, SchedPc.held]

theorem process_on_one_cpu (ncpu : ℕ) (s : State ncpu) (reachable : (system ncpu).Reachable s) :
    (∀ p, s.lock (.proc p) = none →
      ((s.proc p).state = .running ↔ ∃! c, s.cpuProc c = some p) ∧
      ∀ c c', s.cpuProc c = some p → s.cpuProc c' = some p → c = c') ∧
    (∀ c input after p, step s (c, input) = some after →
      (s.stack c ≠ some p → after.stack c = some p → ∀ c', s.stack c' ≠ some p) ∧
      ((s.proc p).state ≠ .unused → (after.proc p).state = .unused → ∀ c', s.stack c' ≠ some p)) ∧
    (∀ c p, s.stack c = none → (s.scheduler c).iterates → s.lock (.proc p) ≠ some c) := by
  have cores := reachable_cores reachable
  refine ⟨fun p free => ⟨cores.running_iff free, fun c c' => cores.cpuProc_unique⟩, ?_, ?_⟩
  · intro c input after p action
    have moved := step_moved action
    exact ⟨moved_dispatch cores moved, moved_freed cores moved⟩
  · intro c p off iterates
    exact cores.iterates_unlocked off iterates _

def quiet : Oracle := ⟨.timer, true, true, true, true, 0, .done⟩

def boot : List (Fin 2 × Input) := List.replicate 130 (0, .run quiet)

set_option maxRecDepth 10000 in
theorem process_on_one_cpu_boot :
    ∃ s, (system 2).run (userinit 2) boot = some s ∧ s.lock (.proc initproc) = none ∧
      (s.proc initproc).state = .running ∧ s.cpuProc 0 = some initproc ∧ ∃! c, s.cpuProc c = some initproc := by
  have checked : ((system 2).run (userinit 2) boot).map
      (fun s => (s.lock (.proc initproc), (s.proc initproc).state, s.cpuProc 0)) =
        some (none, .running, some initproc) := by decide +kernel
  obtain ⟨s, result, facts⟩ := Option.map_eq_some_iff.mp checked
  simp only [Prod.mk.injEq] at facts
  obtain ⟨free, running, here⟩ := facts
  have reachable : (system 2).Reachable s := System.Reachable.run .initial result
  exact ⟨s, result, free, running, here, ((process_on_one_cpu 2 s reachable).1 initproc free).1.mp running⟩

end OsProjects.Kernel
