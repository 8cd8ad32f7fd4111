import OsProjects.Kernel.Deadlock

namespace OsProjects.Kernel
open Transition

variable {ncpu : ℕ} {s : State ncpu} {c : Fin ncpu} {t : Slot → Proc} {p : Slot} {o : Oracle}

theorem kernel_releases {nextpid : ℤ} {pc : Pc} {e : Effect Next} {l : Lock}
    (code : kernel t nextpid p o pc = some e) (releases : e.op = .release l) : l ∈ pc.held p := by
  cases pc <;> simp only [kernel, Option.some.injEq, reduceCtorEq] at code
  case sleepRelease k =>
    cases k <;> cases code <;> cases releases
    simp [Pc.held, Sleeper.lock]
  case sleepReacquire k => cases k <;> cases code <;> cases releases
  case growproc k => cases k <;> cases code <;> cases releases
  case waitKilledRelease addr k => cases k <;> cases code <;> cases releases <;> simp [Pc.held]
  all_goals
    repeat' split at code
    all_goals
      cases code
      first
        | cases releases; done
        | cases releases; simp [Pc.held]

theorem scheduler_releases {pc : SchedPc} {l : Lock} (releases : (scheduler t o pc).op = .release l) : l ∈ pc.held := by
  cases pc <;> simp only [scheduler] at releases <;> (repeat' split at releases) <;> cases releases <;> simp [SchedPc.held]

theorem kernel_eq_none {nextpid : ℤ} {pc : Pc} (stopped : kernel t nextpid p o pc = none) : pc = .panic := by
  cases pc <;> simp only [kernel, reduceCtorEq] at stopped
  case panic => rfl
  case sleepReacquire k | growproc k => cases k <;> cases stopped
  all_goals
    repeat' split at stopped
    all_goals cases stopped

theorem Cores.maySwtch (cores : Cores s) {resume : Pc} (on : s.stack c = some p)
    (leaving : s.kthread p = .sched resume) : maySwtch s c p := by
  have held : ∀ l, s.lock l = some c ↔ l = .proc p := by
    intro l
    rw [cores.holds c l, Cores.held_of_stack on, leaving]
    exact List.mem_singleton
  refine ⟨(held _).mpr rfl, ?_, ?_⟩
  · simp only [noff, held, Lock.proc.injEq, reduceCtorEq, if_false, Finset.filter_eq', Finset.mem_univ, if_true,
      Finset.card_singleton]
  · rw [cores.state c p on, leaving]
    simp only [Pc.runState]
    split <;> simp

def Waits (s : State ncpu) (c : Fin ncpu) : Prop := ∃ l c', Acquires s c l ∧ s.lock l = some c' ∧ c' ≠ c

def Panicked (s : State ncpu) (c : Fin ncpu) : Prop := ∃ p, s.stack c = some p ∧ s.kthread p = .panic

theorem Cores.waits (cores : Cores s) (op : LockOp Lock) (acquires : ∀ l, op = .acquire l → Acquires s c l)
    (releases : ∀ l, op = .release l → l ∈ s.held c) (refused : op.apply c s.lock = none) : Waits s c := by
  cases op with
  | keep => cases refused
  | release l => exact absurd ((cores.holds c l).mpr (releases l rfl)) (by simpa [LockOp.apply] using refused)
  | acquire l =>
    have taken : s.lock l ≠ none := by simpa [LockOp.apply] using refused
    obtain ⟨c', holder⟩ := Option.ne_none_iff_exists'.mp taken
    refine ⟨l, c', acquires l rfl, holder, ?_⟩
    rintro rfl
    exact (cores.acquires_ascending (acquires l rfl) holder).false

theorem Cores.moves (cores : Cores s) (c : Fin ncpu) (o : Oracle) :
    (system ncpu).CanStep s (c, .run o) ∨ Waits s c ∨ Panicked s c := by
  by_cases stopped : step s (c, .run o) = none
  swap
  · exact .inl (Option.ne_none_iff_exists'.mp stopped)
  right
  cases on : s.stack c with
  | none =>
    simp only [step, on, schedulerStep, Option.map_eq_none_iff] at stopped
    refine .inl (cores.waits _ (fun l acquires => ?_) (fun l releases => ?_) stopped)
    · simp only [Acquires, on]
      exact ⟨o, acquires⟩
    · simp only [State.held, on]
      exact scheduler_releases releases
  | some p =>
    simp only [step, on, kernelStep] at stopped
    cases code : kernel s.proc s.nextpid p o (s.kthread p) with
    | none => exact .inr ⟨p, on, kernel_eq_none code⟩
    | some e =>
      rw [code, Option.bind_some] at stopped
      refine .inl (cores.waits e.op (fun l acquires => ?_) (fun l releases => ?_) ?_)
      · simp only [Acquires, on]
        exact ⟨o, e, code, acquires⟩
      · rw [Cores.held_of_stack on]
        exact kernel_releases code releases
      · cases applied : e.op.apply c s.lock with
        | none => rfl
        | some lock =>
          rw [applied, Option.bind_some] at stopped
          cases next : e.next with
          | goto pc => simp [next] at stopped
          | swtch resume =>
            have fresh : ∀ l, e.op = .acquire l → l ∉ (s.kthread p).held p := by
              intro l acquires
              rw [acquires, LockOp.apply, Option.ite_none_right_eq_some] at applied
              exact Cores.held_of_stack on ▸ cores.fresh applied.1
            have locks := kernel_locks code (cores.wf p) fresh
            rw [next] at locks
            simp [next, cores.maySwtch on locks.2] at stopped

/-- A CPU that cannot go on spins for a lock of another one, or its process has panicked: `acquire` never finds its own
lock, `release` has the lock it gives back, and `sched` is called with one lock by a process that does not run. Without
such a panic some CPU can always go on. -/
theorem kernel_goes_on (reachable : (system ncpu).Reachable s) (o : Fin ncpu → Oracle) :
    (∀ c, (system ncpu).CanStep s (c, .run (o c)) ∨ Waits s c ∨ Panicked s c) ∧
      (0 < ncpu → (∀ c, ¬ Panicked s c) → ∃ c, (system ncpu).CanStep s (c, .run (o c))) := by
  have cores := reachable_cores reachable
  refine ⟨fun c => cores.moves c (o c), fun some calm => ?_⟩
  by_contra stuck
  push Not at stuck
  have waits : ∀ c, Waits s c := fun c => ((cores.moves c (o c)).resolve_left (stuck c)).resolve_right (calm c)
  choose l holder acquires held _ using waits
  -- The holder of the wanted lock of the highest rank wants one of a still higher rank.
  have : Nonempty (Fin ncpu) := ⟨⟨0, some⟩⟩
  obtain ⟨c, highest⟩ := Finite.exists_max fun c => rank s (l c)
  have above := cores.acquires_ascending (acquires (holder c)) (held c)
  exact absurd (highest (holder c)) (by omega)

def counting : Oracle := ⟨.fork, true, true, true, true, 0, .done⟩

theorem kernel_goes_on_counting : ∃ s, (system 2).run (userinit 2) [(0, .run counting)] = some s ∧ Waits s 1 ∧
    ∃ c, (system 2).CanStep s (c, .run counting) := by
  obtain ⟨s, result⟩ : ∃ s, (system 2).run (userinit 2) [(0, .run counting)] = some s := ⟨_, rfl⟩
  have facts : (∀ c, s.stack c = none) ∧ step s (1, .run counting) = none := by
    cases result
    exact ⟨fun _ => rfl, rfl⟩
  have calm : ∀ c, ¬ Panicked s c := by
    rintro c ⟨p, on, _⟩
    cases (facts.1 c).symm.trans on
  obtain ⟨moves, goes⟩ := kernel_goes_on (System.Reachable.run .initial result) fun _ => counting
  refine ⟨s, result, ((moves 1).resolve_left ?_).resolve_right (calm 1), goes (by decide) calm⟩
  rintro ⟨after, action⟩
  cases facts.2.symm.trans action

end OsProjects.Kernel
