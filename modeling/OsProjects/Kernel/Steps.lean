import OsProjects.Kernel.Model

namespace OsProjects.Kernel
open Transition

variable {ncpu : ℕ} {t : Slot → Proc} {p : Slot} {o : Oracle}

def State.advance (s : State ncpu) (p : Slot) (e : Effect Next) (lock : Lock → Option (Fin ncpu)) (pc : Pc) :
    State ncpu :=
  { s.commit e lock with kthread := Function.update (s.commit e lock).kthread p pc }

inductive Moved (s : State ncpu) : Fin ncpu × Input → State ncpu → Prop
  | advance {c : Fin ncpu} {p : Slot} {o : Oracle} {e : Effect Next} {lock : Lock → Option (Fin ncpu)} {pc : Pc}
      (on : s.stack c = some p) (code : kernel s.proc s.nextpid p o (s.kthread p) = some e)
      (applied : e.op.apply c s.lock = some lock) (next : e.next = .goto pc) :
      Moved s (c, .run o) (s.advance p e lock pc)
  | swtch {c : Fin ncpu} {o : Oracle} {p : Slot} {resume : Pc} (on : s.stack c = some p)
      (leaving : s.kthread p = .sched resume) (may : maySwtch s c p) :
      Moved s (c, .run o) { s with
        kthread := Function.update s.kthread p resume
        stack := Function.update s.stack c none }
  | schedule {c : Fin ncpu} {o : Oracle} {e : Effect SchedNext} {lock : Lock → Option (Fin ncpu)} {pc : SchedPc}
      (off : s.stack c = none) (code : scheduler s.proc o (s.scheduler c) = e)
      (applied : e.op.apply c s.lock = some lock) (next : e.next = .goto pc) :
      Moved s (c, .run o) { s.commit e lock with scheduler := Function.update s.scheduler c pc }
  | dispatch {c : Fin ncpu} {o : Oracle} {p : Slot} {countedTickets winningTicket : ℤ} (off : s.stack c = none)
      (scanning : s.scheduler c = .scanAcquire p countedTickets winningTicket)
      (runnable : (s.proc p).state = .runnable)
      (won : winningTicket ≤ int (countedTickets + (s.proc p).tickets)) (free : s.lock (.proc p) = none) :
      Moved s (c, .run o) { s with
        proc := Function.update s.proc p
          { s.proc p with ticks := int ((s.proc p).ticks + 1), state := .running }
        lock := Function.update s.lock (.proc p) (some c)
        scheduler := Function.update s.scheduler c (.swtched p)
        cpuProc := Function.update s.cpuProc c (some p)
        stack := Function.update s.stack c (some p)
        log := s.log ++ [.dispatched p (s.proc p).pid] }
  | idle {c : Fin ncpu} {o : Oracle} {p : Slot} (off : s.stack c = none) (back : s.scheduler c = .swtched p)
      (holds : s.lock (.proc p) = some c) :
      Moved s (c, .run o) { s with
        lock := Function.update s.lock (.proc p) none
        scheduler := Function.update s.scheduler c (.totalAcquire 0 0)
        cpuProc := Function.update s.cpuProc c none }
  | trap {c : Fin ncpu} {p : Slot} {i : Interrupt} (on : s.stack c = some p) (enabled : noff s.lock c = 0) :
      Moved s (c, .interrupt i) { s with
        kthread := Function.update s.kthread p (kerneltrap (s.proc p) (s.kthread p) i) }
  | schedulerTrap {c : Fin ncpu} {i : Interrupt} (off : s.stack c = none) (enabled : noff s.lock c = 0) :
      Moved s (c, .interrupt i) { s with
        scheduler := Function.update s.scheduler c (schedulerTrap (s.scheduler c) i) }

variable {s after : State ncpu}

theorem kernel_swtch {nextpid : ℤ} {pc resume : Pc} {e : Effect Next}
    (code : kernel t nextpid p o pc = some e) (next : e.next = .swtch resume) :
    pc = .sched resume ∧ e = { next := .swtch resume } := by
  cases pc <;> simp only [kernel, Option.some.injEq, reduceCtorEq] at code
  case sched =>
    subst code
    cases next
    exact ⟨rfl, rfl⟩
  case waitChildAcquire | wakeupAcquire | exitClose | reparent | waitScan | killAcquire | allocpidRelease =>
    repeat' split at code
    all_goals
      cases code
      cases next
  case sleepReacquire k | growproc k => cases k <;> cases code <;> cases next
  all_goals
    subst code
    cases next

theorem kernelStep_moved {c : Fin ncpu}
    (on : s.stack c = some p) (action : kernelStep s c p o = some after) : Moved s (c, .run o) after := by
  obtain ⟨e, code, rest⟩ := Option.bind_eq_some_iff.mp action
  obtain ⟨lock, applied, result⟩ := Option.bind_eq_some_iff.mp rest
  cases next : e.next with
  | goto pc =>
    simp only [next, Option.some.injEq] at result
    exact result ▸ .advance on code applied next
  | swtch resume =>
    simp only [next, Option.ite_none_right_eq_some, Option.some.injEq] at result
    obtain ⟨may, rfl⟩ := result
    obtain ⟨leaving, rfl⟩ := kernel_swtch code next
    cases applied
    simpa [State.commit, Effect.table] using Moved.swtch (o := o) on leaving may

theorem scheduler_dispatch {pc : SchedPc} (next : (scheduler t o pc).next = .dispatch p) :
    ∃ countedTickets winningTicket, pc = .scanAcquire p countedTickets winningTicket ∧
      (t p).state = .runnable ∧ winningTicket ≤ int (countedTickets + (t p).tickets) ∧
      scheduler t o pc =
        { op := .acquire (.proc p)
          write := some (p, { t p with ticks := int ((t p).ticks + 1), state := .running })
          event := some (.dispatched p (t p).pid)
          next := .dispatch p } := by
  cases pc with
  | scanAcquire i countedTickets winningTicket =>
    simp only [scheduler] at next ⊢
    split at next
    · split at next
      · cases next
        exact ⟨countedTickets, winningTicket, rfl, ‹_›, ‹_›, by simp_all⟩
      · cases next
    · cases next
  | _ => simp [scheduler] at next

theorem scheduler_idle {pc pc' : SchedPc} (next : (scheduler t o pc).next = .idle pc') :
    ∃ p, pc = .swtched p ∧
      scheduler t o pc = { op := .release (.proc p), next := .idle (.totalAcquire 0 0) } ∧
      pc' = .totalAcquire 0 0 := by
  cases pc with
  | swtched p =>
    cases next
    exact ⟨p, rfl, rfl, rfl⟩
  | scanAcquire i countedTickets winningTicket =>
    simp only [scheduler] at next
    split at next
    · split at next <;> cases next
    · cases next
  | _ => simp [scheduler] at next

theorem schedulerStep_moved {c : Fin ncpu} (off : s.stack c = none)
    (action : schedulerStep s c o = some after) : Moved s (c, .run o) after := by
  obtain ⟨lock, applied, result⟩ := Option.map_eq_some_iff.mp action
  cases next : (scheduler s.proc o (s.scheduler c)).next with
  | goto pc =>
    simp only [next] at result
    exact result ▸ .schedule off rfl applied next
  | dispatch p =>
    obtain ⟨countedTickets, winningTicket, scanning, runnable, won, code⟩ := scheduler_dispatch next
    rw [code] at applied
    simp only [LockOp.apply, Option.ite_none_right_eq_some, Option.some.injEq] at applied
    obtain ⟨free, rfl⟩ := applied
    simp only [code] at result
    subst result
    exact .dispatch off scanning runnable won free
  | idle pc =>
    obtain ⟨p, back, code, rfl⟩ := scheduler_idle next
    rw [code] at applied
    simp only [LockOp.apply, Option.ite_none_right_eq_some, Option.some.injEq] at applied
    obtain ⟨holds, rfl⟩ := applied
    simp only [code] at result
    subst result
    simpa [State.commit, Effect.table] using Moved.idle (o := o) off back holds

theorem step_moved {move : Fin ncpu × Input} (action : step s move = some after) : Moved s move after := by
  obtain ⟨c, input⟩ := move
  cases input with
  | run o =>
    cases stack : s.stack c with
    | some p =>
      simp only [step, stack] at action
      exact kernelStep_moved stack action
    | none =>
      simp only [step, stack] at action
      exact schedulerStep_moved stack action
  | interrupt i =>
    simp only [step, interruptStep] at action
    split at action
    · cases action
    · rename_i enabled
      have enabled : noff s.lock c = 0 := by simpa using enabled
      cases stack : s.stack c with
      | some p =>
        simp only [stack, Option.some.injEq] at action
        exact action ▸ .trap stack enabled
      | none =>
        simp only [stack, Option.some.injEq] at action
        exact action ▸ .schedulerTrap stack enabled

end OsProjects.Kernel
