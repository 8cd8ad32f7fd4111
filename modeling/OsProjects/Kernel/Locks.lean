import OsProjects.Kernel.Model

namespace OsProjects.Kernel
open Transition

def Pc.held (p : Slot) : Pc → List Lock
  | .allocRelease i | .allocpidAcquire i | .forkFailRelease i | .forkTicketsAcquire i _ | .forkRelease i _
  | .forkRunnableRelease i _ | .killRelease _ i | .killFoundRelease i | .getpinfoRelease i _ => [.proc i]
  | .allocpidRelease np _ => [.pid, .proc np]
  | .forkTicketsRelease np _ => [.proc p, .proc np]
  | .forkParentRelease _ _ | .reparent _ _ | .exitWakeup _ | .exitLockAcquire _ | .waitScan _ _ _
  | .waitChildAcquire _ _ | .waitReturnRelease _ | .waitKilledAcquire _ | .waitFailRelease => [.wait]
  | .exitRelease | .waitKilledRelease _ _ => [.wait, .proc p]
  | .waitChildRelease _ i | .waitCopyoutRelease i | .waitReapRelease i _ => [.wait, .proc i]
  | .wakeupAcquire _ _ next => next.held p
  | .wakeupRelease _ i next => .proc i :: next.held p
  | .sleepAcquire k => k.lock.toList
  | .sleepRelease k => .proc p :: k.lock.toList
  | .sleepSet _ | .sleepTidy _ | .sched _ | .yieldRelease _ | .forkret
  | .selfRelease _ => [.proc p]
  | _ => []

def SchedPc.held : SchedPc → List Lock
  | .totalRelease i _ | .scanRelease i _ _ | .swtched i | .wakeupRelease _ i _ => [.proc i]
  | _ => []

/-- `wakeup` is called with no lock but `wait_lock`, `yield` and the tests for `killed` are entered without
locks, and `sched` returns to one of its three callers. -/
def Pc.wf (p : Slot) : Pc → Prop
  | .forkTicketsRelease np _ => np ≠ p
  | .wakeupAcquire _ _ next | .wakeupRelease _ _ next => (∀ l ∈ next.held p, l = .wait) ∧ next.wf p
  | .sched resume => match resume with
      | .yieldRelease next => next.held p = [] ∧ next.wf p
      | .sleepTidy _ | .panic => True
      | _ => False
  | .yieldAcquire next | .yieldRelease next | .killedAcquire next | .setkilledAcquire next
  | .selfRelease next => next.held p = [] ∧ next.wf p
  | _ => True

def SchedPc.wf : SchedPc → Prop
  | .wakeupAcquire _ _ next | .wakeupRelease _ _ next => next.held = [] ∧ next.wf
  | _ => True

theorem apply_forNext {α β : Type*} (f : α → β) (i : Slot) (body : Slot → α) (done : α) :
    f (forNext i body done) = forNext i (fun j => f (body j)) (f done) := by
  unfold forNext
  split <;> rfl

@[simp]
theorem forNext_const {α : Type*} (i : Slot) (a : α) : forNext i (fun _ => a) a = a := by
  unfold forNext
  split <;> rfl

theorem forNext_of_forall {i : Slot} {body : Slot → Prop} {done : Prop} (inLoop : ∀ j, body j) (atEnd : done) :
    forNext i body done := by
  unfold forNext
  split
  · exact inLoop _
  · exact atEnd

section
variable (p : Slot)

@[simp]
theorem held_usertrapret (a0 : ℤ) : (usertrapret a0).held p = [] := rfl

@[simp]
theorem wf_usertrapret (a0 : ℤ) : (usertrapret a0).wf p := ⟨rfl, trivial⟩

@[simp]
theorem held_exit (status : ℤ) : (exit p status).held p = [] := by
  unfold exit
  split <;> rfl

@[simp]
theorem wf_exit (status : ℤ) : (exit p status).wf p := by
  unfold exit
  split <;> trivial

theorem held_usertrap (a0 : ℤ) (trap : Trap) : (usertrap p a0 trap).held p = [] := by
  cases trap <;> rfl

theorem wf_usertrap (a0 : ℤ) (trap : Trap) : (usertrap p a0 trap).wf p := by
  cases trap <;> simp [usertrap, Pc.wf, Pc.held, Sleeper.lock]
  case getpinfo addr => split <;> simp [Pc.held, Pc.wf]

end

theorem kernel_locks {t : Slot → Proc} {nextpid : ℤ} {p : Slot} {o : Oracle} {pc : Pc} {e : Effect Next}
    (code : kernel t nextpid p o pc = some e) (wf : pc.wf p)
    (fresh : ∀ a, e.op = .acquire a → a ∉ pc.held p) :
    match e.next with
    | .goto pc' => e.op.Moves (· ∈ pc.held p) (· ∈ pc'.held p) ∧ pc'.wf p
    | .swtch resume => e.op = .keep ∧ pc = .sched resume := by
  have heldNext := apply_forNext (Pc.held p)
  have wfNext := apply_forNext (Pc.wf p)
  cases pc <;> simp only [kernel, Option.some.injEq, reduceCtorEq] at code
  case user a0 =>
    subst code
    exact ⟨by simp [LockOp.Moves, held_usertrap, Pc.held], wf_usertrap p a0 o.trap⟩
  case sched next =>
    subst code
    simp
  case allocRelease | killRelease | getpinfoRelease =>
    subst code
    simp [LockOp.Moves, heldNext, wfNext, Pc.held, Pc.wf]
  case waitChildRelease | waitCopyoutRelease | waitReapRelease | waitKilledAcquire | allocpidAcquire
      | forkRelease | exitRelease | exitLockAcquire =>
      subst code
      simp [LockOp.Moves, heldNext, wfNext, Pc.held, Pc.wf] <;> grind
  case waitKilledRelease addr k =>
    subst code
    cases k <;> simp [LockOp.Moves, Pc.held, Pc.wf, Sleeper.lock] <;> grind
  case forkTicketsAcquire np pid =>
    subst code
    have distinct : np ≠ p := by
      rintro rfl
      exact fresh _ rfl (by simp [Pc.held])
    simp [LockOp.Moves, Pc.held, Pc.wf, distinct]
  case forkTicketsRelease np pid =>
    subst code
    have distinct : np ≠ p := wf
    simp only [LockOp.Moves, Pc.held, Pc.wf]
    grind
  case allocAcquire i | reparent status i =>
    split at code <;> cases code <;> simp [LockOp.Moves, heldNext, wfNext, Pc.held, Pc.wf]
  case exitClose status =>
    split at code <;> cases code <;> simp [LockOp.Moves, Pc.held, Pc.wf, Sleeper.lock]
  case waitScan addr havekids i =>
    split at code <;> cases code <;> simp [LockOp.Moves, heldNext, wfNext, Pc.held, Pc.wf]
    cases havekids <;> simp [Pc.held, Pc.wf]
  case allocpidRelease np pid =>
    split at code <;> cases code <;> simp [LockOp.Moves, Pc.held, Pc.wf] <;> grind
  case waitChildAcquire addr i =>
    repeat' split at code
    all_goals
      cases code
      simp only [LockOp.Moves, Pc.held, Pc.wf]
      grind
  case wakeupAcquire chan i next =>
    obtain ⟨only, wf⟩ := wf
    split at code <;> cases code
    · simp only [LockOp.Moves, heldNext, wfNext, Pc.held, Pc.wf, forNext_const, implies_true, true_and]
      exact forNext_of_forall (fun _ => ⟨only, wf⟩) wf
    · simpa [LockOp.Moves, Pc.held, Pc.wf, wf] using only
  case wakeupRelease chan i next =>
    subst code
    obtain ⟨only, wf⟩ := wf
    simp only [LockOp.Moves, heldNext, wfNext, Pc.held, Pc.wf, forNext_const]
    exact ⟨by grind, forNext_of_forall (fun _ => ⟨only, wf⟩) wf⟩
  case killAcquire pid i => split at code <;> cases code <;> simp [LockOp.Moves, Pc.held, Pc.wf]
  case sleepAcquire k | sleepRelease k | sleepReacquire k =>
    cases k <;> cases code <;> simp [LockOp.Moves, Pc.held, Pc.wf, Sleeper.lock] <;> grind
  case growproc sz => cases sz <;> cases code <;> simp [LockOp.Moves, Pc.held]
  case killedAcquire next =>
    subst code
    obtain ⟨nothing, wf⟩ := wf
    cases (t p).killed <;> simp [LockOp.Moves, Pc.held, Pc.wf, nothing, wf]
  case yieldAcquire | yieldRelease | setkilledAcquire | selfRelease =>
    subst code
    obtain ⟨nothing, wf⟩ := wf
    simp [LockOp.Moves, Pc.held, Pc.wf, nothing, wf]
  all_goals
    subst code
    simp [LockOp.Moves, Pc.held, Pc.wf]

theorem scheduler_locks {t : Slot → Proc} {o : Oracle} {pc pc' : SchedPc} {e : Effect SchedNext}
    (code : scheduler t o pc = e) (next : e.next = .goto pc') (wf : pc.wf) :
    e.op.Moves (· ∈ pc.held) (· ∈ pc'.held) ∧ pc'.wf := by
  have heldNext := apply_forNext SchedPc.held
  have wfNext := apply_forNext SchedPc.wf
  cases pc <;> simp only [scheduler] at code
  case scanAcquire i countedTickets winningTicket =>
    repeat' split at code
    all_goals
      subst code
      cases next
      try simp [LockOp.Moves, SchedPc.held, SchedPc.wf]
  case wakeupAcquire chan i after =>
    subst code
    cases next
    simpa [LockOp.Moves, SchedPc.held, SchedPc.wf] using wf
  case wakeupRelease chan i after =>
    subst code
    cases next
    obtain ⟨nothing, wf⟩ := wf
    simp only [heldNext, wfNext, nothing, SchedPc.wf, wf]
    simp [LockOp.Moves, SchedPc.held]
  case swtched p =>
    subst code
    cases next
  all_goals
    subst code
    cases next
    simp only [heldNext, wfNext]
    simp [LockOp.Moves, SchedPc.held, SchedPc.wf]

end OsProjects.Kernel
