import OsProjects.Kernel.Flow

namespace OsProjects.Kernel
open Transition

variable {ncpu : ℕ} {nextpid : ℤ} {o : Oracle} {p : Slot}

def Pc.runState : Pc → ProcState
  | .sched resume => match resume with
      | .yieldRelease _ => .runnable
      | .sleepTidy _ => .sleeping
      | _ => .zombie
  | .exitRelease => .zombie
  | .wakeupAcquire _ _ next | .wakeupRelease _ _ next => next.runState
  | _ => .running

def Pc.resumes : Pc → Prop
  | .yieldRelease _ | .sleepTidy _ | .forkret => True
  | _ => False

def Pc.parked (pc : Pc) : ProcState → Prop
  | .unused | .zombie => pc = .panic
  | .used | .runnable | .sleeping => pc.resumes
  | .running => False

def Pc.allocating : Pc → Option Slot
  | .allocpidAcquire np | .allocpidRelease np _ => some np
  | .wakeupAcquire _ _ next | .wakeupRelease _ _ next => next.allocating
  | _ => none

def Pc.forking (pc : Pc) : Option Slot := match pc.base with
  | .forkTicketsAcquire np _ | .forkTicketsRelease np _ | .forkRelease np _ | .forkParentAcquire np _
  | .forkParentRelease np _ | .forkRunnableAcquire np _ => some np
  | _ => none

def SchedPc.dispatched : SchedPc → Option Slot
  | .swtched p => some p
  | _ => none

inductive StateChange (t : Slot → Proc) (p : Slot) (pc pc' : Pc) (e : Effect Next) : Prop
  | none (same : ∀ q, (e.table t q).state = (t q).state) (spawn : e.spawn = none)
      (state : pc'.runState = pc.runState)
  | self (same : ∀ q ≠ p, (e.table t q).state = (t q).state) (spawn : e.spawn = none)
      (state : (e.table t p).state = pc'.runState)
  | alloc (np : Slot) (allocating : pc.allocating = some np) (used : (e.table t np).state = .used)
      (same : ∀ q ≠ np, (e.table t q).state = (t q).state) (spawn : e.spawn = some np)
      (state : pc'.runState = pc.runState) (finished : pc'.allocating = none)
  | start (np : Slot) (forking : pc.forking = some np) (runnable : (e.table t np).state = .runnable)
      (same : ∀ q ≠ np, (e.table t q).state = (t q).state) (spawn : e.spawn = none)
      (state : pc'.runState = pc.runState) (finished : pc'.forking = none)
  | wake (q : Slot) (sleeping : (t q).state = .sleeping) (runnable : (e.table t q).state = .runnable)
      (same : ∀ r ≠ q, (e.table t r).state = (t r).state) (spawn : e.spawn = none)
      (state : pc'.runState = pc.runState) (locked : e.op = .acquire (.proc q))
  | reap (q : Slot) (zombie : (t q).state = .zombie) (unused : (e.table t q).state = .unused)
      (same : ∀ r ≠ q, (e.table t r).state = (t r).state) (spawn : e.spawn = none)
      (state : pc'.runState = pc.runState) (locked : e.op = .acquire (.proc q))

section
variable {Next : Type} {e : Effect Next} {t : Slot → Proc} {v : Proc}

theorem Effect.table_self {q : Slot} (write : e.write = some (q, v)) : e.table t q = v := by
  simp [Effect.table, write]

theorem Effect.table_ne {q r : Slot} (write : e.write = some (q, v)) (other : r ≠ q) : e.table t r = t r := by
  simp [Effect.table, write, other]

theorem Effect.state_kept {q : Slot} (write : e.write = some (q, v)) (kept : v.state = (t q).state)
    (r : Slot) : (e.table t r).state = (t r).state := by
  by_cases same : r = q
  · rw [same, Effect.table_self write, kept]
  · rw [Effect.table_ne write same]

end

theorem runState_usertrap (p : Slot) (a0 : ℤ) (trap : Trap) : (usertrap p a0 trap).runState = .running := by
  cases trap <;> rfl

variable {pc pc' : Pc}

theorem runState_of_held_nil (nothing : pc.held p = []) : pc.runState = .running := by
  induction pc with
  | wakeupAcquire chan i next ih => exact ih nothing
  | _ => simp_all [Pc.held, Pc.runState]

@[simp]
theorem runState_usertrapret (a0 : ℤ) : (usertrapret a0).runState = .running := rfl

theorem kernel_states {t : Slot → Proc} {e : Effect Next} (code : kernel t nextpid p o pc = some e) (wf : pc.wf p)
    (unused : ∀ np, pc.allocating = some np → (t np).state = .unused) :
    match e.next with
    | .goto pc' => StateChange t p pc pc' e
    | .swtch _ => e.write = none ∧ e.spawn = none := by
  have stateNext := apply_forNext Pc.runState
  cases pc <;> simp only [kernel, Option.some.injEq, reduceCtorEq] at code
  case user a0 =>
    subst code
    exact .none (fun _ => rfl) rfl (runState_usertrap p a0 o.trap)
  case sched next =>
    subst code
    exact ⟨rfl, rfl⟩
  case allocRelease | killRelease | getpinfoRelease | waitChildRelease | wakeupRelease =>
    subst code
    exact .none (fun _ => rfl) rfl (by simp [stateNext, Pc.runState])
  case allocAcquire i =>
    subst code
    exact .none (fun _ => rfl) rfl (by split <;> rfl)
  case allocpidRelease np pid =>
    split at code <;> cases code
    · exact .alloc np rfl (by rw [Effect.table_self rfl]) (fun q other => by rw [Effect.table_ne rfl other])
        rfl rfl rfl
    · exact .none (Effect.state_kept rfl (unused np rfl).symm) rfl rfl
  case forkRunnableAcquire np pid =>
    subst code
    exact .start np rfl (by rw [Effect.table_self rfl]) (fun q other => by rw [Effect.table_ne rfl other])
      rfl rfl rfl
  case forkTicketsAcquire | forkParentAcquire | sleepTidy | setkilledAcquire | setticketsAcquire =>
    subst code
    exact .none (Effect.state_kept rfl rfl) rfl rfl
  case exitLockAcquire | sleepSet | yieldAcquire =>
    subst code
    exact .self (fun q other => by rw [Effect.table_ne rfl other]) rfl (by rw [Effect.table_self rfl]; rfl)
  case exitClose status =>
    split at code <;> cases code <;> exact .none (fun _ => rfl) rfl rfl
  case reparent status i =>
    split at code <;> cases code
    · exact .none (Effect.state_kept rfl rfl) rfl (by simp [stateNext, Pc.runState])
    · exact .none (fun _ => rfl) rfl (by simp [stateNext, Pc.runState])
  case wakeupAcquire chan i next =>
    split at code <;> cases code
    · exact .none (fun _ => rfl) rfl (by simp [stateNext, Pc.runState])
    · by_cases sleeps : (t i).state = .sleeping ∧ (t i).chan = chan
      · have write : wakeupSlot chan i (t i) = some (i, { t i with state := .runnable }) := if_pos sleeps
        exact .wake i sleeps.1 (by rw [Effect.table_self write])
          (fun q other => by rw [Effect.table_ne write other]) rfl rfl rfl
      · exact .none (fun _ => by simp [Effect.table, wakeupSlot, sleeps]) rfl rfl
  case waitScan addr havekids i =>
    split at code <;> cases code
    · exact .none (fun _ => rfl) rfl rfl
    · exact .none (fun _ => rfl) rfl (by cases havekids <;> simp [stateNext, Pc.runState])
  case waitChildAcquire addr i =>
    by_cases zombie : (t i).state = .zombie
    · rw [if_pos zombie] at code
      split at code <;> cases code
      · exact .none (fun _ => rfl) rfl rfl
      · exact .reap i zombie (by rw [Effect.table_self rfl]; rfl)
          (fun q other => by rw [Effect.table_ne rfl other]) rfl rfl rfl
    · rw [if_neg zombie] at code
      cases code
      exact .none (fun _ => rfl) rfl rfl
  case waitKilledRelease addr k =>
    subst code
    exact .none (fun _ => rfl) rfl (by cases k <;> rfl)
  case killAcquire pid i =>
    split at code <;> cases code
    · by_cases sleeps : (t i).state = .sleeping
      · exact .wake i sleeps (by rw [Effect.table_self rfl]; simp [sleeps])
          (fun q other => by rw [Effect.table_ne rfl other]) rfl rfl rfl
      · exact .none (Effect.state_kept rfl (by simp [sleeps])) rfl rfl
    · exact .none (fun _ => rfl) rfl rfl
  case sleepReacquire k =>
    cases k <;> cases code <;> exact .none (fun _ => rfl) rfl rfl
  case growproc sz =>
    cases sz <;> cases code
    · exact .none (fun _ => rfl) rfl rfl
    · exact .none (Effect.state_kept rfl rfl) rfl rfl
  case yieldRelease | selfRelease =>
    subst code
    exact .none (fun _ => rfl) rfl (runState_of_held_nil wf.1)
  all_goals
    subst code
    exact .none (fun _ => rfl) rfl rfl

theorem held_of_allocating {q : Slot} (allocating : pc.allocating = some q) : .proc q ∈ pc.held p := by
  induction pc with
  | wakeupAcquire chan i next ih => exact ih allocating
  | wakeupRelease chan i next ih => exact List.mem_cons_of_mem _ (ih allocating)
  | _ => simp_all [Pc.allocating, Pc.held]

theorem allocating_of_held_nil (nothing : pc.held p = []) : pc.allocating = none := by
  cases allocating : pc.allocating with
  | none => rfl
  | some q =>
    have := held_of_allocating (p := p) allocating
    simp [nothing] at this

theorem kernel_allocating {t : Slot → Proc}
    {e : Effect Next} (code : kernel t nextpid p o pc = some e) (next : e.next = .goto pc') (wf : pc.wf p) :
    pc'.allocating = none ∨ pc'.allocating = pc.allocating ∨
      ∃ q, pc'.allocating = some q ∧ (t q).state = .unused := by
  have allocatingNext := apply_forNext Pc.allocating
  cases pc <;> simp only [kernel, Option.some.injEq, reduceCtorEq] at code
  case user a0 =>
    subst code
    cases next
    exact .inl (allocating_of_held_nil (held_usertrap p a0 o.trap))
  case allocAcquire i =>
    subst code
    cases next
    by_cases found : (t i).state = .unused <;> simp [found, Pc.allocating]
  case killedAcquire after =>
    subst code
    cases next
    exact .inl rfl
  case yieldRelease | selfRelease =>
    subst code
    cases next
    exact .inl (allocating_of_held_nil wf.1)
  case allocpidRelease | exitClose | reparent | waitScan | killAcquire | wakeupAcquire =>
    split at code <;> cases code <;> cases next <;>
      simp [allocatingNext, Pc.allocating, apply_ite Pc.allocating]
  case waitChildAcquire =>
    repeat' split at code
    all_goals
      cases code
      cases next
      simp [Pc.allocating]
  case sleepReacquire k | growproc k =>
    cases k <;> cases code <;> cases next <;> simp [usertrapret, Pc.allocating]
  case sched =>
    subst code
    cases next
  all_goals
    subst code
    cases next
    simp [allocatingNext, usertrapret, Pc.allocating, apply_ite Pc.allocating]

theorem kernel_forking {t : Slot → Proc}
    {e : Effect Next} (code : kernel t nextpid p o pc = some e) (next : e.next = .goto pc') :
    pc'.forking = none ∨ pc'.forking = pc.forking ∨
      pc'.forking = pc.allocating ∧ e.spawn = pc.allocating := by
  have leads := leads_kernel code next
  unfold Pc.forking
  generalize pc'.base = base at leads ⊢
  rcases leads with idle | ⟨rfl, _⟩ | flow
  · cases idle <;> exact .inl rfl
  · exact .inr (.inl rfl)
  · cases flow <;> simp [Pc.allocating, *]

theorem StateChange.kept {t : Slot → Proc} {e : Effect Next}
    (change : StateChange t p pc pc' e) {q : Slot} (other : q ≠ p) (spawned : e.spawn ≠ some q)
    (forking : pc.forking ≠ some q)
    (locked : e.op = .acquire (.proc q) → (t q).state ≠ .sleeping ∧ (t q).state ≠ .zombie) :
    (e.table t q).state = (t q).state := by
  cases change with
  | none same => exact same q
  | self same => exact same q other
  | alloc np _ _ same spawn => exact same q fun equal => spawned (equal ▸ spawn)
  | start np own _ same => exact same q fun equal => forking (equal ▸ own)
  | wake r sleeping _ same _ _ taken =>
    refine same q fun equal => ?_
    subst equal
    exact (locked taken).1 sleeping
  | reap r zombie _ same _ _ taken =>
    refine same q fun equal => ?_
    subst equal
    exact (locked taken).2 zombie

theorem dispatched_of_held_nil {pc : SchedPc} (nothing : pc.held = []) : pc.dispatched = none := by
  cases pc <;> simp_all [SchedPc.held, SchedPc.dispatched]

theorem scheduler_states {t : Slot → Proc} {pc pc' : SchedPc} {e : Effect SchedNext}
    (code : scheduler t o pc = e) (next : e.next = .goto pc') (wf : pc.wf) :
    e.spawn = none ∧ pc.dispatched = none ∧ pc'.dispatched = none ∧
      ∀ q, (e.table t q).state = (t q).state ∨
        (t q).state = .sleeping ∧ (e.table t q).state = .runnable ∧ e.op = .acquire (.proc q) := by
  have dispatchedNext := apply_forNext SchedPc.dispatched
  cases pc <;> simp only [scheduler] at code
  case scanAcquire i countedTickets winningTicket =>
    repeat' split at code
    all_goals
      subst code
      cases next
      try exact ⟨rfl, rfl, rfl, fun _ => .inl rfl⟩
  case wakeupAcquire chan i after =>
    subst code
    cases next
    refine ⟨rfl, rfl, rfl, fun q => ?_⟩
    by_cases sleeps : (t i).state = .sleeping ∧ (t i).chan = chan
    · have write : wakeupSlot chan i (t i) = some (i, { t i with state := .runnable }) := if_pos sleeps
      by_cases same : q = i
      · subst same
        exact .inr ⟨sleeps.1, by rw [Effect.table_self write], rfl⟩
      · exact .inl (by rw [Effect.table_ne write same])
    · exact .inl (by simp [Effect.table, wakeupSlot, sleeps])
  case wakeupRelease chan i after =>
    subst code
    cases next
    refine ⟨rfl, rfl, ?_, fun _ => .inl rfl⟩
    simp only [dispatchedNext, dispatched_of_held_nil wf.1]
    simp [SchedPc.dispatched]
  case swtched p =>
    subst code
    cases next
  case totalAcquire i total =>
    subst code
    cases next
    exact ⟨rfl, rfl, rfl, fun _ => .inl rfl⟩
  case totalRelease | scanRelease =>
    subst code
    cases next
    refine ⟨rfl, rfl, ?_, fun _ => .inl rfl⟩
    simp only [dispatchedNext]
    simp [SchedPc.dispatched]

/-! ## Threads, processors and locks -/

def State.held (s : State ncpu) (c : Fin ncpu) : List Lock :=
  match s.stack c with
  | some p => (s.kthread p).held p
  | none => (s.scheduler c).held

/-- Which thread runs where, with which locks, and what the states of the slots say about it. -/
structure Cores (s : State ncpu) : Prop where
  locks : Accounted (fun c l => l ∈ s.held c) s.lock
  wf : ∀ p, (s.kthread p).wf p
  schedWf : ∀ c, (s.scheduler c).wf
  cpuProc : ∀ c, s.cpuProc c = (s.scheduler c).dispatched
  running : ∀ c p, s.stack c = some p → (s.scheduler c).dispatched = some p
  single : ∀ c c' p, (s.scheduler c).dispatched = some p → (s.scheduler c').dispatched = some p → c = c'
  state : ∀ c p, s.stack c = some p → (s.proc p).state = (s.kthread p).runState
  parked : ∀ p, (∀ c, s.stack c ≠ some p) → (s.kthread p).parked (s.proc p).state
  alloc : ∀ p q, (s.kthread p).allocating = some q → (s.proc q).state = .unused
  fork : ∀ p q, (s.kthread p).forking = some q → (s.proc q).state = .used
  forkOnce : ∀ p p' q, (s.kthread p).forking = some q → (s.kthread p').forking = some q → p = p'

theorem held_of_leaving (leaving : pc.runState ≠ .running) : .proc p ∈ pc.held p := by
  induction pc with
  | wakeupAcquire chan i next ih => exact ih leaving
  | wakeupRelease chan i next ih => exact List.mem_cons_of_mem _ (ih leaving)
  | _ => simp_all [Pc.runState, Pc.held]

theorem runState_live (pc : Pc) : pc.runState ≠ .unused ∧ pc.runState ≠ .used := by
  induction pc with
  | wakeupAcquire chan i next ih => exact ih
  | wakeupRelease chan i next ih => exact ih
  | sched resume => cases resume <;> simp [Pc.runState]
  | _ => simp [Pc.runState]

theorem Pc.resumes.allocating (resumes : pc.resumes) : pc.allocating = none := by
  cases pc <;> first | rfl | exact resumes.elim

theorem Pc.resumes.runState (resumes : pc.resumes) : pc.runState = .running := by
  cases pc <;> first | rfl | exact resumes.elim

theorem Pc.resumes.held (resumes : pc.resumes) : pc.held p = [.proc p] := by
  cases pc <;> first | rfl | exact resumes.elim

theorem Pc.parked.allocating {state : ProcState} (parked : pc.parked state) : pc.allocating = none := by
  cases state
  case unused | zombie =>
    rw [show pc = .panic from parked]
    rfl
  case used | sleeping | runnable => exact Pc.resumes.allocating parked
  case running => exact parked.elim

namespace Cores

variable {s : State ncpu} {c c' : Fin ncpu} {q : Slot}

theorem holds (cores : Cores s) (c : Fin ncpu) (l : Lock) : s.lock l = some c ↔ l ∈ s.held c := cores.locks l c

theorem held_of_stack (on : s.stack c = some p) : s.held c = (s.kthread p).held p := by
  simp [State.held, on]

theorem stack_unique (cores : Cores s) (here : s.stack c = some p) (there : s.stack c' = some p) : c = c' :=
  cores.single c c' p (cores.running c p here) (cores.running c' p there)

theorem fresh (cores : Cores s) {l : Lock} (free : s.lock l = none) : l ∉ s.held c := by
  intro member
  have := (cores.holds c l).mpr member
  simp [free] at this

theorem running_of_stack (cores : Cores s) (on : s.stack c = some p) (notHeld : s.lock (.proc p) ≠ some c) :
    (s.proc p).state = .running := by
  by_contra leaving
  rw [cores.state c p on] at leaving
  exact notHeld ((cores.holds c _).mpr (held_of_stack on ▸ held_of_leaving leaving))

theorem live_of_stack (cores : Cores s) (on : s.stack c = some p) :
    (s.proc p).state ≠ .unused ∧ (s.proc p).state ≠ .used := by
  rw [cores.state c p on]
  exact runState_live _

theorem allocating_on_stack (cores : Cores s) (allocating : (s.kthread p).allocating = some q) :
    ∃ c, s.stack c = some p ∧ s.lock (.proc q) = some c := by
  by_cases on : ∃ c, s.stack c = some p
  · obtain ⟨c, on⟩ := on
    exact ⟨c, on, (cores.holds c _).mpr (held_of_stack on ▸ held_of_allocating allocating)⟩
  · simp [(cores.parked p fun c here => on ⟨c, here⟩).allocating] at allocating

theorem allocating_unique (cores : Cores s) (here : (s.kthread p).allocating = some q) {p' : Slot}
    (there : (s.kthread p').allocating = some q) : p = p' := by
  obtain ⟨c, on, held⟩ := cores.allocating_on_stack here
  obtain ⟨c', on', held'⟩ := cores.allocating_on_stack there
  obtain rfl : c = c' := by simpa [held] using held'
  simpa [on] using on'

end Cores

end OsProjects.Kernel
