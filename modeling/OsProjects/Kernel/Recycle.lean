import OsProjects.Kernel.Notify

namespace OsProjects.Kernel
open Transition

variable {ncpu : ℕ} {s after : State ncpu} {t : Slot → Proc} {nextpid : ℤ}

def killing (s : State ncpu) : Fin ncpu × Input → Option Slot
  | (c, .run _) => match s.stack c with
      | some p => match s.kthread p with
          | .killAcquire pid i => if (s.proc i).pid = pid then some i else none
          | _ => none
      | none => none
  | (_, .interrupt _) => none

def KillsInUse (s : State ncpu) (move : Fin ncpu × Input) : Prop :=
  ∀ i ∈ killing s move, (s.proc i).state ≠ .unused

instance (s : State ncpu) (move : Fin ncpu × Input) : Decidable (KillsInUse s move) :=
  inferInstanceAs (Decidable (∀ i ∈ killing s move, _))

/-! ## Slots that are not in use -/

def Cleared (s : State ncpu) : Prop := ∀ q, (s.proc q).state = .unused → s.proc q = noProc

theorem userinit_cleared (ncpu : ℕ) : Cleared (userinit ncpu) := by
  intro q unused
  by_cases init : q = initproc
  · simp [userinit, init] at unused
  · simp [userinit, init]

section advance
variable {c : Fin ncpu} {p : Slot} {o : Oracle} {e : Effect Next} {lock : Lock → Option (Fin ncpu)} {pc : Pc}
  (code : kernel s.proc s.nextpid p o (s.kthread p) = some e) (cores : Cores s) (on : s.stack c = some p)
include code cores on

theorem advance_cleared (cleared : Cleared s) (kills : KillsInUse s (c, .run o)) {q : Slot}
    (unused : (e.table s.proc q).state = .unused) : e.table s.proc q = noProc := by
  rcases kernel_slot code q with same | write
  · rw [same] at unused ⊢
    exact cleared q unused
  have live := cores.live_of_stack on
  have used := cores.fork p
  have killed : ∀ pid, s.kthread p = .killAcquire pid q → (s.proc q).pid = pid → (s.proc q).state ≠ .unused :=
    fun pid thread found => kills q (by simp [killing, on, thread, found])
  generalize e.table s.proc q = v, s.kthread p = pc, e.event = event at write unused used killed ⊢
  cases write with
  | allocFail | reap => rfl
  | forkTickets | forkParent => simp [used q rfl] at unused
  | reparent child => simp [cleared q unused, noProc] at child
  | tidy | setkilled | settickets | growproc => exact absurd unused live.1
  | kill found =>
    by_cases sleeps : (s.proc q).state = .sleeping
    · simp [sleeps] at unused
    · exact absurd (by simpa [sleeps] using unused) (killed _ rfl found)
  | alloc | forkRunnable | exit | wakeup | sleep | yield => cases unused

end advance

theorem reached_cleared (reached : (system ncpu).ReachedBy KillsInUse s) : Cleared s := by
  refine reached.invariant Cleared (userinit_cleared ncpu) ?_
  intro before move after previous cleared kills action q unused
  have cores := reachable_cores previous.reachable
  obtain ⟨c, p, o, e, lock, pc, rfl, on, code, _, _, rfl⟩ | quiet := moved_cases cores (step_moved action)
  · exact advance_cleared code cores on cleared kills unused
  rcases quiet.table with ⟨p, _, _, table⟩ | ⟨_, table⟩
  · rw [table] at unused ⊢
    by_cases same : q = p
    · simp [same] at unused
    · rw [Function.update_of_ne same] at unused ⊢
      exact cleared q unused
  · rcases table q with same | ⟨_, woken⟩
    · rw [same] at unused ⊢
      exact cleared q unused
    · simp [woken] at unused

/-! ## The child of a fork in progress -/

def Pc.hidden (pc : Pc) : Option Slot := match pc.base with
  | .forkTicketsAcquire np _ | .forkTicketsRelease np _ | .forkRelease np _ => some np
  | _ => none

def Pc.inherits (pc : Pc) : Option Slot := match pc.base with
  | .forkTicketsRelease np _ | .forkRelease np _ | .forkParentAcquire np _ | .forkParentRelease np _
  | .forkRunnableAcquire np _ => some np
  | _ => none

theorem Pc.hidden.forking {pc : Pc} {q : Slot} (hidden : pc.hidden = some q) : pc.forking = some q := by
  unfold Pc.hidden at hidden
  split at hidden <;> simp_all [Pc.forking]

theorem Pc.inherits.forking {pc : Pc} {q : Slot} (inherits : pc.inherits = some q) : pc.forking = some q := by
  unfold Pc.inherits at inherits
  split at inherits <;> simp_all [Pc.forking]

theorem hidden_base {p q : Slot} {pc : Pc} (hidden : pc.hidden = some q) : .proc q ∈ pc.base.held p := by
  unfold Pc.hidden at hidden
  split at hidden <;> simp_all [Pc.held]

theorem kernel_hidden {p : Slot} {o : Oracle} {pc pc' : Pc}
    {e : Effect Next} (code : kernel t nextpid p o pc = some e) (next : e.next = .goto pc') :
    pc'.hidden = none ∨ pc'.hidden = pc.hidden ∨ pc'.hidden = pc.allocating ∧ e.spawn = pc.allocating := by
  have leads := leads_kernel code next
  unfold Pc.hidden
  generalize pc'.base = base at leads ⊢
  rcases leads with idle | ⟨rfl, _⟩ | flow
  · cases idle <;> exact .inl rfl
  · exact .inr (.inl rfl)
  · cases flow <;> simp [Pc.allocating, *]

theorem kernel_inherits {p : Slot} {o : Oracle} {pc pc' : Pc}
    {e : Effect Next} (code : kernel t nextpid p o pc = some e) (next : e.next = .goto pc') :
    pc'.inherits = none ∨ pc'.inherits = pc.inherits ∨
      ∃ np pid, pc = .forkTicketsAcquire np pid ∧ pc'.inherits = some np := by
  have leads := leads_kernel code next
  unfold Pc.inherits
  generalize pc'.base = base at leads ⊢
  rcases leads with idle | ⟨rfl, _⟩ | flow
  · cases idle <;> exact .inl rfl
  · exact .inr (.inl rfl)
  · cases flow <;> simp

theorem kernel_spawn {p np : Slot} {o : Oracle} {pc : Pc} {e : Effect Next}
    (code : kernel t nextpid p o pc = some e) (spawn : e.spawn = some np) :
    (e.table t np).ticks = (t np).ticks ∧ (e.table t np).killed = (t np).killed := by
  cases pc <;> simp only [kernel, Option.some.injEq, reduceCtorEq] at code
  all_goals
    (repeat' split at code) <;> cases code <;> cases spawn
  simp [Effect.table]

structure Newborn (s : State ncpu) : Prop where
  thread : ∀ p q, (s.kthread p).forking = some q → s.kthread q = .forkret
  ticks : ∀ p q, (s.kthread p).forking = some q → (s.proc q).ticks = 0
  killed : ∀ p q, (s.kthread p).hidden = some q → (s.proc q).killed = false
  tickets : ∀ p q, (s.kthread p).inherits = some q → (s.proc q).tickets = (s.proc p).tickets

theorem userinit_newborn (ncpu : ℕ) : Newborn (userinit ncpu) := by
  have thread : ∀ p, (userinit ncpu).kthread p = .forkret ∨ (userinit ncpu).kthread p = .panic := by
    intro p
    by_cases init : p = initproc <;> simp [userinit, init]
  refine ⟨?_, ?_, ?_, ?_⟩
  all_goals
    intro p q forking
    rcases thread p with idle | idle <;> rw [idle] at forking <;> cases forking

namespace Newborn

variable {p q : Slot}

theorem distinct (newborn : Newborn s) (forking : (s.kthread p).forking = some q) : q ≠ p := by
  rintro rfl
  have thread := newborn.thread q q forking
  rw [thread] at forking
  cases forking

theorem locked (newborn : Newborn s) (cores : Cores s) (hidden : (s.kthread p).hidden = some q) :
    s.lock (.proc q) ≠ none := by
  have member : .proc q ∈ (s.kthread p).held p := held_of_base (cores.wf p) (hidden_base hidden)
  by_cases on : ∃ c, s.stack c = some p
  · obtain ⟨c, on⟩ := on
    simp [(cores.holds c _).mpr (Cores.held_of_stack on ▸ member)]
  · -- a thread that no CPU executes has no lock but its own
    have parked := cores.parked p fun c here => on ⟨c, here⟩
    have own : .proc q ∈ [Lock.proc p] := by
      cases state : (s.proc p).state <;> rw [state] at parked
      case unused | zombie =>
        rw [show s.kthread p = .panic from parked] at hidden
        cases hidden
      case used | sleeping | runnable => exact Pc.resumes.held parked ▸ member
      case running => exact parked.elim
    exact absurd (by simpa using own) (newborn.distinct (Pc.hidden.forking hidden))

end Newborn

theorem forking_runState {p q : Slot} {pc : Pc} (wf : pc.wf p) (forking : pc.forking = some q) :
    pc.runState ≠ .zombie := by
  induction pc with
  | wakeupAcquire chan i next ih | wakeupRelease chan i next ih => exact ih wf.2 forking
  | sched resume =>
    cases resume with
    | yieldRelease | sleepTidy => simp [Pc.runState]
    | panic => cases forking
    | _ => exact wf.elim
  | _ => simp [Pc.runState] <;> cases forking

theorem Cores.forking_alive (cores : Cores s) {p q : Slot} (forking : (s.kthread p).forking = some q) :
    (s.proc p).state ≠ .unused ∧ (s.proc p).state ≠ .zombie := by
  by_cases on : ∃ c, s.stack c = some p
  · obtain ⟨c, on⟩ := on
    exact ⟨(cores.live_of_stack on).1, cores.state c p on ▸ forking_runState (cores.wf p) forking⟩
  · have parked := cores.parked p fun c here => on ⟨c, here⟩
    refine ⟨?_, ?_⟩
    all_goals
      intro state
      rw [state] at parked
      rw [show s.kthread p = .panic from parked] at forking
      cases forking

section advance
variable {c : Fin ncpu} {p : Slot} {o : Oracle} {e : Effect Next} {lock : Lock → Option (Fin ncpu)} {pc : Pc}
  (code : kernel s.proc s.nextpid p o (s.kthread p) = some e) (cores : Cores s) (on : s.stack c = some p)
include code cores on

theorem advance_forked {r q : Slot} (forking : (s.kthread r).forking = some q) :
    (e.table s.proc q).ticks = (s.proc q).ticks ∧
      ((e.table s.proc q).killed = (s.proc q).killed ∨ e.op = .acquire (.proc q)) ∧
      ((e.table s.proc q).tickets = (s.proc q).tickets ∨
        r = p ∧ ∃ pid, s.kthread p = .forkTicketsAcquire q pid) := by
  rcases kernel_slot code q with same | write
  · exact ⟨by rw [same], .inl (by rw [same]), .inl (by rw [same])⟩
  have used := cores.fork r q forking
  have live := (cores.live_of_stack on).2
  have allocating := cores.alloc p q
  have once := cores.forkOnce r p q forking
  have taken : ∀ pid, s.kthread p = .killAcquire pid q → e.op = .acquire (.proc q) := by
    intro pid thread
    rw [thread] at code
    simp only [kernel] at code
    split at code <;> cases code <;> rfl
  generalize e.table s.proc q = v, s.kthread p = pc, e.event = event at write allocating once taken ⊢
  cases write with
  | alloc | allocFail => simp [allocating rfl] at used
  | forkTickets => exact ⟨rfl, .inl rfl, .inr ⟨once rfl, _, rfl⟩⟩
  | forkParent | forkRunnable | reparent => exact ⟨rfl, .inl rfl, .inl rfl⟩
  | wakeup other sleeps => simp [used] at sleeps
  | reap zombie => simp [used] at zombie
  | kill => exact ⟨rfl, .inr (taken _ rfl), .inl rfl⟩
  | exit | sleep | tidy | yield | setkilled | settickets | growproc => exact absurd used live

omit on in
theorem advance_own_tickets (newborn : Newborn s) {r q : Slot} (forking : (s.kthread r).forking = some q) :
    (e.table s.proc r).tickets = (s.proc r).tickets := by
  rcases kernel_slot code r with same | write
  · rw [same]
  obtain ⟨used, alive⟩ := cores.forking_alive forking
  have allocating := cores.alloc p r
  have child := newborn.thread p r
  have own : r = p → (s.kthread p).forking = some q := fun same => same ▸ forking
  generalize e.table s.proc r = v, s.kthread p = pc, e.event = event at write allocating child own ⊢
  cases write with
  | alloc | allocFail => exact absurd (allocating rfl) used
  | forkTickets =>
    rw [child rfl] at forking
    cases forking
  | reap zombie => exact absurd zombie alive
  | settickets => cases own rfl
  | _ => rfl

variable (newborn : Newborn s) (cleared : Cleared s) (next : e.next = .goto pc)
include newborn cleared next

theorem advance_newborn (applied : e.op.apply c s.lock = some lock) : Newborn (s.advance p e lock pc) where
  thread r q forking := by
    have other : q ≠ p := by
      rintro rfl
      rcases advance_forking code next forking with before | ⟨_, spawn⟩
      · exact (cores.live_of_stack on).2 (cores.fork r q before)
      · exact (cores.live_of_stack on).1 (spawn_unused code next cores spawn).1
    rw [advance_kthread other]
    rcases advance_forking code next forking with before | ⟨_, spawn⟩
    · simp [newborn.thread r q before]
    · simp [spawn]
  ticks r q forking := by
    change (e.table s.proc q).ticks = 0
    rcases advance_forking code next forking with before | ⟨_, spawn⟩
    · rw [(advance_forked code cores on before).1, newborn.ticks r q before]
    · rw [(kernel_spawn code spawn).1, cleared q (spawn_unused code next cores spawn).1]
      rfl
  killed r q hidden := by
    change (e.table s.proc q).killed = false
    have kept : (s.kthread r).hidden = some q → (e.table s.proc q).killed = false := by
      intro before
      rcases (advance_forked code cores on (Pc.hidden.forking before)).2.1 with same | taken
      · rw [same, newborn.killed r q before]
      · rw [taken] at applied
        exact absurd (LockOp.free_of_acquire applied) (newborn.locked cores before)
    by_cases self : r = p
    · subst self
      rw [advance_kthread_self] at hidden
      rcases kernel_hidden code next with none | same | ⟨fresh, spawn⟩
      · simp [none] at hidden
      · exact kept (same ▸ hidden)
      · have spawn : e.spawn = some q := spawn.trans (fresh.symm.trans hidden)
        rw [(kernel_spawn code spawn).2, cleared q (spawn_unused code next cores spawn).1]
        rfl
    · exact kept (advance_other rfl self hidden)
  tickets r q inherits := by
    change (e.table s.proc q).tickets = (e.table s.proc r).tickets
    have kept : (s.kthread r).inherits = some q → (e.table s.proc q).tickets = (e.table s.proc r).tickets := by
      intro before
      have forking := Pc.inherits.forking before
      rw [advance_own_tickets code cores newborn forking]
      rcases (advance_forked code cores on forking).2.2 with same | ⟨rfl, pid, thread⟩
      · rw [same, newborn.tickets r q before]
      · simp [thread, Pc.inherits] at before
    by_cases self : r = p
    · subst self
      rw [advance_kthread_self] at inherits
      rcases kernel_inherits code next with none | same | ⟨np, pid, thread, now⟩
      · simp [none] at inherits
      · exact kept (same ▸ inherits)
      · obtain rfl : np = q := by simpa [now] using inherits
        have forking : (s.kthread r).forking = some np := by rw [thread]; rfl
        have other := newborn.distinct forking
        rw [thread] at code
        cases code
        simp [Effect.table, Ne.symm other]
    · exact kept (advance_other rfl self inherits)

end advance

theorem Quiet.newborn (quiet : Quiet s after) (cores : Cores s) (newborn : Newborn s) : Newborn after := by
  have forking := quiet.kept Pc.forking (fun _ => rfl) (fun _ => rfl) (fun _ _ _ => rfl)
  have hidden := quiet.kept Pc.hidden (fun _ => rfl) (fun _ => rfl) (fun _ _ _ => rfl)
  have inherits := quiet.kept Pc.inherits (fun _ => rfl) (fun _ => rfl) (fun _ _ _ => rfl)
  have same : ∀ q, (after.proc q).killed = (s.proc q).killed ∧ (after.proc q).tickets = (s.proc q).tickets := by
    intro q
    obtain ⟨state, ticks, changed, _⟩ := quiet.proc q
    rw [changed]
    exact ⟨rfl, rfl⟩
  refine ⟨?_, ?_, ?_, ?_⟩
  · intro p q now
    have before := newborn.thread p q (forking p ▸ now)
    rcases quiet.kthread q with stays | leaving | ⟨nothing, _⟩
    · rw [stays, before]
    · simp [before] at leaving
    · simp [before, Pc.held] at nothing
  · intro p q now
    have before : (s.kthread p).forking = some q := forking p ▸ now
    have used := cores.fork p q before
    rcases quiet.table with ⟨r, runnable, _, table⟩ | ⟨_, table⟩
    · have other : q ≠ r := by
        rintro rfl
        simp [used] at runnable
      rw [table, Function.update_of_ne other, newborn.ticks p q before]
    · rcases table q with same | ⟨sleeps, _⟩
      · rw [same, newborn.ticks p q before]
      · simp [used] at sleeps
  · intro p q now
    rw [(same q).1]
    exact newborn.killed p q (hidden p ▸ now)
  · intro p q now
    rw [(same q).2, (same p).2]
    exact newborn.tickets p q (inherits p ▸ now)

theorem reached_newborn (reached : (system ncpu).ReachedBy KillsInUse s) : Newborn s := by
  refine reached.invariant Newborn (userinit_newborn ncpu) ?_
  intro before move after previous newborn _ action
  have cores := reachable_cores previous.reachable
  obtain ⟨c, p, o, e, lock, pc, rfl, on, code, applied, next, rfl⟩ | quiet :=
    moved_cases cores (step_moved action)
  · exact advance_newborn code cores on newborn (reached_cleared previous) next applied
  · exact quiet.newborn cores newborn

/-! ## Slots that are used again -/

theorem recycled_slot_clean (ncpu : ℕ) (s : State ncpu) (reached : (system ncpu).ReachedBy KillsInUse s) :
    (∀ q, (s.proc q).state = .unused → s.lock (.proc q) = none →
      (s.proc q).pid = 0 ∧ (s.proc q).tickets = 0 ∧ (s.proc q).ticks = 0 ∧ (s.proc q).killed = false ∧
        (s.proc q).xstate = 0 ∧ (s.proc q).chan = none ∧ (s.proc q).parent = none ∧ (s.proc q).sz = 0) ∧
    (∀ p np pid, s.kthread p = .forkRelease np pid →
      (s.proc np).killed = false ∧ (s.proc np).ticks = 0 ∧ (s.proc np).tickets = (s.proc p).tickets) ∧
    ∀ p np pid, s.kthread p = .forkRunnableAcquire np pid →
      (s.proc np).ticks = 0 ∧ (s.proc np).tickets = (s.proc p).tickets := by
  have newborn := reached_newborn reached
  refine ⟨?_, ?_, ?_⟩
  · intro q unused _
    simp [reached_cleared reached q unused, noProc]
  · intro p np pid thread
    exact ⟨newborn.killed p np (by rw [thread]; rfl), newborn.ticks p np (by rw [thread]; rfl),
      newborn.tickets p np (by rw [thread]; rfl)⟩
  · intro p np pid thread
    exact ⟨newborn.ticks p np (by rw [thread]; rfl), newborn.tickets p np (by rw [thread]; rfl)⟩

/-- `kalloc` fails after `allocproc` has found the slot, and the next `fork` finds it again. -/
def forkAgain : List (Fin 1 × Input) :=
  onCpu .fork 131 ++ List.replicate 8 (0, .run ⟨.fork, false, true, true, true, 0, .done⟩) ++ onCpu .fork 12

set_option maxRecDepth 10000 in
theorem recycled_slot_clean_forkAgain :
    ∃ s, (system 1).runBy KillsInUse (userinit 1) forkAgain = some s ∧
      s.kthread initproc = .forkRelease 1 3 ∧ (s.proc 1).killed = false ∧ (s.proc 1).ticks = 0 ∧
      (s.proc 1).tickets = (s.proc initproc).tickets := by
  have checked : ((system 1).runBy KillsInUse (userinit 1) forkAgain).map (fun s => s.kthread initproc) =
      some (.forkRelease 1 3) := by decide +kernel
  obtain ⟨s, result, thread⟩ := Option.map_eq_some_iff.mp checked
  have reached : (system 1).ReachedBy KillsInUse s := System.ReachedBy.runBy .initial result
  exact ⟨s, result, thread, (recycled_slot_clean 1 s reached).2.1 initproc 1 3 thread⟩

/-- `kill(0)` finds the first slot that is not in use, and the next `fork` makes a process of it. -/
def killZero : List (Fin 1 × Input) := onCpu (.kill 0) 139

set_option maxRecDepth 10000 in
theorem kill_zero_marks_unused_slot :
    (∃ s, (system 1).run (userinit 1) killZero = some s ∧ (s.proc 1).state = .unused ∧
      s.lock (.proc 1) = none ∧ (s.proc 1).killed = true) ∧
    ∃ s, (system 1).run (userinit 1) (killZero ++ onCpu .fork 10) = some s ∧
      s.kthread initproc = .forkRelease 1 2 ∧ (s.proc 1).killed = true := by
  have marked : ((system 1).run (userinit 1) killZero).map
      (fun s => ((s.proc 1).state, s.lock (.proc 1), (s.proc 1).killed)) = some (.unused, none, true) := by
    decide +kernel
  have forked : ((system 1).run (userinit 1) (killZero ++ onCpu .fork 10)).map
      (fun s => (s.kthread initproc, (s.proc 1).killed)) = some (.forkRelease 1 2, true) := by
    decide +kernel
  obtain ⟨s, run, facts⟩ := Option.map_eq_some_iff.mp marked
  obtain ⟨s', run', facts'⟩ := Option.map_eq_some_iff.mp forked
  simp only [Prod.mk.injEq] at facts facts'
  exact ⟨⟨s, run, facts⟩, s', run', facts'⟩

end OsProjects.Kernel
