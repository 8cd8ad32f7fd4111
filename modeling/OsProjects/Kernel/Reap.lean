import OsProjects.Kernel.Notify
import OsProjects.Transition.Log

namespace OsProjects.Kernel
open Transition

variable {ncpu : ℕ} {s after : State ncpu} {t : Slot → Proc} {nextpid pid status : ℤ} {q w : Slot}

def Event.child : Event → Option Slot
  | .exited p _ _ => some p
  | .reaped _ q _ _ => some q
  | _ => none

/-- The last process of the slot that exited has this pid and status and has not been returned by `wait`. -/
def Unreaped (q : Slot) (pid status : ℤ) (log : List Event) : Prop :=
  LastIs (fun event => event.child = some q) (.exited q pid status) log

def ReapsExited (log : List Event) (event : Event) : Prop :=
  ∀ w q pid status, event = .reaped w q pid status → Unreaped q pid status log

/-! ## The child wait has found -/

def Pc.reaping (pc : Pc) : Option Slot := match pc.base with
  | .waitChildAcquire _ i => some i
  | _ => none

theorem kernel_reaping {p : Slot} {o : Oracle} {pc pc' : Pc}
    {e : Effect Next} (code : kernel t nextpid p o pc = some e) (next : e.next = .goto pc') :
    pc'.reaping = none ∨ (pc'.reaping = pc.reaping ∧ ∀ addr i, pc ≠ .waitChildAcquire addr i) ∨
      ∃ i, pc'.reaping = some i ∧ e.table t = t ∧ (t i).parent = some p := by
  have leads := leads_kernel code next
  unfold Pc.reaping
  generalize pc'.base = base at leads ⊢
  rcases leads with idle | ⟨rfl, wraps⟩ | flow
  · cases idle <;> exact .inl rfl
  · exact .inr (.inl ⟨rfl, fun addr i same => by simp [same, Pc.wraps] at wraps⟩)
  · cases flow <;> simp [*]

theorem reaping_base {p : Slot} {pc : Pc} {i : Slot} (reaping : pc.reaping = some i) : .wait ∈ pc.base.held p := by
  unfold Pc.reaping at reaping
  split at reaping <;> simp_all [Pc.held]

def Pc.returns (pc : Pc) : Option ℤ := match pc.base with
  | .waitReapRelease _ pid | .waitReturnRelease pid => some pid
  | _ => none

theorem kernel_returns {p : Slot} {o : Oracle} {pc pc' : Pc}
    {e : Effect Next} (code : kernel t nextpid p o pc = some e) (next : e.next = .goto pc') :
    pc'.returns = none ∨ pc'.returns = pc.returns ∨
      ∃ q pid status, pc'.returns = some pid ∧ e.event = some (.reaped p q pid status) := by
  have leads := leads_kernel code next
  unfold Pc.returns
  generalize pc'.base = base at leads ⊢
  rcases leads with idle | ⟨rfl, _⟩ | flow
  · cases idle <;> exact .inl rfl
  · exact .inr (.inl rfl)
  · cases flow <;> simp [*]

def Pc.inWait : Pc → Bool
  | .waitAcquire _ | .waitScan _ _ _ | .waitChildAcquire _ _ | .waitChildRelease _ _ | .waitCopyoutRelease _
  | .waitReapRelease _ _ | .waitReturnRelease _ | .waitKilledAcquire _ | .waitKilledRelease _ _
  | .waitFailRelease => true
  | _ => false

theorem kernel_inWait {p : Slot} {o : Oracle} {pc : Pc} {e : Effect Next}
    (code : kernel t nextpid p o pc = some e) (inWait : pc.inWait) :
    e.table t = t ∧ e.event = none ∨ ∃ q pid status, e.event = some (.reaped p q pid status) := by
  obtain silent | ⟨r, v, _, write⟩ := kernel_write code
  · exact .inl silent
  · generalize e.event = event at write
    cases write with
    | reap => exact .inr ⟨_, _, _, rfl⟩
    | _ => cases inWait

/-! ## Exits and returns in the log -/

structure Accounted (s : State ncpu) : Prop where
  child : ∀ w i, (s.kthread w).reaping = some i → (s.proc i).parent = some w
  zombie : ∀ q, (s.proc q).state = .zombie → Unreaped q (s.proc q).pid (s.proc q).xstate s.log
  reaped : AtEach ReapsExited s.log

theorem Write.child {p : Slot} {pc : Pc} {r : Slot} {v : Proc} {event : Event}
    (write : Write t p pc q v (some event)) (child : event.child = some r) : r = q := by
  cases write <;> simp_all [Event.child]

section advance
variable {c : Fin ncpu} {p : Slot} {o : Oracle} {e : Effect Next} {lock : Lock → Option (Fin ncpu)} {pc : Pc}
  (code : kernel s.proc s.nextpid p o (s.kthread p) = some e)
include code

theorem advance_adoption {r : Slot} (fresh : (s.proc q).state = .unused → (s.proc q).parent = none)
    (cores : Cores s) (child : (s.proc q).parent = some r) :
    (e.table s.proc q).parent = some r ∨ (∃ pid, s.kthread p = .forkParentAcquire q pid) ∨
      (∃ status, s.kthread p = .reparent status q) ∨ ∃ addr, s.kthread p = .waitChildAcquire addr q := by
  rcases kernel_slot code q with same | write
  · exact .inl (by rwa [same])
  have unused := cores.alloc p
  generalize e.table s.proc q = v, s.kthread p = pc, e.event = event at write unused ⊢
  cases write with
  | forkParent => exact .inr (.inl ⟨_, rfl⟩)
  | reparent => exact .inr (.inr (.inl ⟨_, rfl⟩))
  | reap => exact .inr (.inr (.inr ⟨_, rfl⟩))
  | allocFail => simp [fresh (unused q rfl)] at child
  | _ => exact .inl child

theorem advance_fate (zombie : (e.table s.proc q).state = .zombie) :
    e.event = some (.exited q (e.table s.proc q).pid (e.table s.proc q).xstate) ∨
      (s.proc q).state = .zombie ∧ (e.table s.proc q).pid = (s.proc q).pid ∧
        (e.table s.proc q).xstate = (s.proc q).xstate ∧ ∀ event, e.event = some event → event.child ≠ some q := by
  obtain ⟨same, silent⟩ | ⟨r, v, written, write⟩ := kernel_write code
  · rw [same] at zombie ⊢
    exact .inr ⟨zombie, rfl, rfl, by simp [silent]⟩
  rw [written] at zombie ⊢
  by_cases here : q = r
  · subst here
    rw [Function.update_self] at zombie ⊢
    generalize s.kthread p = pc, e.event = event at write ⊢
    cases write with
    | exit => exact .inl rfl
    | kill =>
      by_cases sleeps : (s.proc q).state = .sleeping
      · simp [sleeps] at zombie
      · exact .inr ⟨by simpa [sleeps] using zombie, rfl, rfl, by simp⟩
    | forkTickets | forkParent | reparent | tidy | setkilled | settickets | growproc =>
      exact .inr ⟨zombie, rfl, rfl, by simp⟩
    | _ => cases zombie
  · rw [Function.update_of_ne here] at zombie ⊢
    refine .inr ⟨zombie, rfl, rfl, fun event logged child => ?_⟩
    rw [logged] at write
    exact here (write.child child)

theorem advance_reaps (logged : e.event = some (.reaped w q pid status)) :
    w = p ∧ (∃ addr, s.kthread p = .waitChildAcquire addr q) ∧ (s.proc q).state = .zombie ∧
      (s.proc q).pid = pid ∧ (s.proc q).xstate = status := by
  obtain ⟨_, silent⟩ | ⟨r, v, _, write⟩ := kernel_write code
  · simp [silent] at logged
  rw [logged] at write
  generalize s.kthread p = pc at write ⊢
  cases write with
  | reap zombie => exact ⟨rfl, ⟨_, rfl⟩, zombie, rfl, rfl⟩

variable (cores : Cores s) (family : Family s) (held : Accounted s) (next : e.next = .goto pc)
  (applied : e.op.apply c s.lock = some lock)
include cores family held next applied

theorem advance_child {i : Slot} (reaping : ((s.advance p e lock pc).kthread w).reaping = some i) :
    (e.table s.proc i).parent = some w := by
  by_cases self : w = p
  · subst self
    rw [advance_kthread_self] at reaping
    rcases kernel_reaping code next with none | ⟨same, elsewhere⟩ | ⟨j, found, table, child⟩
    · simp [none] at reaping
    · have before := same ▸ reaping
      rcases advance_adoption code (family.fresh i) cores (held.child w i before) with
        now | ⟨pid, thread⟩ | ⟨status, thread⟩ | ⟨addr, thread⟩
      · exact now
      · simp [thread, Pc.reaping] at before
      · simp [thread, Pc.reaping] at before
      · exact absurd thread (elsewhere addr i)
    · obtain rfl : j = i := by simpa [found] using reaping
      rwa [table]
  · -- `wait_lock` is held, so that no other thread changes a parent
    have before := advance_other rfl self reaping
    have locked := held_of_base (cores.wf w) (reaping_base (p := w) before)
    rcases advance_adoption code (family.fresh i) cores (held.child w i before) with
      now | ⟨pid, thread⟩ | ⟨status, thread⟩ | ⟨addr, thread⟩
    · exact now
    · rw [thread] at code
      cases code
      obtain ⟨c', _, holds⟩ := cores.wait_on_stack locked
      simp [LockOp.free_of_acquire applied] at holds
    · exact absurd (cores.wait_unique locked (by simp [thread, Pc.held])) self
    · exact absurd (cores.wait_unique locked (by simp [thread, Pc.held])) self

theorem advance_accounted : Accounted (s.advance p e lock pc) where
  child _ _ := advance_child code cores family held next applied
  zombie q zombie := by
    change Unreaped q (e.table s.proc q).pid (e.table s.proc q).xstate (s.log ++ e.event.toList)
    rcases advance_fate code zombie with exited | ⟨already, pid, xstate, others⟩
    · rw [exited]
      exact LastIs.self
    · rw [pid, xstate]
      have last := held.zombie q already
      cases logged : e.event with
      | none => simpa using last
      | some event => exact last.append (others event logged)
  reaped := by
    change AtEach ReapsExited (s.log ++ e.event.toList)
    cases logged : e.event with
    | none => simpa using held.reaped
    | some event =>
      refine held.reaped.append ?_
      rintro w q pid status rfl
      obtain ⟨_, _, zombie, rfl, rfl⟩ := advance_reaps code logged
      exact held.zombie q zombie

end advance

theorem Quiet.accounted (quiet : Quiet s after) (held : Accounted s) : Accounted after := by
  have reaping := quiet.kept Pc.reaping (fun _ => rfl) (fun _ => rfl) (fun _ _ _ => rfl)
  refine ⟨?_, ?_, ?_⟩
  · intro w i now
    obtain ⟨state, ticks, changed, _⟩ := quiet.proc i
    rw [changed]
    exact held.child w i (reaping w ▸ now)
  · intro q zombie
    obtain ⟨state, ticks, changed, states⟩ := quiet.proc q
    rw [changed] at zombie ⊢
    have already : (s.proc q).state = .zombie := by rcases states with same | ⟨_, now⟩ | ⟨_, now⟩ <;> simp_all
    rcases quiet.log with same | ⟨p, pid, dispatched⟩
    · rw [same]
      exact held.zombie q already
    · rw [dispatched]
      exact (held.zombie q already).append (by simp [Event.child])
  · rcases quiet.log with same | ⟨p, pid, dispatched⟩
    · rw [same]
      exact held.reaped
    · rw [dispatched]
      refine held.reaped.append ?_
      intro w q pid status other
      cases other

theorem userinit_accounted (ncpu : ℕ) : Accounted (userinit ncpu) := by
  refine ⟨?_, ?_, ?_⟩
  · intro w i reaping
    by_cases init : w = initproc <;> simp [userinit, init, Pc.reaping] at reaping
  · intro q zombie
    by_cases init : q = initproc <;> simp [userinit, init, noProc] at zombie
  · have nothing : AtEach ReapsExited [] := by
      intro before event after split
      simp at split
    refine nothing.append ?_
    intro w q pid status other
    cases other

theorem reachable_accounted (reachable : (system ncpu).Reachable s) : Accounted s := by
  refine reachable.invariant Accounted (userinit_accounted ncpu) ?_
  intro before move after previous held action
  have cores := reachable_cores previous
  obtain ⟨c, p, o, e, lock, pc, rfl, on, code, applied, next, rfl⟩ | quiet :=
    moved_cases cores (step_moved action)
  · exact advance_accounted code cores (reachable_family previous) held next applied
  · exact quiet.accounted held

theorem moved_reaps {move : Fin ncpu × Input} (reachable : (system ncpu).Reachable s)
    (moved : Moved s move after)
    (logged : after.log = s.log ++ [.reaped w q pid status]) :
    s.stack move.1 = some w ∧ (s.proc q).parent = some w ∧ (s.proc q).state = .zombie ∧ (s.proc q).pid = pid ∧
      (s.proc q).xstate = status ∧ after.kthread w = .waitReapRelease q pid := by
  have cores := reachable_cores reachable
  obtain ⟨c, p, o, e, lock, pc, rfl, on, code, _, next, rfl⟩ | quiet := moved_cases cores moved
  · have event : e.event = some (.reaped w q pid status) := by
      have : s.log ++ e.event.toList = s.log ++ [.reaped w q pid status] := logged
      simpa using this
    obtain ⟨rfl, ⟨addr, thread⟩, zombie, rfl, rfl⟩ := advance_reaps code event
    have parent := (reachable_accounted reachable).child w q (by rw [thread]; rfl)
    refine ⟨on, parent, zombie, rfl, rfl, ?_⟩
    rw [advance_kthread_self]
    rw [thread] at code
    simp only [kernel, if_pos zombie] at code
    split at code <;> cases code
    · cases event
    · cases next
      rfl
  · rcases quiet.log with same | ⟨p, pid, dispatched⟩
    · simp [same] at logged
    · simp [dispatched] at logged

theorem moved_returns {move : Fin ncpu × Input} (reachable : (system ncpu).Reachable s)
    (moved : Moved s move after) (returns : (after.kthread w).returns = some pid) :
    (s.kthread w).returns = some pid ∨ ∃ q status, after.log = s.log ++ [.reaped w q pid status] := by
  have cores := reachable_cores reachable
  obtain ⟨c, p, o, e, lock, pc, rfl, on, code, _, next, rfl⟩ | quiet := moved_cases cores moved
  · by_cases self : w = p
    · subst self
      rw [advance_kthread_self] at returns
      rcases kernel_returns code next with none | same | ⟨q, pid', status, now, event⟩
      · simp [none] at returns
      · exact .inl (same ▸ returns)
      · obtain rfl : pid' = pid := by simpa [now] using returns
        exact .inr ⟨q, status, by simp [State.advance, State.commit, event]⟩
    · exact .inl (advance_other rfl self returns)
  · exact .inl (quiet.kept Pc.returns (fun _ => rfl) (fun _ => rfl) (fun _ _ _ => rfl) w ▸ returns)

theorem Accounted.once (held : Accounted s) {before between after : List Event} {w' : Slot} {pid' status' : ℤ}
    (split : s.log = before ++ .reaped w q pid status :: (between ++ .reaped w' q pid' status' :: after)) :
    .exited q pid' status' ∈ between := by
  have last := held.reaped (before ++ .reaped w q pid status :: between) _ after (by simp [split]) w' q pid' status' rfl
  exact last.mem_of_concerns rfl (by simp)

theorem step_wait {c : Fin ncpu} {o : Oracle} (action : step s (c, .run o) = some after)
    (on : s.stack c = some w) (inWait : (s.kthread w).inWait) :
    after.proc = s.proc ∨ ∃ q pid status, after.log = s.log ++ [.reaped w q pid status] := by
  obtain ⟨e, lock, pc, code, _, _, rfl⟩ := step_own action on (by
    intro resume leaving
    simp [leaving, Pc.inWait] at inWait)
  rcases kernel_inWait code inWait with ⟨same, _⟩ | ⟨q, pid, status, event⟩
  · exact .inl same
  · exact .inr ⟨q, pid, status, by simp [State.advance, State.commit, event]⟩

theorem no_orphans_reaped_once (ncpu : ℕ) (s : State ncpu) (reachable : (system ncpu).Reachable s) :
    (∀ q, q ≠ initproc → (s.proc q).state.alive ∨ (s.proc q).state = .zombie →
      ∃ p, (s.proc q).parent = some p ∧ (s.proc p).state.alive) ∧
    (∀ before after w q pid status, s.log = before ++ .reaped w q pid status :: after →
      Unreaped q pid status before) ∧
    (∀ before between after w w' q pid pid' status status',
      s.log = before ++ .reaped w q pid status :: (between ++ .reaped w' q pid' status' :: after) →
      .exited q pid' status' ∈ between) ∧
    (∀ move after, step s move = some after →
      (∀ w q pid status, after.log = s.log ++ [.reaped w q pid status] →
        s.stack move.1 = some w ∧ (s.proc q).parent = some w ∧ (s.proc q).state = .zombie ∧
        (s.proc q).pid = pid ∧ (s.proc q).xstate = status ∧ after.kthread w = .waitReapRelease q pid) ∧
      (∀ w pid, (after.kthread w).returns = some pid →
        (s.kthread w).returns = some pid ∨ ∃ q status, after.log = s.log ++ [.reaped w q pid status])) ∧
    (∀ c o after w, step s (c, .run o) = some after → s.stack c = some w →
      (∀ pid, s.kthread w = .waitReturnRelease pid → after.kthread w = usertrapret pid) ∧
      ((s.kthread w).inWait → after.proc = s.proc ∨
        ∃ q pid status, after.log = s.log ++ [.reaped w q pid status]) ∧
      (∀ addr q, s.kthread w = .waitChildAcquire addr q → (s.proc q).state = .zombie → addr ≠ 0 →
        o.copyout = false →
        after.proc = s.proc ∧ after.log = s.log ∧ after.kthread w = .waitCopyoutRelease q) ∧
      (∀ q, s.kthread w = .waitCopyoutRelease q → after.proc = s.proc ∧ after.kthread w = .waitFailRelease) ∧
      (s.kthread w = .waitFailRelease → after.proc = s.proc ∧ after.kthread w = usertrapret (-1))) := by
  have family := reachable_family reachable
  have accounted := reachable_accounted reachable
  refine ⟨?_, ?_, ?_, ?_, ?_⟩
  · intro q other live
    obtain ⟨p, parent⟩ := Option.ne_none_iff_exists'.mp (family.hasParent q other live)
    exact ⟨p, parent, family.parentAlive q p parent⟩
  · intro before after w q pid status split
    exact accounted.reaped before _ after split w q pid status rfl
  · intro before between after w w' q pid pid' status status' split
    exact accounted.once split
  · intro move after action
    exact ⟨fun w q pid status => moved_reaps reachable (step_moved action),
      fun w pid => moved_returns reachable (step_moved action)⟩
  · intro c o after w action on
    refine ⟨?_, step_wait action on, ?_, ?_, ?_⟩
    · intro pid thread
      exact (step_at action on (by simp [thread]) (by rw [thread]; rfl) rfl).2.2
    · intro addr q thread zombie wanted failed
      have code : kernel s.proc s.nextpid w o (s.kthread w) =
          some { op := .acquire (.proc q), next := .goto (.waitCopyoutRelease q) } := by
        simp [thread, kernel, zombie, wanted, failed]
      obtain ⟨table, log, now⟩ := step_at action on (by simp [thread]) code rfl
      exact ⟨table, by simpa using log, now⟩
    · intro q thread
      obtain ⟨table, _, now⟩ := step_at action on (by simp [thread]) (by rw [thread]; rfl) rfl
      exact ⟨table, now⟩
    · intro thread
      obtain ⟨table, _, now⟩ := step_at action on (by simp [thread]) (by rw [thread]; rfl) rfl
      exact ⟨table, now⟩

def childReaped : List (Fin 1 × Input) := childExits ++ onCpu (.exit 7) 140

set_option maxRecDepth 10000 in
theorem no_orphans_reaped_once_child :
    ∃ s, (system 1).run (userinit 1) childReaped = some s ∧
      s.log = [.allocated 0 1, .dispatched 0 1, .allocated 1 2, .dispatched 1 2, .exited 1 2 7, .dispatched 0 1,
        .reaped 0 1 2 7] ∧
      Unreaped 1 2 7 [.allocated 0 1, .dispatched 0 1, .allocated 1 2, .dispatched 1 2, .exited 1 2 7,
        .dispatched 0 1] := by
  have checked : ((system 1).run (userinit 1) childReaped).map State.log =
      some [.allocated 0 1, .dispatched 0 1, .allocated 1 2, .dispatched 1 2, .exited 1 2 7, .dispatched 0 1,
        .reaped 0 1 2 7] := by decide +kernel
  obtain ⟨s, result, log⟩ := Option.map_eq_some_iff.mp checked
  have reachable : (system 1).Reachable s := System.Reachable.run .initial result
  exact ⟨s, result, log, (no_orphans_reaped_once 1 s reachable).2.1 _ [] 0 1 2 7 log⟩

end OsProjects.Kernel
