import OsProjects.Kernel.Cores

namespace OsProjects.Kernel
open Transition

variable {ncpu : ℕ} {s after : State ncpu} {t : Slot → Proc} {p : Slot} {o : Oracle} {pc : Pc} {e : Effect Next}

/-- The writes of the code of `p`: where it stands, the slot, what is put there and the event. -/
inductive Write (t : Slot → Proc) (p : Slot) : Pc → Slot → Proc → Option Event → Prop
  | alloc {np : Slot} {pid : ℤ} : Write t p (.allocpidRelease np pid) np
      { t np with pid := pid, state := .used, tickets := DEFAULT_TICKETS, sz := (t p).sz }
      (some (.allocated np pid))
  | allocFail {np : Slot} {pid : ℤ} : Write t p (.allocpidRelease np pid) np
      (freeproc { t np with pid := pid, state := .used, tickets := DEFAULT_TICKETS }) none
  | forkTickets {np : Slot} {pid : ℤ} : Write t p (.forkTicketsAcquire np pid) np
      { t np with tickets := (t p).tickets } none
  | forkParent {np : Slot} {pid : ℤ} : Write t p (.forkParentAcquire np pid) np
      { t np with parent := some p } none
  | forkRunnable {np : Slot} {pid : ℤ} : Write t p (.forkRunnableAcquire np pid) np
      { t np with state := .runnable } none
  | reparent {status : ℤ} {i : Slot} (child : (t i).parent = some p) : Write t p (.reparent status i) i
      { t i with parent := some initproc } none
  | exit {status : ℤ} : Write t p (.exitLockAcquire status) p
      { t p with xstate := status, state := .zombie } (some (.exited p (t p).pid status))
  | wakeup {chan : Option Chan} {i : Slot} {next : Pc} (other : i ≠ p) (sleeps : (t i).state = .sleeping)
      (onChan : (t i).chan = chan) : Write t p (.wakeupAcquire chan i next) i { t i with state := .runnable } none
  | reap {addr : ℕ} {i : Slot} (zombie : (t i).state = .zombie) : Write t p (.waitChildAcquire addr i) i
      (freeproc (t i)) (some (.reaped p i (t i).pid (t i).xstate))
  | sleep {k : Sleeper} : Write t p (.sleepSet k) p { t p with chan := some (k.chan p), state := .sleeping } none
  | tidy {k : Sleeper} : Write t p (.sleepTidy k) p { t p with chan := none } none
  | yield {next : Pc} : Write t p (.yieldAcquire next) p { t p with state := .runnable } none
  | kill {pid : ℤ} {i : Slot} (found : (t i).pid = pid) : Write t p (.killAcquire pid i) i
      { t i with
        killed := true
        state := if (t i).state = .sleeping then .runnable else (t i).state } none
  | setkilled {next : Pc} : Write t p (.setkilledAcquire next) p { t p with killed := true } none
  | settickets {number : ℤ} : Write t p (.setticketsAcquire number) p { t p with tickets := number } none
  | growproc {sz : ℕ} : Write t p (.growproc (some sz)) p { t p with sz := sz } none

theorem kernel_write {nextpid : ℤ} (code : kernel t nextpid p o pc = some e) :
    e.table t = t ∧ e.event = none ∨
      ∃ q v, e.table t = Function.update t q v ∧ Write t p pc q v e.event := by
  cases pc <;> simp only [kernel, Option.some.injEq, reduceCtorEq] at code
  case allocpidRelease np pid =>
    split at code <;> cases code
    · exact .inr ⟨np, _, rfl, .alloc⟩
    · exact .inr ⟨np, _, rfl, .allocFail⟩
  case forkTicketsAcquire | forkParentAcquire | forkRunnableAcquire | exitLockAcquire | sleepSet | sleepTidy
    | yieldAcquire | setkilledAcquire | setticketsAcquire =>
      cases code
      exact .inr ⟨_, _, rfl, by constructor⟩
  case reparent status i =>
    by_cases child : (t i).parent = some p
    · rw [if_pos child] at code
      cases code
      exact .inr ⟨i, _, rfl, .reparent child⟩
    · rw [if_neg child] at code
      cases code
      exact .inl ⟨rfl, rfl⟩
  case wakeupAcquire chan i after =>
    by_cases self : i = p
    · rw [if_pos self] at code
      cases code
      exact .inl ⟨rfl, rfl⟩
    · rw [if_neg self] at code
      cases code
      by_cases sleeps : (t i).state = .sleeping ∧ (t i).chan = chan
      · exact .inr ⟨i, { t i with state := .runnable }, by simp [Effect.table, wakeupSlot, sleeps],
          .wakeup self sleeps.1 sleeps.2⟩
      · exact .inl ⟨by simp [Effect.table, wakeupSlot, sleeps], rfl⟩
  case waitChildAcquire addr i =>
    by_cases zombie : (t i).state = .zombie
    · rw [if_pos zombie] at code
      split at code <;> cases code
      · exact .inl ⟨rfl, rfl⟩
      · exact .inr ⟨i, _, rfl, .reap zombie⟩
    · rw [if_neg zombie] at code
      cases code
      exact .inl ⟨rfl, rfl⟩
  case killAcquire pid i =>
    split at code <;> cases code
    · exact .inr ⟨i, _, rfl, .kill ‹_›⟩
    · exact .inl ⟨rfl, rfl⟩
  case growproc result =>
    cases result <;> cases code
    · exact .inl ⟨rfl, rfl⟩
    · exact .inr ⟨p, _, rfl, .growproc⟩
  all_goals
    (repeat' split at code) <;> cases code <;> exact .inl ⟨rfl, rfl⟩

theorem kernel_slot {nextpid : ℤ} (code : kernel t nextpid p o pc = some e) (q : Slot) :
    e.table t q = t q ∨ Write t p pc q (e.table t q) e.event := by
  obtain ⟨same, _⟩ | ⟨r, v, written, write⟩ := kernel_write code
  · exact .inl (by rw [same])
  · by_cases here : q = r
    · subst here
      exact .inr (by rwa [written, Function.update_self])
    · exact .inl (by rw [written, Function.update_of_ne here])

/-! ## Steps that are not code of a process -/

/-- A step of a scheduler, a context switch or an interrupt: a process is dispatched or some are woken up, and no
lock but that of a slot changes hands. -/
structure Quiet (s after : State ncpu) : Prop where
  table : (∃ p, (s.proc p).state = .runnable ∧ after.log = s.log ++ [.dispatched p (s.proc p).pid] ∧
      after.proc = Function.update s.proc p
        { s.proc p with ticks := int ((s.proc p).ticks + 1), state := .running }) ∨
    after.log = s.log ∧ ∀ q, after.proc q = s.proc q ∨
      (s.proc q).state = .sleeping ∧ after.proc q = { s.proc q with state := .runnable }
  nextpid : after.nextpid = s.nextpid
  kthread : ∀ q, after.kthread q = s.kthread q ∨ s.kthread q = .sched (after.kthread q) ∨
    (s.kthread q).held q = [] ∧ ∃ i, after.kthread q = kerneltrap (s.proc q) (s.kthread q) i
  stack : ∀ c q, s.stack c = some q → (∀ resume, s.kthread q ≠ .sched resume) → after.stack c = some q

theorem Quiet.proc (quiet : Quiet s after) (q : Slot) :
    ∃ state ticks, after.proc q = { s.proc q with state := state, ticks := ticks } ∧
      (state = (s.proc q).state ∨ (s.proc q).state = .sleeping ∧ state = .runnable ∨
        (s.proc q).state = .runnable ∧ state = .running) := by
  rcases quiet.table with ⟨p, runnable, _, table⟩ | ⟨_, table⟩
  · by_cases same : q = p
    · subst same
      exact ⟨_, _, by rw [table, Function.update_self], .inr (.inr ⟨runnable, rfl⟩)⟩
    · exact ⟨_, _, by rw [table, Function.update_of_ne same], .inl rfl⟩
  · rcases table q with same | ⟨sleeps, woken⟩
    · exact ⟨_, _, same, .inl rfl⟩
    · exact ⟨_, _, woken, .inr (.inl ⟨sleeps, rfl⟩)⟩

theorem Quiet.log (quiet : Quiet s after) : after.log = s.log ∨ ∃ p pid, after.log = s.log ++ [.dispatched p pid] := by
  rcases quiet.table with ⟨p, _, log, _⟩ | ⟨log, _⟩
  · exact .inr ⟨p, _, log⟩
  · exact .inl log

theorem Quiet.kept {α : Type*} (quiet : Quiet s after) (f : Pc → α) (sched : ∀ next, f (.sched next) = f next)
    (yield : ∀ next, f (.yieldAcquire next) = f next)
    (wakeup : ∀ chan i next, f (.wakeupAcquire chan i next) = f next) (q : Slot) :
    f (after.kthread q) = f (s.kthread q) := by
  rcases quiet.kthread q with same | resumed | ⟨_, i, trapped⟩
  · rw [same]
  · rw [resumed, sched]
  · rw [trapped]
    cases i <;> by_cases running : (s.proc q).state = .running <;> simp [kerneltrap, running, yield, wakeup]

theorem scheduler_write {pc pc' : SchedPc} {e : Effect SchedNext}
    (code : scheduler t o pc = e) (next : e.next = .goto pc') :
    e.event = none ∧ e.spawn = none ∧ e.nextpid = none ∧
      (e.table t = t ∨ ∃ i, (t i).state = .sleeping ∧
        e.table t = Function.update t i { t i with state := .runnable }) := by
  cases pc <;> simp only [scheduler] at code
  case wakeupAcquire chan i after =>
    subst code
    by_cases sleeps : (t i).state = .sleeping ∧ (t i).chan = chan
    · exact ⟨rfl, rfl, rfl, .inr ⟨i, sleeps.1, by simp [Effect.table, wakeupSlot, sleeps]⟩⟩
    · exact ⟨rfl, rfl, rfl, .inl (by simp [Effect.table, wakeupSlot, sleeps])⟩
  all_goals
    (repeat' split at code) <;> subst code <;> first | exact ⟨rfl, rfl, rfl, .inl rfl⟩ | cases next

theorem moved_cases {move : Fin ncpu × Input} (cores : Cores s) (moved : Moved s move after) :
    (∃ c p o e lock pc, move = (c, .run o) ∧ s.stack c = some p ∧
      kernel s.proc s.nextpid p o (s.kthread p) = some e ∧ e.op.apply c s.lock = some lock ∧
      e.next = .goto pc ∧ after = s.advance p e lock pc) ∨ Quiet s after := by
  cases moved with
  | advance on code applied next => exact .inl ⟨_, _, _, _, _, _, rfl, on, code, applied, next, rfl⟩
  | @swtch c o p resume on leaving may =>
    refine .inr ⟨.inr ⟨rfl, fun q => .inl rfl⟩, rfl, fun q => ?_, fun c' q there stays => ?_⟩
    · by_cases same : q = p
      · subst same
        exact .inr (.inl (by simp [leaving]))
      · exact .inl (by simp [same])
    · have other : c' ≠ c := by
        rintro rfl
        obtain rfl : p = q := by simpa [on] using there
        exact stays resume leaving
      simpa [other] using there
  | schedule off code applied next =>
    obtain ⟨silent, nothing, pids, same | ⟨i, sleeps, woken⟩⟩ := scheduler_write code next
    · exact .inr ⟨.inr ⟨by simp [State.commit, silent], fun q => .inl (by simp [State.commit, same])⟩,
        by simp [State.commit, pids], fun q => .inl (by simp [State.commit, nothing]), fun _ _ there _ => there⟩
    · refine .inr ⟨.inr ⟨by simp [State.commit, silent], fun q => ?_⟩, by simp [State.commit, pids],
        fun q => .inl (by simp [State.commit, nothing]), fun _ _ there _ => there⟩
      by_cases same : q = i
      · subst same
        exact .inr ⟨sleeps, by simp [State.commit, woken]⟩
      · exact .inl (by simp [State.commit, woken, same])
  | @dispatch c o p countedTickets winningTicket off scanning runnable won free =>
    refine .inr ⟨.inl ⟨p, runnable, rfl, rfl⟩, rfl, fun q => .inl rfl, fun c' q there _ => ?_⟩
    have other : c' ≠ c := by
      rintro rfl
      simp [off] at there
    simpa [other] using there
  | idle | schedulerTrap =>
    exact .inr ⟨.inr ⟨rfl, fun q => .inl rfl⟩, rfl, fun q => .inl rfl, fun _ _ there _ => there⟩
  | @trap c p i on enabled =>
    refine .inr ⟨.inr ⟨rfl, fun q => .inl rfl⟩, rfl, fun q => ?_, fun _ _ there _ => there⟩
    by_cases same : q = p
    · subst same
      refine .inr (.inr ⟨?_, i, by simp⟩)
      rw [← Cores.held_of_stack on]
      exact List.eq_nil_iff_forall_not_mem.mpr fun l member =>
        noff_eq_zero enabled l ((cores.holds c l).mpr member)
    · exact .inl (by simp [same])

theorem step_own {c : Fin ncpu} (action : step s (c, .run o) = some after)
    (on : s.stack c = some p) (stays : ∀ resume, s.kthread p ≠ .sched resume) :
    ∃ e lock pc, kernel s.proc s.nextpid p o (s.kthread p) = some e ∧ e.op.apply c s.lock = some lock ∧
      e.next = .goto pc ∧ after = s.advance p e lock pc := by
  cases step_moved action with
  | @advance _ q _ e lock pc here code applied next =>
    obtain rfl : q = p := by simpa [here] using on
    exact ⟨e, lock, pc, code, applied, next, rfl⟩
  | @swtch _ _ q resume here leaving =>
    obtain rfl : q = p := by simpa [here] using on
    exact absurd leaving (stays resume)
  | schedule off | dispatch off | idle off => simp [off] at on

theorem step_at {c : Fin ncpu} (action : step s (c, .run o) = some after) (on : s.stack c = some p)
    (stays : ∀ resume, s.kthread p ≠ .sched resume)
    (code : kernel s.proc s.nextpid p o (s.kthread p) = some e) (next : e.next = .goto pc) :
    after.proc = e.table s.proc ∧ after.log = s.log ++ e.event.toList ∧ after.kthread p = pc := by
  obtain ⟨e', lock, pc', code', _, next', rfl⟩ := step_own action on stays
  obtain rfl : e' = e := by simpa [code] using code'.symm
  obtain rfl : pc' = pc := by simpa [next] using next'.symm
  exact ⟨rfl, rfl, advance_kthread_self⟩

end OsProjects.Kernel
