import OsProjects.Kernel.Notify
import OsProjects.Transition.Recorded

namespace OsProjects.Kernel
open Transition

variable {ncpu : ℕ} {s after : State ncpu} {t : Slot → Proc} {q : Slot} {v : Proc} {move : Fin ncpu × Input}
  {pid nextpid : ℤ}

def Event.occupant (q : Slot) : Event → Bool
  | .allocated p _ | .dispatched p _ => p = q
  | _ => false

def Event.dispatches : Event → Bool
  | .dispatched _ _ => true
  | _ => false

def Unmentioned (s after : State ncpu) (q : Slot) : Prop :=
  ∃ events, after.log = s.log ++ events ∧ ∀ event ∈ events, event.occupant q = false

inductive Occupied (s after : State ncpu) (q : Slot) : Prop
  | same (log : Unmentioned s after q)
      (pid : (after.proc q).pid = (s.proc q).pid) (ticks : (after.proc q).ticks = (s.proc q).ticks)
      (unused : (after.proc q).state = .unused ↔ (s.proc q).state = .unused)
  | alloc (unused : (s.proc q).state = .unused) (used : (after.proc q).state ≠ .unused)
      (ticks : (after.proc q).ticks = (s.proc q).ticks)
      (log : after.log = s.log ++ [.allocated q (after.proc q).pid])
  | free (log : Unmentioned s after q) (unused : (after.proc q).state = .unused)
      (ticks : (after.proc q).ticks = 0)
  | dispatch (live : (s.proc q).state ≠ .unused) (running : (after.proc q).state ≠ .unused)
      (pid : (after.proc q).pid = (s.proc q).pid) (ticks : (after.proc q).ticks = int ((s.proc q).ticks + 1))
      (log : after.log = s.log ++ [.dispatched q (s.proc q).pid])

variable {event : Option Event}

theorem Write.event_dispatches {p : Slot} {pc : Pc}
    (write : Write t p pc q v event) : ∀ x ∈ event.toList, x.dispatches = false := by
  cases write <;> simp [Event.dispatches]

theorem Write.event_other {p r : Slot} {pc : Pc}
    (write : Write t p pc q v event) (other : r ≠ q) : ∀ x ∈ event.toList, x.occupant r = false := by
  cases write <;> simp [Event.occupant, Ne.symm other]

theorem Write.occupied {p : Slot} {pc : Pc} (write : Write t p pc q v event) (live : (t p).state ≠ .unused)
    (allocating : pc.allocating = some q → (t q).state = .unused)
    (forking : pc.forking = some q → (t q).state = .used) :
    (t q).state = .unused ∧ v.state ≠ .unused ∧ v.ticks = (t q).ticks ∧ event = some (.allocated q v.pid) ∨
    (∀ x ∈ event.toList, x.occupant q = false) ∧
      (v.pid = (t q).pid ∧ v.ticks = (t q).ticks ∧ (v.state = .unused ↔ (t q).state = .unused) ∨
        v.state = .unused ∧ v.ticks = 0) := by
  cases write with
  | alloc => exact .inl ⟨allocating rfl, by simp, rfl, rfl⟩
  | allocFail | reap => exact .inr ⟨by simp [Event.occupant], .inr ⟨rfl, rfl⟩⟩
  | forkTickets | forkParent | reparent | setkilled | settickets | growproc | tidy =>
    exact .inr ⟨by simp, .inl ⟨rfl, rfl, .rfl⟩⟩
  | forkRunnable => exact .inr ⟨by simp, .inl ⟨rfl, rfl, by simp [forking rfl]⟩⟩
  | exit | sleep | yield => exact .inr ⟨by simp [Event.occupant], .inl ⟨rfl, rfl, by simp [live]⟩⟩
  | wakeup other sleeps => exact .inr ⟨by simp, .inl ⟨rfl, rfl, by simp [sleeps]⟩⟩
  | kill =>
    refine .inr ⟨by simp, .inl ⟨rfl, rfl, ?_⟩⟩
    by_cases sleeps : (t q).state = .sleeping <;> simp [sleeps]

theorem advance_occupied {c : Fin ncpu} {p : Slot} {o : Oracle} {e : Effect Next} {lock : Lock → Option (Fin ncpu)}
    {pc : Pc} (code : kernel s.proc s.nextpid p o (s.kthread p) = some e) (cores : Cores s)
    (on : s.stack c = some p) (q : Slot) : Occupied s (s.advance p e lock pc) q := by
  rcases kernel_write code with ⟨same, silent⟩ | ⟨r, v, written, write⟩
  · refine .same ⟨[], by simp [State.advance, State.commit, silent], by simp⟩ ?_ ?_ ?_ <;>
      simp [State.advance, State.commit, same]
  by_cases here : q = r
  · subst here
    have now : (s.advance p e lock pc).proc q = v := by simp [State.advance, State.commit, written]
    rcases write.occupied (cores.live_of_stack on).1 (cores.alloc p q) (cores.fork p q) with
      ⟨unused, used, ticks, event⟩ | ⟨silent, ⟨pid, ticks, unused⟩ | ⟨unused, ticks⟩⟩
    · exact .alloc unused (by rwa [now]) (by rw [now, ticks]) (by rw [now]; simp [State.advance, State.commit, event])
    · exact .same ⟨e.event.toList, rfl, silent⟩ (by rw [now, pid]) (by rw [now, ticks]) (by rw [now, unused])
    · exact .free ⟨e.event.toList, rfl, silent⟩ (by rw [now, unused]) (by rw [now, ticks])
  · have kept : (s.advance p e lock pc).proc q = s.proc q := by simp [State.advance, State.commit, written, here]
    exact .same ⟨e.event.toList, rfl, write.event_other here⟩ (by rw [kept]) (by rw [kept]) (by rw [kept])

theorem moved_occupied (cores : Cores s) (moved : Moved s move after) (q : Slot) : Occupied s after q := by
  obtain ⟨c, p, o, e, lock, pc, rfl, on, code, _, _, rfl⟩ | quiet := moved_cases cores moved
  · exact advance_occupied code cores on q
  rcases quiet.table with ⟨p, runnable, log, table⟩ | ⟨log, table⟩
  · by_cases same : q = p
    · subst same
      exact .dispatch (by simp [runnable]) (by simp [table]) (by simp [table]) (by simp [table]) log
    · refine .same ⟨_, log, by simp [Event.occupant, Ne.symm same]⟩ ?_ ?_ ?_ <;> simp [table, same]
  · rcases table q with same | ⟨sleeps, woken⟩
    · exact .same ⟨[], by simp [log], by simp⟩ (by rw [same]) (by rw [same]) (by rw [same])
    · exact .same ⟨[], by simp [log], by simp⟩ (by rw [woken]) (by rw [woken]) (by simp [woken, sleeps])

/-! ## The ticks of one process -/

def DispatchedSince (p : Slot) (pid : ℤ) (count : ℕ) (log : List Event) : Prop :=
  ∃ before since, log = before ++ .allocated p pid :: since ∧ (∀ pid', .allocated p pid' ∉ since) ∧
    (∀ pid', .dispatched p pid' ∈ since → pid' = pid) ∧ since.count (.dispatched p pid) = count

theorem DispatchedSince.append {p : Slot} {count : ℕ} {log events : List Event}
    (dispatched : DispatchedSince p pid count log) (silent : ∀ event ∈ events, event.occupant p = false) :
    DispatchedSince p pid count (log ++ events) := by
  obtain ⟨before, since, rfl, last, own, counted⟩ := dispatched
  have quiet : ∀ event, event.occupant p = true → event ∉ events := fun event about member => by
    simp [silent event member] at about
  refine ⟨before, since ++ events, by simp, ?_, ?_, ?_⟩
  · intro pid' member
    rcases List.mem_append.mp member with earlier | added
    · exact last pid' earlier
    · exact quiet _ (by simp [Event.occupant]) added
  · intro pid' member
    rcases List.mem_append.mp member with earlier | added
    · exact own pid' earlier
    · exact absurd added (quiet _ (by simp [Event.occupant]))
  · rw [List.count_append, counted, List.count_eq_zero_of_not_mem (quiet _ (by simp [Event.occupant])), add_zero]

theorem DispatchedSince.dispatch {p : Slot} {count : ℕ} {log : List Event}
    (dispatched : DispatchedSince p pid count log) :
    DispatchedSince p pid (count + 1) (log ++ [.dispatched p pid]) := by
  obtain ⟨before, since, rfl, last, own, counted⟩ := dispatched
  refine ⟨before, since ++ [.dispatched p pid], by simp, ?_, ?_, by simp [counted]⟩
  · simpa using last
  · intro pid' member
    rcases List.mem_append.mp member with earlier | added
    · exact own pid' earlier
    · simpa using added

theorem int_succ (x : ℤ) : int (int x + 1) = int (x + 1) := by
  simp [int]

def Ticked (s : State ncpu) : Prop :=
  ∀ p, ((s.proc p).state = .unused → (s.proc p).ticks = 0) ∧
    ((s.proc p).state ≠ .unused →
      ∃ count, DispatchedSince p (s.proc p).pid count s.log ∧ (s.proc p).ticks = int count)

theorem userinit_ticked (ncpu : ℕ) : Ticked (userinit ncpu) := by
  intro p
  by_cases init : p = initproc
  · refine ⟨fun _ => by simp [userinit, init, noProc], fun _ => ⟨0, ⟨[], [], ?_⟩, ?_⟩⟩ <;>
      simp [userinit, init, noProc, int]
  · simp [userinit, init, noProc]

theorem Occupied.ticked (occupied : Occupied s after q) (idle : (s.proc q).state = .unused → (s.proc q).ticks = 0)
    (counted : (s.proc q).state ≠ .unused →
      ∃ count, DispatchedSince q (s.proc q).pid count s.log ∧ (s.proc q).ticks = int count) :
    ((after.proc q).state = .unused → (after.proc q).ticks = 0) ∧
      ((after.proc q).state ≠ .unused →
        ∃ count, DispatchedSince q (after.proc q).pid count after.log ∧ (after.proc q).ticks = int count) := by
  cases occupied with
  | same log pid ticks unused =>
    obtain ⟨events, log, silent⟩ := log
    refine ⟨fun now => by rw [ticks, idle (unused.mp now)], fun now => ?_⟩
    obtain ⟨count, since, equal⟩ := counted fun before => now (unused.mpr before)
    exact ⟨count, by rw [log, pid]; exact since.append silent, by rw [ticks, equal]⟩
  | alloc unused used ticks log =>
    refine ⟨fun now => absurd now used, fun _ => ⟨0, ⟨s.log, [], by rw [log], by simp, by simp, rfl⟩, ?_⟩⟩
    rw [ticks, idle unused]
    rfl
  | free _ unused ticks => exact ⟨fun _ => ticks, fun now => absurd unused now⟩
  | dispatch live running pid ticks log =>
    refine ⟨fun now => absurd now running, fun _ => ?_⟩
    obtain ⟨count, since, equal⟩ := counted live
    refine ⟨count + 1, by rw [log, pid]; exact since.dispatch, ?_⟩
    rw [ticks, equal, int_succ]
    rfl

theorem reachable_ticked (reachable : (system ncpu).Reachable s) : Ticked s := by
  refine reachable.invariant Ticked (userinit_ticked ncpu) ?_
  intro before move after previous ticked action q
  exact (moved_occupied (reachable_cores previous) (step_moved action) q).ticked (ticked q).1 (ticked q).2

/-! ## All dispatches -/

def freedTicks (s after : State ncpu) : ℤ :=
  ∑ q with (s.proc q).state ≠ .unused ∧ (after.proc q).state = .unused, (s.proc q).ticks

def accounts (ncpu : ℕ) : System (State ncpu × ℤ) (Fin ncpu × Input) :=
  (system ncpu).recorded 0 fun s move freed =>
    match step s move with
    | some after => freed + freedTicks s after
    | none => freed

theorem kernel_dispatches {p : Slot} {o : Oracle} {pc : Pc} {e : Effect Next}
    (code : kernel t nextpid p o pc = some e) : ∀ event ∈ e.event.toList, event.dispatches = false := by
  rcases kernel_write code with ⟨_, silent⟩ | ⟨r, v, _, write⟩
  · simp [silent]
  · exact write.event_dispatches

theorem moved_log_dispatches (cores : Cores s) (moved : Moved s move after) :
    (∃ events, after.log = s.log ++ events ∧ ∀ event ∈ events, event.dispatches = false) ∨
      ∃ p, after.log = s.log ++ [.dispatched p (s.proc p).pid] := by
  obtain ⟨c, p, o, e, lock, pc, rfl, on, code, _, _, rfl⟩ | quiet := moved_cases cores moved
  · exact .inl ⟨e.event.toList, rfl, kernel_dispatches code⟩
  rcases quiet.table with ⟨p, _, log, _⟩ | ⟨log, _⟩
  · exact .inr ⟨p, log⟩
  · exact .inl ⟨[], by simp [log], by simp⟩

theorem Occupied.balance (occupied : Occupied s after q) (idle : (s.proc q).state = .unused → (s.proc q).ticks = 0)
    (other : after.log ≠ s.log ++ [.dispatched q (s.proc q).pid]) :
    (after.proc q).ticks +
      (if (s.proc q).state ≠ .unused ∧ (after.proc q).state = .unused then (s.proc q).ticks else 0) =
        (s.proc q).ticks := by
  cases occupied with
  | same log pid ticks unused => simp [ticks, unused]
  | alloc unused used ticks log => simp [ticks, used]
  | free _ unused ticks =>
    by_cases before : (s.proc q).state = .unused
    · simp [ticks, before, idle before]
    · simp [ticks, before, unused]
  | dispatch live running pid ticks log => exact absurd log other

theorem sum_ticks_freed (s after : State ncpu) :
    ∑ q, (after.proc q).ticks + freedTicks s after = ∑ q, ((after.proc q).ticks +
      (if (s.proc q).state ≠ .unused ∧ (after.proc q).state = .unused then (s.proc q).ticks else 0)) := by
  rw [freedTicks, Finset.sum_filter, Finset.sum_add_distrib]

def Balanced (s : State ncpu) (freed : ℤ) : Prop :=
  (s.log.countP Event.dispatches : ℤ) ≡ ∑ q, (s.proc q).ticks + freed [ZMOD 2 ^ 32]

theorem int_modEq (x : ℤ) : int x ≡ x [ZMOD 2 ^ 32] :=
  Int.bmod_emod

theorem Unmentioned.not_dispatched (silent : Unmentioned s after q) : after.log ≠ s.log ++ [.dispatched q pid] := by
  obtain ⟨events, log, silent⟩ := silent
  intro dispatched
  rw [log, List.append_cancel_left_eq] at dispatched
  have := silent (.dispatched q pid) (by simp [dispatched])
  simp [Event.occupant] at this

theorem Occupied.dispatched (occupied : Occupied s after q)
    (log : after.log = s.log ++ [.dispatched q (s.proc q).pid]) :
    (after.proc q).state ≠ .unused ∧ (after.proc q).ticks = int ((s.proc q).ticks + 1) := by
  cases occupied with
  | dispatch live running pid ticks => exact ⟨running, ticks⟩
  | same silent | free silent => exact absurd log silent.not_dispatched
  | alloc _ _ _ other => simp [log] at other

theorem moved_balanced {freed : ℤ} (cores : Cores s) (ticked : Ticked s)
    (moved : Moved s move after) (balanced : Balanced s freed) : Balanced after (freed + freedTicks s after) := by
  have occupied := moved_occupied cores moved
  unfold Balanced at *
  rw [add_left_comm, add_comm freed, sum_ticks_freed]
  rcases moved_log_dispatches cores moved with ⟨events, log, silent⟩ | ⟨p, log⟩
  · have each : ∀ q, after.log ≠ s.log ++ [.dispatched q (s.proc q).pid] := by
      intro q equal
      rw [log, List.append_cancel_left_eq] at equal
      simpa [Event.dispatches] using silent (.dispatched q (s.proc q).pid) (by simp [equal])
    have nothing : events.countP Event.dispatches = 0 := List.countP_eq_zero.mpr fun event member => by
      simp [silent event member]
    rw [Finset.sum_congr rfl fun q _ => (occupied q).balance (ticked q).1 (each q)]
    simpa [log, nothing] using balanced
  · have each : ∀ q ≠ p, after.log ≠ s.log ++ [.dispatched q (s.proc q).pid] := by
      intro q other equal
      rw [log, List.append_cancel_left_eq] at equal
      simp [Ne.symm other] at equal
    obtain ⟨running, ticks⟩ := (occupied p).dispatched log
    rw [← Finset.add_sum_erase _ _ (Finset.mem_univ p), Finset.sum_congr rfl fun q member =>
      (occupied q).balance (ticked q).1 (each q (Finset.ne_of_mem_erase member))]
    rw [← Finset.add_sum_erase _ _ (Finset.mem_univ p)] at balanced
    have one : (after.log.countP Event.dispatches : ℤ) = s.log.countP Event.dispatches + 1 := by
      simp [log, Event.dispatches]
    rw [one, ticks, if_neg fun freed => running freed.2, add_zero]
    calc (s.log.countP Event.dispatches : ℤ) + 1
        ≡ (s.proc p).ticks + ∑ q ∈ Finset.univ.erase p, (s.proc q).ticks + freed + 1 [ZMOD 2 ^ 32] :=
          balanced.add_right 1
      _ = (s.proc p).ticks + 1 + ∑ q ∈ Finset.univ.erase p, (s.proc q).ticks + freed := by ring
      _ ≡ int ((s.proc p).ticks + 1) + ∑ q ∈ Finset.univ.erase p, (s.proc q).ticks + freed [ZMOD 2 ^ 32] :=
          ((int_modEq _).symm.add_right _).add_right _

theorem reachable_balanced {freed : ℤ} (reachable : (accounts ncpu).Reachable (s, freed)) : Balanced s freed := by
  refine reachable.invariant (fun x => Balanced x.1 x.2) ?_ ?_
  · have idle : ∀ q, ((userinit ncpu).proc q).ticks = 0 := fun q => by
      by_cases init : q = initproc <;> simp [userinit, init, noProc]
    change (_ : ℤ) ≡ ∑ q, ((userinit ncpu).proc q).ticks + 0 [ZMOD 2 ^ 32]
    rw [Finset.sum_eq_zero fun q _ => idle q]
    rfl
  · rintro ⟨before, freed⟩ move ⟨after, freed'⟩ previous balanced action
    obtain ⟨action, rfl⟩ := System.recorded_step action
    have reachable : (system ncpu).Reachable before := previous.forget
    change Balanced after (match step before move with | some after => _ | none => _)
    rw [show step before move = some after from action]
    exact moved_balanced (reachable_cores reachable) (reachable_ticked reachable) (step_moved action) balanced

/-! ## Pids -/

def PidsLeft (s : State ncpu) (_ : Fin ncpu × Input) : Prop := s.nextpid < 2 ^ 31 - 1

instance (s : State ncpu) (move : Fin ncpu × Input) : Decidable (PidsLeft s move) :=
  inferInstanceAs (Decidable (_ < _))

def Pc.taken (pc : Pc) : Option ℤ := match pc.base with
  | .allocpidRelease _ pid => some pid
  | _ => none

theorem kernel_taken {p : Slot} {o : Oracle} {pc pc' : Pc}
    {e : Effect Next} (code : kernel t nextpid p o pc = some e) (next : e.next = .goto pc') :
    (pc'.taken = none ∨ pc'.taken = pc.taken ∧ ∀ np pid, pc ≠ .allocpidRelease np pid) ∧ e.nextpid = none ∨
      pc'.taken = some nextpid ∧ e.nextpid = some (int (nextpid + 1)) ∧ e.table t = t := by
  have leads := leads_kernel code next
  have silent : e.nextpid = none ∨ ∃ np, pc = .allocpidAcquire np := by
    cases pc <;> simp only [kernel, Option.some.injEq, reduceCtorEq] at code <;> (repeat' split at code) <;> cases code <;> simp
  rcases silent with silent | ⟨np, rfl⟩
  · refine .inl ⟨?_, silent⟩
    unfold Pc.taken
    generalize pc'.base = base at leads ⊢
    rcases leads with idle | ⟨rfl, wraps⟩ | flow
    · cases idle <;> exact .inl rfl
    · exact .inr ⟨rfl, fun np pid same => by simp [same, Pc.wraps] at wraps⟩
    · cases flow <;> simp_all
  · cases code
    cases next
    exact .inr ⟨rfl, rfl, rfl⟩

theorem kernel_allocated {p : Slot} {o : Oracle} {pc : Pc} {e : Effect Next}
    (code : kernel t nextpid p o pc = some e) (event : e.event = some (.allocated q pid)) :
    pc = .allocpidRelease q pid := by
  rcases kernel_write code with ⟨_, silent⟩ | ⟨r, v, _, write⟩
  · simp [silent] at event
  · rw [event] at write
    cases write
    rfl

structure Pids (s : State ncpu) : Prop where
  positive : 0 < s.nextpid
  bound : ∀ p, (s.proc p).state ≠ .unused → (s.proc p).pid < s.nextpid
  logged : ∀ q pid, .dispatched q pid ∈ s.log → pid < s.nextpid
  taken : ∀ p pid, (s.kthread p).taken = some pid → pid < s.nextpid
  reserved : ∀ p pid, (s.kthread p).taken = some pid → ∀ q, (s.proc q).state ≠ .unused → (s.proc q).pid ≠ pid
  unseen : ∀ p pid, (s.kthread p).taken = some pid → ∀ q, .dispatched q pid ∉ s.log
  takenOnce : ∀ p p' pid, (s.kthread p).taken = some pid → (s.kthread p').taken = some pid → p = p'
  distinct : ∀ p q, (s.proc p).state ≠ .unused → (s.proc q).state ≠ .unused → (s.proc p).pid = (s.proc q).pid → p = q
  owner : ∀ p q, (s.proc p).state ≠ .unused → .dispatched q (s.proc p).pid ∈ s.log → q = p

theorem userinit_pids (ncpu : ℕ) : Pids (userinit ncpu) := by
  have live : ∀ p, ((userinit ncpu).proc p).state ≠ .unused → p = initproc ∧ ((userinit ncpu).proc p).pid = 1 := by
    intro p
    by_cases init : p = initproc <;> simp [userinit, init, noProc]
  have idle : ∀ p, ((userinit ncpu).kthread p).taken = none := by
    intro p
    by_cases init : p = initproc <;> simp [userinit, init, Pc.taken]
  constructor
  case positive => simp [userinit]
  case bound => intro p now; rw [(live p now).2]; simp [userinit]
  case distinct => intro p q here there _; rw [(live p here).1, (live q there).1]
  case logged | owner => simp [userinit]
  case taken | reserved | unseen | takenOnce => simp [idle]

section advance
variable {c : Fin ncpu} {p : Slot} {o : Oracle} {e : Effect Next} {lock : Lock → Option (Fin ncpu)} {pc : Pc}
  (code : kernel s.proc s.nextpid p o (s.kthread p) = some e)
include code

theorem advance_dispatched : .dispatched q pid ∈ (s.advance p e lock pc).log ↔ .dispatched q pid ∈ s.log := by
  have silent : .dispatched q pid ∉ e.event.toList := fun member => by
    simpa [Event.dispatches] using kernel_dispatches code _ member
  simp only [State.advance, State.commit, List.mem_append, silent, or_false]

theorem advance_live (cores : Cores s) (on : s.stack c = some p)
    (live : ((s.advance p e lock pc).proc q).state ≠ .unused) :
    (s.proc q).state ≠ .unused ∧ ((s.advance p e lock pc).proc q).pid = (s.proc q).pid ∨
      s.kthread p = .allocpidRelease q ((s.advance p e lock pc).proc q).pid := by
  have occupied : Occupied s (s.advance p e lock pc) q := advance_occupied code cores on q
  cases occupied with
  | same _ pid _ unused => exact .inl ⟨fun before => live (unused.mpr before), pid⟩
  | alloc _ _ _ log =>
    refine .inr (kernel_allocated code ?_)
    simpa [State.advance, State.commit, Option.toList_eq_singleton_iff] using log
  | free _ unused => exact absurd unused live
  | dispatch before _ pid => exact .inl ⟨before, pid⟩

theorem advance_taken (next : e.next = .goto pc) {r : Slot}
    (taken : ((s.advance p e lock pc).kthread r).taken = some pid) :
    (s.kthread r).taken = some pid ∧ (r = p → ∀ np pid, s.kthread p ≠ .allocpidRelease np pid) ∨
      r = p ∧ pid = s.nextpid ∧ e.nextpid = some (int (s.nextpid + 1)) ∧ e.table s.proc = s.proc := by
  by_cases self : r = p
  · subst self
    rw [advance_kthread_self] at taken
    rcases kernel_taken code next with ⟨none | ⟨same, other⟩, _⟩ | ⟨now, some, table⟩
    · simp [none] at taken
    · exact .inl ⟨same ▸ taken, fun _ => other⟩
    · exact .inr ⟨rfl, by simpa [now] using taken.symm, some, table⟩
  · exact .inl ⟨advance_other rfl self taken, fun same => absurd same self⟩

omit code in
theorem Pids.int_succ (pids : Pids s) (left : PidsLeft s move) : int (s.nextpid + 1) = s.nextpid + 1 := by
  have positive := pids.positive
  unfold PidsLeft at left
  exact int_eq_self (by omega) (by omega)

theorem advance_nextpid (pids : Pids s) (left : PidsLeft s (c, .run o)) (next : e.next = .goto pc) :
    s.nextpid ≤ (s.advance p e lock pc).nextpid := by
  change s.nextpid ≤ e.nextpid.getD s.nextpid
  rcases kernel_taken code next with ⟨_, none⟩ | ⟨_, some, _⟩
  · simp [none]
  · simp [some, pids.int_succ left]

theorem advance_pids (cores : Cores s) (on : s.stack c = some p) (pids : Pids s) (left : PidsLeft s (c, .run o))
    (next : e.next = .goto pc) : Pids (s.advance p e lock pc) := by
  have later : s.nextpid ≤ (s.advance p e lock pc).nextpid := advance_nextpid code pids left next
  have fresh : ∀ {q pid}, s.kthread p = .allocpidRelease q pid → (s.kthread p).taken = some pid := by
    intro q pid thread
    rw [thread]
    rfl
  constructor
  case positive => exact lt_of_lt_of_le pids.positive later
  case bound =>
    intro q live
    rcases advance_live code cores on live with ⟨before, same⟩ | thread
    · rw [same]
      exact lt_of_lt_of_le (pids.bound q before) later
    · exact lt_of_lt_of_le (pids.taken p _ (fresh thread)) later
  case logged =>
    intro q pid member
    exact lt_of_lt_of_le (pids.logged q pid ((advance_dispatched code).mp member)) later
  case taken =>
    intro r pid taken
    rcases advance_taken code next taken with ⟨before, _⟩ | ⟨_, rfl, some, _⟩
    · exact lt_of_lt_of_le (pids.taken r pid before) later
    · change s.nextpid < e.nextpid.getD s.nextpid
      simp [some, pids.int_succ left]
  case reserved =>
    intro r pid taken q live equal
    rcases advance_taken code next taken with ⟨before, other⟩ | ⟨rfl, rfl, _, table⟩
    · rcases advance_live code cores on live with ⟨already, same⟩ | thread
      · exact pids.reserved r pid before q already (same ▸ equal)
      · obtain rfl := pids.takenOnce r p pid before (equal ▸ fresh thread)
        exact other rfl _ _ thread
    · change (e.table s.proc q).state ≠ _ at live
      change (e.table s.proc q).pid = _ at equal
      rw [table] at live equal
      exact absurd equal (pids.bound q live).ne
  case unseen =>
    intro r pid taken q member
    rw [advance_dispatched code] at member
    rcases advance_taken code next taken with ⟨before, _⟩ | ⟨rfl, rfl, _⟩
    · exact pids.unseen r pid before q member
    · exact absurd (pids.logged q _ member) (lt_irrefl _)
  case takenOnce =>
    intro r r' pid here there
    rcases advance_taken code next here with ⟨before, _⟩ | ⟨rfl, rfl, _⟩ <;>
      rcases advance_taken code next there with ⟨before', _⟩ | ⟨rfl, equal, _⟩
    · exact pids.takenOnce r r' pid before before'
    · exact absurd (pids.taken r pid before) (by omega)
    · exact absurd (pids.taken r' _ before') (by omega)
    · rfl
  case distinct =>
    intro q r here there equal
    rcases advance_live code cores on here with ⟨before, same⟩ | thread <;>
      rcases advance_live code cores on there with ⟨before', same'⟩ | thread'
    · exact pids.distinct q r before before' (by rw [← same, ← same', equal])
    · exact absurd (by rw [← same, equal]) (pids.reserved p _ (fresh thread') q before)
    · exact absurd (by rw [← same', equal]) (pids.reserved p _ (fresh thread) r before')
    · rw [thread] at thread'
      exact (Pc.allocpidRelease.inj thread').1
  case owner =>
    intro q r live member
    rw [advance_dispatched code] at member
    rcases advance_live code cores on live with ⟨before, same⟩ | thread
    · exact pids.owner q r before (same ▸ member)
    · exact absurd member (pids.unseen p _ (fresh thread) r)

end advance

theorem Quiet.pids (quiet : Quiet s after) (pids : Pids s) : Pids after := by
  have taken := quiet.kept Pc.taken (fun _ => rfl) (fun _ => rfl) (fun _ _ _ => rfl)
  have live : ∀ q, (after.proc q).state ≠ .unused → (s.proc q).state ≠ .unused ∧ (after.proc q).pid = (s.proc q).pid := by
    intro q now
    obtain ⟨state, ticks, changed, states⟩ := quiet.proc q
    rw [changed] at now ⊢
    refine ⟨?_, rfl⟩
    rcases states with same | ⟨sleeps, _⟩ | ⟨runnable, _⟩
    · exact same ▸ now
    · simp [sleeps]
    · simp [runnable]
  have dispatched : ∀ {q pid}, .dispatched q pid ∈ after.log →
      .dispatched q pid ∈ s.log ∨ (s.proc q).state ≠ .unused ∧ (s.proc q).pid = pid := by
    intro q pid member
    rcases quiet.table with ⟨p, runnable, log, _⟩ | ⟨log, _⟩
    · rw [log, List.mem_append] at member
      refine member.imp_right fun added => ?_
      obtain ⟨rfl, rfl⟩ : q = p ∧ pid = (s.proc p).pid := by simpa using added
      exact ⟨by simp [runnable], rfl⟩
    · exact .inl (log ▸ member)
  constructor
  case positive => rw [quiet.nextpid]; exact pids.positive
  case bound =>
    intro q now
    rw [quiet.nextpid, (live q now).2]
    exact pids.bound q (live q now).1
  case logged =>
    intro q pid member
    rw [quiet.nextpid]
    rcases dispatched member with before | ⟨before, rfl⟩
    · exact pids.logged q pid before
    · exact pids.bound q before
  case taken =>
    intro p pid now
    rw [quiet.nextpid]
    exact pids.taken p pid (taken p ▸ now)
  case reserved =>
    intro p pid now q there
    rw [(live q there).2]
    exact pids.reserved p pid (taken p ▸ now) q (live q there).1
  case unseen =>
    intro p pid now q member
    rcases dispatched member with before | ⟨before, equal⟩
    · exact pids.unseen p pid (taken p ▸ now) q before
    · exact pids.reserved p pid (taken p ▸ now) q before equal
  case takenOnce =>
    intro p q pid here there
    exact pids.takenOnce p q pid (taken p ▸ here) (taken q ▸ there)
  case distinct =>
    intro p q here there equal
    rw [(live p here).2, (live q there).2] at equal
    exact pids.distinct p q (live p here).1 (live q there).1 equal
  case owner =>
    intro p q here member
    rw [(live p here).2] at member
    rcases dispatched member with before | ⟨before, equal⟩
    · exact pids.owner p q (live p here).1 before
    · exact pids.distinct q p before (live p here).1 equal

theorem reached_pids (reached : (system ncpu).ReachedBy PidsLeft s) : Pids s := by
  refine reached.invariant Pids (userinit_pids ncpu) ?_
  intro before move after previous pids left action
  have cores := reachable_cores previous.reachable
  obtain ⟨c, p, o, e, lock, pc, rfl, on, code, _, next, rfl⟩ | quiet := moved_cases cores (step_moved action)
  · exact advance_pids code cores on pids left next
  · exact quiet.pids pids

/-! ## The account of the scheduler -/

theorem Moved.dispatched (moved : Moved s move after) :
    (∀ c p, after.stack c = some p → s.stack c = some p ∨ after.log = s.log ++ [.dispatched p (s.proc p).pid]) ∧
      ∀ p pid, after.log = s.log ++ [.dispatched p pid] → s.stack move.1 = none ∧ after.stack move.1 = some p := by
  cases moved with
  | @advance c q o e lock pc on code =>
    refine ⟨fun c p now => .inl now, fun p pid log => ?_⟩
    have event : e.event.toList = [.dispatched p pid] := by simpa [State.advance, State.commit] using log
    have silent := kernel_dispatches code (.dispatched p pid) (by simp [event])
    simp [Event.dispatches] at silent
  | @swtch c o q resume =>
    refine ⟨fun c' p now => .inl ?_, fun p pid log => by simp at log⟩
    by_cases same : c' = c
    · simp [same] at now
    · simpa [same] using now
  | schedule off code applied next =>
    obtain ⟨silent, _⟩ := scheduler_write code next
    exact ⟨fun c p now => .inl now, fun p pid log => by simp [State.commit, silent] at log⟩
  | @dispatch c o q countedTickets winningTicket off =>
    refine ⟨fun c' p now => ?_, fun p pid log => ?_⟩
    · by_cases same : c' = c
      · obtain rfl : q = p := by simpa [same] using now
        exact .inr rfl
      · exact .inl (by simpa [same] using now)
    · obtain ⟨rfl, _⟩ : q = p ∧ (s.proc q).pid = pid := by simpa using log
      exact ⟨off, by simp⟩
  | idle | trap | schedulerTrap => exact ⟨fun c p now => .inl now, fun p pid log => by simp at log⟩

theorem ticks_count_dispatches (ncpu : ℕ) (s : State ncpu) (reachable : (system ncpu).Reachable s) :
    (∀ p, s.lock (.proc p) = none → (s.proc p).state ≠ .unused →
      ∃ before since, s.log = before ++ .allocated p (s.proc p).pid :: since ∧
        (∀ pid, .allocated p pid ∉ since) ∧ (∀ pid, .dispatched p pid ∈ since → pid = (s.proc p).pid) ∧
        (s.proc p).ticks = int (since.count (.dispatched p (s.proc p).pid)) ∧
        ((system ncpu).ReachedBy PidsLeft s → ∀ q, .dispatched q (s.proc p).pid ∈ s.log → q = p)) ∧
    (∃ freed, (accounts ncpu).Reachable (s, freed)) ∧
    (∀ freed, (accounts ncpu).Reachable (s, freed) →
      (s.log.countP Event.dispatches : ℤ) ≡
        ∑ q with (s.proc q).state ≠ .unused, (s.proc q).ticks + freed [ZMOD 2 ^ 32]) ∧
    ∀ move after, step s move = some after →
      (∀ c p, after.stack c = some p → s.stack c = some p ∨ after.log = s.log ++ [.dispatched p (s.proc p).pid]) ∧
      ∀ p pid, after.log = s.log ++ [.dispatched p pid] → s.stack move.1 = none ∧ after.stack move.1 = some p := by
  have ticked := reachable_ticked reachable
  refine ⟨?_, reachable.record _ _, ?_, fun move after action => (step_moved action).dispatched⟩
  · intro p _ live
    obtain ⟨count, ⟨before, since, log, last, own, rfl⟩, ticks⟩ := (ticked p).2 live
    exact ⟨before, since, log, last, own, ticks, fun reached q => (reached_pids reached).owner p q live⟩
  · intro freed recorded
    have live : ∑ q with (s.proc q).state ≠ .unused, (s.proc q).ticks = ∑ q, (s.proc q).ticks := by
      refine Finset.sum_filter_of_ne fun q _ counted unused => counted ((ticked q).1 unused)
    rw [live]
    exact reachable_balanced recorded

def yieldsOnce : List (Fin 1 × Input) := onCpu .timer 266

set_option maxRecDepth 10000 in
theorem ticks_count_dispatches_yieldsOnce :
    ∃ s, (system 1).run (userinit 1) yieldsOnce = some s ∧ s.lock (.proc initproc) = none ∧
      s.log = [.allocated 0 1, .dispatched 0 1, .dispatched 0 1] ∧ (s.proc initproc).ticks = 2 := by
  have checked : ((system 1).run (userinit 1) yieldsOnce).map
      (fun s => (s.lock (.proc initproc), (s.proc initproc).state, (s.proc initproc).pid, s.log)) =
        some (none, .running, 1, [.allocated 0 1, .dispatched 0 1, .dispatched 0 1]) := by decide +kernel
  obtain ⟨s, result, facts⟩ := Option.map_eq_some_iff.mp checked
  simp only [Prod.mk.injEq] at facts
  obtain ⟨free, running, pid, log⟩ := facts
  have reachable : (system 1).Reachable s := System.Reachable.run .initial result
  obtain ⟨before, since, split, last, _, ticks, _⟩ :=
    (ticks_count_dispatches 1 s reachable).1 initproc free (by simp [running])
  rw [pid] at split ticks
  rw [log] at split
  have since_eq : since = [.dispatched 0 1, .dispatched 0 1] := by
    cases before with
    | nil => exact (List.cons.inj split).2.symm
    | cons event rest =>
      have later : .allocated initproc 1 ∈ [Event.dispatched 0 1, .dispatched 0 1] := by
        rw [List.cons_append, List.cons.injEq] at split
        rw [split.2]
        simp
      simp at later
  refine ⟨s, result, free, log, ?_⟩
  have two : [Event.dispatched 0 1, .dispatched 0 1].count (.dispatched initproc 1) = 2 := by decide
  rw [ticks, since_eq, two]
  exact int_eq_self (by norm_num) (by norm_num)

end OsProjects.Kernel
