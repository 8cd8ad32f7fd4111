import OsProjects.Kernel.Wait

namespace OsProjects.Kernel
open Transition

variable {ncpu : ℕ} {s after : State ncpu}

def Asleep (s : State ncpu) (p : Slot) : Prop :=
  (s.proc p).state = .sleeping ∧ (s.proc p).chan = some (.proc p) ∨
    ∃ addr, (s.kthread p).dozing = some (.wait addr)

def Dead (s : State ncpu) (q : Slot) : Prop :=
  (s.proc q).state = .zombie ∨ (s.kthread q).exiting = some (NPROC + 1)

theorem not_wakes {p q : Slot} {pc : Pc} (wf : pc.wf p)
    (idle : pc.runState = .sleeping ∨ ∃ k, pc.dozing = some k) : ¬ pc.wakes q := by
  have locked : ∀ {next : Pc}, next.wf p → (next.runState = .sleeping ∨ ∃ k, next.dozing = some k) →
      .proc p ∈ next.held p := by
    intro next wf idle
    rcases idle with sleeping | ⟨k, dozing⟩
    · exact held_of_leaving (by simp [sleeping])
    · exact held_of_base wf (dozing_base dozing)
  intro wakes
  cases pc with
  | wakeupAcquire chan i next | wakeupRelease chan i next => cases wf.1 _ (locked wf.2 idle)
  | _ => exact wakes.elim

theorem Pc.parked.dozing {p : Slot} {pc : Pc} {state : ProcState} (parked : pc.parked state) (wf : pc.wf p) :
    pc.dozing = none := by
  have resumes : pc.resumes → pc.dozing = none := by
    intro resumes
    cases pc with
    | yieldRelease next =>
      cases dozing : next.dozing with
      | none => exact dozing
      | some k =>
        have := held_of_base wf.2 (dozing_base (p := p) dozing)
        simp [wf.1] at this
    | sleepTidy | forkret => rfl
    | _ => exact resumes.elim
  cases state
  case unused | zombie =>
    rw [show pc = .panic from parked]
    rfl
  case used | sleeping | runnable => exact resumes parked
  case running => exact parked.elim

theorem Cores.dozing_locked (cores : Cores s) {p : Slot} {k : Sleeper} (dozing : (s.kthread p).dozing = some k) :
    s.lock (.proc p) ≠ none := by
  by_cases on : ∃ c, s.stack c = some p
  · obtain ⟨c, on⟩ := on
    have locked := held_of_base (cores.wf p) (dozing_base dozing)
    simp [(cores.holds c _).mpr (held_of_stack on ▸ locked)]
  · have := (cores.parked p fun c here => on ⟨c, here⟩).dozing (cores.wf p)
    simp [this] at dozing

structure Notified (s : State ncpu) : Prop where
  scanned : ∀ p q, q.val < (s.kthread p).scanned → (s.proc q).parent = some p → (s.proc q).state ≠ .zombie
  woken : ∀ p q, Asleep s p → (s.proc q).parent = some p → Dead s q →
    ∃ r, .wait ∈ (s.kthread r).held r ∧ (s.kthread r).wakes p

theorem userinit_notified (ncpu : ℕ) : Notified (userinit ncpu) := by
  have orphan : ∀ q, ((userinit ncpu).proc q).parent = none := by
    intro q
    by_cases init : q = initproc <;> simp [userinit, init, noProc]
  refine ⟨?_, ?_⟩
  · intro p q _ parent
    simp [orphan] at parent
  · intro p q _ parent
    simp [orphan] at parent

section advance
variable {c : Fin ncpu} {p : Slot} {o : Oracle} {e : Effect Next} {lock : Lock → Option (Fin ncpu)} {pc : Pc}
  (code : kernel s.proc s.nextpid p o (s.kthread p) = some e) (next : e.next = .goto pc)
include code next

theorem advance_asleep {q : Slot} (asleep : Asleep (s.advance p e lock pc) q) :
    Asleep s q ∨ q = p ∧ ∃ addr, s.kthread p = .sleepRelease (.wait addr) := by
  rcases asleep with ⟨sleeping, chan⟩ | ⟨addr, dozing⟩
  · left
    change (e.table s.proc q).state = _ at sleeping
    change (e.table s.proc q).chan = _ at chan
    rcases kernel_slot code q with same | write
    · exact .inl (by rw [← same]; exact ⟨sleeping, chan⟩)
    generalize e.table s.proc q = v, eq : s.kthread p = pc, e.event = event at write sleeping chan
    cases write with
    | @sleep k =>
      cases k with
      | wait addr => exact .inr ⟨addr, by rw [eq]; rfl⟩
      | exit | other => cases chan
    | tidy => cases chan
    | kill =>
      by_cases sleeps : (s.proc q).state = .sleeping <;> simp [sleeps] at sleeping
    | forkTickets | forkParent | reparent | setkilled | settickets | growproc => exact .inl ⟨sleeping, chan⟩
    | _ => cases sleeping
  · by_cases self : q = p
    · subst self
      rw [advance_kthread_self] at dozing
      rcases kernel_dozing code next with none | same | ⟨k, thread, now⟩
      · simp [none] at dozing
      · exact .inl (.inr ⟨addr, same ▸ dozing⟩)
      · obtain rfl : k = .wait addr := by simpa [now] using dozing
        exact .inr ⟨rfl, addr, thread⟩
    · exact .inl (.inr ⟨addr, advance_other rfl self dozing⟩)

theorem advance_dead {q : Slot} (dead : Dead (s.advance p e lock pc) q) :
    Dead s q ∨ q = p ∧ ∃ status, s.kthread p = .exitWakeup status := by
  rcases dead with zombie | exiting
  · rcases advance_zombie code zombie with before | ⟨status, thread, rfl⟩
    · exact .inl (.inl before)
    · exact .inl (.inr (by rw [thread]; rfl))
  · by_cases self : q = p
    · subst self
      rw [advance_kthread_self] at exiting
      rcases kernel_exiting code next with none | same | ⟨_, start⟩ | ⟨status, i, thread, progress⟩ |
        ⟨status, thread, _⟩
      · simp [none] at exiting
      · exact .inl (.inr (same ▸ exiting))
      · simp [start] at exiting
      · have := i.isLt
        simp only [progress, Option.some.injEq] at exiting
        omega
      · exact .inr ⟨rfl, status, thread⟩
    · exact .inl (.inr (advance_other rfl self exiting))

variable (cores : Cores s) (held : Notified s)
include cores held

theorem advance_scanned {r q : Slot} (past : q.val < ((s.advance p e lock pc).kthread r).scanned)
    (parent : (e.table s.proc q).parent = some r) : (e.table s.proc q).state ≠ .zombie := by
  intro zombie
  by_cases self : r = p
  · subst self
    rw [advance_kthread_self] at past
    rcases kernel_scanned code next past with before | ⟨same, seen⟩
    · rcases advance_parent code parent with child | ⟨pid, thread, _⟩ | ⟨status, thread, _⟩
      · rcases advance_zombie code zombie with already | ⟨status, thread, _⟩
        · exact held.scanned r q before child already
        · simp [thread, Pc.scanned] at before
      · simp [thread, Pc.scanned] at before
      · simp [thread, Pc.scanned] at before
    · rw [same] at parent zombie
      exact seen.elim (· parent) (· zombie)
  · -- another thread that holds `wait_lock` neither adopts nor exits
    have before : q.val < (s.kthread r).scanned := by
      rw [advance_kthread self] at past
      split at past
      · simp [Pc.scanned] at past
      · exact past
    have locked := held_of_base (cores.wf r) (scanned_base (Nat.zero_lt_of_lt before))
    rcases advance_parent code parent with child | ⟨_, _, own⟩ | ⟨status, thread, _⟩
    · rcases advance_zombie code zombie with already | ⟨status, thread, _⟩
      · exact held.scanned r q before child already
      · exact self (cores.wait_unique locked (by simp [thread, Pc.held]))
    · exact self own
    · exact self (cores.wait_unique locked (by simp [thread, Pc.held]))

variable (on : s.stack c = some p) (applied : e.op.apply c s.lock = some lock)
include applied

omit held next in
theorem advance_passed {q : Slot} {next : Pc} (thread : s.kthread p = .wakeupAcquire (some (.proc q)) q next)
    (other : q ≠ p) : ¬ Asleep (s.advance p e lock pc) q := by
  rw [thread] at code
  simp only [kernel, if_neg other, Option.some.injEq] at code
  subst code
  rintro (⟨sleeping, chan⟩ | ⟨addr, dozing⟩)
  · by_cases sleeps : (s.proc q).state = .sleeping ∧ (s.proc q).chan = some (.proc q)
    · simp [State.advance, State.commit, Effect.table, wakeupSlot, sleeps] at sleeping
    · simp [State.advance, State.commit, Effect.table, wakeupSlot, sleeps] at sleeping chan
      exact sleeps ⟨sleeping, chan⟩
  · have before := advance_other rfl other dozing
    exact cores.dozing_locked before (LockOp.free_of_acquire applied)

include on

theorem advance_woken {q r : Slot} (asleep : Asleep (s.advance p e lock pc) q)
    (parent : (e.table s.proc r).parent = some q) (dead : Dead (s.advance p e lock pc) r) :
    ∃ w, .wait ∈ ((s.advance p e lock pc).kthread w).held w ∧ ((s.advance p e lock pc).kthread w).wakes q := by
  rcases advance_asleep code next asleep with before | ⟨rfl, addr, thread⟩
  · rcases advance_parent code parent with child | ⟨pid, thread, rfl⟩ | ⟨status, thread, child, rfl⟩
    · rcases advance_dead code next dead with dead | ⟨rfl, status, thread⟩
      · obtain ⟨w, locked, wakes⟩ := held.woken q r before child dead
        by_cases self : w = p
        · subst self
          have other : q ≠ w := by
            rintro rfl
            refine not_wakes (cores.wf q) ?_ wakes
            rcases before with ⟨sleeping, _⟩ | ⟨addr, dozing⟩
            · exact .inl (cores.state c q on ▸ sleeping)
            · exact .inr ⟨_, dozing⟩
          rcases kernel_wakes code next wakes locked with now | ⟨after, thread⟩
          · exact ⟨w, by rwa [advance_kthread_self]⟩
          · exact absurd asleep (advance_passed code cores applied thread other)
        · obtain ⟨c', there, _⟩ := cores.wait_on_stack locked
          exact ⟨w, by rw [advance_kthread_on code next cores self there]; exact ⟨locked, wakes⟩⟩
      · -- `exit` begins to wake its parent up
        rw [thread] at code
        cases code
        cases next
        exact ⟨r, by simp [child, Pc.held, Pc.wakes]⟩
    · -- a process in `fork` does not sleep
      rcases before with ⟨sleeping, _⟩ | ⟨addr, dozing⟩
      · simp [cores.state c q on, thread, Pc.runState] at sleeping
      · simp [thread, Pc.dozing] at dozing
    · -- `reparent` begins to wake init up
      rw [thread] at code
      simp only [kernel, if_pos child, Option.some.injEq] at code
      subst code
      cases next
      refine ⟨p, ?_⟩
      simp [Pc.wakes, Pc.held, apply_forNext (Pc.held p)]
  · -- `wait` has seen every slot
    have table : e.table s.proc = s.proc := by
      rw [thread] at code
      cases code
      rfl
    rw [table] at parent
    have locked : .wait ∈ (s.kthread q).held q := by simp [thread, Pc.held, Sleeper.lock]
    rcases advance_dead code next dead with (zombie | exiting) | ⟨rfl, status, leaving⟩
    · exact absurd zombie (held.scanned q r (by simp [thread, Pc.scanned, Sleeper.lock]) parent)
    · have exits := held_of_base (cores.wf r) (exiting_base exiting (Nat.succ_pos _))
      obtain rfl := cores.wait_unique locked exits
      simp [thread, Pc.exiting] at exiting
    · simp [thread] at leaving

theorem advance_notified : Notified (s.advance p e lock pc) where
  scanned _ _ := advance_scanned code next cores held
  woken _ _ := advance_woken code next cores held on applied

end advance

theorem Quiet.asleep (quiet : Quiet s after) {p : Slot} (asleep : Asleep after p) : Asleep s p := by
  rcases asleep with ⟨sleeping, chan⟩ | ⟨addr, dozes⟩
  · obtain ⟨state, ticks, changed, states⟩ := quiet.proc p
    rw [changed] at sleeping chan
    refine .inl ⟨?_, chan⟩
    rcases states with same | ⟨_, now⟩ | ⟨_, now⟩
    · exact same ▸ sleeping
    · simp [now] at sleeping
    · simp [now] at sleeping
  · have kept := quiet.kept Pc.dozing (fun _ => rfl) (fun _ => rfl) (fun _ _ _ => rfl)
    exact .inr ⟨addr, kept p ▸ dozes⟩

theorem Quiet.notified (quiet : Quiet s after) (held : Notified s) : Notified after := by
  have same : ∀ q, (after.proc q).parent = (s.proc q).parent ∧
      ((after.proc q).state = .zombie → (s.proc q).state = .zombie) := by
    intro q
    obtain ⟨state, ticks, changed, states⟩ := quiet.proc q
    rw [changed]
    refine ⟨rfl, ?_⟩
    rcases states with same | ⟨_, now⟩ | ⟨_, now⟩ <;> simp_all
  have scanned := quiet.kept Pc.scanned (fun _ => rfl) (fun _ => rfl) (fun _ _ _ => rfl)
  have exiting := quiet.kept Pc.exiting (fun _ => rfl) (fun _ => rfl) (fun _ _ _ => rfl)
  refine ⟨?_, ?_⟩
  · intro p q past parent zombie
    exact held.scanned p q (scanned p ▸ past) ((same q).1 ▸ parent) ((same q).2 zombie)
  · intro p q asleep parent dead
    have dead : Dead s q := dead.imp (same q).2 (exiting q ▸ ·)
    obtain ⟨r, locked, wakes⟩ := held.woken p q (quiet.asleep asleep) ((same q).1 ▸ parent) dead
    -- a thread that holds a lock is not interrupted
    have stays : after.kthread r = s.kthread r := by
      rcases quiet.kthread r with stays | leaving | ⟨nothing, _⟩
      · exact stays
      · simp [leaving, Pc.wakes] at wakes
      · simp [nothing] at locked
    exact ⟨r, by rw [stays]; exact ⟨locked, wakes⟩⟩

theorem reachable_notified (reachable : (system ncpu).Reachable s) : Notified s := by
  refine reachable.invariant Notified (userinit_notified ncpu) ?_
  intro before move after previous held action
  have cores := reachable_cores previous
  obtain ⟨c, p, o, e, lock, pc, rfl, on, code, applied, next, rfl⟩ | quiet :=
    moved_cases cores (step_moved action)
  · exact advance_notified code next cores held on applied
  · exact quiet.notified held

theorem no_lost_wakeup (ncpu : ℕ) (s : State ncpu) (reachable : (system ncpu).Reachable s)
    (free : s.lock .wait = none) (p q : Slot) :
    ¬ ((s.proc p).state = .sleeping ∧ (s.proc p).chan = some (.proc p) ∧
      (s.proc q).parent = some p ∧ (s.proc q).state = .zombie) := by
  rintro ⟨sleeping, chan, child, zombie⟩
  obtain ⟨r, locked, _⟩ := (reachable_notified reachable).woken p q (.inl ⟨sleeping, chan⟩) child (.inl zombie)
  obtain ⟨c, _, holds⟩ := (reachable_cores reachable).wait_on_stack locked
  simp [free] at holds

def onCpu (trap : Trap) (steps : ℕ) : List (Fin 1 × Input) :=
  List.replicate steps (0, .run ⟨trap, true, true, true, true, 0, .done⟩)

def childExits : List (Fin 1 × Input) := onCpu .fork 147 ++ onCpu (.wait 5) 209 ++ onCpu (.exit 7) 199

set_option maxRecDepth 10000 in
theorem no_lost_wakeup_childExits :
    ∃ s, (system 1).run (userinit 1) childExits = some s ∧ s.lock .wait = none ∧
      (s.proc initproc).chan = some (.proc initproc) ∧ (s.proc 1).parent = some initproc ∧
      (s.proc 1).state = .zombie ∧ (s.proc initproc).state ≠ .sleeping := by
  have checked : ((system 1).run (userinit 1) childExits).map
      (fun s => (s.lock .wait, (s.proc initproc).chan, (s.proc 1).parent, (s.proc 1).state)) =
        some (none, some (.proc initproc), some initproc, .zombie) := by decide +kernel
  obtain ⟨s, result, facts⟩ := Option.map_eq_some_iff.mp checked
  simp only [Prod.mk.injEq] at facts
  obtain ⟨free, chan, child, zombie⟩ := facts
  refine ⟨s, result, free, chan, child, zombie, fun sleeping => ?_⟩
  exact no_lost_wakeup 1 s (System.Reachable.run .initial result) free initproc 1 ⟨sleeping, chan, child, zombie⟩

end OsProjects.Kernel
