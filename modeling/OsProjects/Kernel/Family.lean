import OsProjects.Kernel.Writes

namespace OsProjects.Kernel
open Transition

variable {ncpu : ℕ} {s after : State ncpu}

def ProcState.alive (state : ProcState) : Prop := state = .sleeping ∨ state = .runnable ∨ state = .running

instance (state : ProcState) : Decidable state.alive := inferInstanceAs (Decidable (_ ∨ _ ∨ _))

/-! ## Progress of exit and fork -/

/-- How far a call of `exit` has come: the slots `reparent` has seen, and then the wakeup of the parent. -/
def Pc.exiting (pc : Pc) : Option ℕ := match pc.base with
  | .exitClose _ | .exitAcquire _ => some 0
  | .sleepAcquire k | .sleepRelease k | .sleepSet k | .sleepTidy k | .sleepReacquire k => match k with
      | .exit _ _ => some 0
      | _ => none
  | .reparent _ i => some i.val
  | .exitWakeup _ => some NPROC
  | .exitLockAcquire _ => some (NPROC + 1)
  | _ => none

def Pc.adopted (pc : Pc) : Option Slot := match pc.base with
  | .forkParentRelease np _ | .forkRunnableAcquire np _ => some np
  | _ => none

theorem kernel_exiting {t : Slot → Proc} {nextpid : ℤ} {p : Slot} {o : Oracle} {pc pc' : Pc}
    {e : Effect Next} (code : kernel t nextpid p o pc = some e) (next : e.next = .goto pc') :
    pc'.exiting = none ∨ pc'.exiting = pc.exiting ∨ (p ≠ initproc ∧ pc'.exiting = some 0) ∨
      (∃ status i, pc = .reparent status i ∧ pc'.exiting = some (i.val + 1)) ∨
      ∃ status, pc = .exitWakeup status ∧ pc'.exiting = some (NPROC + 1) := by
  have leads := leads_kernel code next
  unfold Pc.exiting
  generalize pc'.base = base at leads ⊢
  rcases leads with idle | ⟨rfl, _⟩ | flow
  · cases idle <;> exact .inl rfl
  · exact .inr (.inl rfl)
  · cases flow <;> simp [*]

theorem kernel_adopted {t : Slot → Proc} {nextpid : ℤ} {p : Slot} {o : Oracle} {pc pc' : Pc}
    {e : Effect Next} (code : kernel t nextpid p o pc = some e) (next : e.next = .goto pc') :
    pc'.adopted = none ∨ pc'.adopted = pc.adopted ∨
      ∃ np pid, pc = .forkParentAcquire np pid ∧ pc'.adopted = some np := by
  have leads := leads_kernel code next
  unfold Pc.adopted
  generalize pc'.base = base at leads ⊢
  rcases leads with idle | ⟨rfl, _⟩ | flow
  · cases idle <;> exact .inl rfl
  · exact .inr (.inl rfl)
  · cases flow <;> simp

theorem Pc.adopted.forking {pc : Pc} {q : Slot} (adopted : pc.adopted = some q) : pc.forking = some q := by
  unfold Pc.adopted at adopted
  split at adopted <;> simp_all [Pc.forking]

/-! ## Parents and children -/

structure Family (s : State ncpu) : Prop where
  exits : ∀ p n, (s.kthread p).exiting = some n → p ≠ initproc
  handedOver : ∀ p n, (s.kthread p).exiting = some n → ∀ q, q.val < n → (s.proc q).parent ≠ some p
  adopted : ∀ p q, (s.kthread p).adopted = some q → (s.proc q).parent ≠ none
  init : (s.proc initproc).state.alive
  parentAlive : ∀ q p, (s.proc q).parent = some p → (s.proc p).state.alive
  fresh : ∀ q, (s.proc q).state = .unused → (s.proc q).parent = none
  hasParent : ∀ q, q ≠ initproc → (s.proc q).state.alive ∨ (s.proc q).state = .zombie → (s.proc q).parent ≠ none

theorem userinit_family (ncpu : ℕ) : Family (userinit ncpu) := by
  have orphan : ∀ q, ((userinit ncpu).proc q).parent = none := by
    intro q
    by_cases init : q = initproc <;> simp [userinit, init, noProc]
  have threads : ∀ p, ((userinit ncpu).kthread p).exiting = none ∧ ((userinit ncpu).kthread p).adopted = none := by
    intro p
    by_cases init : p = initproc <;> simp [userinit, init, Pc.exiting, Pc.adopted]
  refine ⟨?_, ?_, ?_, ?_, ?_, fun q _ => orphan q, ?_⟩
  · intro p n exiting
    simp [(threads p).1] at exiting
  · intro p n exiting
    simp [(threads p).1] at exiting
  · intro p q adopted
    simp [(threads p).2] at adopted
  · exact .inr (.inl rfl)
  · intro q p parent
    simp [orphan] at parent
  · intro q other live
    simp [userinit, other, noProc, ProcState.alive] at live

section advance
variable {c : Fin ncpu} {p : Slot} {o : Oracle} {e : Effect Next} {lock : Lock → Option (Fin ncpu)} {pc : Pc}
  (code : kernel s.proc s.nextpid p o (s.kthread p) = some e)
include code

theorem advance_parent {q r : Slot} (parent : (e.table s.proc q).parent = some r) :
    (s.proc q).parent = some r ∨ (∃ pid, s.kthread p = .forkParentAcquire q pid ∧ r = p) ∨
      (∃ status, s.kthread p = .reparent status q ∧ (s.proc q).parent = some p ∧ r = initproc) := by
  rcases kernel_slot code q with same | write
  · exact .inl (same ▸ parent)
  generalize e.table s.proc q = v, s.kthread p = pc, e.event = event at write parent
  cases write with
  | forkParent => exact .inr (.inl ⟨_, rfl, by simpa using parent.symm⟩)
  | reparent child => exact .inr (.inr ⟨_, rfl, child, by simpa using parent.symm⟩)
  | allocFail | reap => cases parent
  | _ => exact .inl parent

theorem advance_zombie {q : Slot} (zombie : (e.table s.proc q).state = .zombie) :
    (s.proc q).state = .zombie ∨ ∃ status, s.kthread p = .exitLockAcquire status ∧ q = p := by
  rcases kernel_slot code q with same | write
  · exact .inl (same ▸ zombie)
  generalize e.table s.proc q = v, s.kthread p = pc, e.event = event at write zombie ⊢
  cases write with
  | exit => exact .inr ⟨_, rfl, rfl⟩
  | kill =>
    by_cases sleeps : (s.proc q).state = .sleeping
    · simp [sleeps] at zombie
    · exact .inl (by simpa [sleeps] using zombie)
  | forkTickets | forkParent | reparent | tidy | setkilled | settickets | growproc => exact .inl zombie
  | _ => cases zombie

theorem advance_handedOver (held : Family s) {r q : Slot} {n : ℕ} (exiting : (s.kthread r).exiting = some n)
    (seen : q.val < n) : (e.table s.proc q).parent ≠ some r := by
  intro parent
  rcases advance_parent code parent with before | ⟨pid, thread, rfl⟩ | ⟨status, _, _, init⟩
  · exact held.handedOver r n exiting q seen before
  · simp [thread, Pc.exiting] at exiting
  · exact held.exits r n exiting init

theorem advance_exiting (held : Family s) (next : e.next = .goto pc) {r : Slot} {n : ℕ}
    (exiting : ((s.advance p e lock pc).kthread r).exiting = some n) :
    r ≠ initproc ∧ ∀ q, q.val < n → (e.table s.proc q).parent ≠ some r := by
  by_cases self : r = p
  · subst self
    rw [advance_kthread_self] at exiting
    rcases kernel_exiting code next with none | same | ⟨other, start⟩ | ⟨status, i, thread, progress⟩ |
      ⟨status, thread, progress⟩
    · simp [none] at exiting
    · have before := same ▸ exiting
      exact ⟨held.exits r n before, fun q => advance_handedOver code held before⟩
    · obtain rfl : 0 = n := by simpa [start] using exiting
      exact ⟨other, fun q seen => absurd seen (Nat.not_lt_zero _)⟩
    · obtain rfl : i.val + 1 = n := by simpa [progress] using exiting
      have before : (s.kthread r).exiting = some i.val := by rw [thread]; rfl
      refine ⟨held.exits r _ before, fun q seen parent => ?_⟩
      by_cases last : q = i
      · subst last
        rw [thread] at code
        simp only [kernel] at code
        by_cases child : (s.proc q).parent = some r
        · rw [if_pos child] at code
          cases code
          exact held.exits r _ before (by simpa [Effect.table] using parent.symm)
        · rw [if_neg child] at code
          cases code
          exact child parent
      · have := Fin.val_ne_of_ne last
        exact advance_handedOver code held before (q := q) (by omega) parent
    · obtain rfl : NPROC + 1 = n := by simpa [progress] using exiting
      have before : (s.kthread r).exiting = some NPROC := by rw [thread]; rfl
      exact ⟨held.exits r _ before, fun q _ => advance_handedOver code held before q.isLt⟩
  · have before := advance_other rfl self exiting
    exact ⟨held.exits r n before, fun q => advance_handedOver code held before⟩

variable (cores : Cores s)
include cores

theorem advance_orphan {q : Slot} (orphan : (e.table s.proc q).parent = none) :
    (s.proc q).parent = none ∨ (s.proc q).state = .unused ∨ (s.proc q).state = .zombie := by
  rcases kernel_slot code q with same | write
  · exact .inl (same ▸ orphan)
  have unused := cores.alloc p
  generalize e.table s.proc q = v, s.kthread p = pc, e.event = event at write orphan unused
  cases write with
  | forkParent | reparent => cases orphan
  | allocFail => exact .inr (.inl (unused q rfl))
  | reap zombie => exact .inr (.inr zombie)
  | _ => exact .inl orphan

theorem advance_alive {q : Slot} (alive : (s.proc q).state.alive) :
    (e.table s.proc q).state.alive ∨ ∃ status, s.kthread p = .exitLockAcquire status ∧ q = p := by
  rcases kernel_slot code q with same | write
  · exact .inl (by rwa [same])
  have unused := cores.alloc p
  generalize e.table s.proc q = v, s.kthread p = pc, e.event = event at write unused ⊢
  cases write with
  | alloc | allocFail => simp [unused q rfl, ProcState.alive] at alive
  | reap zombie => simp [zombie, ProcState.alive] at alive
  | exit => exact .inr ⟨_, rfl, rfl⟩
  | forkRunnable | wakeup | yield => exact .inl (.inr (.inl rfl))
  | sleep => exact .inl (.inl rfl)
  | kill =>
    left
    by_cases sleeps : (s.proc q).state = .sleeping
    · simp [sleeps, ProcState.alive]
    · simpa [sleeps] using alive
  | forkTickets | forkParent | reparent | tidy | setkilled | settickets | growproc => exact .inl alive

variable (held : Family s)
include held

theorem advance_fresh {q : Slot} (unused : (e.table s.proc q).state = .unused) :
    (e.table s.proc q).parent = none := by
  rcases kernel_slot code q with same | write
  · rw [same] at unused ⊢
    exact held.fresh q unused
  have used := cores.fork p
  generalize e.table s.proc q = v, s.kthread p = pc, e.event = event at write unused used ⊢
  cases write with
  | allocFail | reap => rfl
  | alloc | forkRunnable | exit | wakeup | sleep | yield => cases unused
  | forkParent => cases (used q rfl).symm.trans unused
  | reparent child =>
    have := held.fresh q unused
    simp [this] at child
  | kill =>
    refine held.fresh q ?_
    by_cases sleeps : (s.proc q).state = .sleeping
    · simp [sleeps] at unused
    · simpa [sleeps] using unused
  | forkTickets | tidy | setkilled | settickets | growproc => exact held.fresh _ unused

variable (on : s.stack c = some p)
include on

theorem advance_hasParent {q : Slot} (other : q ≠ initproc)
    (live : (e.table s.proc q).state.alive ∨ (e.table s.proc q).state = .zombie) :
    (e.table s.proc q).parent ≠ none := by
  rcases kernel_slot code q with same | write
  · rw [same] at live ⊢
    exact held.hasParent q other live
  have running := cores.state c p on
  have adopted := held.adopted p
  generalize e.table s.proc q = v, s.kthread p = pc, e.event = event at write live running adopted ⊢
  cases write with
  | alloc | allocFail | reap => simp [freeproc, ProcState.alive] at live
  | forkParent | reparent => simp
  | forkRunnable => exact adopted q rfl
  | exit | sleep | yield => exact held.hasParent p other (.inl (.inr (.inr running)))
  | wakeup _ sleeps => exact held.hasParent q other (.inl (.inl sleeps))
  | kill =>
    refine held.hasParent q other ?_
    by_cases sleeps : (s.proc q).state = .sleeping
    · exact .inl (.inl sleeps)
    · simpa [sleeps] using live
  | forkTickets | tidy | setkilled | settickets | growproc => exact held.hasParent _ other live

theorem advance_parentAlive {q r : Slot} (parent : (e.table s.proc q).parent = some r) :
    (e.table s.proc r).state.alive := by
  have alive : (s.proc r).state.alive := by
    rcases advance_parent code parent with before | ⟨pid, thread, rfl⟩ | ⟨status, _, _, rfl⟩
    · exact held.parentAlive q r before
    · have running := cores.state c r on
      rw [thread] at running
      exact .inr (.inr running)
    · exact held.init
  rcases advance_alive code cores alive with now | ⟨status, leaving, rfl⟩
  · exact now
  · -- the process that becomes a ZOMBIE has handed its children over to init
    have seen := held.handedOver r (NPROC + 1) (by rw [leaving]; rfl) q (by omega)
    rcases advance_parent code parent with before | ⟨pid, thread, _⟩ | ⟨status, thread, _⟩
    · exact absurd before seen
    · simp [thread] at leaving
    · simp [thread] at leaving

variable (next : e.next = .goto pc)
include next

theorem advance_adopted {r q : Slot} (adopted : ((s.advance p e lock pc).kthread r).adopted = some q) :
    (e.table s.proc q).parent ≠ none := by
  have kept : (s.kthread r).adopted = some q → (e.table s.proc q).parent ≠ none := by
    intro before orphan
    have used := cores.fork r q (Pc.adopted.forking before)
    rcases advance_orphan code cores orphan with nothing | unused | zombie
    · exact held.adopted r q before nothing
    · simp [used] at unused
    · simp [used] at zombie
  by_cases self : r = p
  · subst self
    rw [advance_kthread_self] at adopted
    rcases kernel_adopted code next with none | same | ⟨np, pid, thread, now⟩
    · simp [none] at adopted
    · exact kept (same ▸ adopted)
    · obtain rfl : np = q := by simpa [now] using adopted
      rw [thread] at code
      cases code
      simp [Effect.table]
  · exact kept (advance_other rfl self adopted)

theorem advance_family : Family (s.advance p e lock pc) where
  exits r n exiting := (advance_exiting code held next exiting).1
  handedOver r n exiting := (advance_exiting code held next exiting).2
  adopted r q := advance_adopted code cores held on next
  init := by
    rcases advance_alive code cores held.init with now | ⟨status, leaving, own⟩
    · exact now
    · exact absurd own.symm (held.exits p (NPROC + 1) (by rw [leaving]; rfl))
  parentAlive q r := advance_parentAlive code cores held on
  fresh q := advance_fresh code cores held
  hasParent q := advance_hasParent code cores held on

end advance

theorem Quiet.alive (quiet : Quiet s after) {q : Slot} (alive : (s.proc q).state.alive) :
    (after.proc q).state.alive := by
  obtain ⟨state, ticks, changed, states⟩ := quiet.proc q
  rw [changed]
  rcases states with same | ⟨_, runnable⟩ | ⟨_, running⟩
  · exact same ▸ alive
  · exact .inr (.inl runnable)
  · exact .inr (.inr running)

theorem Quiet.family (quiet : Quiet s after) (held : Family s) : Family after := by
  have parent : ∀ q, (after.proc q).parent = (s.proc q).parent := by
    intro q
    obtain ⟨state, ticks, changed, _⟩ := quiet.proc q
    rw [changed]
  have exiting := quiet.kept Pc.exiting (fun _ => rfl) (fun _ => rfl) (fun _ _ _ => rfl)
  have adopted := quiet.kept Pc.adopted (fun _ => rfl) (fun _ => rfl) (fun _ _ _ => rfl)
  refine ⟨?_, ?_, ?_, quiet.alive held.init, ?_, ?_, ?_⟩
  · intro p n now
    exact held.exits p n (exiting p ▸ now)
  · intro p n now q seen
    rw [parent]
    exact held.handedOver p n (exiting p ▸ now) q seen
  · intro p q now
    rw [parent]
    exact held.adopted p q (adopted p ▸ now)
  · intro q p now
    exact quiet.alive (held.parentAlive q p (parent q ▸ now))
  · intro q unused
    rw [parent]
    refine held.fresh q ?_
    obtain ⟨state, ticks, changed, states⟩ := quiet.proc q
    simp_all
  · intro q other live
    rw [parent]
    refine held.hasParent q other ?_
    obtain ⟨state, ticks, changed, states⟩ := quiet.proc q
    rw [changed] at live
    rcases states with same | ⟨sleeping, _⟩ | ⟨runnable, _⟩
    · exact same ▸ live
    · exact .inl (.inl sleeping)
    · exact .inl (.inr (.inl runnable))

theorem reachable_family (reachable : (system ncpu).Reachable s) : Family s := by
  refine reachable.invariant Family (userinit_family ncpu) ?_
  intro before move after previous held action
  have cores := reachable_cores previous
  obtain ⟨c, p, o, e, lock, pc, rfl, on, code, _, next, rfl⟩ | quiet := moved_cases cores (step_moved action)
  · exact advance_family code cores held on next
  · exact quiet.family held

end OsProjects.Kernel
