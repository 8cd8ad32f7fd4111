import OsProjects.Kernel.Recycle

namespace OsProjects.Kernel
open Transition

variable {ncpu : ℕ} {s after : State ncpu} {move : Fin ncpu × Input} {i : Slot}

/-! ## From the test of killed to sleep -/

def Pc.tested (pc : Pc) : Bool := match pc.base with
  | .sleepAcquire (.wait _) => true
  | _ => false

/-- `wait` has found `killed` not set and has not called `sleep` or is at its first lines. -/
def Pc.drowsy (pc : Pc) : Bool := match pc.base with
  | .waitKilledRelease _ k => !k
  | .sleepAcquire (.wait _) | .sleepRelease (.wait _) => true
  | _ => false

theorem kernel_drowsy {t : Slot → Proc} {nextpid : ℤ} {p : Slot} {o : Oracle} {pc pc' : Pc}
    {e : Effect Next} (code : kernel t nextpid p o pc = some e) (next : e.next = .goto pc') :
    pc'.drowsy = false ∨ pc'.drowsy = pc.drowsy ∨ e.table t = t ∧ (t p).killed = false := by
  have leads := leads_kernel code next
  unfold Pc.drowsy
  generalize pc'.base = base at leads ⊢
  rcases leads with idle | ⟨rfl, _⟩ | flow
  · cases idle <;> exact .inl rfl
  · exact .inr (.inl rfl)
  · cases flow
    case sleepAcquire k => cases k <;> simp
    all_goals simp [*]

theorem drowsy_base {p : Slot} {pc : Pc} (drowsy : pc.drowsy = true) :
    .wait ∈ pc.base.held p ∧ (pc.tested = true ∨ .proc p ∈ pc.base.held p) := by
  unfold Pc.drowsy at drowsy
  unfold Pc.tested
  split at drowsy <;> simp_all [Pc.held, Sleeper.lock]

theorem Cores.drowsy_locked (cores : Cores s) {p : Slot} (drowsy : (s.kthread p).drowsy = true) :
    (s.kthread p).tested = true ∨ s.lock (.proc p) ≠ none := by
  obtain ⟨waits, rest⟩ := drowsy_base (p := p) drowsy
  obtain ⟨c, on, _⟩ := cores.wait_on_stack (held_of_base (cores.wf p) waits)
  refine rest.imp_right fun own => ?_
  have held := held_of_base (cores.wf p) own
  simp [(cores.holds c _).mpr (held_of_stack on ▸ held)]

/-! ## Kills of a process in wait -/

def KillsUntested (s : State ncpu) (move : Fin ncpu × Input) : Prop :=
  ∀ i ∈ killing s move, (s.kthread i).tested = false

instance (s : State ncpu) (move : Fin ncpu × Input) : Decidable (KillsUntested s move) :=
  inferInstanceAs (Decidable (∀ i ∈ killing s move, _))

structure Unkilled (s : State ncpu) : Prop where
  drowsy : ∀ p, (s.kthread p).drowsy = true → (s.proc p).killed = false
  asleep : ∀ p, Asleep s p → (s.proc p).killed = false

theorem userinit_unkilled (ncpu : ℕ) : Unkilled (userinit ncpu) := by
  have none : ∀ p, ((userinit ncpu).proc p).killed = false := by
    intro p
    by_cases init : p = initproc <;> simp [userinit, init, noProc]
  exact ⟨fun p _ => none p, fun p _ => none p⟩

section advance
variable {c : Fin ncpu} {p : Slot} {o : Oracle} {e : Effect Next} {lock : Lock → Option (Fin ncpu)} {pc : Pc}
  (code : kernel s.proc s.nextpid p o (s.kthread p) = some e) (on : s.stack c = some p) {q : Slot}
include code on

theorem advance_killed (killed : (e.table s.proc q).killed = true) :
    (s.proc q).killed = true ∨ e.op = .acquire (.proc q) ∧
      (q = p ∧ (∃ next, s.kthread p = .setkilledAcquire next) ∨
        q ∈ killing s (c, .run o) ∧ (e.table s.proc q).state ≠ .sleeping) := by
  rcases kernel_slot code q with same | write
  · exact .inl (same ▸ killed)
  have found : ∀ pid, s.kthread p = .killAcquire pid q → (s.proc q).pid = pid →
      e.op = .acquire (.proc q) ∧ q ∈ killing s (c, .run o) := by
    intro pid thread equal
    refine ⟨?_, by simp [killing, on, thread, equal]⟩
    rw [thread] at code
    simp only [kernel, if_pos equal, Option.some.injEq] at code
    rw [← code]
  have own : ∀ next, s.kthread p = .setkilledAcquire next → e.op = .acquire (.proc p) := by
    intro next thread
    rw [thread] at code
    cases code
    rfl
  generalize e.table s.proc q = v, s.kthread p = pc, e.event = event at write killed found own ⊢
  cases write with
  | kill equal =>
    obtain ⟨taken, finds⟩ := found _ rfl equal
    refine .inr ⟨taken, .inr ⟨finds, ?_⟩⟩
    by_cases sleeps : (s.proc q).state = .sleeping <;> simp [sleeps]
  | setkilled => exact .inr ⟨own _ rfl, .inl ⟨rfl, _, rfl⟩⟩
  | allocFail | reap => cases killed
  | _ => exact .inl killed

variable (cores : Cores s) (held : Unkilled s) (applied : e.op.apply c s.lock = some lock)
include cores held applied

theorem advance_kept_drowsy (kills : KillsUntested s (c, .run o))
    (drowsy : (s.kthread q).drowsy = true) : (e.table s.proc q).killed = false := by
  by_contra killed
  rcases advance_killed code on (by simpa using killed) with before | ⟨taken, cause⟩
  · simp [held.drowsy q drowsy] at before
  rw [taken] at applied
  rcases cores.drowsy_locked drowsy with tested | locked
  · rcases cause with ⟨rfl, next, thread⟩ | ⟨finds, _⟩
    · -- `setkilled` is called without locks
      have wf := cores.wf q
      rw [thread] at drowsy wf
      change next.drowsy = true at drowsy
      have waits : .wait ∈ next.held q := held_of_base wf.2 (drowsy_base drowsy).1
      simp [wf.1] at waits
    · simp [kills q finds] at tested
  · exact locked (LockOp.free_of_acquire applied)

variable (next : e.next = .goto pc)
include next

theorem advance_drowsy (kills : KillsUntested s (c, .run o))
    (drowsy : ((s.advance p e lock pc).kthread q).drowsy = true) : (e.table s.proc q).killed = false := by
  by_cases self : q = p
  · subst self
    rw [advance_kthread_self] at drowsy
    rcases kernel_drowsy code next with awake | same | ⟨table, unkilled⟩
    · simp [awake] at drowsy
    · exact advance_kept_drowsy code on cores held applied kills (same ▸ drowsy)
    · rw [table, unkilled]
  · rw [advance_kthread self] at drowsy
    split at drowsy
    · cases drowsy
    · exact advance_kept_drowsy code on cores held applied kills drowsy

theorem advance_unkilled_asleep (asleep : Asleep (s.advance p e lock pc) q) : (e.table s.proc q).killed = false := by
  rcases advance_asleep code next asleep with before | ⟨rfl, addr, thread⟩
  · by_contra killed
    rcases advance_killed code on (by simpa using killed) with already | ⟨taken, cause⟩
    · simp [held.asleep q before] at already
    have free : s.lock (.proc q) = none := by
      rw [taken] at applied
      exact LockOp.free_of_acquire applied
    have sleeps : (s.proc q).state = .sleeping := by
      rcases before with ⟨sleeps, _⟩ | ⟨addr, dozing⟩
      · exact sleeps
      · exact absurd free (cores.dozing_locked dozing)
    by_cases self : q = p
    · subst self
      simp [cores.running_of_stack on (by simp [free])] at sleeps
    · rcases cause with ⟨same, _⟩ | ⟨_, woken⟩
      · exact self same
      · rcases asleep with ⟨still, _⟩ | ⟨addr, dozing⟩
        · exact woken still
        · exact cores.dozing_locked (advance_other rfl self dozing) free
  · have unkilled := held.drowsy q (by rw [thread]; rfl)
    rw [thread] at code
    cases code
    exact unkilled

theorem advance_unkilled (kills : KillsUntested s (c, .run o)) : Unkilled (s.advance p e lock pc) where
  drowsy _ := advance_drowsy code on cores held applied next kills
  asleep _ := advance_unkilled_asleep code on cores held applied next

end advance

theorem Quiet.unkilled (quiet : Quiet s after) (held : Unkilled s) : Unkilled after := by
  have drowsy := quiet.kept Pc.drowsy (fun _ => rfl) (fun _ => rfl) (fun _ _ _ => rfl)
  have killed : ∀ q, (after.proc q).killed = (s.proc q).killed := by
    intro q
    obtain ⟨state, ticks, changed, _⟩ := quiet.proc q
    rw [changed]
  refine ⟨fun p now => ?_, fun p asleep => ?_⟩
  · rw [killed]
    exact held.drowsy p (drowsy p ▸ now)
  · rw [killed]
    exact held.asleep p (quiet.asleep asleep)

theorem reached_unkilled (reached : (system ncpu).ReachedBy KillsUntested s) : Unkilled s := by
  refine reached.invariant Unkilled (userinit_unkilled ncpu) ?_
  intro before move after previous held kills action
  have cores := reachable_cores previous.reachable
  obtain ⟨c, p, o, e, lock, pc, rfl, on, code, applied, next, rfl⟩ | quiet :=
    moved_cases cores (step_moved action)
  · exact advance_unkilled code on cores held applied next kills
  · exact quiet.unkilled held

theorem killing_eq_some (finds : killing s move = some i) :
    ∃ c o p pid, move = (c, .run o) ∧ s.stack c = some p ∧ s.kthread p = .killAcquire pid i ∧
      (s.proc i).pid = pid := by
  unfold killing at finds
  (repeat' split at finds) <;> simp_all

theorem step_kill (action : step s move = some after)
    (finds : killing s move = some i) : (after.proc i).killed = true ∧ (after.proc i).state ≠ .sleeping := by
  obtain ⟨c, o, p, pid, rfl, on, thread, equal⟩ := killing_eq_some finds
  obtain ⟨table, _⟩ := step_at action on (by simp [thread]) (by rw [thread]; exact if_pos equal) rfl
  by_cases sleeps : (s.proc i).state = .sleeping <;> simp [table, Effect.table, sleeps]

/-- A process that sleeps in `wait` has not been killed, and one that is killed returns from `wait`. -/
theorem kill_not_lost_in_wait (ncpu : ℕ) (s : State ncpu) (reached : (system ncpu).ReachedBy KillsUntested s)
    (p : Slot) :
    (s.lock (.proc p) = none → (s.proc p).state = .sleeping → (s.proc p).chan = some (.proc p) →
      (s.proc p).killed = false) ∧
    (∀ move after, step s move = some after → killing s move = some p →
      (after.proc p).killed = true ∧ (after.proc p).state ≠ .sleeping) ∧
    ((s.proc p).killed = true → ∀ addr, s.kthread p ≠ .sleepAcquire (.wait addr) ∧
      s.kthread p ≠ .sleepRelease (.wait addr) ∧ s.kthread p ≠ .sleepSet (.wait addr)) ∧
    ∀ c o after, step s (c, .run o) = some after → s.stack c = some p →
      (∀ addr, s.kthread p = .waitKilledAcquire addr → after.kthread p = .waitKilledRelease addr (s.proc p).killed) ∧
      (∀ addr, s.kthread p = .waitKilledRelease addr true → after.kthread p = .waitFailRelease) ∧
      (s.kthread p = .waitFailRelease → after.kthread p = usertrapret (-1)) := by
  have unkilled := reached_unkilled reached
  refine ⟨?_, fun move after => step_kill, ?_, ?_⟩
  · intro _ sleeping chan
    exact unkilled.asleep p (.inl ⟨sleeping, chan⟩)
  · intro killed addr
    refine ⟨?_, ?_, ?_⟩
    · intro thread
      simp [unkilled.drowsy p (by rw [thread]; rfl)] at killed
    · intro thread
      simp [unkilled.drowsy p (by rw [thread]; rfl)] at killed
    · intro thread
      simp [unkilled.asleep p (.inr ⟨addr, by rw [thread]; rfl⟩)] at killed
  · intro c o after action on
    refine ⟨?_, ?_, ?_⟩
    · intro addr thread
      exact (step_at action on (by simp [thread]) (by rw [thread]; rfl) rfl).2.2
    · intro addr thread
      exact (step_at action on (by simp [thread]) (by rw [thread]; rfl) rfl).2.2
    · intro thread
      exact (step_at action on (by simp [thread]) (by rw [thread]; rfl) rfl).2.2

def onCpus (c : Fin 2) (trap : Trap) (steps : ℕ) : List (Fin 2 × Input) :=
  List.replicate steps (c, .run ⟨trap, true, true, true, true, 0, .done⟩)

def waits : List (Fin 2 × Input) := onCpus 0 .fork 147 ++ onCpus 0 (.wait 5) 77

set_option maxRecDepth 10000 in
theorem kill_not_lost_in_wait_waits :
    ∃ s, (system 2).runBy KillsUntested (userinit 2) waits = some s ∧ s.lock (.proc initproc) = none ∧
      (s.proc initproc).state = .sleeping ∧ (s.proc initproc).chan = some (.proc initproc) ∧
      (s.proc initproc).killed = false := by
  have checked : ((system 2).runBy KillsUntested (userinit 2) waits).map
      (fun s => (s.lock (.proc initproc), (s.proc initproc).state, (s.proc initproc).chan)) =
        some (none, .sleeping, some (.proc initproc)) := by decide +kernel
  obtain ⟨s, result, facts⟩ := Option.map_eq_some_iff.mp checked
  simp only [Prod.mk.injEq] at facts
  obtain ⟨free, sleeping, chan⟩ := facts
  have reached : (system 2).ReachedBy KillsUntested s := System.ReachedBy.runBy .initial result
  exact ⟨s, result, free, sleeping, chan, (kill_not_lost_in_wait 2 s reached initproc).1 free sleeping chan⟩

def killsBeforeSleep : List (Fin 2 × Input) :=
  onCpus 0 .fork 147 ++ onCpus 0 (.wait 5) 72 ++ onCpus 1 (.kill 1) 137 ++ onCpus 0 (.wait 5) 5

set_option maxRecDepth 10000 in
theorem killed_process_sleeps_in_wait :
    ∃ s, (system 2).run (userinit 2) killsBeforeSleep = some s ∧ s.lock (.proc initproc) = none ∧
      (s.proc initproc).state = .sleeping ∧ (s.proc initproc).chan = some (.proc initproc) ∧
      (s.proc initproc).killed = true := by
  have checked : ((system 2).run (userinit 2) killsBeforeSleep).map
      (fun s => (s.lock (.proc initproc), (s.proc initproc).state, (s.proc initproc).chan,
        (s.proc initproc).killed)) = some (none, .sleeping, some (.proc initproc), true) := by decide +kernel
  obtain ⟨s, result, facts⟩ := Option.map_eq_some_iff.mp checked
  simp only [Prod.mk.injEq] at facts
  exact ⟨s, result, facts⟩

end OsProjects.Kernel
