import OsProjects.Kernel.Control
import OsProjects.Kernel.Steps

namespace OsProjects.Kernel
open Transition

variable {ncpu : ℕ} {s : State ncpu} {c : Fin ncpu} {p : Slot} {q r : Slot} {i : Interrupt}

/-! ## Code that stays on the kernel stack -/

section advance
variable {o : Oracle} {e : Effect Next} {lock : Lock → Option (Fin ncpu)} {pc : Pc} {c' : Fin ncpu}

@[simp]
theorem advance_kthread_self : (s.advance p e lock pc).kthread p = pc := by
  simp [State.advance]

theorem advance_kthread (other : q ≠ p) :
    (s.advance p e lock pc).kthread q = if e.spawn = some q then .forkret else s.kthread q := by
  simp only [State.advance, State.commit, Function.update_of_ne other]
  cases e.spawn with
  | none => simp
  | some np => by_cases same : q = np <;> simp [same, eq_comm]

theorem advance_other {α : Type*} {f : Pc → Option α} (fresh : f .forkret = none) (other : q ≠ p) {a : α}
    (now : f ((s.advance p e lock pc).kthread q) = some a) : f (s.kthread q) = some a := by
  rw [advance_kthread other] at now
  split at now
  · simp [fresh] at now
  · exact now

theorem Cores.running_of_acquire (cores : Cores s) (there : s.stack c' = some q)
    (taken : e.op = .acquire (.proc q)) (applied : e.op.apply c s.lock = some lock) :
    (s.proc q).state = .running := by
  rw [taken] at applied
  exact cores.running_of_stack there (by simp [LockOp.free_of_acquire applied])

variable (code : kernel s.proc s.nextpid p o (s.kthread p) = some e) (next : e.next = .goto pc)
include code next

theorem advance_forking (forking : ((s.advance p e lock pc).kthread r).forking = some q) :
    (s.kthread r).forking = some q ∨ r = p ∧ e.spawn = some q := by
  by_cases self : r = p
  · subst self
    rw [advance_kthread_self] at forking
    rcases kernel_forking code next with none | same | ⟨own, spawn⟩
    · simp [none] at forking
    · exact .inl (same ▸ forking)
    · exact .inr ⟨rfl, spawn.trans (own.symm.trans forking)⟩
  · rw [advance_kthread self] at forking
    split at forking
    · simp [Pc.forking] at forking
    · exact .inl forking

variable (cores : Cores s)
include cores

theorem advance_change : StateChange s.proc p (s.kthread p) pc e := by
  have change := kernel_states code (cores.wf p) (cores.alloc p)
  rwa [next] at change

theorem spawn_unused {np : Slot} (spawn : e.spawn = some np) :
    (s.proc np).state = .unused ∧ (e.table s.proc np).state = .used := by
  cases advance_change code next cores with
  | alloc np' allocating used _ spawned =>
    obtain rfl : np' = np := by simpa [spawned] using spawn
    exact ⟨cores.alloc p _ allocating, used⟩
  | none _ none | self _ none | start _ _ _ _ none | wake _ _ _ _ none | reap _ _ _ _ none =>
    simp [none] at spawn

theorem advance_kthread_on (other : q ≠ p) (there : s.stack c' = some q) :
    (s.advance p e lock pc).kthread q = s.kthread q := by
  rw [advance_kthread other, if_neg]
  intro spawn
  exact (cores.live_of_stack there).1 (spawn_unused code next cores spawn).1

theorem spawn_allocating {np : Slot} (spawn : e.spawn = some np) :
    (s.kthread p).allocating = some np ∧ pc.allocating = none := by
  cases advance_change code next cores with
  | alloc np' allocating _ _ spawned _ finished =>
    obtain rfl : np' = np := by simpa [spawned] using spawn
    exact ⟨allocating, finished⟩
  | none _ none | self _ none | start _ _ _ _ none | wake _ _ _ _ none | reap _ _ _ _ none =>
    simp [none] at spawn

theorem advance_forkOnce {r' : Slot} (here : ((s.advance p e lock pc).kthread r).forking = some q)
    (there : ((s.advance p e lock pc).kthread r').forking = some q) : r = r' := by
  have clash {r : Slot} (before : (s.kthread r).forking = some q) (spawn : e.spawn = some q) : False := by
    have used := cores.fork r q before
    simp [(spawn_unused code next cores spawn).1] at used
  rcases advance_forking code next here with before | ⟨self, spawn⟩ <;>
    rcases advance_forking code next there with before' | ⟨self', spawn'⟩
  · exact cores.forkOnce r r' q before before'
  · exact (clash before spawn').elim
  · exact (clash before' spawn).elim
  · rw [self, self']

variable (on : s.stack c = some p) (applied : e.op.apply c s.lock = some lock)
include applied

theorem advance_state_other (other : q ≠ p) (there : s.stack c' = some q) :
    (e.table s.proc q).state = (s.proc q).state := by
  have live := cores.live_of_stack there
  refine (advance_change code next cores).kept other ?_ ?_ ?_
  · exact fun spawn => live.1 (spawn_unused code next cores spawn).1
  · exact fun forking => live.2 (cores.fork p q forking)
  · intro taken
    simp [cores.running_of_acquire there taken applied]

include on

theorem advance_state_self : (e.table s.proc p).state = pc.runState := by
  have live := cores.live_of_stack on
  have own := cores.state c p on
  cases advance_change code next cores with
  | none same _ state => rw [same, own, state]
  | self _ _ state => exact state
  | alloc np allocating _ same _ state =>
    rw [same p fun equal => live.1 (equal ▸ cores.alloc p np allocating), own, state]
  | start np forking _ same _ state =>
    rw [same p fun equal => live.2 (equal ▸ cores.fork p np forking), own, state]
  | wake q sleeping _ same _ state taken =>
    refine (same p fun equal => ?_).trans (own.trans state.symm)
    subst equal
    simp [cores.running_of_acquire on taken applied] at sleeping
  | reap q zombie _ same _ state taken =>
    refine (same p fun equal => ?_).trans (own.trans state.symm)
    subst equal
    simp [cores.running_of_acquire on taken applied] at zombie

omit applied in
theorem advance_parked (off : ∀ c', s.stack c' ≠ some q) :
    ((s.advance p e lock pc).kthread q).parked (e.table s.proc q).state := by
  have other : q ≠ p := fun equal => off c (equal ▸ on)
  have before := cores.parked q off
  rw [advance_kthread other]
  cases advance_change code next cores with
  | none same spawn => simpa [spawn, same] using before
  | self same spawn => simpa [spawn, same q other] using before
  | alloc np _ used same spawn =>
    by_cases equal : q = np
    · subst equal
      simp [spawn, used, Pc.parked, Pc.resumes]
    · simpa [spawn, same q equal, Ne.symm equal] using before
  | start np forking runnable same spawn =>
    by_cases equal : q = np
    · subst equal
      simpa [spawn, runnable, Pc.parked, cores.fork p q forking] using before
    · simpa [spawn, same q equal] using before
  | wake r sleeping runnable same spawn =>
    by_cases equal : q = r
    · subst equal
      simpa [spawn, runnable, Pc.parked, sleeping] using before
    · simpa [spawn, same q equal] using before
  | reap r zombie unused same spawn =>
    by_cases equal : q = r
    · subst equal
      simpa [spawn, unused, Pc.parked, zombie] using before
    · simpa [spawn, same q equal] using before

omit applied in
theorem advance_alloc (allocating : ((s.advance p e lock pc).kthread r).allocating = some q) :
    (e.table s.proc q).state = .unused := by
  have before : (s.proc q).state = .unused ∧ e.spawn ≠ some q := by
    by_cases self : r = p
    · subst self
      rw [advance_kthread_self] at allocating
      refine ⟨?_, fun spawn => by simp [(spawn_allocating code next cores spawn).2] at allocating⟩
      rcases kernel_allocating code next (cores.wf r) with none | same | ⟨found, here, unused⟩
      · simp [none] at allocating
      · exact cores.alloc r q (same ▸ allocating)
      · obtain rfl : found = q := by simpa [here] using allocating
        exact unused
    · rw [advance_kthread self] at allocating
      split at allocating
      · simp [Pc.allocating] at allocating
      · exact ⟨cores.alloc r q allocating, fun spawn =>
          self (cores.allocating_unique allocating (spawn_allocating code next cores spawn).1)⟩
  obtain ⟨unused, notSpawned⟩ := before
  have other : q ≠ p := fun equal => (cores.live_of_stack on).1 (equal ▸ unused)
  rw [(advance_change code next cores).kept other notSpawned ?_ (by simp [unused]), unused]
  intro forking
  simp [cores.fork p q forking] at unused

omit applied in
theorem advance_fork (forking : ((s.advance p e lock pc).kthread r).forking = some q) :
    (e.table s.proc q).state = .used := by
  have change := advance_change code next cores
  rcases advance_forking code next forking with before | ⟨_, spawn⟩
  · have used := cores.fork r q before
    have other : q ≠ p := fun equal => (cores.live_of_stack on).2 (equal ▸ used)
    have notSpawned : e.spawn ≠ some q := fun spawn => by
      simp [(spawn_unused code next cores spawn).1] at used
    by_cases own : (s.kthread p).forking = some q
    · cases change with
      | none same => rw [same, used]
      | self same => rw [same q other, used]
      | alloc np _ _ same spawn => rw [same q fun equal => notSpawned (equal ▸ spawn), used]
      | start np starting _ _ _ _ finished =>
        obtain rfl := cores.forkOnce r p q before own
        simp [finished] at forking
      | wake r' sleeping _ same =>
        rw [same q, used]
        rintro rfl
        simp [used] at sleeping
      | reap r' zombie _ same =>
        rw [same q, used]
        rintro rfl
        simp [used] at zombie
    · rw [change.kept other notSpawned own (by simp [used]), used]
  · exact (spawn_unused code next cores spawn).2

theorem advance_locks : e.op.Moves (· ∈ s.held c) (· ∈ pc.held p) ∧ pc.wf p := by
  have fresh : ∀ a, e.op = .acquire a → a ∉ (s.kthread p).held p := by
    intro a acquires
    rw [acquires] at applied
    exact Cores.held_of_stack on ▸ cores.fresh (LockOp.free_of_acquire applied)
  have moves := kernel_locks code (cores.wf p) fresh
  rw [next] at moves
  exact Cores.held_of_stack on ▸ moves

theorem advance_cores : Cores (s.advance p e lock pc) where
  locks := by
    refine cores.locks.apply applied ?_ fun c' l same => ?_
    · rw [Cores.held_of_stack (s := s.advance p e lock pc) on, advance_kthread_self]
      exact (advance_locks code next cores on applied).1
    · cases there : s.stack c' with
      | none => simp [State.held, there, State.advance, State.commit]
      | some q =>
        have other : q ≠ p := fun equal => same (cores.stack_unique there (equal ▸ on))
        rw [Cores.held_of_stack (s := s.advance p e lock pc) there, Cores.held_of_stack there,
          advance_kthread_on code next cores other there]
  wf := by
    intro q
    by_cases self : q = p
    · subst self
      rw [advance_kthread_self]
      exact (advance_locks code next cores on applied).2
    · rw [advance_kthread self]
      split
      · trivial
      · exact cores.wf q
  schedWf := cores.schedWf
  cpuProc := cores.cpuProc
  running := cores.running
  single := cores.single
  state := by
    intro c' q there
    by_cases self : q = p
    · subst self
      rw [advance_kthread_self]
      exact advance_state_self code next cores on applied
    · rw [advance_kthread_on code next cores self there, ← cores.state c' q there]
      exact advance_state_other code next cores applied self there
  parked _ off := advance_parked code next cores on off
  alloc _ _ allocating := advance_alloc code next cores on allocating
  fork _ _ forking := advance_fork code next cores on forking
  forkOnce _ _ _ here there := advance_forkOnce code next cores here there

end advance

/-! ## Switching between threads -/

theorem wf_sched {resume : Pc} (wf : (Pc.sched resume).wf p) :
    resume.wf p ∧ resume.parked (Pc.sched resume).runState ∧ resume.allocating = none := by
  cases resume <;> first | exact wf.elim | exact ⟨wf, trivial, rfl⟩ | exact ⟨trivial, rfl, rfl⟩

theorem noff_eq_one {lock : Lock → Option (Fin ncpu)} (one : noff lock c = 1) (holds : lock (.proc p) = some c)
    {l : Lock} (held : lock l = some c) : l = .proc p := by
  have own : p ∈ Finset.univ.filter fun q : Slot => lock (.proc q) = some c := by simp [holds]
  have positive := Finset.card_pos.mpr ⟨p, own⟩
  simp only [noff] at one
  cases l with
  | wait => simp only [held, if_true] at one; omega
  | pid => simp only [held, if_true] at one; omega
  | proc q =>
    have bound : (Finset.univ.filter fun q : Slot => lock (.proc q) = some c).card ≤ 1 := by omega
    rw [Finset.card_le_one.mp bound q (by simp [held]) p own]

theorem noff_eq_zero {lock : Lock → Option (Fin ncpu)} (zero : noff lock c = 0) (l : Lock) : lock l ≠ some c := by
  intro held
  simp only [noff, Nat.add_eq_zero_iff, Finset.card_eq_zero, Finset.filter_eq_empty_iff] at zero
  cases l with
  | wait => simp [held] at zero
  | pid => simp [held] at zero
  | proc q => exact zero.2 (Finset.mem_univ q) held

theorem update_forking {kthread : Slot → Pc} {pc : Pc} (same : pc.forking = (kthread p).forking) (r : Slot) :
    (Function.update kthread p pc r).forking = (kthread r).forking := by
  by_cases self : r = p
  · subst self
    simpa using same
  · simp [self]

theorem update_allocating {kthread : Slot → Pc} {pc : Pc} (nothing : pc.allocating = none)
    (allocating : (Function.update kthread p pc r).allocating = some q) :
    (kthread r).allocating = some q := by
  by_cases self : r = p
  · subst self
    simp [nothing] at allocating
  · simpa [self] using allocating

theorem swtched_of_dispatched {pc : SchedPc} (dispatched : pc.dispatched = some p) : pc = .swtched p := by
  cases pc <;> simp_all [SchedPc.dispatched]

theorem swtch_cores {resume : Pc} (cores : Cores s) (on : s.stack c = some p)
    (leaving : s.kthread p = .sched resume) (may : maySwtch s c p) :
    Cores { s with
      kthread := Function.update s.kthread p resume
      stack := Function.update s.stack c none } := by
  obtain ⟨wf, parked, nothing⟩ := wf_sched (leaving ▸ cores.wf p)
  have others {c' : Fin ncpu} {q : Slot} (there : Function.update s.stack c none c' = some q) :
      c' ≠ c ∧ s.stack c' = some q ∧ q ≠ p := by
    have distinct : c' ≠ c := by
      rintro rfl
      simp at there
    rw [Function.update_of_ne distinct] at there
    exact ⟨distinct, there, fun equal => distinct (cores.stack_unique there (equal ▸ on))⟩
  have forkings : ∀ r, (Function.update s.kthread p resume r).forking = (s.kthread r).forking :=
    update_forking (by simp [leaving, Pc.forking])
  refine ⟨?_, ?_, cores.schedWf, cores.cpuProc, ?_, cores.single, ?_, ?_, ?_, ?_, ?_⟩
  · intro l c'
    by_cases same : c' = c
    · subst same
      have back : s.scheduler c' = .swtched p := swtched_of_dispatched (cores.running c' p on)
      have only : s.lock l = some c' ↔ l = .proc p :=
        ⟨noff_eq_one may.2.1 may.1, fun equal => equal ▸ may.1⟩
      simp [State.held, back, SchedPc.held, only]
    · refine (cores.holds c' l).trans ?_
      cases there : s.stack c' with
      | none => simp [State.held, same, there]
      | some q =>
        have other := (others (by rw [Function.update_of_ne same, there])).2.2
        simp [State.held, same, there, other]
  · intro q
    by_cases self : q = p
    · subst self
      simpa using wf
    · simpa [self] using cores.wf q
  · intro c' q there
    exact cores.running c' q (others there).2.1
  · intro c' q there
    obtain ⟨_, before, other⟩ := others there
    simpa [other] using cores.state c' q before
  · intro q off
    by_cases self : q = p
    · subst self
      simpa [cores.state c q on, leaving] using parked
    · have off' : ∀ c', s.stack c' ≠ some q := by
        intro c' there
        refine off c' ?_
        have distinct : c' ≠ c := by
          rintro rfl
          exact self (by simpa [there] using on)
        simpa [distinct] using there
      simpa [self] using cores.parked q off'
  · intro r q allocating
    exact cores.alloc r q (update_allocating nothing allocating)
  · intro r q forking
    exact cores.fork r q (forkings r ▸ forking)
  · intro r r' q here there
    exact cores.forkOnce r r' q (forkings r ▸ here) (forkings r' ▸ there)

theorem dispatch_cores {countedTickets winningTicket : ℤ} {v : Proc} {log : List Event} (cores : Cores s)
    (off : s.stack c = none) (scanning : s.scheduler c = .scanAcquire p countedTickets winningTicket)
    (runnable : (s.proc p).state = .runnable) (free : s.lock (.proc p) = none) (running : v.state = .running) :
    Cores { s with
      proc := Function.update s.proc p v
      lock := Function.update s.lock (.proc p) (some c)
      scheduler := Function.update s.scheduler c (.swtched p)
      cpuProc := Function.update s.cpuProc c (some p)
      stack := Function.update s.stack c (some p)
      log := log } := by
  have notOn : ∀ c', s.stack c' ≠ some p := by
    intro c' there
    simp [cores.running_of_stack there (by simp [free])] at runnable
  have resumes : (s.kthread p).resumes := by
    simpa [Pc.parked, runnable] using cores.parked p notOn
  have notDispatched : ∀ c', (s.scheduler c').dispatched ≠ some p := by
    intro c' dispatched
    cases there : s.stack c' with
    | none =>
      have holds : s.lock (.proc p) = some c' :=
        (cores.holds c' _).mpr (by simp [State.held, there, swtched_of_dispatched dispatched, SchedPc.held])
      simp [free] at holds
    | some q =>
      have := cores.running c' q there
      exact notOn c' (by simpa [dispatched, there] using this.symm)
  have others {c' : Fin ncpu} (distinct : c' ≠ c) :
      Function.update s.stack c (some p) c' = s.stack c' ∧
        Function.update s.scheduler c (.swtched p) c' = s.scheduler c' := by
    simp [distinct]
  have applied : (LockOp.acquire (.proc p)).apply c s.lock = some (Function.update s.lock (.proc p) (some c)) :=
    if_pos free
  refine ⟨?_, cores.wf, ?_, ?_, ?_, ?_, ?_, ?_, ?_, ?_, cores.forkOnce⟩
  · refine cores.locks.apply applied ?_ fun c' l same => ?_
    · simp [LockOp.Moves, State.held, off, scanning, SchedPc.held, resumes.held]
    · simp only [State.held, (others same).1, (others same).2]
  · intro c'
    by_cases same : c' = c
    · subst same
      simp [SchedPc.wf]
    · simpa [same] using cores.schedWf c'
  · intro c'
    by_cases same : c' = c
    · subst same
      simp [SchedPc.dispatched]
    · simpa [same] using cores.cpuProc c'
  · intro c' q there
    by_cases same : c' = c
    · subst same
      simpa [SchedPc.dispatched] using there
    · simp only [(others same).1, (others same).2] at there ⊢
      exact cores.running c' q there
  · intro c₁ c₂ q first second
    by_cases one : c₁ = c <;> by_cases two : c₂ = c
    · rw [one, two]
    · subst one
      obtain rfl : p = q := by simpa [SchedPc.dispatched] using first
      simp only [(others two).2] at second
      exact (notDispatched c₂ second).elim
    · subst two
      obtain rfl : p = q := by simpa [SchedPc.dispatched] using second
      simp only [(others one).2] at first
      exact (notDispatched c₁ first).elim
    · simp only [(others one).2, (others two).2] at first second
      exact cores.single c₁ c₂ q first second
  · intro c' q there
    by_cases same : c' = c
    · subst same
      obtain rfl : p = q := by simpa using there
      simp [running, resumes.runState]
    · simp only [(others same).1] at there
      have other : q ≠ p := fun equal => notOn c' (equal ▸ there)
      simpa [other] using cores.state c' q there
  · intro q off'
    have other : q ≠ p := by
      rintro rfl
      exact off' c (by simp)
    have before : ∀ c', s.stack c' ≠ some q := by
      intro c' there
      by_cases same : c' = c
      · subst same
        simp [off] at there
      · exact off' c' (by simpa [same] using there)
    simpa [other] using cores.parked q before
  · intro r q allocating
    have unused := cores.alloc r q allocating
    have other : q ≠ p := by
      rintro rfl
      simp [runnable] at unused
    simpa [other] using unused
  · intro r q forking
    have used := cores.fork r q forking
    have other : q ≠ p := by
      rintro rfl
      simp [runnable] at used
    simpa [other] using used

theorem idle_cores (cores : Cores s) (off : s.stack c = none) (back : s.scheduler c = .swtched p)
    (holds : s.lock (.proc p) = some c) :
    Cores { s with
      lock := Function.update s.lock (.proc p) none
      scheduler := Function.update s.scheduler c (.totalAcquire 0 0)
      cpuProc := Function.update s.cpuProc c none } := by
  have others {c' : Fin ncpu} {q : Slot} (there : s.stack c' = some q) : c' ≠ c := by
    rintro rfl
    simp [off] at there
  have dispatched {c' : Fin ncpu} {q : Slot}
      (there : (Function.update s.scheduler c (.totalAcquire 0 0) c').dispatched = some q) :
      (s.scheduler c').dispatched = some q := by
    by_cases same : c' = c
    · subst same
      simp [SchedPc.dispatched] at there
    · simpa [same] using there
  have applied : (LockOp.release (.proc p)).apply c s.lock = some (Function.update s.lock (.proc p) none) :=
    if_pos holds
  refine ⟨?_, cores.wf, ?_, ?_, ?_, ?_, cores.state, cores.parked, cores.alloc, cores.fork, cores.forkOnce⟩
  · refine cores.locks.apply applied ?_ fun c' l same => ?_
    · simp [LockOp.Moves, State.held, off, back, SchedPc.held]
    · simp [State.held, same]
  · intro c'
    by_cases same : c' = c
    · subst same
      simp [SchedPc.wf]
    · simpa [same] using cores.schedWf c'
  · intro c'
    by_cases same : c' = c
    · subst same
      simp [SchedPc.dispatched]
    · simpa [same] using cores.cpuProc c'
  · intro c' q there
    have same := others there
    simpa [same] using cores.running c' q there
  · intro c₁ c₂ q first second
    exact cores.single c₁ c₂ q (dispatched first) (dispatched second)

theorem schedule_cores {o : Oracle} {e : Effect SchedNext} {lock : Lock → Option (Fin ncpu)} {pc : SchedPc}
    (cores : Cores s) (off : s.stack c = none) (code : scheduler s.proc o (s.scheduler c) = e)
    (applied : e.op.apply c s.lock = some lock) (next : e.next = .goto pc) :
    Cores { s.commit e lock with scheduler := Function.update s.scheduler c pc } := by
  obtain ⟨moves, wf⟩ := scheduler_locks code next (cores.schedWf c)
  obtain ⟨spawn, before, now, states⟩ := scheduler_states code next (cores.schedWf c)
  have threads : (s.commit e lock).kthread = s.kthread := by simp [State.commit, spawn]
  have dispatched (c' : Fin ncpu) :
      (Function.update s.scheduler c pc c').dispatched = (s.scheduler c').dispatched := by
    by_cases same : c' = c
    · subst same
      simp [before, now]
    · simp [same]
  have running {c' : Fin ncpu} {q : Slot} (there : s.stack c' = some q) :
      (e.table s.proc q).state = (s.proc q).state := by
    rcases states q with same | ⟨sleeping, _, taken⟩
    · exact same
    · rw [taken] at applied
      have := cores.running_of_stack there (by simp [LockOp.free_of_acquire applied])
      simp [sleeping] at this
  refine ⟨?_, ?_, ?_, ?_, ?_, ?_, ?_, ?_, ?_, ?_, ?_⟩
  · refine cores.locks.apply applied ?_ fun c' l same => ?_
    · have stack : (s.commit e lock).stack c = none := off
      simpa only [State.held, off, stack, Function.update_self] using moves
    · have stack : (s.commit e lock).stack c' = s.stack c' := rfl
      simp only [State.held, stack, threads, Function.update_of_ne same]
  · simpa [threads] using cores.wf
  · intro c'
    by_cases same : c' = c
    · subst same
      simpa using wf
    · simpa [same] using cores.schedWf c'
  · intro c'
    rw [dispatched]
    exact cores.cpuProc c'
  · intro c' q there
    rw [dispatched]
    exact cores.running c' q there
  · intro c₁ c₂ q first second
    rw [dispatched] at first second
    exact cores.single c₁ c₂ q first second
  · intro c' q there
    rw [threads, ← cores.state c' q there]
    exact running there
  · intro q notOn
    rw [threads]
    have parked := cores.parked q notOn
    change (s.kthread q).parked (e.table s.proc q).state
    rcases states q with same | ⟨sleeping, runnable, _⟩
    · rwa [same]
    · rw [sleeping] at parked
      rwa [runnable]
  · intro r q allocating
    rw [threads] at allocating
    have unused := cores.alloc r q allocating
    rcases states q with same | ⟨sleeping, _⟩
    · exact same.trans unused
    · simp [unused] at sleeping
  · intro r q forking
    rw [threads] at forking
    have used := cores.fork r q forking
    rcases states q with same | ⟨sleeping, _⟩
    · exact same.trans used
    · simp [used] at sleeping
  · rw [threads]
    exact cores.forkOnce

/-! ## Interrupts -/

theorem kerneltrap_pc {q : Proc} {pc : Pc} (nothing : pc.held p = []) (wf : pc.wf p) :
    (kerneltrap q pc i).held p = [] ∧ (kerneltrap q pc i).wf p ∧ (kerneltrap q pc i).forking = pc.forking := by
  cases i <;> simp only [kerneltrap]
  case timer | clock => split <;> simp [Pc.held, Pc.wf, Pc.forking, nothing, wf]
  case device => simp [Pc.held, Pc.wf, Pc.forking, nothing, wf]

theorem trap_cores (cores : Cores s) (on : s.stack c = some p) (enabled : noff s.lock c = 0) :
    Cores { s with kthread := Function.update s.kthread p (kerneltrap (s.proc p) (s.kthread p) i) } := by
  have nothing : (s.kthread p).held p = [] := by
    refine List.eq_nil_iff_forall_not_mem.mpr fun l member => ?_
    exact noff_eq_zero enabled l ((cores.holds c l).mpr (Cores.held_of_stack on ▸ member))
  obtain ⟨held, wf, forking⟩ := kerneltrap_pc (q := s.proc p) (i := i) nothing (cores.wf p)
  have forkings : ∀ r, (Function.update s.kthread p (kerneltrap (s.proc p) (s.kthread p) i) r).forking =
      (s.kthread r).forking := update_forking forking
  refine ⟨?_, ?_, cores.schedWf, cores.cpuProc, cores.running, cores.single, ?_, ?_, ?_, ?_, ?_⟩
  · intro l c'
    refine (cores.holds c' l).trans ?_
    cases there : s.stack c' with
    | none => simp [State.held, there]
    | some q =>
      by_cases self : q = p
      · subst self
        simp [State.held, there, held, nothing]
      · simp [State.held, there, self]
  · intro q
    by_cases self : q = p
    · subst self
      simpa using wf
    · simpa [self] using cores.wf q
  · intro c' q there
    by_cases self : q = p
    · subst self
      simpa [runState_of_held_nil held, runState_of_held_nil nothing] using cores.state c' q there
    · simpa [self] using cores.state c' q there
  · intro q off
    have other : q ≠ p := fun equal => off c (equal ▸ on)
    simpa [other] using cores.parked q off
  · intro r q allocating
    exact cores.alloc r q (update_allocating (allocating_of_held_nil held) allocating)
  · intro r q forking
    exact cores.fork r q (forkings r ▸ forking)
  · intro r r' q here there
    exact cores.forkOnce r r' q (forkings r ▸ here) (forkings r' ▸ there)

theorem schedulerTrap_cores (cores : Cores s) (off : s.stack c = none) (enabled : noff s.lock c = 0) :
    Cores { s with scheduler := Function.update s.scheduler c (schedulerTrap (s.scheduler c) i) } := by
  have nothing : (s.scheduler c).held = [] := by
    refine List.eq_nil_iff_forall_not_mem.mpr fun l member => ?_
    exact noff_eq_zero enabled l ((cores.holds c l).mpr (by simpa [State.held, off] using member))
  have trapped : (schedulerTrap (s.scheduler c) i).held = [] ∧ (schedulerTrap (s.scheduler c) i).wf := by
    have wf := cores.schedWf c
    cases i <;> simp [schedulerTrap, SchedPc.wf, nothing, wf]
    all_goals rfl
  have dispatched (c' : Fin ncpu) :
      (Function.update s.scheduler c (schedulerTrap (s.scheduler c) i) c').dispatched =
        (s.scheduler c').dispatched := by
    by_cases same : c' = c
    · subst same
      simp [dispatched_of_held_nil trapped.1, dispatched_of_held_nil nothing]
    · simp [same]
  refine ⟨?_, cores.wf, ?_, ?_, ?_, ?_, cores.state, cores.parked, cores.alloc, cores.fork, cores.forkOnce⟩
  · intro l c'
    refine (cores.holds c' l).trans ?_
    by_cases same : c' = c
    · subst same
      simp [State.held, off, nothing, trapped.1]
    · simp [State.held, same]
  · intro c'
    by_cases same : c' = c
    · subst same
      simpa using trapped.2
    · simpa [same] using cores.schedWf c'
  · intro c'
    rw [dispatched]
    exact cores.cpuProc c'
  · intro c' q there
    rw [dispatched]
    exact cores.running c' q there
  · intro c₁ c₂ q first second
    rw [dispatched] at first second
    exact cores.single c₁ c₂ q first second

theorem userinit_cores (ncpu : ℕ) : Cores (userinit ncpu) := by
  have threads (p : Slot) : (userinit ncpu).kthread p = .forkret ∨ (userinit ncpu).kthread p = .panic := by
    by_cases init : p = initproc <;> simp [userinit, init]
  refine ⟨?_, ?_, ?_, ?_, ?_, ?_, ?_, ?_, ?_, ?_, ?_⟩
  · simp [Accounted, userinit, State.held, SchedPc.held]
  · intro p
    rcases threads p with thread | thread <;> simp [thread, Pc.wf]
  · simp [userinit, SchedPc.wf]
  · simp [userinit, SchedPc.dispatched]
  · simp [userinit]
  · simp [userinit, SchedPc.dispatched]
  · simp [userinit]
  · intro p _
    by_cases init : p = initproc <;> simp [userinit, init, noProc, Pc.parked, Pc.resumes]
  · intro p q allocating
    rcases threads p with thread | thread <;> simp [thread, Pc.allocating] at allocating
  · intro p q forking
    rcases threads p with thread | thread <;> simp [thread, Pc.forking] at forking
  · intro p p' q forking
    rcases threads p with thread | thread <;> simp [thread, Pc.forking] at forking

theorem moved_cores {after : State ncpu} {move : Fin ncpu × Input} (cores : Cores s) (moved : Moved s move after) :
    Cores after := by
  cases moved with
  | advance on code applied next => exact advance_cores code next cores on applied
  | swtch on leaving may => exact swtch_cores cores on leaving may
  | schedule off code applied next => exact schedule_cores cores off code applied next
  | dispatch off scanning runnable _ free => exact dispatch_cores cores off scanning runnable free rfl
  | idle off back holds => exact idle_cores cores off back holds
  | trap on enabled => exact trap_cores cores on enabled
  | schedulerTrap off enabled => exact schedulerTrap_cores cores off enabled

theorem reachable_cores {s : State ncpu} (reachable : (system ncpu).Reachable s) : Cores s :=
  reachable.invariant Cores (userinit_cores ncpu) fun _ _ _ _ cores action => moved_cores cores (step_moved action)

end OsProjects.Kernel
