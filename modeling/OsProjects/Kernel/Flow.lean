import OsProjects.Kernel.Locks

namespace OsProjects.Kernel
open Transition

/-! From where to where a thread goes, apart from the calls of `wakeup` and `yield` and the tests for `killed` that come in
between. What is said about threads in a stretch of the code is read off the place at the bottom. -/

/-- The code a thread goes back to from `wakeup`, `yield` and the tests for `killed`. -/
@[simp]
def Pc.base : Pc → Pc
  | .wakeupAcquire _ _ next | .wakeupRelease _ _ next | .sched next | .yieldAcquire next | .yieldRelease next
  | .killedAcquire next | .setkilledAcquire next | .selfRelease next => next.base
  | pc => pc

def Pc.wraps : Pc → Bool
  | .wakeupAcquire _ _ _ | .wakeupRelease _ _ _ | .sched _ | .yieldAcquire _ | .yieldRelease _ | .killedAcquire _
  | .setkilledAcquire _ | .selfRelease _ => true
  | _ => false

/-- User mode, and the places at which a call starts, fails or is about to return. -/
inductive Pc.Idle : Pc → Prop
  | user (a0 : ℤ) : Idle (.user a0)
  | panic : Idle .panic
  | allocAcquire (i : Slot) : Idle (.allocAcquire i)
  | allocRelease (i : Slot) : Idle (.allocRelease i)
  | allocpidAcquire (np : Slot) : Idle (.allocpidAcquire np)
  | forkFailRelease (np : Slot) : Idle (.forkFailRelease np)
  | forkRunnableRelease (np : Slot) (pid : ℤ) : Idle (.forkRunnableRelease np pid)
  | exitRelease : Idle .exitRelease
  | waitAcquire (addr : ℕ) : Idle (.waitAcquire addr)
  | waitCopyoutRelease (i : Slot) : Idle (.waitCopyoutRelease i)
  | waitFailRelease : Idle .waitFailRelease
  | sleepAcquire (address : ℕ) : Idle (.sleepAcquire (.other address))
  | killAcquire (pid : ℤ) (i : Slot) : Idle (.killAcquire pid i)
  | killRelease (pid : ℤ) (i : Slot) : Idle (.killRelease pid i)
  | killFoundRelease (i : Slot) : Idle (.killFoundRelease i)
  | getpinfoAcquire (i : Slot) (info : List PStat) : Idle (.getpinfoAcquire i info)
  | getpinfoRelease (i : Slot) (info : List PStat) : Idle (.getpinfoRelease i info)
  | growproc (sz : Option ℕ) : Idle (.growproc sz)

section
variable (t : Slot → Proc) (nextpid : ℤ) (p : Slot) (o : Oracle) (e : Effect Next)

/-- The ways from one place to another that is not idle. -/
inductive Flow : Pc → Pc → Prop
  | settickets (a0 : ℤ) (number : BitVec 64) (call : o.trap = .settickets number) :
      Flow (.user a0) (.setticketsAcquire (argint number))
  | allocpid (np : Slot) (table : e.table t = t) (pid : e.nextpid = some (int (nextpid + 1))) :
      Flow (.allocpidAcquire np) (.allocpidRelease np nextpid)
  | alloc (np : Slot) (pid : ℤ) (spawn : e.spawn = some np) : Flow (.allocpidRelease np pid) (.forkTicketsAcquire np pid)
  | tickets (np : Slot) (pid : ℤ) : Flow (.forkTicketsAcquire np pid) (.forkTicketsRelease np pid)
  | ticketsRelease (np : Slot) (pid : ℤ) : Flow (.forkTicketsRelease np pid) (.forkRelease np pid)
  | forkRelease (np : Slot) (pid : ℤ) : Flow (.forkRelease np pid) (.forkParentAcquire np pid)
  | parent (np : Slot) (pid : ℤ) : Flow (.forkParentAcquire np pid) (.forkParentRelease np pid)
  | parentRelease (np : Slot) (pid : ℤ) : Flow (.forkParentRelease np pid) (.forkRunnableAcquire np pid)
  | close (status : ℤ) : Flow (.exitClose status) (.exitClose status)
  | closeSleep (status : ℤ) (address : ℕ) : Flow (.exitClose status) (.sleepAcquire (.exit status address))
  | closed (status : ℤ) : Flow (.exitClose status) (.exitAcquire status)
  | exitAcquire (status : ℤ) : Flow (.exitAcquire status) (.reparent status 0)
  | reparent (status : ℤ) (i j : Slot) (next : j.val = i.val + 1) : Flow (.reparent status i) (.reparent status j)
  | reparented (status : ℤ) (i : Slot) (last : i.val + 1 = NPROC) : Flow (.reparent status i) (.exitWakeup status)
  | exitWakeup (status : ℤ) : Flow (.exitWakeup status) (.exitLockAcquire status)
  | waitAcquire (addr : ℕ) : Flow (.waitAcquire addr) (.waitScan addr false 0)
  | child (addr : ℕ) (havekids : Bool) (i : Slot) (parent : (t i).parent = some p) (table : e.table t = t) :
      Flow (.waitScan addr havekids i) (.waitChildAcquire addr i)
  | noChild (addr : ℕ) (havekids : Bool) (i j : Slot) (parent : (t i).parent ≠ some p) (table : e.table t = t)
      (next : j.val = i.val + 1) : Flow (.waitScan addr havekids i) (.waitScan addr havekids j)
  | scanned (addr : ℕ) (i : Slot) (parent : (t i).parent ≠ some p) (table : e.table t = t) (last : i.val + 1 = NPROC) :
      Flow (.waitScan addr true i) (.waitKilledAcquire addr)
  | reap (addr : ℕ) (i : Slot) (event : e.event = some (.reaped p i (t i).pid (t i).xstate)) :
      Flow (.waitChildAcquire addr i) (.waitReapRelease i (t i).pid)
  | alive (addr : ℕ) (i : Slot) (state : (t i).state ≠ .zombie) (table : e.table t = t) :
      Flow (.waitChildAcquire addr i) (.waitChildRelease addr i)
  | nextChild (addr : ℕ) (i j : Slot) (next : j.val = i.val + 1) : Flow (.waitChildRelease addr i) (.waitScan addr true j)
  | lastChild (addr : ℕ) (i : Slot) (last : i.val + 1 = NPROC) : Flow (.waitChildRelease addr i) (.waitKilledAcquire addr)
  | reaped (i : Slot) (pid : ℤ) : Flow (.waitReapRelease i pid) (.waitReturnRelease pid)
  | killed (addr : ℕ) (table : e.table t = t) : Flow (.waitKilledAcquire addr) (.waitKilledRelease addr (t p).killed)
  | doze (addr : ℕ) : Flow (.waitKilledRelease addr false) (.sleepAcquire (.wait addr))
  | sleepAcquire (k : Sleeper) : Flow (.sleepAcquire k) (.sleepRelease k)
  | sleepRelease (k : Sleeper) : Flow (.sleepRelease k) (.sleepSet k)
  | sleepSet (k : Sleeper) : Flow (.sleepSet k) (.sleepTidy k)
  | tidy (k : Sleeper) : Flow (.sleepTidy k) (.sleepReacquire k)
  | waitAgain (addr : ℕ) : Flow (.sleepReacquire (.wait addr)) (.waitScan addr false 0)
  | closeAgain (status : ℤ) (address : ℕ) : Flow (.sleepReacquire (.exit status address)) (.exitClose status)
  | exit (pc : Pc) (status : ℤ) (other : p ≠ initproc) : Flow pc (.exitClose status)

/-- What a step from `pc` leads to. -/
abbrev Leads (pc base : Pc) : Prop := base.Idle ∨ base = pc.base ∧ pc.wraps = true ∨ Flow t nextpid p o e pc base

end

theorem forNext_cases {α : Type*} (i : Slot) (body : Slot → α) (done : α) :
    (∃ j : Slot, j.val = i.val + 1 ∧ forNext i body done = body j) ∨ i.val + 1 = NPROC ∧ forNext i body done = done := by
  unfold forNext nextSlot
  by_cases more : i.val + 1 < NPROC
  · exact .inl ⟨⟨i.val + 1, more⟩, rfl, by simp [more]⟩
  · exact .inr ⟨by omega, by simp [more]⟩

section
variable {t : Slot → Proc} {nextpid : ℤ} {p : Slot} {o : Oracle} {pc pc' : Pc} {e : Effect Next}

theorem leads_exit (status : ℤ) : Leads t nextpid p o e pc (exit p status).base := by
  by_cases init : p = initproc
  · exact .inl (by rw [exit, if_pos init]; exact .panic)
  · simpa [exit, init] using Or.inr (Or.inr (Flow.exit pc status init))

theorem leads_usertrap (a0 : ℤ) : Leads t nextpid p o e (.user a0) (usertrap p a0 o.trap).base := by
  cases trap : o.trap with
  | settickets number => exact .inr (.inr (.settickets a0 number trap))
  | exit status => exact leads_exit _
  | getpinfo addr =>
    refine .inl ?_
    by_cases null : addr = 0
    · rw [usertrap, if_pos null]
      exact .user _
    · rw [usertrap, if_neg null]
      exact .getpinfoAcquire _ _
  | _ => exact .inl (by constructor)

theorem leads_kernel (code : kernel t nextpid p o pc = some e) (next : e.next = .goto pc') :
    Leads t nextpid p o e pc pc'.base := by
  have baseNext := apply_forNext Pc.base
  cases pc <;> simp only [kernel, Option.some.injEq, reduceCtorEq] at code
  case user a0 =>
    cases code
    cases next
    exact leads_usertrap a0
  case killedAcquire after =>
    cases code
    cases next
    cases killed : (t p).killed
    · exact .inr (.inl ⟨rfl, rfl⟩)
    · exact leads_exit (-1)
  case wakeupAcquire chan i after =>
    split at code <;> cases code <;> cases next <;> exact .inr (.inl ⟨by simp [baseNext], rfl⟩)
  case wakeupRelease chan i after =>
    cases code
    cases next
    exact .inr (.inl ⟨by simp [baseNext], rfl⟩)
  case allocRelease i | killRelease pid i | getpinfoRelease i info =>
    cases code
    cases next
    rcases forNext_cases i _ _ with ⟨j, _, more⟩ | ⟨_, last⟩
    · exact .inl (by rw [more]; constructor)
    · exact .inl (by rw [last]; exact .user _)
  case reparent status i =>
    rcases forNext_cases i (Pc.reparent status) (.exitWakeup status) with ⟨j, succ, more⟩ | ⟨last, done⟩
    · rw [more] at code
      split at code <;> cases code <;> cases next <;> exact .inr (.inr (.reparent status i j succ))
    · rw [done] at code
      split at code <;> cases code <;> cases next <;> exact .inr (.inr (.reparented status i last))
  case waitScan addr havekids i =>
    split at code <;> rename_i parent <;> cases code <;> cases next
    · exact .inr (.inr (.child addr havekids i parent rfl))
    · rcases forNext_cases i (Pc.waitScan addr havekids) _ with ⟨j, succ, more⟩ | ⟨last, done⟩
      · rw [more]
        exact .inr (.inr (.noChild addr havekids i j parent rfl succ))
      · rw [done]
        cases havekids
        · exact .inl .waitFailRelease
        · exact .inr (.inr (.scanned addr i parent rfl last))
  case waitChildRelease addr i =>
    cases code
    cases next
    rcases forNext_cases i (Pc.waitScan addr true) (.waitKilledAcquire addr) with ⟨j, succ, more⟩ | ⟨last, done⟩
    · rw [more]
      exact .inr (.inr (.nextChild addr i j succ))
    · rw [done]
      exact .inr (.inr (.lastChild addr i last))
  case waitKilledRelease addr k =>
    cases code
    cases next
    cases k
    · exact .inr (.inr (.doze addr))
    · exact .inl .waitFailRelease
  all_goals
    (repeat' split at code) <;> cases code <;> cases next <;>
      first | exact .inl (by constructor) | exact .inr (.inl ⟨rfl, rfl⟩) | exact .inr (.inr (by constructor <;> first | rfl | assumption))

end

end OsProjects.Kernel
