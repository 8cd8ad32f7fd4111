import OsProjects.Kernel.Lottery
import OsProjects.Transition.Locks
import OsProjects.Transition.System

namespace OsProjects.Kernel
open Transition

inductive Lock
  | wait | pid | proc (p : Slot)
  deriving DecidableEq, Repr

def initproc : Slot := 0

def nextSlot (i : Slot) : Option Slot := if h : i.val + 1 < NPROC then some ⟨i.val + 1, h⟩ else none

/-- `p++` and the test of a loop over the table. -/
def forNext {Pc : Type*} (i : Slot) (body : Slot → Pc) (done : Pc) : Pc :=
  match nextSlot i with
  | some j => body j
  | none => done

/-- The callers of `sleep`: `wait(addr)`, with `wait_lock`, `exit(status)` while it closes files, and the rest of
the kernel, with locks of their own. -/
inductive Sleeper
  | wait (addr : ℕ) | exit (status : ℤ) (address : ℕ) | other (address : ℕ)
  deriving DecidableEq, Repr

def Sleeper.chan (p : Slot) : Sleeper → Chan
  | .wait _ => .proc p
  | .exit _ address | .other address => .other address

def Sleeper.lock : Sleeper → Option Lock
  | .wait _ => some .wait
  | .exit _ _ | .other _ => none

structure PStat where
  tickets : ℤ
  ticks : ℤ
  pid : ℤ
  inuse : Bool
  deriving DecidableEq, Repr

/-- Where the kernel thread of a process stands: in user mode, with the value returned by the last system
call, or at the next operation on a lock. What a function called from several places goes on with is `next`. -/
inductive Pc
  | user (a0 : ℤ) | panic
  | allocAcquire (i : Slot) | allocRelease (i : Slot)
  | allocpidAcquire (np : Slot) | allocpidRelease (np : Slot) (pid : ℤ)
  | forkFailRelease (np : Slot)
  | forkTicketsAcquire (np : Slot) (pid : ℤ) | forkTicketsRelease (np : Slot) (pid : ℤ)
  | forkRelease (np : Slot) (pid : ℤ)
  | forkParentAcquire (np : Slot) (pid : ℤ) | forkParentRelease (np : Slot) (pid : ℤ)
  | forkRunnableAcquire (np : Slot) (pid : ℤ) | forkRunnableRelease (np : Slot) (pid : ℤ)
  | exitClose (status : ℤ) | exitAcquire (status : ℤ) | reparent (status : ℤ) (i : Slot) | exitWakeup (status : ℤ)
  | exitLockAcquire (status : ℤ) | exitRelease
  | wakeupAcquire (chan : Option Chan) (i : Slot) (next : Pc)
  | wakeupRelease (chan : Option Chan) (i : Slot) (next : Pc)
  | waitAcquire (addr : ℕ) | waitScan (addr : ℕ) (havekids : Bool) (i : Slot)
  | waitChildAcquire (addr : ℕ) (i : Slot) | waitChildRelease (addr : ℕ) (i : Slot)
  | waitCopyoutRelease (i : Slot) | waitReapRelease (i : Slot) (pid : ℤ) | waitReturnRelease (pid : ℤ)
  | waitKilledAcquire (addr : ℕ) | waitKilledRelease (addr : ℕ) (k : Bool) | waitFailRelease
  | sleepAcquire (k : Sleeper) | sleepRelease (k : Sleeper) | sleepSet (k : Sleeper)
  | sleepTidy (k : Sleeper) | sleepReacquire (k : Sleeper)
  | sched (resume : Pc)
  | yieldAcquire (next : Pc) | yieldRelease (next : Pc) | forkret
  | killAcquire (pid : ℤ) (i : Slot) | killRelease (pid : ℤ) (i : Slot) | killFoundRelease (i : Slot)
  | killedAcquire (next : Pc) | setkilledAcquire (next : Pc) | setticketsAcquire (number : ℤ)
  | selfRelease (next : Pc)
  | getpinfoAcquire (i : Slot) (info : List PStat) | getpinfoRelease (i : Slot) (info : List PStat)
  | growproc (sz : Option ℕ)
  deriving DecidableEq, Repr

inductive SchedPc
  | totalAcquire (i : Slot) (total : ℤ) | totalRelease (i : Slot) (total : ℤ)
  | scanAcquire (i : Slot) (countedTickets winningTicket : ℤ)
  | scanRelease (i : Slot) (countedTickets winningTicket : ℤ)
  | swtched (p : Slot)
  | wakeupAcquire (chan : Option Chan) (i : Slot) (next : SchedPc)
  | wakeupRelease (chan : Option Chan) (i : Slot) (next : SchedPc)
  deriving DecidableEq, Repr

inductive Event
  | allocated (p : Slot) (pid : ℤ)
  | dispatched (p : Slot) (pid : ℤ)
  | exited (p : Slot) (pid status : ℤ)
  | reaped (waiter child : Slot) (pid status : ℤ)
  deriving DecidableEq, Repr

/-- What a process does next in user mode: a system call with its raw arguments, an exception, or an
interrupt. `sleep` and `wakeup` stand for the calls from the rest of the kernel. -/
inductive Trap
  | fork | exit (status : BitVec 64) | wait (addr : ℕ) | kill (pid : BitVec 64)
  | settickets (number : BitVec 64) | getpinfo (addr : ℕ) | growproc (sz : Option ℕ)
  | sleep (address : ℕ) | wakeup (address : ℕ)
  | exception | timer | clock (address : ℕ) | device (address : ℕ)
  deriving DecidableEq, Repr

/-- What closing the files of a process comes to next: it may sleep and wake up others. -/
inductive Closing
  | done | sleep (address : ℕ) | wakeup (address : ℕ)
  deriving DecidableEq, Repr

/-- The answers of the code outside this file. -/
structure Oracle where
  trap : Trap
  kalloc : Bool
  procPagetable : Bool
  uvmcopy : Bool
  copyout : Bool
  nextRand : ℤ
  closing : Closing
  deriving DecidableEq, Repr

/-- One operation on a lock and the code around it: at most one slot is written. -/
structure Effect (Next : Type) where
  op : LockOp Lock := .keep
  write : Option (Slot × Proc) := none
  nextpid : Option ℤ := none
  spawn : Option Slot := none
  event : Option Event := none
  next : Next

inductive Next
  | goto (pc : Pc) | swtch (resume : Pc)
  deriving DecidableEq, Repr

inductive SchedNext
  | goto (pc : SchedPc) | dispatch (p : Slot) | idle (pc : SchedPc)
  deriving DecidableEq, Repr

def usertrapret (a0 : ℤ) : Pc := .killedAcquire (.user a0)

def exit (p : Slot) (status : ℤ) : Pc := if p = initproc then .panic else .exitClose status

/-- `usertrap`: a killed process exits before the call is made and before it returns. -/
def usertrap (p : Slot) (a0 : ℤ) : Trap → Pc
  | .fork => .killedAcquire (.allocAcquire 0)
  | .exit status => .killedAcquire (exit p (argint status))
  | .wait addr => .killedAcquire (.waitAcquire addr)
  | .kill pid => .killedAcquire (.killAcquire (argint pid) 0)
  | .settickets number => .killedAcquire (.setticketsAcquire (argint number))
  | .getpinfo addr => .killedAcquire (if addr = 0 then usertrapret (-1) else .getpinfoAcquire 0 [])
  | .growproc sz => .killedAcquire (.growproc sz)
  | .sleep address => .killedAcquire (.sleepAcquire (.other address))
  | .wakeup address => .killedAcquire (.wakeupAcquire (some (.other address)) 0 (usertrapret 0))
  | .exception => .setkilledAcquire (usertrapret a0)
  | .timer => .killedAcquire (.yieldAcquire (.user a0))
  | .clock address => .wakeupAcquire (some (.other address)) 0 (.killedAcquire (.yieldAcquire (.user a0)))
  | .device address => .wakeupAcquire (some (.other address)) 0 (usertrapret a0)

def wakeupSlot (chan : Option Chan) (i : Slot) (q : Proc) : Option (Slot × Proc) :=
  if q.state = .sleeping ∧ q.chan = chan then some (i, { q with state := .runnable }) else none

/-- The code of a process between two operations on a lock. -/
def kernel (t : Slot → Proc) (nextpid : ℤ) (p : Slot) (o : Oracle) : Pc → Option (Effect Next)
  | .user a0 => some { next := .goto (usertrap p a0 o.trap) }
  | .panic => none
  -- allocproc, allocpid
  | .allocAcquire i => some
      { op := .acquire (.proc i)
        next := .goto (if (t i).state = .unused then .allocpidAcquire i else .allocRelease i) }
  | .allocRelease i => some
      { op := .release (.proc i), next := .goto (forNext i .allocAcquire (usertrapret (-1))) }
  | .allocpidAcquire np => some
      { op := .acquire .pid, nextpid := some (int (nextpid + 1)), next := .goto (.allocpidRelease np nextpid) }
  | .allocpidRelease np pid =>
    let used := { t np with pid := pid, state := .used, tickets := DEFAULT_TICKETS }
    if o.kalloc && o.procPagetable && o.uvmcopy then some
      { op := .release .pid
        write := some (np, { used with sz := (t p).sz })
        spawn := some np
        event := some (.allocated np pid)
        next := .goto (.forkTicketsAcquire np pid) }
    else some
      { op := .release .pid, write := some (np, freeproc used), next := .goto (.forkFailRelease np) }
  -- fork
  | .forkFailRelease np => some { op := .release (.proc np), next := .goto (usertrapret (-1)) }
  | .forkTicketsAcquire np pid => some
      { op := .acquire (.proc p)
        write := some (np, { t np with tickets := (t p).tickets })
        next := .goto (.forkTicketsRelease np pid) }
  | .forkTicketsRelease np pid => some { op := .release (.proc p), next := .goto (.forkRelease np pid) }
  | .forkRelease np pid => some { op := .release (.proc np), next := .goto (.forkParentAcquire np pid) }
  | .forkParentAcquire np pid => some
      { op := .acquire .wait
        write := some (np, { t np with parent := some p })
        next := .goto (.forkParentRelease np pid) }
  | .forkParentRelease np pid => some { op := .release .wait, next := .goto (.forkRunnableAcquire np pid) }
  | .forkRunnableAcquire np pid => some
      { op := .acquire (.proc np)
        write := some (np, { t np with state := .runnable })
        next := .goto (.forkRunnableRelease np pid) }
  | .forkRunnableRelease np pid => some { op := .release (.proc np), next := .goto (usertrapret pid) }
  -- exit, reparent
  | .exitClose status => match o.closing with
      | .done => some { next := .goto (.exitAcquire status) }
      | .sleep address => some { next := .goto (.sleepAcquire (.exit status address)) }
      | .wakeup address => some { next := .goto (.wakeupAcquire (some (.other address)) 0 (.exitClose status)) }
  | .exitAcquire status => some { op := .acquire .wait, next := .goto (.reparent status 0) }
  | .reparent status i =>
    let rest := forNext i (.reparent status) (.exitWakeup status)
    if (t i).parent = some p then some
      { write := some (i, { t i with parent := some initproc })
        next := .goto (.wakeupAcquire (some (.proc initproc)) 0 rest) }
    else some { next := .goto rest }
  | .exitWakeup status => some
      { next := .goto (.wakeupAcquire ((t p).parent.map .proc) 0 (.exitLockAcquire status)) }
  | .exitLockAcquire status => some
      { op := .acquire (.proc p)
        write := some (p, { t p with xstate := status, state := .zombie })
        event := some (.exited p (t p).pid status)
        next := .goto .exitRelease }
  | .exitRelease => some { op := .release .wait, next := .goto (.sched .panic) }
  -- wakeup
  | .wakeupAcquire chan i next =>
    if i = p then some { next := .goto (forNext i (.wakeupAcquire chan · next) next) }
    else some
      { op := .acquire (.proc i), write := wakeupSlot chan i (t i), next := .goto (.wakeupRelease chan i next) }
  | .wakeupRelease chan i next => some
      { op := .release (.proc i), next := .goto (forNext i (.wakeupAcquire chan · next) next) }
  -- wait
  | .waitAcquire addr => some { op := .acquire .wait, next := .goto (.waitScan addr false 0) }
  | .waitScan addr havekids i =>
    if (t i).parent = some p then some { next := .goto (.waitChildAcquire addr i) }
    else some { next := .goto (forNext i (.waitScan addr havekids)
      (if havekids then .waitKilledAcquire addr else .waitFailRelease)) }
  | .waitChildAcquire addr i =>
    if (t i).state = .zombie then
      if addr ≠ 0 ∧ ¬ o.copyout then some { op := .acquire (.proc i), next := .goto (.waitCopyoutRelease i) }
      else some
        { op := .acquire (.proc i)
          write := some (i, freeproc (t i))
          event := some (.reaped p i (t i).pid (t i).xstate)
          next := .goto (.waitReapRelease i (t i).pid) }
    else some { op := .acquire (.proc i), next := .goto (.waitChildRelease addr i) }
  | .waitChildRelease addr i => some
      { op := .release (.proc i), next := .goto (forNext i (.waitScan addr true) (.waitKilledAcquire addr)) }
  | .waitCopyoutRelease i => some { op := .release (.proc i), next := .goto .waitFailRelease }
  | .waitReapRelease i pid => some { op := .release (.proc i), next := .goto (.waitReturnRelease pid) }
  | .waitReturnRelease pid => some { op := .release .wait, next := .goto (usertrapret pid) }
  | .waitKilledAcquire addr => some
      { op := .acquire (.proc p), next := .goto (.waitKilledRelease addr (t p).killed) }
  | .waitKilledRelease addr k => some
      { op := .release (.proc p), next := .goto (if k then .waitFailRelease else .sleepAcquire (.wait addr)) }
  | .waitFailRelease => some { op := .release .wait, next := .goto (usertrapret (-1)) }
  -- sleep
  | .sleepAcquire k => some { op := .acquire (.proc p), next := .goto (.sleepRelease k) }
  | .sleepRelease k => some
      { op := match k.lock with | some l => .release l | none => .keep, next := .goto (.sleepSet k) }
  | .sleepSet k => some
      { write := some (p, { t p with chan := some (k.chan p), state := .sleeping })
        next := .goto (.sched (.sleepTidy k)) }
  | .sleepTidy k => some
      { op := .release (.proc p)
        write := some (p, { t p with chan := none })
        next := .goto (.sleepReacquire k) }
  | .sleepReacquire k => match k with
      | .wait addr => some { op := .acquire .wait, next := .goto (.waitScan addr false 0) }
      | .exit status _ => some { next := .goto (.exitClose status) }
      | .other _ => some { next := .goto (usertrapret 0) }
  -- sched, yield, forkret
  | .sched resume => some { next := .swtch resume }
  | .yieldAcquire next => some
      { op := .acquire (.proc p)
        write := some (p, { t p with state := .runnable })
        next := .goto (.sched (.yieldRelease next)) }
  | .yieldRelease next => some { op := .release (.proc p), next := .goto next }
  | .forkret => some { op := .release (.proc p), next := .goto (.user 0) }
  -- kill, setkilled, killed
  | .killAcquire pid i =>
    if (t i).pid = pid then some
      { op := .acquire (.proc i)
        write := some (i, { t i with
          killed := true
          state := if (t i).state = .sleeping then .runnable else (t i).state })
        next := .goto (.killFoundRelease i) }
    else some { op := .acquire (.proc i), next := .goto (.killRelease pid i) }
  | .killRelease pid i => some
      { op := .release (.proc i), next := .goto (forNext i (.killAcquire pid) (usertrapret (-1))) }
  | .killFoundRelease i => some { op := .release (.proc i), next := .goto (usertrapret 0) }
  | .killedAcquire next => some
      { op := .acquire (.proc p), next := .goto (.selfRelease (if (t p).killed then exit p (-1) else next)) }
  | .setkilledAcquire next => some
      { op := .acquire (.proc p), write := some (p, { t p with killed := true }), next := .goto (.selfRelease next) }
  -- sys_settickets, getpinfo, growproc
  | .setticketsAcquire number => some
      { op := .acquire (.proc p)
        write := some (p, { t p with tickets := number })
        next := .goto (.selfRelease (usertrapret 0)) }
  | .selfRelease next => some { op := .release (.proc p), next := .goto next }
  | .getpinfoAcquire i info =>
    let entry := ⟨(t i).tickets, (t i).ticks, (t i).pid, (t i).state ≠ .unused⟩
    some { op := .acquire (.proc i), next := .goto (.getpinfoRelease i (info ++ [entry])) }
  | .getpinfoRelease i info => some
      { op := .release (.proc i), next := .goto (forNext i (.getpinfoAcquire · info) (usertrapret 0)) }
  | .growproc result => match result with
      | none => some { next := .goto (usertrapret (-1)) }
      | some sz => some
          { write := some (p, { t p with sz := sz }), next := .goto (usertrapret (t p).sz) }

def scheduler (t : Slot → Proc) (o : Oracle) : SchedPc → Effect SchedNext
  | .totalAcquire i total =>
    { op := .acquire (.proc i), next := .goto (.totalRelease i (addTickets total (t i))) }
  | .totalRelease i total =>
    { op := .release (.proc i)
      next := .goto (forNext i (.totalAcquire · total) (.scanAcquire 0 0 (scaledRandom 1 total o.nextRand))) }
  | .scanAcquire i countedTickets winningTicket =>
    if (t i).state = .runnable then
      let countedTickets := int (countedTickets + (t i).tickets)
      if countedTickets ≥ winningTicket then
        { op := .acquire (.proc i)
          write := some (i, { t i with ticks := int ((t i).ticks + 1), state := .running })
          event := some (.dispatched i (t i).pid)
          next := .dispatch i }
      else { op := .acquire (.proc i), next := .goto (.scanRelease i countedTickets winningTicket) }
    else { op := .acquire (.proc i), next := .goto (.scanRelease i countedTickets winningTicket) }
  | .scanRelease i countedTickets winningTicket =>
    { op := .release (.proc i)
      next := .goto (forNext i (.scanAcquire · countedTickets winningTicket) (.totalAcquire 0 0)) }
  | .swtched p => { op := .release (.proc p), next := .idle (.totalAcquire 0 0) }
  | .wakeupAcquire chan i next =>
    { op := .acquire (.proc i), write := wakeupSlot chan i (t i), next := .goto (.wakeupRelease chan i next) }
  | .wakeupRelease chan i next =>
    { op := .release (.proc i), next := .goto (forNext i (.wakeupAcquire chan · next) next) }

/-- `cpuProc` is `c->proc`; `stack` is the process whose kernel stack the CPU executes on, `none` for the stack
of its scheduler. -/
structure State (ncpu : ℕ) where
  proc : Slot → Proc
  nextpid : ℤ
  lock : Lock → Option (Fin ncpu)
  cpuProc : Fin ncpu → Option Slot
  stack : Fin ncpu → Option Slot
  kthread : Slot → Pc
  scheduler : Fin ncpu → SchedPc
  log : List Event

variable {ncpu : ℕ}

def noff (lock : Lock → Option (Fin ncpu)) (c : Fin ncpu) : ℕ :=
  (if lock .wait = some c then 1 else 0) + (if lock .pid = some c then 1 else 0) +
    (Finset.univ.filter fun p : Slot => lock (.proc p) = some c).card

def Effect.table {Next : Type} (e : Effect Next) (t : Slot → Proc) : Slot → Proc :=
  match e.write with
  | some (q, v) => Function.update t q v
  | none => t

def State.commit {Next : Type} (s : State ncpu) (e : Effect Next) (lock : Lock → Option (Fin ncpu)) :
    State ncpu :=
  { s with
    proc := e.table s.proc
    nextpid := e.nextpid.getD s.nextpid
    lock := lock
    kthread := match e.spawn with
      | some np => Function.update s.kthread np .forkret
      | none => s.kthread
    log := s.log ++ e.event.toList }

def maySwtch (s : State ncpu) (c : Fin ncpu) (p : Slot) : Prop :=
  s.lock (.proc p) = some c ∧ noff s.lock c = 1 ∧ (s.proc p).state ≠ .running

instance (s : State ncpu) (c : Fin ncpu) (p : Slot) : Decidable (maySwtch s c p) :=
  inferInstanceAs (Decidable (_ ∧ _ ∧ _))

def kernelStep (s : State ncpu) (c : Fin ncpu) (p : Slot) (o : Oracle) : Option (State ncpu) :=
  (kernel s.proc s.nextpid p o (s.kthread p)).bind fun e =>
    (e.op.apply c s.lock).bind fun lock =>
      let after := s.commit e lock
      match e.next with
      | .goto pc => some { after with kthread := Function.update after.kthread p pc }
      | .swtch resume =>
        if maySwtch s c p then some
          { after with
            kthread := Function.update after.kthread p resume
            stack := Function.update s.stack c none }
        else none

def schedulerStep (s : State ncpu) (c : Fin ncpu) (o : Oracle) : Option (State ncpu) :=
  let e := scheduler s.proc o (s.scheduler c)
  (e.op.apply c s.lock).map fun lock =>
    let after := s.commit e lock
    match e.next with
    | .goto pc => { after with scheduler := Function.update s.scheduler c pc }
    | .dispatch p =>
      { after with
        scheduler := Function.update s.scheduler c (.swtched p)
        cpuProc := Function.update s.cpuProc c (some p)
        stack := Function.update s.stack c (some p) }
    | .idle pc =>
      { after with
        scheduler := Function.update s.scheduler c pc
        cpuProc := Function.update s.cpuProc c none }

inductive Interrupt
  | timer | clock (address : ℕ) | device (address : ℕ)
  deriving DecidableEq, Repr

def kerneltrap (q : Proc) (pc : Pc) : Interrupt → Pc
  | .timer => if q.state = .running then .yieldAcquire pc else pc
  | .clock address => .wakeupAcquire (some (.other address)) 0
      (if q.state = .running then .yieldAcquire pc else pc)
  | .device address => .wakeupAcquire (some (.other address)) 0 pc

/-- `kerneltrap` in the scheduler, where `myproc()` is null. -/
def schedulerTrap (pc : SchedPc) : Interrupt → SchedPc
  | .timer => pc
  | .clock address | .device address => .wakeupAcquire (some (.other address)) 0 pc

def interruptStep (s : State ncpu) (c : Fin ncpu) (i : Interrupt) : Option (State ncpu) :=
  if noff s.lock c ≠ 0 then none
  else match s.stack c with
    | some p => some
        { s with kthread := Function.update s.kthread p (kerneltrap (s.proc p) (s.kthread p) i) }
    | none => some
        { s with scheduler := Function.update s.scheduler c (schedulerTrap (s.scheduler c) i) }

inductive Input
  | run (o : Oracle) | interrupt (i : Interrupt)
  deriving DecidableEq, Repr

def step (s : State ncpu) : Fin ncpu × Input → Option (State ncpu)
  | (c, .run o) => match s.stack c with
      | some p => kernelStep s c p o
      | none => schedulerStep s c o
  | (c, .interrupt i) => interruptStep s c i

def noProc : Proc := ⟨.unused, none, false, 0, 0, 0, 0, none, 0⟩

def userinit (ncpu : ℕ) : State ncpu where
  proc p := if p = initproc then
      { noProc with pid := 1, state := .runnable, tickets := DEFAULT_TICKETS, sz := 4096 }
    else noProc
  nextpid := 2
  lock _ := none
  cpuProc _ := none
  stack _ := none
  kthread p := if p = initproc then .forkret else .panic
  scheduler _ := .totalAcquire 0 0
  log := [.allocated initproc 1]

def system (ncpu : ℕ) : System (State ncpu) (Fin ncpu × Input) := ⟨userinit ncpu, step⟩

end OsProjects.Kernel
