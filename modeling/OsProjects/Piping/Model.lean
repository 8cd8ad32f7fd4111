import OsProjects.Slots.Sizes
import OsProjects.Transition.Locks
import OsProjects.Transition.System
import OsProjects.Wrapping.Queue

namespace OsProjects.Piping
open Transition Wrapping

/-! ## Pipes -/

abbrev Byte := BitVec 8

abbrev PIPESIZE : ℕ := 512

instance : NeZero PIPESIZE := ⟨by decide⟩

structure Pipe where
  data : Fin PIPESIZE → Byte
  nread : BitVec 32
  nwrite : BitVec 32
  readopen : Bool
  writeopen : Bool

def Pipe.empty (pi : Pipe) : Bool := pi.nread = pi.nwrite

def Pipe.full (pi : Pipe) : Bool := pi.nwrite = pi.nread + BitVec.ofNat 32 PIPESIZE

def Pipe.put (pi : Pipe) (ch : Byte) : Pipe :=
  { pi with data := Function.update pi.data (position PIPESIZE pi.nwrite) ch, nwrite := pi.nwrite + 1 }

/-- The second loop of `piperead`, with `left` rounds to go after the `i` bytes copied so far; `copyout` says for which
of them the copy succeeds. It gives the pipe, the bytes taken and the final `i`. -/
def Pipe.take (copyout : ℕ → Bool) : ℕ → ℕ → Pipe → Pipe × List Byte × ℕ
  | 0, i, pi => (pi, [], i)
  | left + 1, i, pi =>
    if pi.empty then (pi, [], i)
    else
      let ch := pi.data (position PIPESIZE pi.nread)
      let pi := { pi with nread := pi.nread + 1 }
      if copyout i then
        let (pi, chs, i) := take copyout left (i + 1) pi
        (pi, ch :: chs, i)
      else (pi, [ch], i)

/-! ## Processes -/

inductive Chan
  | nread | nwrite
  deriving DecidableEq

inductive ProcState
  | sleeping | runnable | running
  deriving DecidableEq

structure Proc where
  state : ProcState
  chan : Option Chan
  killed : Bool

/-- The loops that sleep: that of `pipewrite(addr, n)` after `i` bytes, and the first one of `piperead(addr, n)`. -/
inductive Loop
  | write (i n : ℕ) | read (n : ℕ)
  deriving DecidableEq

def Loop.chan : Loop → Chan
  | .write _ _ => .nwrite
  | .read _ => .nread

/-- What follows a `wakeup`: `release(&pi->lock)` and a return, or `sleep`. -/
inductive Then
  | release (ret : ℤ) | sleep (loop : Loop)
  deriving DecidableEq

variable {P : Type} [DecidableEq P]

inductive Lock (P : Type)
  | pipe | proc (p : P)
  deriving DecidableEq

/-- Where a process stands: outside these functions, with the last value returned, or at the next operation on a
lock. A `wakeup` has the processes still to look at. The scheduler releases `p->lock` for a process that has gone to
sleep, and takes it when it lets the process go on. -/
inductive Pc (P : Type)
  | user (ret : ℤ)
  | writeAcquire (n : ℕ) | readAcquire (n : ℕ) | closeAcquire (writable : Bool)
  | killedAcquire (loop : Loop) | killedRelease (loop : Loop) (k : Bool)
  | wakeupAcquire (chan : Chan) (q : P) (rest : List P) (next : Then)
  | wakeupRelease (chan : Chan) (q : P) (rest : List P) (next : Then)
  | sleepAcquire (loop : Loop) | sleepRelease (loop : Loop) | sleepSet (loop : Loop)
  | swtched (loop : Loop) | asleep (loop : Loop) | sleepTidy (loop : Loop) | sleepReacquire (loop : Loop)
  | release (ret : ℤ)
  | killAcquire (q : P) | killRelease (q : P)

inductive Call (P : Type)
  | pipewrite (n : ℕ) | piperead (n : ℕ) | pipeclose (writable : Bool) | kill (q : P)

/-- What a process calls next, and the answers of `copyin` and `copyout`. -/
structure Input (P : Type) where
  call : Call P
  copyin : Option Byte
  copyout : ℕ → Bool

/-- One operation on a lock and the code after it, with the fields of one process it writes and the bytes it puts into
the pipe or takes out. -/
structure Effect (P : Type) where
  op : LockOp (Lock P) := .keep
  pipe : Pipe
  write : Option (P × Proc) := none
  put : List Byte := []
  took : List Byte := []
  next : Pc P

structure State (P : Type) where
  lock : Lock P → Option P
  pipe : Pipe
  proc : P → Proc
  pc : P → Pc P

def Then.pc : Then → Pc P
  | .release ret => .release ret
  | .sleep loop => .sleepAcquire loop

/-- The loop of `wakeup` over the rest of the process table. -/
def scan (chan : Chan) (next : Then) : List P → Pc P
  | [] => next.pc
  | q :: rest => .wakeupAcquire chan q rest next

section code
variable (procs : List P) (p : P)

def wakeup (chan : Chan) (next : Then) : Pc P := scan chan next (procs.filter (· ≠ p))

/-- The head of the loop of `pipewrite`, up to the test of `killed`. -/
def pipewriteTest (pi : Pipe) (i n : ℕ) : Pc P :=
  if i < n then
    if pi.readopen = false then .release (-1) else .killedAcquire (.write i n)
  else wakeup procs p .nread (.release i)

/-- The body of the loop of `pipewrite`. -/
def pipewriteBody (pi : Pipe) (i n : ℕ) (copyin : Option Byte) : Effect P :=
  if pi.full then { pipe := pi, next := wakeup procs p .nread (.sleep (.write i n)) }
  else match copyin with
    | none => { pipe := pi, next := wakeup procs p .nread (.release i) }
    | some ch => { pipe := pi.put ch, put := [ch], next := pipewriteTest procs p (pi.put ch) (i + 1) n }

/-- `piperead` from the head of its first loop on. -/
def pipereadTest (pi : Pipe) (n : ℕ) (copyout : ℕ → Bool) : Effect P :=
  if pi.empty && pi.writeopen then { pipe := pi, next := .killedAcquire (.read n) }
  else
    let (pi, chs, i) := pi.take copyout n 0
    { pipe := pi, took := chs, next := wakeup procs p .nwrite (.release i) }

def loopTest (pi : Pipe) (copyout : ℕ → Bool) : Loop → Effect P
  | .write i n => { pipe := pi, next := pipewriteTest procs p pi i n }
  | .read n => pipereadTest procs p pi n copyout

/-- The rest of a round, once `killed` has answered. -/
def loopBody (pi : Pipe) (copyin : Option Byte) (k : Bool) (loop : Loop) : Effect P :=
  if k then { pipe := pi, next := .release (-1) }
  else match loop with
    | .write i n => pipewriteBody procs p pi i n copyin
    | .read n => { pipe := pi, next := .sleepAcquire (.read n) }

/-- A pipe with both ends closed is freed; nobody has a file for it then. -/
def pipeclose (pi : Pipe) (writable : Bool) : Effect P :=
  if writable then { pipe := { pi with writeopen := false }, next := wakeup procs p .nread (.release 0) }
  else { pipe := { pi with readopen := false }, next := wakeup procs p .nwrite (.release 0) }

/-- The code of a process between two operations on a lock. -/
def code (pi : Pipe) (proc : P → Proc) (o : Input P) : Pc P → Option (Effect P)
  | .user _ => some
      { pipe := pi
        next := match o.call with
          | .pipewrite n => .writeAcquire n
          | .piperead n => .readAcquire n
          | .pipeclose writable => .closeAcquire writable
          | .kill q => .killAcquire q }
  | .writeAcquire n => some { op := .acquire .pipe, pipe := pi, next := pipewriteTest procs p pi 0 n }
  | .readAcquire n => some { pipereadTest procs p pi n o.copyout with op := .acquire .pipe }
  | .closeAcquire writable => some { pipeclose procs p pi writable with op := .acquire .pipe }
  | .killedAcquire loop => some
      { op := .acquire (.proc p), pipe := pi, next := .killedRelease loop (proc p).killed }
  | .killedRelease loop k => some { loopBody procs p pi o.copyin k loop with op := .release (.proc p) }
  | .wakeupAcquire chan q rest next => some
      { op := .acquire (.proc q)
        pipe := pi
        write := if (proc q).state = .sleeping ∧ (proc q).chan = some chan then some (q, { proc q with state := .runnable })
          else none
        next := .wakeupRelease chan q rest next }
  | .wakeupRelease chan q rest next => some { op := .release (.proc q), pipe := pi, next := scan chan next rest }
  | .sleepAcquire loop => some { op := .acquire (.proc p), pipe := pi, next := .sleepRelease loop }
  | .sleepRelease loop => some { op := .release .pipe, pipe := pi, next := .sleepSet loop }
  | .sleepSet loop => some
      { pipe := pi
        write := some (p, { proc p with chan := some loop.chan, state := .sleeping })
        next := .swtched loop }
  | .swtched loop => some { op := .release (.proc p), pipe := pi, next := .asleep loop }
  | .asleep loop =>
    if (proc p).state = .runnable then some
      { op := .acquire (.proc p), pipe := pi, write := some (p, { proc p with state := .running }), next := .sleepTidy loop }
    else none
  | .sleepTidy loop => some
      { op := .release (.proc p), pipe := pi, write := some (p, { proc p with chan := none }), next := .sleepReacquire loop }
  | .sleepReacquire loop => some { loopTest procs p pi o.copyout loop with op := .acquire .pipe }
  | .release ret => some { op := .release .pipe, pipe := pi, next := .user ret }
  | .killAcquire q => some
      { op := .acquire (.proc q)
        pipe := pi
        write := some (q, { proc q with
          killed := true, state := if (proc q).state = .sleeping then .runnable else (proc q).state })
        next := .killRelease q }
  | .killRelease q => some { op := .release (.proc q), pipe := pi, next := .user 0 }

end code

def writeProc (proc : P → Proc) : Option (P × Proc) → P → Proc
  | none => proc
  | some (q, value) => Function.update proc q value

def step (procs : List P) (s : State P) (label : P × Input P) : Option (State P) :=
  (code procs label.1 s.pipe s.proc label.2 (s.pc label.1)).bind fun e =>
    (e.op.apply label.1 s.lock).map fun lock =>
      { lock := lock, pipe := e.pipe, proc := writeProc s.proc e.write, pc := Function.update s.pc label.1 e.next }

/-- The pipe as `pipealloc` leaves it in a page with these bytes, and processes outside it, some of them killed. -/
def system (procs : List P) (data : Fin PIPESIZE → Byte) (killed : P → Bool) : System (State P) (P × Input P) where
  initial :=
    { lock := fun _ => none
      pipe := ⟨data, 0, 0, true, true⟩
      proc := fun p => ⟨.running, none, killed p⟩
      pc := fun _ => .user 0 }
  step := step procs

end OsProjects.Piping
