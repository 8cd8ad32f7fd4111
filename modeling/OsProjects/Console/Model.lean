import OsProjects.Transition.System
import OsProjects.Wrapping.Queue

namespace OsProjects.Console
open Transition Wrapping

/-! ## The console buffer -/

abbrev INPUT_BUF_SIZE : ℕ := 128

instance : NeZero INPUT_BUF_SIZE := ⟨by decide⟩

/-- `C(x)`. -/
def ctrl (x : Char) : UInt8 := .ofNat (x.toNat - '@'.toNat)

def newline : UInt8 := 10

structure Cons where
  buf : Fin INPUT_BUF_SIZE → UInt8
  r : BitVec 32
  w : BitVec 32
  e : BitVec 32

/-- The loop for control-u, which runs at most once for each character of the line. -/
def killLine : ℕ → Cons → Cons
  | 0, s => s
  | fuel + 1, s =>
    if s.e ≠ s.w ∧ s.buf (position INPUT_BUF_SIZE (s.e - 1)) ≠ newline then killLine fuel { s with e := s.e - 1 } else s

def consoleintr (s : Cons) (c : UInt8) : Cons :=
  if c = ctrl 'P' then s
  else if c = ctrl 'U' then killLine (s.e - s.w).toNat s
  else if c = ctrl 'H' ∨ c = 0x7f then if s.e ≠ s.w then { s with e := s.e - 1 } else s
  else if c ≠ 0 ∧ (s.e - s.r).toNat < INPUT_BUF_SIZE then
    let c := if c = 13 then newline else c
    let s := { s with buf := Function.update s.buf (position INPUT_BUF_SIZE s.e) c, e := s.e + 1 }
    if c = newline ∨ c = ctrl 'D' ∨ (s.e - s.r).toNat = INPUT_BUF_SIZE then { s with w := s.e } else s
  else s

/-! ## `consoleread` -/

/-- Why a call ended: it had all it asked for, a line was complete, an end-of-file mark came after other bytes or
before any, or the process was killed. -/
inductive Stop
  | count | line | mark | eof | killed
  deriving DecidableEq

inductive Status
  | waits (n : ℕ)
  | stopped (why : Stop)
  deriving DecidableEq

/-- The loop of `consoleread`, up to the next sleep: the bytes it copies out. -/
def readLoop (target : ℕ) (killed : Bool) : ℕ → Cons → Status × List UInt8 × Cons
  | 0, s => (.stopped .count, [], s)
  | n + 1, s =>
    if s.r = s.w then (if killed then .stopped .killed else .waits (n + 1), [], s)
    else
      let c := s.buf (position INPUT_BUF_SIZE s.r)
      let s := { s with r := s.r + 1 }
      if c = ctrl 'D' then
        if n + 1 < target then (.stopped .mark, [], { s with r := s.r - 1 }) else (.stopped .eof, [], s)
      else if c = newline then (.stopped .line, [c], s)
      else
        let (status, rest, s) := readLoop target killed n s
        (status, c :: rest, s)

/-- The last call of a process: what it asked for and what is at its destination. -/
structure Call where
  target : ℕ
  got : List UInt8
  status : Status

variable {P : Type} [DecidableEq P]

structure State (P : Type) where
  cons : Cons
  call : P → Option Call
  delivered : List UInt8

inductive Event (P : Type)
  | intr (c : UInt8)
  | read (p : P) (n : ℤ) (killed : Bool)
  | resume (p : P) (killed : Bool)

def State.consoleread (s : State P) (p : P) (target n : ℕ) (got : List UInt8) (killed : Bool) : State P :=
  let (status, bytes, cons) := readLoop target killed n s.cons
  { cons := cons
    call := Function.update s.call p (some ⟨target, got ++ bytes, status⟩)
    delivered := s.delivered ++ bytes }

/-- How many bytes a call still waits for. -/
def Call.left (call : Call) : Option ℕ :=
  match call.status with
  | .waits n => some n
  | .stopped _ => none

def waiting (call : P → Option Call) (p : P) : Option (Call × ℕ) := (call p).bind fun c => c.left.map fun n => (c, n)

/-- Interrupts, and the readers from one sleep to the next. -/
def console (P : Type) [DecidableEq P] : System (State P) (Event P) where
  initial := ⟨⟨fun _ => 0, 0, 0, 0⟩, fun _ => none, []⟩
  step s
    | .intr c => some { s with cons := consoleintr s.cons c }
    | .read p n killed => if (waiting s.call p).isSome then none else some (s.consoleread p n.toNat n.toNat [] killed)
    | .resume p killed => (waiting s.call p).map fun (c, n) => s.consoleread p c.target n c.got killed

end OsProjects.Console
