import Mathlib.Data.Int.Basic
import Mathlib.Tactic
import OsProjects.Slots.Sizes

namespace OsProjects.Kernel

abbrev NPROC : ℕ := 64

abbrev Slot := Fin NPROC

def DEFAULT_TICKETS : ℤ := 1

def int (x : ℤ) : ℤ := x.bmod (2 ^ 32)

def argint (register : BitVec 64) : ℤ := (register.setWidth 32).toInt

inductive ProcState
  | unused | used | sleeping | runnable | running | zombie
  deriving DecidableEq, Repr

inductive Chan
  | proc (p : Slot) | other (address : ℕ)
  deriving DecidableEq, Repr

structure Proc where
  state : ProcState
  chan : Option Chan
  killed : Bool
  xstate : ℤ
  pid : ℤ
  tickets : ℤ
  ticks : ℤ
  parent : Option Slot
  sz : ℕ
  deriving DecidableEq, Repr

def freeproc (p : Proc) : Proc :=
  { p with
    sz := 0, pid := 0, parent := none, chan := none, killed := false, xstate := 0
    state := .unused, ticks := 0, tickets := 0 }

theorem int_eq_self {x : ℤ} (low : -2 ^ 31 ≤ x) (high : x ≤ 2 ^ 31 - 1) : int x = x := by
  unfold int
  rw [Int.bmod_eq_of_le] <;> omega

end OsProjects.Kernel
