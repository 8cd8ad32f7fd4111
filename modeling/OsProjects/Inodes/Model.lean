import Mathlib.Data.BitVec
import Mathlib.Data.Fintype.Basic
import OsProjects.Slots.Sizes
import OsProjects.Transition.Recorded

namespace OsProjects.Inodes
open Transition

/-! ## Inodes on the disk and in the table -/

abbrev NINODE : ℕ := 50

/-- `T_DIR`, `T_FILE` and `T_DEVICE`, what `ialloc` is called with. -/
inductive Kind
  | dir | file | device
  deriving DecidableEq

def Kind.type : Kind → BitVec 16
  | .dir => 1
  | .file => 2
  | .device => 3

structure Dinode where
  type : BitVec 16
  major : BitVec 16
  minor : BitVec 16
  nlink : BitVec 16
  size : BitVec 32
  addrs : Fin 13 → BitVec 32
  deriving DecidableEq

/-- After `memset` and the assignment of the type. -/
def Dinode.fresh (kind : Kind) : Dinode := ⟨kind.type, 0, 0, 0, 0, fun _ => 0⟩

def Dinode.Orphan (d : Dinode) : Prop := d.type ≠ 0 ∧ d.nlink = 0

instance (d : Dinode) : Decidable d.Orphan := inferInstanceAs (Decidable (_ ∧ _))

/-- A device and the number of an inode on it. -/
abbrev Key := ℕ × ℕ

/-- An entry of `itable`; `d` are the fields copied from the disk. In a run `ref` is the number of pointers that the
threads have (`Held.sum`), too small to overflow (`Held.ref_le`). -/
structure Inode (Thread : Type) where
  key : Key
  ref : ℕ
  valid : Bool
  lock : Option Thread
  d : Dinode

abbrev Entry := Fin NINODE

inductive Panic
  | igetNoInodes | ilock | ilockNoType | iunlock
  deriving DecidableEq

/-- Where a thread is in `ilock` or `iput`. Both acquire in the first stage; `load` has `ip->lock`. In `iput`, the
stages `test`, `sleep` and `drop` have `itable.lock`, and `trunc`, `retype` and `unlock` have `ip->lock`. -/
inductive Stage
  | ilock | load
  | iput | test | sleep | trunc | retype | unlock | again | drop
  deriving DecidableEq

/-- `iget` may have been called by `ialloc`, for an inode of some kind. -/
inductive Pc
  | idle
  | ialloc (dev : ℕ) (kind : Kind) (inum : ℕ)
  | iget (key : Key) (made : Option Kind)
  | on (stage : Stage) (ip : Entry)

/-- `refs` are the pointers each thread has to entries. -/
structure State (Thread : Type) where
  table : Entry → Inode Thread
  disk : Key → Dinode
  lock : Option Thread
  pc : Thread → Pc
  refs : Thread → Entry → ℕ

/-- The calls, and what a process can do with an inode besides: give a reference to another one, as through a shared
file, and change the fields of an inode it has locked, with `iupdate`. -/
inductive Act (Thread : Type)
  | ialloc (dev : ℕ) (kind : Kind) | iget (key : Key) | idup (ip : Entry)
  | ilock (ip : Entry) | iunlock (ip : Entry) | iput (ip : Entry)
  | pass (ip : Entry) (to' : Thread) | update (ip : Entry) (d : Dinode)
  | go

section
variable {Thread : Type} [DecidableEq Thread]

def State.at (s : State Thread) (t : Thread) (pc : Pc) : State Thread := { s with pc := Function.update s.pc t pc }

def State.set (s : State Thread) (ip : Entry) (inode : Inode Thread) : State Thread :=
  { s with table := Function.update s.table ip inode }

def State.write (s : State Thread) (key : Key) (d : Dinode) : State Thread :=
  { s with disk := Function.update s.disk key d }

def State.setRefs (s : State Thread) (t : Thread) (ip : Entry) (count : ℕ) : State Thread :=
  { s with refs := Function.update s.refs t (Function.update (s.refs t) ip count) }

/-- The critical section of `iget`. -/
def iget (s : State Thread) (key : Key) : Except Panic (Entry × Inode Thread) :=
  match (List.finRange NINODE).find? fun ip => (s.table ip).ref > 0 ∧ (s.table ip).key = key with
  | some ip => pure (ip, { s.table ip with ref := (s.table ip).ref + 1 })
  | none =>
    match (List.finRange NINODE).find? fun ip => (s.table ip).ref = 0 with
    | some ip => pure (ip, { s.table ip with key := key, ref := 1, valid := false })
    | none => throw .igetNoInodes

/-- The steps of `ilock` and `iput`. -/
def stage (s : State Thread) (t : Thread) (ip : Entry) : Stage → Option (Except Panic (State Thread))
  | .ilock =>
    if (s.table ip).ref < 1 then some (throw .ilock)
    else if (s.table ip).lock = none then
      some (pure ((s.set ip { s.table ip with lock := some t }).at t (.on .load ip)))
    else none
  | .load =>
    if (s.table ip).valid then some (pure (s.at t .idle))
    else
      let d := s.disk (s.table ip).key
      if d.type = 0 then some (throw .ilockNoType)
      else some (pure ((s.set ip { s.table ip with d := d, valid := true }).at t .idle))
  | .iput => if s.lock = none then some (pure ({ s with lock := some t }.at t (.on .test ip))) else none
  | .test =>
    if (s.table ip).ref = 1 ∧ (s.table ip).valid ∧ (s.table ip).d.nlink = 0 then some (pure (s.at t (.on .sleep ip)))
    else some (pure (s.at t (.on .drop ip)))
  | .sleep =>
    if (s.table ip).lock = none then
      some (pure ({ s.set ip { s.table ip with lock := some t } with lock := none }.at t (.on .trunc ip)))
    else none
  | .trunc =>
    let d := { (s.table ip).d with size := 0, addrs := fun _ => 0 }
    some (pure (((s.set ip { s.table ip with d := d }).write (s.table ip).key d).at t (.on .retype ip)))
  | .retype =>
    let d := { (s.table ip).d with type := 0 }
    some (pure (((s.set ip { s.table ip with d := d }).write (s.table ip).key d).at t (.on .unlock ip)))
  | .unlock => some (pure ((s.set ip { s.table ip with valid := false, lock := none }).at t (.on .again ip)))
  | .again => if s.lock = none then some (pure ({ s with lock := some t }.at t (.on .drop ip))) else none
  | .drop =>
    let s := s.set ip { s.table ip with ref := (s.table ip).ref - 1 }
    some (pure ({ s.setRefs t ip (s.refs t ip - 1) with lock := none }.at t .idle))

/-- `ninodes` is `sb.ninodes`. -/
def go (ninodes : ℕ) (s : State Thread) (t : Thread) : Option (Except Panic (State Thread)) :=
  match s.pc t with
  | .idle => none
  | .ialloc dev kind inum =>
    if inum < ninodes then
      if (s.disk (dev, inum)).type = 0 then
        some (pure ((s.write (dev, inum) (.fresh kind)).at t (.iget (dev, inum) (some kind))))
      else some (pure (s.at t (.ialloc dev kind (inum + 1))))
    else some (pure (s.at t .idle))
  | .iget key _ =>
    if s.lock = none then some do
      let (ip, inode) ← iget s key
      pure (((s.set ip inode).setRefs t ip (s.refs t ip + 1)).at t .idle)
    else none
  | .on current ip => stage s t ip current

/-- A thread uses an entry only while it has a reference to it, and keeps one while it has the lock. -/
def result (ninodes : ℕ) (s : State Thread) (t : Thread) : Act Thread → Option (Except Panic (State Thread))
  | .go => go ninodes s t
  | act =>
    match s.pc t, act with
    | .idle, .ialloc dev kind => some (pure (s.at t (.ialloc dev kind 1)))
    | .idle, .iget key => some (pure (s.at t (.iget key none)))
    | .idle, .idup ip =>
      if 0 < s.refs t ip ∧ s.lock = none then
        some (pure ((s.set ip { s.table ip with ref := (s.table ip).ref + 1 }).setRefs t ip (s.refs t ip + 1)))
      else none
    | .idle, .ilock ip =>
      if 0 < s.refs t ip ∧ (s.table ip).lock ≠ some t then some (pure (s.at t (.on .ilock ip))) else none
    | .idle, .iunlock ip =>
      if 0 < s.refs t ip then
        if (s.table ip).lock ≠ some t ∨ (s.table ip).ref < 1 then some (throw .iunlock)
        else some (pure (s.set ip { s.table ip with lock := none }))
      else none
    | .idle, .iput ip =>
      if 0 < s.refs t ip ∧ (s.table ip).lock ≠ some t then some (pure (s.at t (.on .iput ip))) else none
    | .idle, .pass ip u =>
      if 0 < s.refs t ip ∧ (s.table ip).lock ≠ some t then
        let s := s.setRefs t ip (s.refs t ip - 1)
        some (pure (s.setRefs u ip (s.refs u ip + 1)))
      else none
    | .idle, .update ip d =>
      if (s.table ip).lock = some t then
        let d := { d with type := (s.table ip).d.type }
        some (pure ((s.set ip { s.table ip with d := d }).write (s.table ip).key d))
      else none
    | _, _ => none

/-- An empty table over any disk. -/
def start (disk : Key → Dinode) : State Thread where
  table := fun _ => ⟨(0, 0), 0, false, none, ⟨0, 0, 0, 0, 0, fun _ => 0⟩⟩
  disk := disk
  lock := none
  pc := fun _ => .idle
  refs := fun _ _ => 0

def system (ninodes : ℕ) (disk : Key → Dinode) : System (State Thread) (Thread × Act Thread) where
  initial := start disk
  step s label := (result ninodes s label.1 label.2).bind Except.toOption

/-- The entries that threads have from `ialloc` and have not used or given away since, with the kind they asked for. -/
abbrev Made (Thread : Type) := Thread → Entry → Option Kind

def Made.set (made : Made Thread) (t : Thread) (ip : Entry) (kind : Option Kind) : Made Thread :=
  Function.update made t (Function.update (made t) ip kind)

def note (s : State Thread) (label : Thread × Act Thread) (made : Made Thread) : Made Thread :=
  match label.2 with
  | .iunlock ip | .iput ip | .pass ip _ | .update ip _ => made.set label.1 ip none
  | .go =>
    match s.pc label.1 with
    | .iget key (some kind) =>
      match iget s key with
      | .ok (ip, _) => made.set label.1 ip (some kind)
      | .error _ => made
    | _ => made
  | _ => made

end

end OsProjects.Inodes
