import Mathlib.Data.BitVec
import Mathlib.Data.Fintype.Basic
import OsProjects.Linked.Ring
import OsProjects.Slots.Sizes
import OsProjects.Transition.Recorded

namespace OsProjects.Buffers
open Transition Linked

/-! ## The buffer cache -/

abbrev NBUF : ℕ := 30

abbrev Index := Fin NBUF

/-- `dev` and `blockno`. -/
abbrev Key := ℕ × ℕ

structure Buf (Thread Data : Type) where
  key : Key
  valid : Bool
  refcnt : BitVec 32
  lock : Option Thread
  data : Data

/-- `endless` stands for a list that does not come back to its head. -/
inductive Panic
  | bgetNoBuffers | bwrite | brelse | endless
  deriving DecidableEq

/-- Where a thread is in `bread` or `brelse`: about to look the block up, waiting for the lock of the buffer, holding it
with the contents to be read or there, or about to give its reference back. -/
inductive Pc
  | idle
  | bget (key : Key) | wait (key : Key) (b : Index) | fill (key : Key) (b : Index) | got (key : Key) (b : Index)
  | release (b : Index)
  deriving DecidableEq

/-- Every critical section of `bcache.lock` is one step. `pins` are the references `bpin` has taken. -/
structure State (Thread Data : Type) where
  buf : Index → Buf Thread Data
  links : Links Index
  pins : Index → ℕ
  disk : Key → Data
  pc : Thread → Pc

inductive Act (Data : Type)
  | bread (key : Key) | store (b : Index) (data : Data) | bwrite (b : Index) | brelse (b : Index)
  | bpin (b : Index) | bunpin (b : Index)
  | go

section
variable {Thread Data : Type} [DecidableEq Thread]

def State.at (s : State Thread Data) (t : Thread) (pc : Pc) : State Thread Data :=
  { s with pc := Function.update s.pc t pc }

def State.set (s : State Thread Data) (b : Index) (buf : Buf Thread Data) : State Thread Data :=
  { s with buf := Function.update s.buf b buf }

/-- The critical section of `bget`. -/
def bget (s : State Thread Data) (key : Key) : Except Panic (Index × Buf Thread Data) :=
  match scan s.links.next (fun b => (s.buf b).key = key) (NBUF + 1) (s.links.next none) with
  | none => throw .endless
  | some (some b) => pure (b, { s.buf b with refcnt := (s.buf b).refcnt + 1 })
  | some none =>
    match scan s.links.prev (fun b => (s.buf b).refcnt = 0) (NBUF + 1) (s.links.prev none) with
    | none => throw .endless
    | some (some b) => pure (b, { s.buf b with key := key, valid := false, refcnt := 1 })
    | some none => throw .bgetNoBuffers

/-- The critical section of `brelse`. -/
def release (s : State Thread Data) (b : Index) : State Thread Data :=
  let refcnt := (s.buf b).refcnt - 1
  { s.set b { s.buf b with refcnt := refcnt } with
    links := if refcnt = 0 then (s.links.remove b).pushFront b else s.links }

def go (s : State Thread Data) (t : Thread) : Option (Except Panic (State Thread Data)) :=
  match s.pc t with
  | .idle => none
  | .bget key => some do
      let (b, buf) ← bget s key
      pure ((s.set b buf).at t (.wait key b))
  | .wait key b =>
    if (s.buf b).lock = none then some (pure ((s.set b { s.buf b with lock := some t }).at t (.fill key b))) else none
  | .fill key b =>
    if (s.buf b).valid then some (pure (s.at t (.got key b)))
    else some (pure ((s.set b { s.buf b with data := s.disk (s.buf b).key, valid := true }).at t (.got key b)))
  | .got _ _ => some (pure (s.at t .idle))
  | .release b => some (pure ((release s b).at t .idle))

/-- A thread uses a buffer between `bread` and `brelse`, while it has its lock; blocks are those of a device with a
number that is not zero; and only a pin is taken back by `bunpin`. -/
def result (s : State Thread Data) (t : Thread) : Act Data → Option (Except Panic (State Thread Data))
  | .go => go s t
  | act =>
    match s.pc t, act with
    | .idle, .bread key => if key.1 ≠ 0 then some (pure (s.at t (.bget key))) else none
    | .idle, .store b data =>
      if (s.buf b).lock = some t then some (pure (s.set b { s.buf b with data := data })) else none
    | .idle, .bwrite b =>
      if (s.buf b).lock = some t then
        some (pure { s with disk := Function.update s.disk (s.buf b).key (s.buf b).data })
      else some (throw .bwrite)
    | .idle, .brelse b =>
      if (s.buf b).lock = some t then some (pure ((s.set b { s.buf b with lock := none }).at t (.release b)))
      else some (throw .brelse)
    | .idle, .bpin b =>
      if (s.buf b).lock = some t then
        some (pure { s.set b { s.buf b with refcnt := (s.buf b).refcnt + 1 } with
          pins := Function.update s.pins b (s.pins b + 1) })
      else none
    | .idle, .bunpin b =>
      if (s.buf b).lock = some t ∧ 0 < s.pins b then
        some (pure { s.set b { s.buf b with refcnt := (s.buf b).refcnt - 1 } with
          pins := Function.update s.pins b (s.pins b - 1) })
      else none
    | _, _ => none

def binit : Links Index := (List.finRange NBUF).foldl Links.pushFront ⟨fun _ => none, fun _ => none⟩

/-- After `binit`, with any contents of the disk and of the buffers. -/
def start (disk : Key → Data) (data : Index → Data) : State Thread Data where
  buf := fun b => ⟨(0, 0), false, 0, none, data b⟩
  links := binit
  pins := fun _ => 0
  disk := disk
  pc := fun _ => .idle

def system (disk : Key → Data) (data : Index → Data) : System (State Thread Data) (Thread × Act Data) where
  initial := start disk data
  step s label := (result s label.1 label.2).bind Except.toOption

/-! ## What was stored -/

/-- The contents most recently stored into the buffer of each block: in `resident` since the buffer was given to the
block, in `referenced` since it was last without a reference. -/
structure Stored (Data : Type) where
  resident : Key → Option Data
  referenced : Key → Option Data

def Stored.none : Stored Data := ⟨fun _ => .none, fun _ => .none⟩

/-- The block a buffer is taken from by `bget`. -/
def evicted (s : State Thread Data) (key : Key) : Option Key :=
  match bget s key with
  | .ok (b, buf) => if buf.key = (s.buf b).key then .none else some (s.buf b).key
  | .error _ => .none

def note (s : State Thread Data) (label : Thread × Act Data) (stored : Stored Data) : Stored Data :=
  match label.2, s.pc label.1 with
  | .store b data, _ =>
    ⟨Function.update stored.resident (s.buf b).key (some data), Function.update stored.referenced (s.buf b).key (some data)⟩
  | .go, .bget key =>
    match evicted s key with
    | .none => stored
    | some old => { stored with resident := Function.update stored.resident old .none }
  | .go, .release b =>
    if (s.buf b).refcnt = 1 then { stored with referenced := Function.update stored.referenced (s.buf b).key .none } else stored
  | _, _ => stored

end

end OsProjects.Buffers
