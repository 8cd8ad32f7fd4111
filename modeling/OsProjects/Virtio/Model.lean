import OsProjects.Slots.Sizes
import OsProjects.Transition.Recorded
import OsProjects.Wrapping.Queue

namespace OsProjects.Virtio
open Transition Wrapping

/-! ## Descriptors -/

abbrev NUM : ℕ := 8

instance : NeZero NUM := ⟨by decide⟩

abbrev BSIZE : ℕ := 1024

abbrev Index := Fin NUM

/-- What the addresses given to the device point to. -/
inductive Addr (Buf : Type)
  | null | ops (i : Index) | data (b : Buf) | status (i : Index)

/-- `struct virtq_desc`, with its flags `VRING_DESC_F_NEXT` and `VRING_DESC_F_WRITE` apart. -/
structure Desc (Buf : Type) where
  addr : Addr Buf
  len : ℕ
  hasNext : Bool
  write : Bool
  next : ℕ

def Desc.cleared {Buf : Type} : Desc Buf := ⟨.null, 0, false, false, 0⟩

structure Descs (Buf : Type) where
  desc : Index → Desc Buf
  free : Index → Bool

/-- `endless` stands for a chain without an end; `badId` and `nullBuf` are faults in `virtio_disk_intr`. -/
inductive Panic
  | freeDesc1 | freeDesc2 | endless | status | badId | nullBuf
  deriving DecidableEq

def index (i : ℕ) : Option Index := if small : i < NUM then some ⟨i, small⟩ else none

section
variable {Buf : Type}

def allocDesc (d : Descs Buf) : Option (Index × Descs Buf) :=
  match (List.finRange NUM).find? d.free with
  | none => none
  | some i => some (i, { d with free := Function.update d.free i false })

def freeDesc (d : Descs Buf) (i : ℕ) : Except Panic (Descs Buf) :=
  match index i with
  | none => throw .freeDesc1
  | some i =>
    if d.free i then throw .freeDesc2
    else pure ⟨Function.update d.desc i .cleared, Function.update d.free i true⟩

/-- Every round frees a descriptor, so `NUM` rounds and the panic after them are enough. -/
def freeChain : ℕ → Descs Buf → ℕ → Except Panic (Descs Buf)
  | 0, _, _ => throw .endless
  | fuel + 1, d, i => do
    let first := (index i).map d.desc
    let d ← freeDesc d i
    match first with
    | none => pure d
    | some desc => if desc.hasNext then freeChain fuel d desc.next else pure d

def alloc3Desc (d : Descs Buf) : Except Panic (Option (Index × Index × Index) × Descs Buf) :=
  match allocDesc d with
  | none => pure (none, d)
  | some (i0, d) =>
    match allocDesc d with
    | none => do
      let d ← freeDesc d i0
      pure (none, d)
    | some (i1, d) =>
      match allocDesc d with
      | none => do
        let d ← freeDesc d i0
        let d ← freeDesc d i1
        pure (none, d)
      | some (i2, d) => pure (some (i0, i1, i2), d)

end

/-! ## The driver and the device -/

inductive ReqType
  | read | write
  deriving DecidableEq

/-- `struct virtio_blk_req` -/
structure Req where
  type : ReqType
  sector : BitVec 64

structure Ring where
  ring : Index → ℕ
  idx : BitVec 16

structure Info (Buf : Type) where
  b : Option Buf
  status : BitVec 8

structure BufState (Data : Type) where
  blockno : BitVec 32
  data : Data
  disk : Bool

/-- The device knows how far it has read the available ring, which requests it works on, which it has finished, and
which of those it has put into the used ring without having moved the index. -/
structure Device (Data : Type) where
  last : BitVec 16
  working : List ℕ
  finished : List ℕ
  entered : Option ℕ
  sectors : BitVec 64 → Data

/-- The local variables of a call of `virtio_disk_rw` that has its descriptors. -/
structure Request (Buf : Type) where
  b : Buf
  write : Bool
  i0 : Index
  i1 : Index
  i2 : Index

def Request.indices {Buf : Type} (r : Request Buf) : List Index := [r.i0, r.i1, r.i2]

inductive Stage
  | format | ring | publish | test | asleep | finish
  deriving DecidableEq

/-- Where a thread is in `virtio_disk_rw` or `virtio_disk_intr`. In `enter` it is about to acquire `vdisk_lock`, at the
beginning or at the end of `sleep(&disk.free[0], …)`; in the stage `asleep` it is in `sleep(b, …)`. -/
inductive Pc (Buf : Type)
  | idle
  | enter (b : Buf) (write : Bool)
  | alloc (b : Buf) (write : Bool)
  | request (stage : Stage) (r : Request Buf)
  | leave (b : Buf)
  | intrEnter | intrTest | intrBody | intrLeave

structure State (Thread Buf Data : Type) where
  descs : Descs Buf
  avail : Ring
  used : Ring
  usedIdx : BitVec 16
  info : Index → Info Buf
  ops : Index → Req
  lock : Option Thread
  pc : Thread → Pc Buf
  buf : Buf → BufState Data
  sleeplock : Buf → Option Thread
  device : Device Data

/-- A thread uses a buffer only while it has its sleep lock, as `bread` and `bwrite` do. -/
inductive Act (Buf Data : Type)
  | acquiresleep (b : Buf) | releasesleep (b : Buf)
  | store (b : Buf) (blockno : BitVec 32) (data : Data)
  | call (b : Buf) (write : Bool) | interrupt
  | go

inductive DeviceAct
  | take | transfer (head : ℕ) | enter (head : ℕ) | advance

inductive Label (Thread Buf Data : Type)
  | thread (t : Thread) (act : Act Buf Data)
  | device (act : DeviceAct)

section
variable {Thread Buf Data : Type} [DecidableEq Thread] [DecidableEq Buf]

def State.at (s : State Thread Buf Data) (t : Thread) (pc : Pc Buf) : State Thread Buf Data :=
  { s with pc := Function.update s.pc t pc }

def acquire (s : State Thread Buf Data) (t : Thread) : Option (State Thread Buf Data) :=
  if s.lock = none then some { s with lock := some t } else none

def release (s : State Thread Buf Data) : State Thread Buf Data := { s with lock := none }

def sector (blockno : BitVec 32) : BitVec 64 := (blockno * BitVec.ofNat 32 (BSIZE / 512)).setWidth 64

/-- The three descriptors and the records for them, up to `disk.info[idx[0]].b = b`. -/
def format (s : State Thread Buf Data) (r : Request Buf) : State Thread Buf Data :=
  let op : Req := ⟨if r.write then .write else .read, sector (s.buf r.b).blockno⟩
  let desc := Function.update s.descs.desc r.i0 ⟨.ops r.i0, 16, true, false, r.i1⟩
  let desc := Function.update desc r.i1 ⟨.data r.b, BSIZE, true, !r.write, r.i2⟩
  let desc := Function.update desc r.i2 ⟨.status r.i0, 1, false, true, 0⟩
  { s with
    ops := Function.update s.ops r.i0 op
    descs := { s.descs with desc := desc }
    buf := Function.update s.buf r.b { s.buf r.b with disk := true }
    info := Function.update s.info r.i0 ⟨some r.b, 0xff⟩ }

/-- One round of the loop of `virtio_disk_intr`. -/
def complete (s : State Thread Buf Data) : Except Panic (State Thread Buf Data) :=
  match index (s.used.ring (position NUM s.usedIdx)) with
  | none => throw .badId
  | some id =>
    if (s.info id).status ≠ 0 then throw .status
    else match (s.info id).b with
      | none => throw .nullBuf
      | some b => pure { s with
          buf := Function.update s.buf b { s.buf b with disk := false }
          usedIdx := s.usedIdx + 1 }

def request (s : State Thread Buf Data) (t : Thread) (r : Request Buf) :
    Stage → Option (Except Panic (State Thread Buf Data))
  | .format => some (pure ((format s r).at t (.request .ring r)))
  | .ring =>
    let ring := Function.update s.avail.ring (position NUM s.avail.idx) r.i0.val
    some (pure ({ s with avail := ⟨ring, s.avail.idx⟩ }.at t (.request .publish r)))
  | .publish => some (pure ({ s with avail := ⟨s.avail.ring, s.avail.idx + 1⟩ }.at t (.request .test r)))
  | .test =>
    if (s.buf r.b).disk then some (pure ((release s).at t (.request .asleep r)))
    else some (pure (s.at t (.request .finish r)))
  | .asleep => (acquire s t).map fun s => pure (s.at t (.request .test r))
  | .finish => some do
      let s := { s with info := Function.update s.info r.i0 { s.info r.i0 with b := none } }
      let descs ← freeChain (NUM + 1) s.descs r.i0
      pure ({ s with descs := descs }.at t (.leave r.b))

def go (s : State Thread Buf Data) (t : Thread) : Option (Except Panic (State Thread Buf Data)) :=
  match s.pc t with
  | .idle => none
  | .enter b write => (acquire s t).map fun s => pure (s.at t (.alloc b write))
  | .alloc b write => some do
      let (idx, descs) ← alloc3Desc s.descs
      let s := { s with descs := descs }
      match idx with
      | none => pure ((release s).at t (.enter b write))
      | some (i0, i1, i2) => pure (s.at t (.request .format ⟨b, write, i0, i1, i2⟩))
  | .request stage r => request s t r stage
  | .leave _ => some (pure ((release s).at t .idle))
  | .intrEnter => (acquire s t).map fun s => pure (s.at t .intrTest)
  | .intrTest => some (pure (s.at t (if s.usedIdx ≠ s.used.idx then .intrBody else .intrLeave)))
  | .intrBody => some do
      let s ← complete s
      pure (s.at t .intrTest)
  | .intrLeave => some (pure ((release s).at t .idle))

/-- What the chain of descriptors from a head leads to: the request, the buffer and the place of the status. -/
def chain (s : State Thread Buf Data) (head : ℕ) : Option (Index × Buf × Index) := do
  let first := s.descs.desc (← index head)
  let second := s.descs.desc (← index first.next)
  let third := s.descs.desc (← index second.next)
  match first.addr, second.addr, third.addr with
  | .ops k, .data b, .status m => if first.hasNext ∧ second.hasNext ∧ ¬ third.hasNext then some (k, b, m) else none
  | _, _, _ => none

/-- The transfer, and status 0. -/
def perform (s : State Thread Buf Data) (k : Index) (b : Buf) (m : Index) : State Thread Buf Data :=
  let op := s.ops k
  { s with
    buf := match op.type with
      | .read => Function.update s.buf b { s.buf b with data := s.device.sectors op.sector }
      | .write => s.buf
    device := { s.device with
      sectors := match op.type with
        | .read => s.device.sectors
        | .write => Function.update s.device.sectors op.sector (s.buf b).data }
    info := Function.update s.info m { s.info m with status := 0 } }

def device (s : State Thread Buf Data) : DeviceAct → Option (State Thread Buf Data)
  | .take =>
    if s.device.last ≠ s.avail.idx then
      some { s with device := { s.device with
        working := s.avail.ring (position NUM s.device.last) :: s.device.working
        last := s.device.last + 1 } }
    else none
  | .transfer head =>
    if head ∈ s.device.working then
      (chain s head).map fun (k, b, m) =>
        let after := perform s k b m
        { after with device := { after.device with
          working := s.device.working.erase head
          finished := head :: s.device.finished } }
    else none
  | .enter head =>
    if head ∈ s.device.finished ∧ s.device.entered = none then
      some { s with
        used := ⟨Function.update s.used.ring (position NUM s.used.idx) head, s.used.idx⟩
        device := { s.device with
          finished := s.device.finished.erase head
          entered := some head } }
    else none
  | .advance =>
    if s.device.entered ≠ none then
      some { s with
        used := ⟨s.used.ring, s.used.idx + 1⟩
        device := { s.device with entered := none } }
    else none

def result (s : State Thread Buf Data) : Label Thread Buf Data → Option (Except Panic (State Thread Buf Data))
  | .device act => (device s act).map pure
  | .thread t .go => go s t
  | .thread t act =>
    match s.pc t, act with
    | .idle, .acquiresleep b =>
      if s.sleeplock b = none then some (pure { s with sleeplock := Function.update s.sleeplock b (some t) }) else none
    | .idle, .releasesleep b =>
      if s.sleeplock b = some t then some (pure { s with sleeplock := Function.update s.sleeplock b none }) else none
    | .idle, .store b blockno data =>
      if s.sleeplock b = some t then
        some (pure { s with buf := Function.update s.buf b ⟨blockno, data, (s.buf b).disk⟩ })
      else none
    | .idle, .call b write => if s.sleeplock b = some t then some (pure (s.at t (.enter b write))) else none
    | .idle, .interrupt => some (pure (s.at t .intrEnter))
    | _, _ => none

/-- After `virtio_disk_init`, with any contents of the buffers and of the disk. -/
def start (buf : Buf → BitVec 32 × Data) (sectors : BitVec 64 → Data) : State Thread Buf Data where
  descs := ⟨fun _ => .cleared, fun _ => true⟩
  avail := ⟨fun _ => 0, 0⟩
  used := ⟨fun _ => 0, 0⟩
  usedIdx := 0
  info := fun _ => ⟨none, 0⟩
  ops := fun _ => ⟨.read, 0⟩
  lock := none
  pc := fun _ => .idle
  buf := fun b => ⟨(buf b).1, (buf b).2, false⟩
  sleeplock := fun _ => none
  device := ⟨0, [], [], none, sectors⟩

def system (buf : Buf → BitVec 32 × Data) (sectors : BitVec 64 → Data) :
    System (State Thread Buf Data) (Label Thread Buf Data) where
  initial := start buf sectors
  step s label := (result s label).bind Except.toOption

/-! ## What happens in a run -/

/-- The heads the driver has submitted and the device taken, those the device has completed and the driver processed,
and the buffers with a completed request since the last one was submitted. -/
structure History (Buf : Type) where
  submitted : List ℕ
  taken : List ℕ
  completed : List ℕ
  processed : List ℕ
  served : Buf → Bool

def History.empty : History Buf := ⟨[], [], [], [], fun _ => false⟩

def note (s : State Thread Buf Data) (label : Label Thread Buf Data) (h : History Buf) : History Buf :=
  match label with
  | .thread t .go =>
    match s.pc t with
    | .request .publish r =>
      { h with submitted := h.submitted ++ [r.i0.val], served := Function.update h.served r.b false }
    | .intrBody => { h with processed := h.processed ++ [s.used.ring (position NUM s.usedIdx)] }
    | _ => h
  | .device .take => { h with taken := h.taken ++ [s.avail.ring (position NUM s.device.last)] }
  | .device .advance =>
    match s.device.entered with
    | none => h
    | some head =>
      { h with
        completed := h.completed ++ [head]
        served := match chain s head with
          | some (_, b, _) => Function.update h.served b true
          | none => h.served }
  | _ => h

end

end OsProjects.Virtio
