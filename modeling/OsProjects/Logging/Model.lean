import Mathlib.Data.BitVec
import Mathlib.Data.List.OfFn
import Mathlib.Tactic
import OsProjects.Slots.Sizes
import OsProjects.Transition.System

namespace OsProjects.Logging
open Transition

abbrev BlockNo := BitVec 32

instance (priority := 1100) : LawfulBEq BlockNo := inferInstance

/-- `data[BSIZE]`, in words of 32 bits. -/
abbrev Block := Fin 256 → BitVec 32

def MAXOPBLOCKS : ℕ := 10

def LOGSIZE : ℕ := MAXOPBLOCKS * 3

abbrev NBUF : ℕ := 30

abbrev BufNo := Fin NBUF

/-- A buffer has no block before its first use. The sleep lock is given by its holder. -/
structure Buf (Thread : Type) where
  blockno : Option BlockNo
  valid : Bool
  refcnt : ℕ
  lock : Option Thread
  data : Block

/-- Where the super block says the log is: the header block and the blocks after it. -/
structure Superblock where
  logstart : BlockNo
  nlog : ℕ
  header : 1 ≤ nlog
  fits : logstart.toNat + nlog ≤ 2 ^ 32

def Superblock.logBlock (sb : Superblock) (tail : ℕ) : BlockNo := sb.logstart + BitVec.ofNat 32 (tail + 1)

def Superblock.inLog (sb : Superblock) (b : BlockNo) : Prop :=
  sb.logstart.toNat ≤ b.toNat ∧ b.toNat < sb.logstart.toNat + sb.nlog

instance (sb : Superblock) (b : BlockNo) : Decidable (sb.inLog b) := inferInstanceAs (Decidable (_ ∧ _))

/-- The block numbers `read_head` finds in the header block: `n`, then `block[0]` to `block[n - 1]`. -/
def readHead (data : Block) : List BlockNo :=
  (List.range (data 0).toInt.toNat).map fun i => data (Fin.ofNat 256 (i + 1))

/-- `write_head` on the buffer of the header block: the words from `block[n]` on stay. -/
def writeHead (lh : List BlockNo) (data : Block) : Block :=
  fun word => if word = 0 then BitVec.ofNat 32 lh.length else lh[word.val - 1]?.getD (data word)

/-- What a block is read for: by a process outside or inside of an operation, by `write_log`, `write_head`,
`install_trans`, the erasing `write_head` or `read_head`. -/
inductive Use
  | reader | op (modified : List BufNo)
  | logTo (tail : ℕ) | logFrom (tail : ℕ) (toBuf : BufNo)
  | head
  | installFrom (recovering : Bool) (tail : ℕ) | installTo (recovering : Bool) (tail : ℕ) (lbuf : BufNo)
  | erase (recovering : Bool)
  | readHead
  deriving DecidableEq, Repr

/-- Where a thread stands. In an operation it has modified buffers it has not passed to `log_write` since. -/
inductive Pc
  | idle | op (modified : List BufNo)
  | bget (blockno : BlockNo) (use : Use)
  | acquiresleep (blockno : BlockNo) (b : BufNo) (use : Use)
  | bread (blockno : BlockNo) (b : BufNo) (use : Use)
  | brelse (b : BufNo) (next : Pc) | brelseRef (b : BufNo) (next : Pc)
  | commit
  | writeLog (tail : ℕ) | writeLogBlock (tail : ℕ) (toBuf fromBuf : BufNo)
  | writeHead (b : BufNo)
  | installTrans (recovering : Bool) (tail : ℕ) | installBlock (recovering : Bool) (tail : ℕ) (lbuf dbuf : BufNo)
  | bunpin (tail : ℕ) (lbuf dbuf : BufNo)
  | eraseHead (recovering : Bool) (b : BufNo)
  | readHead (b : BufNo)
  | finish (recovering : Bool)
  deriving DecidableEq, Repr

/-- `order` is the list of the cache, most recently used first; `lh` is `block[0]` to `block[n - 1]` of the header in
memory; `booted` is set when the first process has returned from `initlog`. -/
structure State (Thread : Type) where
  disk : BlockNo → Block
  buf : BufNo → Buf Thread
  order : List BufNo
  outstanding : ℕ
  committing : Bool
  lh : List BlockNo
  booted : Bool
  pc : Thread → Pc

inductive Action
  | beginOp | bread (blockno : BlockNo) | modify (b : BufNo) (data : Block) | logWrite (b : BufNo)
  | brelse (b : BufNo) | endOp | run

/-- A thread does something, or the machine stops and this thread starts it again. -/
inductive Label (Thread : Type)
  | act (t : Thread) (a : Action) | crash (t : Thread)

variable {Thread : Type} [DecidableEq Thread]

namespace State

def goto (s : State Thread) (t : Thread) (pc : Pc) : State Thread :=
  { s with pc := Function.update s.pc t pc }

def setBuf (s : State Thread) (b : BufNo) (buf : Buf Thread) : State Thread :=
  { s with buf := Function.update s.buf b buf }

omit [DecidableEq Thread] in
/-- The buffer of the block if it is cached, or the least recently used one nobody refers to. -/
def bget (s : State Thread) (blockno : BlockNo) : Option (BufNo × State Thread) :=
  match s.order.find? fun b => (s.buf b).blockno = some blockno with
  | some b => some (b, s.setBuf b { s.buf b with refcnt := (s.buf b).refcnt + 1 })
  | none => (s.order.reverse.find? fun b => (s.buf b).refcnt = 0).map fun b =>
    (b, s.setBuf b { s.buf b with blockno := some blockno, valid := false, refcnt := 1 })

def bwrite (s : State Thread) (t : Thread) (b : BufNo) (data : Block) : Option (State Thread) :=
  match (s.buf b).blockno with
  | some blockno =>
    if (s.buf b).lock = some t then
      some { s.setBuf b { s.buf b with data := data } with disk := Function.update s.disk blockno data }
    else none
  | none => none

omit [DecidableEq Thread] in
/-- The second half of `brelse`, after `releasesleep`. -/
def unref (s : State Thread) (b : BufNo) : State Thread :=
  let refcnt := (s.buf b).refcnt - 1
  { s.setBuf b { s.buf b with refcnt := refcnt } with
    order := if refcnt = 0 then b :: s.order.erase b else s.order }

end State

/-- Where a thread goes on with the buffer it has read. -/
def resume (lh : List BlockNo) (b : BufNo) : Use → Pc
  | .reader => .idle
  | .op modified => .op modified
  | .logTo tail => .bget (lh[tail]?.getD 0) (.logFrom tail b)
  | .logFrom tail toBuf => .writeLogBlock tail toBuf b
  | .head => .writeHead b
  | .installFrom recovering tail => .bget (lh[tail]?.getD 0) (.installTo recovering tail b)
  | .installTo recovering tail lbuf => .installBlock recovering tail lbuf b
  | .erase recovering => .eraseHead recovering b
  | .readHead => .readHead b

/-- The code of `bread`, `brelse`, `commit` and `recover_from_log`. -/
def run (sb : Superblock) (s : State Thread) (t : Thread) : Pc → Option (State Thread)
  | .idle | .op _ => none
  | .bget blockno use => (s.bget blockno).map fun (b, after) => after.goto t (.acquiresleep blockno b use)
  | .acquiresleep blockno b use =>
    if (s.buf b).lock = none then
      some ((s.setBuf b { s.buf b with lock := some t }).goto t (.bread blockno b use))
    else none
  | .bread blockno b use =>
    let filled := if (s.buf b).valid then s
      else s.setBuf b { s.buf b with data := s.disk blockno, valid := true }
    some (filled.goto t (resume s.lh b use))
  | .brelse b next =>
    if (s.buf b).lock = some t then some ((s.setBuf b { s.buf b with lock := none }).goto t (.brelseRef b next))
    else none
  | .brelseRef b next => some ((s.unref b).goto t next)
  | .commit => some (s.goto t (if s.lh = [] then .finish false else .writeLog 0))
  -- write_log, write_head
  | .writeLog tail => some (s.goto t
      (if tail < s.lh.length then .bget (sb.logBlock tail) (.logTo tail) else .bget sb.logstart .head))
  | .writeLogBlock tail toBuf fromBuf =>
    (s.bwrite t toBuf (s.buf fromBuf).data).map
      (·.goto t (.brelse fromBuf (.brelse toBuf (.writeLog (tail + 1)))))
  | .writeHead b =>
    (s.bwrite t b (writeHead s.lh (s.buf b).data)).map (·.goto t (.brelse b (.installTrans false 0)))
  -- install_trans
  | .installTrans recovering tail =>
    if tail < s.lh.length then some (s.goto t (.bget (sb.logBlock tail) (.installFrom recovering tail)))
    else some ({ s with lh := [] }.goto t (.bget sb.logstart (.erase recovering)))
  | .installBlock recovering tail lbuf dbuf =>
    (s.bwrite t dbuf (s.buf lbuf).data).map (·.goto t
      (if recovering then .brelse lbuf (.brelse dbuf (.installTrans recovering (tail + 1)))
      else .bunpin tail lbuf dbuf))
  | .bunpin tail lbuf dbuf =>
    some ((s.setBuf dbuf { s.buf dbuf with refcnt := (s.buf dbuf).refcnt - 1 }).goto t
      (.brelse lbuf (.brelse dbuf (.installTrans false (tail + 1)))))
  | .eraseHead recovering b =>
    (s.bwrite t b (writeHead s.lh (s.buf b).data)).map (·.goto t (.brelse b (.finish recovering)))
  -- read_head
  | .readHead b =>
    some ({ s with lh := readHead (s.buf b).data }.goto t (.brelse b (.installTrans true 0)))
  | .finish recovering =>
    if recovering then some ({ s with booted := true }.goto t .idle)
    else some ({ s with committing := false }.goto t .idle)

/-- The calls a process makes. A call that panics has no successor. -/
def act (sb : Superblock) (s : State Thread) (t : Thread) : Action → Option (State Thread)
  | .beginOp =>
    if s.pc t = .idle ∧ s.booted ∧ s.committing = false ∧
        s.lh.length + (s.outstanding + 1) * MAXOPBLOCKS ≤ LOGSIZE then
      some ({ s with outstanding := s.outstanding + 1 }.goto t (.op []))
    else none
  | .bread blockno =>
    if s.booted then match s.pc t with
      | .idle => some (s.goto t (.bget blockno .reader))
      | .op modified => some (s.goto t (.bget blockno (.op modified)))
      | _ => none
    else none
  | .modify b data => match s.pc t with
      | .op modified => some ((s.setBuf b { s.buf b with data := data }).goto t (.op (b :: modified)))
      | _ => none
  | .logWrite b => match s.pc t, (s.buf b).blockno with
      | .op modified, some blockno =>
        if s.lh.length < LOGSIZE ∧ s.lh.length < sb.nlog - 1 ∧ 1 ≤ s.outstanding then
          let logged := s.goto t (.op (modified.filter (· ≠ b)))
          if blockno ∈ s.lh then some logged
          else some { logged.setBuf b { s.buf b with refcnt := (s.buf b).refcnt + 1 } with
            lh := s.lh ++ [blockno] }
        else none
      | _, _ => none
  | .brelse b =>
    if (s.buf b).lock = some t then match s.pc t with
      | .idle => some ((s.setBuf b { s.buf b with lock := none }).goto t (.brelseRef b .idle))
      | .op modified => some ((s.setBuf b { s.buf b with lock := none }).goto t (.brelseRef b (.op modified)))
      | _ => none
    else none
  | .endOp => match s.pc t with
      | .op _ =>
        let outstanding := s.outstanding - 1
        if s.committing then none
        else if outstanding = 0 then some ({ s with outstanding := outstanding, committing := true }.goto t .commit)
        else some ({ s with outstanding := outstanding }.goto t .idle)
      | _ => none
  | .run => run sb s t (s.pc t)

/-- The machine after a start: memory is empty, and the first process is in `recover_from_log`. -/
def boot (sb : Superblock) (disk : BlockNo → Block) (t : Thread) : State Thread where
  disk := disk
  buf _ := ⟨none, false, 0, none, 0⟩
  order := List.ofFn fun b : BufNo => b.rev
  outstanding := 0
  committing := false
  lh := []
  booted := false
  pc := Function.update (fun _ => .idle) t (.bget sb.logstart .readHead)

def step (sb : Superblock) (s : State Thread) : Label Thread → Option (State Thread)
  | .act t a => act sb s t a
  | .crash t => some (boot sb s.disk t)

def system (sb : Superblock) (disk : BlockNo → Block) (t : Thread) : System (State Thread) (Label Thread) :=
  ⟨boot sb disk t, step sb⟩

end OsProjects.Logging
