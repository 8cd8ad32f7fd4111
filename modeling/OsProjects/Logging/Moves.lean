import OsProjects.Logging.Model
import OsProjects.Redo.Log

namespace OsProjects.Logging
open Transition

variable {Thread : Type} [DecidableEq Thread] {sb : Superblock} {s after : State Thread} {t : Thread}

/-! ## The log on the disk -/

theorem Superblock.logBlock_toNat (sb : Superblock) {tail : ℕ} (room : tail < sb.nlog - 1) :
    (sb.logBlock tail).toNat = sb.logstart.toNat + (tail + 1) := by
  have fits := sb.fits
  rw [logBlock, BitVec.toNat_add, BitVec.toNat_ofNat]
  rw [Nat.mod_eq_of_lt (a := tail + 1) (by omega), Nat.mod_eq_of_lt (by omega)]

/-- The log as a redo log: the header block names the blocks whose new contents follow it. -/
def Superblock.layout (sb : Superblock) : Redo.Layout BlockNo Block where
  head := sb.logstart
  slot := sb.logBlock
  capacity := min LOGSIZE (sb.nlog - 1)
  entries := readHead
  reserved := sb.inLog
  head_reserved := ⟨le_rfl, by have := sb.header; omega⟩
  slot_reserved tail room := by
    have room : tail < sb.nlog - 1 := room.trans_le (min_le_right _ _)
    unfold inLog
    rw [sb.logBlock_toNat room]
    omega
  slot_ne_head tail room := by
    have room : tail < sb.nlog - 1 := room.trans_le (min_le_right _ _)
    intro equal
    have := sb.logBlock_toNat room
    rw [equal] at this
    omega

theorem readHead_writeHead {lh : List BlockNo} (data : Block) (room : lh.length ≤ LOGSIZE) :
    readHead (writeHead lh data) = lh := by
  have bound : lh.length ≤ 30 := room
  have count : (writeHead lh data 0).toInt.toNat = lh.length := by
    simp only [writeHead, if_pos, BitVec.toInt_eq_toNat_cond, BitVec.toNat_ofNat]
    rw [Nat.mod_eq_of_lt (by omega), if_pos (by omega)]
    rfl
  rw [readHead, count]
  refine List.ext_getElem (by simp) fun i small bounded => ?_
  have short : i + 1 < 256 := by omega
  have place : (Fin.ofNat 256 (i + 1)).val = i + 1 := Nat.mod_eq_of_lt short
  have nonzero : Fin.ofNat 256 (i + 1) ≠ 0 := by
    intro zero
    have value := congrArg Fin.val zero
    rw [place] at value
    exact absurd value (Nat.succ_ne_zero i)
  simp only [List.getElem_map, List.getElem_range]
  rw [writeHead, if_neg nonzero, place, Nat.add_sub_cancel, List.getElem?_eq_getElem bounded, Option.getD_some]

/-! ## What a thread is doing -/

def Use.modified : Use → List BufNo
  | .op modified => modified
  | _ => []

/-- The buffers a thread has changed in its operation and not yet passed to `log_write`. -/
def Pc.modified : Pc → List BufNo
  | .op modified => modified
  | .bget _ use | .acquiresleep _ _ use | .bread _ _ use => use.modified
  | .brelse _ next | .brelseRef _ next => next.modified
  | _ => []

/-- What the callers see to: a buffer is changed and passed to `log_write` with its lock, and one that has been changed is
passed to `log_write` before `brelse` and `end_op`. -/
def Disciplined (s : State Thread) : Label Thread → Prop
  | .act t (.modify b _) | .act t (.logWrite b) => (s.buf b).lock = some t
  | .act t (.brelse b) => b ∉ (s.pc t).modified
  | .act t .endOp => (s.pc t).modified = []
  | _ => True

def Use.ops : Use → ℕ
  | .op _ => 1
  | _ => 0

def Pc.ops : Pc → ℕ
  | .op _ => 1
  | .bget _ use | .acquiresleep _ _ use | .bread _ _ use => use.ops
  | .brelse _ next | .brelseRef _ next => next.ops
  | _ => 0

def Pc.refs (b : BufNo) : Pc → ℕ
  | .acquiresleep _ b' _ => if b' = b then 1 else 0
  | .brelse _ next => next.refs b
  | .brelseRef b' next => (if b' = b then 1 else 0) + next.refs b
  | _ => 0

def Use.locks : Use → List BufNo
  | .logFrom _ toBuf => [toBuf]
  | .installTo _ _ lbuf => [lbuf]
  | _ => []

def Pc.locks : Pc → List BufNo
  | .bget _ use | .acquiresleep _ _ use => use.locks
  | .bread _ b use => b :: use.locks
  | .brelse b next => b :: next.locks
  | .brelseRef _ next => next.locks
  | .writeLogBlock _ toBuf fromBuf => [fromBuf, toBuf]
  | .installBlock _ _ lbuf dbuf | .bunpin _ lbuf dbuf => [lbuf, dbuf]
  | .writeHead b | .eraseHead _ b | .readHead b => [b]
  | _ => []

def Pc.plain : Pc → Bool
  | .idle | .op _ | .writeLog _ | .installTrans _ _ | .finish _ => true
  | .brelse _ next => next.plain
  | _ => false

def Pc.wf : Pc → Bool
  | .brelse _ next | .brelseRef _ next => next.plain
  | _ => true

def Use.target (sb : Superblock) (lh : List BlockNo) : Use → Option BlockNo
  | .reader | .op _ => none
  | .logTo tail | .installFrom _ tail => some (sb.logBlock tail)
  | .logFrom tail _ | .installTo _ tail _ => lh[tail]?.getD 0
  | .head | .erase _ | .readHead => some sb.logstart

def Use.reads (sb : Superblock) : Use → List (BufNo × BlockNo)
  | .logFrom tail toBuf => [(toBuf, sb.logBlock tail)]
  | .installTo _ tail lbuf => [(lbuf, sb.logBlock tail)]
  | _ => []

def Pc.reads (sb : Superblock) (lh : List BlockNo) : Pc → List (BufNo × BlockNo)
  | .bget _ use | .acquiresleep _ _ use | .bread _ _ use => use.reads sb
  | .writeLogBlock tail toBuf fromBuf => [(toBuf, sb.logBlock tail), (fromBuf, lh[tail]?.getD 0)]
  | .installBlock _ tail lbuf dbuf | .bunpin tail lbuf dbuf =>
    [(lbuf, sb.logBlock tail), (dbuf, lh[tail]?.getD 0)]
  | .writeHead b | .eraseHead _ b | .readHead b => [(b, sb.logstart)]
  | _ => []

/-- How far the commit or the recovery of a thread has come: the blocks copied to the log, the header written, the
blocks installed, the block installed and still pinned. -/
inductive Stage
  | outside
  | write (tail : ℕ) | head
  | install (recovering : Bool) (tail : ℕ) | unpin (tail : ℕ)
  | erase (recovering : Bool) | finish (recovering : Bool)
  | boot
  deriving DecidableEq

def Stage.recovering : Stage → Bool
  | .install recovering _ | .erase recovering | .finish recovering => recovering
  | .boot => true
  | _ => false

def Use.stage : Use → Stage
  | .reader | .op _ => .outside
  | .logTo tail | .logFrom tail _ => .write tail
  | .head => .head
  | .installFrom recovering tail | .installTo recovering tail _ => .install recovering tail
  | .erase recovering => .erase recovering
  | .readHead => .boot

def Pc.stage : Pc → Stage
  | .idle | .op _ => .outside
  | .bget _ use | .acquiresleep _ _ use | .bread _ _ use => use.stage
  | .brelse _ next | .brelseRef _ next => next.stage
  | .commit => .write 0
  | .writeLog tail | .writeLogBlock tail _ _ => .write tail
  | .writeHead _ => .head
  | .installTrans recovering tail | .installBlock recovering tail _ _ => .install recovering tail
  | .bunpin tail _ _ => .unpin tail
  | .eraseHead recovering _ => .erase recovering
  | .readHead _ => .boot
  | .finish recovering => .finish recovering

def Use.tail : Use → Option ℕ
  | .logTo tail | .logFrom tail _ | .installFrom _ tail | .installTo _ tail _ => some tail
  | _ => none

def Pc.tail : Pc → Option ℕ
  | .bget _ use | .acquiresleep _ _ use | .bread _ _ use => use.tail
  | .writeLogBlock tail _ _ | .installBlock _ tail _ _ | .bunpin tail _ _ => some tail
  | _ => none

/-! ## What a step does -/

inductive Goes (sb : Superblock) (lh : List BlockNo) : Pc → Pc → Prop
  | reader {b : BlockNo} : Goes sb lh .idle (.bget b .reader)
  | op {b : BlockNo} {modified : List BufNo} : Goes sb lh (.op modified) (.bget b (.op modified))
  | commit (some : lh ≠ []) : Goes sb lh .commit (.writeLog 0)
  | commitNone (none : lh = []) : Goes sb lh .commit (.finish false)
  | writeLog {tail : ℕ} (more : tail < lh.length) :
      Goes sb lh (.writeLog tail) (.bget (sb.logBlock tail) (.logTo tail))
  | writeLogEnd {tail : ℕ} (done : lh.length ≤ tail) : Goes sb lh (.writeLog tail) (.bget sb.logstart .head)
  | install {recovering : Bool} {tail : ℕ} (more : tail < lh.length) :
      Goes sb lh (.installTrans recovering tail) (.bget (sb.logBlock tail) (.installFrom recovering tail))

def Action.logs (s : State Thread) : Action → Option (BlockNo × Block)
  | .logWrite b => (s.buf b).blockno.map (·, (s.buf b).data)
  | _ => none

inductive Moved (sb : Superblock) (s : State Thread) (t : Thread) : Option (BlockNo × Block) → State Thread → Prop
  | goto {pc : Pc} (goes : Goes sb s.lh (s.pc t) pc) (up : s.pc t = .idle → s.booted = true) :
      Moved sb s t none (s.goto t pc)
  | hit {blockno : BlockNo} {use : Use} {b : BufNo} (here : s.pc t = .bget blockno use)
      (cached : (s.buf b).blockno = some blockno) :
      Moved sb s t none ((s.setBuf b { s.buf b with refcnt := (s.buf b).refcnt + 1 }).goto t (.acquiresleep blockno b use))
  | recycle {blockno : BlockNo} {use : Use} {b : BufNo} (here : s.pc t = .bget blockno use)
      (missing : ∀ i ∈ s.order, (s.buf i).blockno ≠ some blockno) (unused : (s.buf b).refcnt = 0) :
      Moved sb s t none ((s.setBuf b { s.buf b with blockno := some blockno, valid := false, refcnt := 1 }).goto t
        (.acquiresleep blockno b use))
  | acquire {blockno : BlockNo} {use : Use} {b : BufNo} (here : s.pc t = .acquiresleep blockno b use)
      (free : (s.buf b).lock = none) :
      Moved sb s t none ((s.setBuf b { s.buf b with lock := some t }).goto t (.bread blockno b use))
  | cached {blockno : BlockNo} {use : Use} {b : BufNo} (here : s.pc t = .bread blockno b use)
      (valid : (s.buf b).valid = true) : Moved sb s t none (s.goto t (resume s.lh b use))
  | fill {blockno : BlockNo} {use : Use} {b : BufNo} (here : s.pc t = .bread blockno b use)
      (invalid : (s.buf b).valid = false) :
      Moved sb s t none ((s.setBuf b { s.buf b with data := s.disk blockno, valid := true }).goto t (resume s.lh b use))
  | release {b : BufNo} {next : Pc} (holds : (s.buf b).lock = some t)
      (here : s.pc t = .brelse b next ∨ s.pc t = next ∧ b ∉ next.modified ∧ (next = .idle ∨ ∃ m, next = .op m)) :
      Moved sb s t none ((s.setBuf b { s.buf b with lock := none }).goto t (.brelseRef b next))
  | unref {b : BufNo} {next : Pc} (here : s.pc t = .brelseRef b next) : Moved sb s t none ((s.unref b).goto t next)
  | beginOp (here : s.pc t = .idle) (up : s.booted = true) (free : s.committing = false)
      (room : s.lh.length + (s.outstanding + 1) * MAXOPBLOCKS ≤ LOGSIZE) :
      Moved sb s t none ({ s with outstanding := s.outstanding + 1 }.goto t (.op []))
  | modify {b : BufNo} {data : Block} {modified : List BufNo} (here : s.pc t = .op modified)
      (holds : (s.buf b).lock = some t) :
      Moved sb s t none ((s.setBuf b { s.buf b with data := data }).goto t (.op (b :: modified)))
  | absorb {b : BufNo} {blockno : BlockNo} {modified : List BufNo} (here : s.pc t = .op modified)
      (holds : (s.buf b).lock = some t) (block : (s.buf b).blockno = some blockno) (logged : blockno ∈ s.lh) :
      Moved sb s t (some (blockno, (s.buf b).data)) (s.goto t (.op (modified.filter (· ≠ b))))
  | append {b : BufNo} {blockno : BlockNo} {modified : List BufNo} (here : s.pc t = .op modified)
      (holds : (s.buf b).lock = some t) (block : (s.buf b).blockno = some blockno) (fresh : blockno ∉ s.lh)
      (room : s.lh.length < LOGSIZE ∧ s.lh.length < sb.nlog - 1) :
      Moved sb s t (some (blockno, (s.buf b).data)) { (s.goto t (.op (modified.filter (· ≠ b)))).setBuf b
          { s.buf b with refcnt := (s.buf b).refcnt + 1 } with lh := s.lh ++ [blockno] }
  | endLast (here : s.pc t = .op []) (free : s.committing = false) (last : s.outstanding - 1 = 0) :
      Moved sb s t none ({ s with outstanding := s.outstanding - 1, committing := true }.goto t .commit)
  | endOp (here : s.pc t = .op []) (more : s.outstanding - 1 ≠ 0) :
      Moved sb s t none ({ s with outstanding := s.outstanding - 1 }.goto t .idle)
  | writeLogBlock {tail : ℕ} {toBuf fromBuf : BufNo} (here : s.pc t = .writeLogBlock tail toBuf fromBuf)
      {wrote : State Thread} (write : s.bwrite t toBuf (s.buf fromBuf).data = some wrote) :
      Moved sb s t none (wrote.goto t (.brelse fromBuf (.brelse toBuf (.writeLog (tail + 1)))))
  | writeHead {b : BufNo} (here : s.pc t = .writeHead b)
      {wrote : State Thread} (write : s.bwrite t b (writeHead s.lh (s.buf b).data) = some wrote) :
      Moved sb s t none (wrote.goto t (.brelse b (.installTrans false 0)))
  | installBlock {recovering : Bool} {tail : ℕ} {lbuf dbuf : BufNo}
      (here : s.pc t = .installBlock recovering tail lbuf dbuf)
      {wrote : State Thread} (write : s.bwrite t dbuf (s.buf lbuf).data = some wrote) :
      Moved sb s t none (wrote.goto t (if recovering then .brelse lbuf (.brelse dbuf (.installTrans recovering (tail + 1)))
        else .bunpin tail lbuf dbuf))
  | bunpin {tail : ℕ} {lbuf dbuf : BufNo} (here : s.pc t = .bunpin tail lbuf dbuf) :
      Moved sb s t none ((s.setBuf dbuf { s.buf dbuf with refcnt := (s.buf dbuf).refcnt - 1 }).goto t
        (.brelse lbuf (.brelse dbuf (.installTrans false (tail + 1)))))
  | installed {recovering : Bool} {tail : ℕ} (here : s.pc t = .installTrans recovering tail)
      (done : s.lh.length ≤ tail) : Moved sb s t none ({ s with lh := [] }.goto t (.bget sb.logstart (.erase recovering)))
  | eraseHead {recovering : Bool} {b : BufNo} (here : s.pc t = .eraseHead recovering b)
      {wrote : State Thread} (write : s.bwrite t b (Logging.writeHead s.lh (s.buf b).data) = some wrote) :
      Moved sb s t none (wrote.goto t (.brelse b (.finish recovering)))
  | readHead {b : BufNo} (here : s.pc t = .readHead b) :
      Moved sb s t none ({ s with lh := Logging.readHead (s.buf b).data }.goto t (.brelse b (.installTrans true 0)))
  | booted (here : s.pc t = .finish true) : Moved sb s t none ({ s with booted := true }.goto t .idle)
  | committed (here : s.pc t = .finish false) : Moved sb s t none ({ s with committing := false }.goto t .idle)

theorem bget_moved {blockno : BlockNo} {use : Use} {b : BufNo} (here : s.pc t = .bget blockno use)
    (found : s.bget blockno = some (b, after)) : Moved sb s t none (after.goto t (.acquiresleep blockno b use)) := by
  unfold State.bget at found
  cases search : s.order.find? fun b => (s.buf b).blockno = some blockno with
  | some hit =>
    simp only [search, Option.some.injEq, Prod.mk.injEq] at found
    obtain ⟨rfl, rfl⟩ := found
    exact .hit here (by simpa using List.find?_some search)
  | none =>
    simp only [search, Option.map_eq_some_iff, Prod.mk.injEq] at found
    obtain ⟨free, recycled, rfl, rfl⟩ := found
    refine .recycle here ?_ (by simpa using List.find?_some recycled)
    intro i listed
    simpa using List.find?_eq_none.mp search i listed

theorem run_moved (action : run sb s t (s.pc t) = some after) : Moved sb s t none after := by
  cases here : s.pc t <;> rw [here] at action <;>
    simp only [run, reduceCtorEq, Option.some.injEq, Option.map_eq_some_iff, Prod.exists] at action
  case bget blockno use =>
    obtain ⟨b, found, search, rfl⟩ := action
    exact bget_moved here search
  case acquiresleep blockno b use =>
    split at action
    · cases action
      exact .acquire here ‹_›
    · cases action
  case bread blockno b use =>
    subst action
    cases valid : (s.buf b).valid with
    | true => simpa [valid] using Moved.cached here valid
    | false => simpa [valid] using Moved.fill here valid
  case brelse b next =>
    split at action
    · cases action
      exact .release ‹_› (.inl here)
    · cases action
  case brelseRef b next =>
    subst action
    exact .unref here
  case commit =>
    subst action
    refine .goto ?_ (by simp [here])
    rw [here]
    split
    · exact .commitNone ‹_›
    · exact .commit ‹_›
  case writeLog tail =>
    subst action
    refine .goto ?_ (by simp [here])
    rw [here]
    split
    · exact .writeLog ‹_›
    · exact .writeLogEnd (not_lt.mp ‹_›)
  case writeLogBlock tail toBuf fromBuf =>
    obtain ⟨wrote, equal, rfl⟩ := action
    exact .writeLogBlock here equal
  case writeHead b =>
    obtain ⟨wrote, equal, rfl⟩ := action
    exact .writeHead here equal
  case installTrans recovering tail =>
    split at action <;> cases action
    · refine .goto ?_ (by simp [here])
      rw [here]
      exact .install ‹_›
    · exact .installed here (not_lt.mp ‹_›)
  case installBlock recovering tail lbuf dbuf =>
    obtain ⟨wrote, equal, rfl⟩ := action
    exact .installBlock here equal
  case bunpin tail lbuf dbuf =>
    subst action
    exact .bunpin here
  case eraseHead recovering b =>
    obtain ⟨wrote, equal, rfl⟩ := action
    exact .eraseHead here equal
  case readHead b =>
    subst action
    exact .readHead here
  case finish recovering =>
    cases recovering <;> cases action
    · exact .committed here
    · exact .booted here

theorem act_moved {a : Action} (action : act sb s t a = some after) (disciplined : Disciplined s (.act t a)) :
    Moved sb s t (a.logs s) after := by
  cases a with
  | run => exact run_moved action
  | beginOp =>
    simp only [act] at action
    split at action
    · next may =>
      cases action
      exact .beginOp may.1 may.2.1 may.2.2.1 may.2.2.2
    · cases action
  | bread blockno =>
    simp only [act] at action
    split at action
    · next up =>
      cases here : s.pc t <;> simp only [here, reduceCtorEq, Option.some.injEq] at action
      · subst action
        exact .goto (here ▸ .reader) fun _ => up
      · subst action
        exact .goto (here ▸ .op) fun _ => up
    · cases action
  | modify b data =>
    cases here : s.pc t <;> simp only [act, here, reduceCtorEq, Option.some.injEq] at action
    subst action
    exact .modify here disciplined
  | logWrite b =>
    simp only [act] at action
    split at action
    · next modified blockno here block =>
      rw [Action.logs, block, Option.map_some]
      split at action
      · next may =>
        split at action <;> cases action
        · exact .absorb here disciplined block ‹_›
        · exact .append here disciplined block ‹_› ⟨may.1, may.2.1⟩
      · cases action
    · cases action
  | brelse b =>
    simp only [act] at action
    split at action
    · next holds =>
      cases here : s.pc t <;> simp only [here, reduceCtorEq, Option.some.injEq] at action
      · subst action
        exact .release holds (.inr ⟨here, by simp [Pc.modified], .inl rfl⟩)
      · subst action
        exact .release holds (.inr ⟨here, here ▸ disciplined, .inr ⟨_, rfl⟩⟩)
    · cases action
  | endOp =>
    change (s.pc t).modified = [] at disciplined
    cases here : s.pc t <;> simp only [act, here, reduceCtorEq] at action
    rw [here] at disciplined
    obtain rfl := disciplined
    split at action
    · cases action
    · next free =>
      split at action <;> cases action
      · exact .endLast here (Bool.eq_false_iff.mpr free) ‹_›
      · exact .endOp here ‹_›

end OsProjects.Logging
