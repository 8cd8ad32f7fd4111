import OsProjects.Hoare.Ghost
import OsProjects.Logging.Model
import OsProjects.Volume.Model

namespace OsProjects.Volume.Logged
open Bytes Hoare
open Logging (MAXOPBLOCKS)

/-! ## The calls of `log_write` -/

/-- The blocks `log_write` was called for, in the transaction that runs and in those that have ended. -/
structure Journal where
  running : List Uint
  ended : List (List Uint)

abbrev LogM (α : Type) := StateT (State × Journal) (Except Panic) α

def logWrite (b : Uint) : LogM Unit := note fun j => { j with running := b :: j.running }

def beginOp : LogM Unit := note fun j => { j with running := [] }

def endOp : LogM Unit := note fun j => ⟨[], j.running :: j.ended⟩

/-- `BBLOCK`: the block of the free map with the bit of a block. -/
def bitmapBlock (sb : Superblock) (b : Uint) : Uint := .ofNat 32 (b.toNat / BPB) + sb.bmapstart

abbrev IPB : ℕ := BSIZE / 64

def inodeBlock (inodestart : Uint) (inum : ℕ) : Uint := .ofNat 32 (inum / IPB) + inodestart

def balloc (sb : Superblock) : LogM Uint := do
  let s ← onState get
  match freeBit sb s.disk.used with
  | none => pure 0
  | some b => do
    onState (setUsed b true)
    logWrite (bitmapBlock sb b)
    onState (setBlock b fun _ => 0)
    logWrite b
    pure b

def addrOrAlloc (sb : Superblock) (i : Fin (NDIRECT + 1)) : LogM Uint := do
  let s ← onState get
  let addr := s.ip.addrs i
  if addr = 0 then do
    let addr ← balloc sb
    if addr = 0 then pure 0
    else do
      onState (setAddr i addr)
      pure addr
  else pure addr

def bmap (sb : Superblock) (bn : ℕ) : LogM Uint := do
  if direct : bn < NDIRECT then addrOrAlloc sb ⟨bn, direct_lt direct⟩
  else
    let bn := bn - NDIRECT
    if bn < NINDIRECT then do
      let bp ← addrOrAlloc sb indirect
      if bp = 0 then pure 0
      else do
        let s ← onState get
        let addr := entry (s.disk.block bp) bn
        if addr = 0 then do
          let addr ← balloc sb
          if addr = 0 then pure 0
          else do
            let s ← onState get
            onState (setBlock bp (setEntry (s.disk.block bp) bn addr))
            logWrite bp
            pure addr
        else pure addr
    else throw .bmapOutOfRange

def writeLoop (sb : Superblock) (src : Source) (n : ℕ) : ℕ → ℕ → ℕ → LogM (ℕ × ℕ)
  | 0, _, _ => throw .endless
  | fuel + 1, tot, off =>
    if tot < n then do
      let addr ← bmap sb (off / BSIZE)
      if addr = 0 then pure (tot, off)
      else do
        let m := chunk n tot off
        let got := min m (src.copied tot m)
        let s ← onState get
        onState (setBlock addr (put (s.disk.block addr) (off % BSIZE) got fun i => src.byte (tot + i)))
        if got < m then pure (tot, off)
        else do
          logWrite addr
          writeLoop sb src n fuel (uadd tot m) (uadd off m)
    else pure (tot, off)

def writei (sb : Superblock) (inodestart : Uint) (inum : ℕ) (src : Source) (off n : Uint) : LogM (Option ℕ) := do
  let s ← onState get
  let size := s.ip.size
  if off > size ∨ off + n < off then pure none
  else if (off + n).toNat > MAXFILE * BSIZE then pure none
  else do
    let (tot, off) ← writeLoop sb src n.toNat (n.toNat + 1) 0 off.toNat
    onState (modify fun s => { s with ip := { s.ip with size := if off > size.toNat then .ofNat 32 off else size } })
    onState (iupdate inum)
    logWrite (inodeBlock inodestart inum)
    pure (some tot)

def maxBytes : ℕ := (MAXOPBLOCKS - 1 - 1 - 2) / 2 * BSIZE

def writeTurn (sb : Superblock) (inodestart : Uint) (inum : ℕ) (src : Source) (off : Uint) (n1 : ℕ) : LogM (Option ℕ × Uint) := do
  beginOp
  let r ← writei sb inodestart inum src off (.ofNat 32 n1)
  endOp
  pure (r, off + .ofNat 32 (r.getD 0))

/-- The loop of `filewrite` for an inode; `src i` is the memory `i` bytes after the address. -/
def filewriteLoop (sb : Superblock) (inodestart : Uint) (inum : ℕ) (src : ℕ → Source) (n : ℕ) : ℕ → ℕ → Uint → LogM ℕ
  | 0, _, _ => throw .endless
  | fuel + 1, i, off =>
    if i < n then do
      let n1 := min (n - i) maxBytes
      let (r, off) ← writeTurn sb inodestart inum (src i) off n1
      if r = some n1 then filewriteLoop sb inodestart inum src n fuel (i + n1) off else pure i
    else pure i

def filewrite (sb : Superblock) (inodestart : Uint) (inum : ℕ) (src : ℕ → Source) (n : ℕ) (off : Uint) : LogM Bool := do
  let i ← filewriteLoop sb inodestart inum src n (n + 1) 0 off
  pure (i = n)

/-! ## Without the journal -/

theorem balloc_erases (sb : Superblock) : Erases (balloc sb) (Volume.balloc sb) := by
  refine .bind (.onState _) fun s => ?_
  cases freeBit sb s.disk.used with
  | none => exact .pure _
  | some b => exact .bind (.onState _) fun _ => .note (.bind (.onState _) fun _ => .note (.pure _))

theorem addrOrAlloc_erases (sb : Superblock) (i : Fin (NDIRECT + 1)) : Erases (addrOrAlloc sb i) (Volume.addrOrAlloc sb i) := by
  refine .bind (.onState _) fun s => .ite (.bind (balloc_erases sb) fun addr => ?_) (.pure _)
  exact .ite (.pure _) (.bind (.onState _) fun _ => .pure _)

theorem bmap_erases (sb : Superblock) (bn : ℕ) : Erases (bmap sb bn) (Volume.bmap sb bn) := by
  unfold bmap Volume.bmap
  split
  · exact addrOrAlloc_erases sb _
  · refine .ite (.bind (addrOrAlloc_erases sb _) fun bp => .ite (.pure _) (.bind (.onState _) fun s => ?_)) (.throw _)
    refine .ite (.bind (balloc_erases sb) fun addr => .ite (.pure _) ?_) (.pure _)
    exact .bind (.onState _) fun _ => .bind (.onState _) fun _ => .note (.pure _)

theorem writeLoop_erases (sb : Superblock) (src : Source) (n fuel tot off : ℕ) :
    Erases (writeLoop sb src n fuel tot off) (Volume.writeLoop sb src n fuel tot off) := by
  induction fuel generalizing tot off with
  | zero => exact .throw _
  | succ fuel ih =>
    refine .ite (.bind (bmap_erases sb _) fun addr => .ite (.pure _) (.bind (.onState _) fun s => ?_)) (.pure _)
    exact .bind (.onState _) fun _ => .ite (.pure _) (.note (ih _ _))

theorem writei_erases (sb : Superblock) (inodestart : Uint) (inum : ℕ) (src : Source) (off n : Uint) :
    Erases (writei sb inodestart inum src off n) (Volume.writei sb inum src off n) := by
  refine .bind (.onState _) fun s => .ite (.pure _) (.ite (.pure _) (.bind (writeLoop_erases sb src _ _ _ _) fun out => ?_))
  exact .bind (.onState _) fun _ => .bind (.onState _) fun _ => .note (.pure _)

end OsProjects.Volume.Logged
