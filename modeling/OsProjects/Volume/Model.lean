import Mathlib.Data.BitVec
import OsProjects.Bytes.LittleEndian
import OsProjects.Inodes.Model

namespace OsProjects.Volume
open Bytes
open Inodes (Dinode)

/-! ## The disk and one inode -/

abbrev BSIZE : ℕ := 1024

abbrev NDIRECT : ℕ := 12

abbrev NINDIRECT : ℕ := BSIZE / 4

abbrev MAXFILE : ℕ := NDIRECT + NINDIRECT

/-- Bits of the free map in a block. -/
abbrev BPB : ℕ := BSIZE * 8

abbrev Uint := BitVec 32

abbrev Block := ℕ → UInt8

structure Superblock where
  size : Uint
  ninodes : Uint
  bmapstart : Uint

/-- The first block after the free map. -/
def Superblock.dataStart (sb : Superblock) : ℕ := sb.bmapstart.toNat + sb.size.toNat / BPB + 1

/-- The free map, the data blocks and the inodes, as reads through the buffer cache give them. -/
structure Disk where
  used : Uint → Bool
  block : Uint → Block
  dinode : ℕ → Dinode

/-- `endless` stands for a loop that does not end, and `beyond` for the use of a number that no inode has. -/
inductive Panic
  | freeingFreeBlock | bmapOutOfRange | endless
  | igetNoInodes | ilock | ilockNoType | beyond
  | dirlookupNotDir | dirlookupRead | dirlinkRead
  | isdiremptyReadi | unlinkNlink | unlinkWritei
  | fileclose
  deriving DecidableEq

/-- The disk and the fields in memory of an inode that is locked. -/
structure State where
  disk : Disk
  ip : Dinode

abbrev VolM (α : Type) := StateT State (Except Panic) α

def setUsed (b : Uint) (used : Bool) : VolM Unit :=
  modify fun s => { s with disk := { s.disk with used := Function.update s.disk.used b used } }

def setBlock (b : Uint) (block : Block) : VolM Unit :=
  modify fun s => { s with disk := { s.disk with block := Function.update s.disk.block b block } }

def setAddr (i : Fin (NDIRECT + 1)) (addr : Uint) : VolM Unit :=
  modify fun s => { s with ip := { s.ip with addrs := Function.update s.ip.addrs i addr } }

/-- The loops of `balloc` over the blocks of the free map and the bits of each. -/
def freeBit (sb : Superblock) (used : Uint → Bool) : Option Uint :=
  (List.range ((sb.size.toNat + BPB - 1) / BPB)).findSome? fun i =>
    (List.range (min BPB (sb.size.toNat - i * BPB))).findSome? fun bi =>
      let b : Uint := .ofNat 32 (i * BPB + bi)
      if used b then none else some b

def balloc (sb : Superblock) : VolM Uint := do
  match freeBit sb (← get).disk.used with
  | none => pure 0
  | some b => do
    setUsed b true
    setBlock b fun _ => 0
    pure b

def bfree (b : Uint) : VolM Unit := do
  if (← get).disk.used b then setUsed b false else throw .freeingFreeBlock

/-- `a[j]`, for a block `a` of numbers. -/
def entry (a : Block) (j : ℕ) : Uint := .ofNat 32 (word a (4 * j) 4)

def setEntry (a : Block) (j : ℕ) (addr : Uint) : Block := putWord a (4 * j) 4 addr.toNat

/-- `ip->addrs[i]`, for which a block is allocated if it is zero. -/
def addrOrAlloc (sb : Superblock) (i : Fin (NDIRECT + 1)) : VolM Uint := do
  let addr := (← get).ip.addrs i
  if addr = 0 then do
    let addr ← balloc sb
    if addr = 0 then pure 0
    else do
      setAddr i addr
      pure addr
  else pure addr

def indirect : Fin (NDIRECT + 1) := Fin.last NDIRECT

theorem direct_lt {bn : ℕ} (direct : bn < NDIRECT) : bn < NDIRECT + 1 := Nat.lt_succ_of_lt direct

def bmap (sb : Superblock) (bn : ℕ) : VolM Uint := do
  if direct : bn < NDIRECT then addrOrAlloc sb ⟨bn, direct_lt direct⟩
  else
    let bn := bn - NDIRECT
    if bn < NINDIRECT then do
      let bp ← addrOrAlloc sb indirect
      if bp = 0 then pure 0
      else do
        let addr := entry ((← get).disk.block bp) bn
        if addr = 0 then do
          let addr ← balloc sb
          if addr = 0 then pure 0
          else do
            setBlock bp (setEntry ((← get).disk.block bp) bn addr)
            pure addr
        else pure addr
    else throw .bmapOutOfRange

def iupdate (inum : ℕ) : VolM Unit :=
  modify fun s => { s with disk := { s.disk with dinode := Function.update s.disk.dinode inum s.ip } }

/-- The bodies of the loops of `itrunc`. -/
def freeAddr (i : Fin (NDIRECT + 1)) : VolM Unit := do
  let addr := (← get).ip.addrs i
  if addr ≠ 0 then do
    bfree addr
    setAddr i 0
  else pure ()

def freeEntry (a : Block) (j : ℕ) : VolM Unit := if entry a j ≠ 0 then bfree (entry a j) else pure ()

def freeIndirect : VolM Unit := do
  let s ← get
  let addr := s.ip.addrs indirect
  if addr ≠ 0 then do
    (List.finRange NINDIRECT).forM fun j => freeEntry (s.disk.block addr) j
    bfree addr
    setAddr indirect 0
  else pure ()

def itrunc (inum : ℕ) : VolM Unit := do
  (List.finRange NDIRECT).forM fun i => freeAddr i.castSucc
  freeIndirect
  modify fun s => { s with ip := { s.ip with size := 0 } }
  iupdate inum

/-! ## Reading and writing -/

/-- Addition of numbers of type `uint`. -/
def uadd (a b : ℕ) : ℕ := (a + b) % 2 ^ 32

def chunk (n tot off : ℕ) : ℕ := min (n - tot) (BSIZE - off % BSIZE)

/-- Bytes `first` to `first + m - 1` of a block. -/
def slice (block : Block) (first m : ℕ) : List UInt8 := (List.range m).map fun i => block (first + i)

/-- The loop of `readi`; `copies tot m` is whether `either_copyout` succeeds for `m` bytes after the first `tot`. The bytes
copied are given, or nothing if a copy fails. -/
def readLoop (sb : Superblock) (copies : ℕ → ℕ → Bool) (n : ℕ) :
    ℕ → ℕ → ℕ → List UInt8 → VolM (Option (List UInt8))
  | 0, _, _, _ => throw .endless
  | fuel + 1, tot, off, out =>
    if tot < n then do
      let addr ← bmap sb (off / BSIZE)
      if addr = 0 then pure (some out)
      else do
        let m := chunk n tot off
        if copies tot m then
          let data := slice ((← get).disk.block addr) (off % BSIZE) m
          readLoop sb copies n fuel (uadd tot m) (uadd off m) (out ++ data)
        else pure none
    else pure (some out)

def readi (sb : Superblock) (copies : ℕ → ℕ → Bool) (off n : Uint) : VolM (Option (List UInt8)) := do
  let size := (← get).ip.size
  if off > size ∨ off + n < off then pure (some [])
  else
    let n := if off + n > size then size - off else n
    readLoop sb copies n.toNat (n.toNat + 1) 0 off.toNat []

/-- Memory to copy from: its bytes, and how many of `m` bytes after the first `tot` `either_copyin` copies before it
fails. -/
structure Source where
  byte : ℕ → UInt8
  copied : ℕ → ℕ → ℕ

/-- Where every copy succeeds. -/
def Source.whole (byte : ℕ → UInt8) : Source := ⟨byte, fun _ m => m⟩

/-- The loop of `writei`, with `tot` and `off` at its end. -/
def writeLoop (sb : Superblock) (src : Source) (n : ℕ) : ℕ → ℕ → ℕ → VolM (ℕ × ℕ)
  | 0, _, _ => throw .endless
  | fuel + 1, tot, off =>
    if tot < n then do
      let addr ← bmap sb (off / BSIZE)
      if addr = 0 then pure (tot, off)
      else do
        let m := chunk n tot off
        let got := min m (src.copied tot m)
        setBlock addr (put ((← get).disk.block addr) (off % BSIZE) got fun i => src.byte (tot + i))
        if got < m then pure (tot, off)
        else writeLoop sb src n fuel (uadd tot m) (uadd off m)
    else pure (tot, off)

/-- The number of bytes written, or nothing for -1. -/
def writei (sb : Superblock) (inum : ℕ) (src : Source) (off n : Uint) : VolM (Option ℕ) := do
  let size := (← get).ip.size
  if off > size ∨ off + n < off then pure none
  else if (off + n).toNat > MAXFILE * BSIZE then pure none
  else do
    let (tot, off) ← writeLoop sb src n.toNat (n.toNat + 1) 0 off.toNat
    modify fun s => { s with ip := { s.ip with size := if off > size.toNat then .ofNat 32 off else size } }
    iupdate inum
    pure (some tot)

end OsProjects.Volume
