import OsProjects.Bytes.LittleEndian
import OsProjects.Kernel.Proc
import OsProjects.Transition.System

namespace OsProjects.Paging
open Bytes Transition Kernel

/-! ## Physical memory -/

/-- A physical page, by its number. -/
abbrev Page := ℕ

def PGSIZE : ℕ := 4096

def PHYSTOP : ℕ := 0x80000000 + 128 * 1024 * 1024

def MAXVA : ℕ := 2 ^ 38

def TRAMPOLINE : ℕ := MAXVA - PGSIZE

def TRAPFRAME : ℕ := TRAMPOLINE - PGSIZE

def pgRoundUp (sz : ℕ) : ℕ := (sz + PGSIZE - 1) % 2 ^ 64 / PGSIZE * PGSIZE

def pgRoundDown (a : ℕ) : ℕ := a / PGSIZE * PGSIZE

/-- The bits of `PTE_FLAGS` but `PTE_V`: those with a name, and the five above them. -/
structure Perm where
  r : Bool
  w : Bool
  x : Bool
  u : Bool
  rest : BitVec 5
  deriving DecidableEq, Repr

def Perm.none : Perm := ⟨false, false, false, false, 0#5⟩

/-- A word of memory, read as a page-table entry: `PTE_V`, the other flags, and the page number of `PTE2PA`. -/
structure Pte where
  v : Bool
  perm : Perm
  ppn : Page
  deriving DecidableEq, Repr

def Pte.ofBits (bits : BitVec 64) : Pte where
  v := bits.getLsbD 0
  perm := ⟨bits.getLsbD 1, bits.getLsbD 2, bits.getLsbD 3, bits.getLsbD 4, bits.extractLsb' 5 5⟩
  ppn := bits.toNat / 2 ^ 10

def Perm.flags (perm : Perm) : ℕ :=
  2 * perm.r.toNat + 4 * perm.w.toNat + 8 * perm.x.toNat + 16 * perm.u.toNat + 32 * perm.rest.toNat

def Pte.bits (pte : Pte) : BitVec 64 := .ofNat 64 (pte.v.toNat + pte.perm.flags + 2 ^ 10 * pte.ppn)

/-- A page full of one byte. -/
def memset (c : BitVec 8) : Fin 512 → Pte := fun _ => Pte.ofBits (c.replicate 8)

/-- The physical memory is made of pages of 64-bit words; page tables and the bytes of users are in the same memory.
`quota` is how many more pages the running operation gets: the free list may also be emptied by others before
a `kalloc` of this one. -/
structure Mem where
  freelist : List Page
  mem : Page → Fin 512 → Pte
  quota : ℕ

def Mem.byte (m : Mem) (a : ℕ) : UInt8 :=
  .ofNat ((m.mem (a / PGSIZE) (Fin.ofNat 512 (a % PGSIZE / 8))).bits.toNat / 256 ^ (a % 8))

/-- `memmove` of `n` bytes to an address, which changes the words that hold them. -/
def Mem.write (m : Mem) (a n : ℕ) (src : ℕ → UInt8) : Mem where
  freelist := m.freelist
  mem p i :=
    let first : ℕ := p * PGSIZE + 8 * i
    if first + 8 ≤ a ∨ a + n ≤ first then m.mem p i else .ofBits (.ofNat 64 (word (put m.byte a n src) first 8))
  quota := m.quota

/-- The first page after `end`, and the page of the trampoline code. -/
structure Layout where
  kernelEnd : Page
  trampoline : Page

/-- Code that may panic. -/
abbrev Vm (α : Type) := StateT Mem Option α

variable (L : Layout)

def kalloc : Vm (Option Page) := fun m => match m.quota, m.freelist with
  | quota + 1, r :: next => some (some r, ⟨next, Function.update m.mem r (memset 5), quota⟩)
  | _, _ => some (none, m)

def kfree (pa : Page) : Vm Unit := fun m =>
  if pa < L.kernelEnd ∨ PHYSTOP / PGSIZE ≤ pa then none
  else some ((), { m with freelist := pa :: m.freelist, mem := Function.update m.mem pa (memset 1) })

def fill (pa : Page) (data : Fin 512 → Pte) : Vm Unit :=
  modify fun m => { m with mem := Function.update m.mem pa data }

def setPte (pagetable : Page) (i : Fin 512) (pte : Pte) : Vm Unit :=
  modify fun m => { m with mem := Function.update m.mem pagetable (Function.update (m.mem pagetable) i pte) }

/-! ## Page tables -/

def px (level va : ℕ) : Fin 512 := Fin.ofNat 512 (va / 2 ^ (12 + 9 * level))

/-- The loop of `walk`, from a level on. -/
def walkFrom (va : ℕ) (alloc : Bool) : ℕ → Page → Vm (Option (Page × Fin 512))
  | 0, pagetable => pure (some (pagetable, px 0 va))
  | level + 1, pagetable => do
    let pte := (← get).mem pagetable (px (level + 1) va)
    if pte.v then walkFrom va alloc level pte.ppn
    else if alloc then
      match ← kalloc with
      | none => pure none
      | some fresh => do
        fill fresh (memset 0)
        setPte pagetable (px (level + 1) va) ⟨true, .none, fresh⟩
        walkFrom va alloc level fresh
    else pure none

def walk (pagetable : Page) (va : ℕ) (alloc : Bool) : Vm (Option (Page × Fin 512)) :=
  if va ≥ MAXVA then failure else walkFrom va alloc 2 pagetable

/-- The loop of `mappages`, whose addresses wrap. It does not get past `MAXVA`, where `walk` panics. -/
def mapFrom (pagetable : Page) (perm : Perm) (last : ℕ) : ℕ → ℕ → Page → Vm Bool
  | 0, _, _ => failure
  | fuel + 1, a, pa => do
    match ← walk pagetable a true with
    | none => pure false
    | some (table, i) =>
      if ((← get).mem table i).v then failure
      else do
        setPte table i ⟨true, perm, pa⟩
        if a = last then pure true
        else mapFrom pagetable perm last fuel ((a + PGSIZE) % 2 ^ 64) ((pa + 1) % 2 ^ 52)

def mappages (pagetable : Page) (va size : ℕ) (pa : Page) (perm : Perm) : Vm Bool :=
  if size = 0 then failure
  else mapFrom pagetable perm (pgRoundDown ((va + size - 1) % 2 ^ 64)) (MAXVA / PGSIZE + 1) (pgRoundDown va) pa

def unmapFrom (pagetable : Page) (doFree : Bool) : ℕ → ℕ → Vm Unit
  | 0, _ => pure ()
  | n + 1, a => do
    match ← walk pagetable a false with
    | none => failure
    | some (table, i) => do
      let pte := (← get).mem table i
      if pte.v = false ∨ pte.perm = .none then failure
      if doFree then kfree L pte.ppn
      setPte table i (Pte.ofBits 0)
      unmapFrom pagetable doFree n (a + PGSIZE)

/-- The loop runs while `a < va + npages*PGSIZE`, which wraps. -/
def uvmunmap (pagetable : Page) (va npages : ℕ) (doFree : Bool) : Vm Unit :=
  if va % PGSIZE ≠ 0 then failure
  else unmapFrom L pagetable doFree (((va + npages * PGSIZE) % 2 ^ 64 - va) / PGSIZE) va

def uvmcreate : Vm (Option Page) := do
  match ← kalloc with
  | none => pure none
  | some pagetable => do
    fill pagetable (memset 0)
    pure (some pagetable)

def uvmdealloc (pagetable : Page) (oldsz newsz : ℕ) : Vm ℕ :=
  if newsz ≥ oldsz then pure oldsz
  else do
    if pgRoundUp newsz < pgRoundUp oldsz then
      uvmunmap L pagetable (pgRoundUp newsz) ((pgRoundUp oldsz - pgRoundUp newsz) / PGSIZE) true
    pure newsz

def allocFrom (pagetable : Page) (oldsz newsz : ℕ) (perm : Perm) : ℕ → ℕ → Vm ℕ
  | 0, _ => pure newsz
  | n + 1, a => do
    match ← kalloc with
    | none => do
      let _ ← uvmdealloc L pagetable a oldsz
      pure 0
    | some mem => do
      fill mem (memset 0)
      if ← mappages pagetable a PGSIZE mem perm then allocFrom pagetable oldsz newsz perm n (a + PGSIZE)
      else do
        kfree L mem
        let _ ← uvmdealloc L pagetable a oldsz
        pure 0

/-- The loop runs while `a < newsz`. -/
def uvmalloc (pagetable : Page) (oldsz newsz : ℕ) (xperm : Perm) : Vm ℕ :=
  if newsz < oldsz then pure oldsz
  else
    allocFrom L pagetable (pgRoundUp oldsz) newsz { xperm with r := true, u := true }
      ((newsz - pgRoundUp oldsz + PGSIZE - 1) / PGSIZE) (pgRoundUp oldsz)

/-- The loop of `freewalk`, with the call for a lower page table. -/
def freeEntries (descend : Page → Vm Unit) (pagetable : Page) : List (Fin 512) → Vm Unit
  | [] => pure ()
  | i :: rest => do
    let pte := (← get).mem pagetable i
    if pte.v then
      if pte.perm.r || pte.perm.w || pte.perm.x then failure
      else do
        descend pte.ppn
        setPte pagetable i (Pte.ofBits 0)
        freeEntries descend pagetable rest
    else freeEntries descend pagetable rest

/-- A page table has three levels; below them there is nothing to free. -/
def freewalk : ℕ → Page → Vm Unit
  | 0, _ => failure
  | levels + 1, pagetable => do
    freeEntries (freewalk levels) pagetable (List.finRange 512)
    kfree L pagetable

def uvmfree (pagetable : Page) (sz : ℕ) : Vm Unit := do
  if sz > 0 then uvmunmap L pagetable 0 (pgRoundUp sz / PGSIZE) true
  freewalk L 3 pagetable

def copyFrom (old new : Page) : ℕ → ℕ → Vm Bool
  | 0, _ => pure true
  | n + 1, i => do
    match ← walk old i false with
    | none => failure
    | some (table, k) => do
      let pte := (← get).mem table k
      if pte.v = false then failure
      match ← kalloc with
      | none => do
        uvmunmap L new 0 (i / PGSIZE) true
        pure false
      | some mem => do
        fill mem ((← get).mem pte.ppn)
        if ← mappages new i PGSIZE mem pte.perm then copyFrom old new n (i + PGSIZE)
        else do
          kfree L mem
          uvmunmap L new 0 (i / PGSIZE) true
          pure false

def uvmcopy (old new : Page) (sz : ℕ) : Vm Bool := copyFrom L old new ((sz + PGSIZE - 1) / PGSIZE) 0

def uvmclear (pagetable : Page) (va : ℕ) : Vm Unit := do
  match ← walk pagetable va false with
  | none => failure
  | some (table, i) => do
    let pte := (← get).mem table i
    setPte table i { pte with perm := { pte.perm with u := false } }

def procPagetable (trapframe : Page) : Vm (Option Page) := do
  match ← uvmcreate with
  | none => pure none
  | some pagetable =>
    if ← mappages pagetable TRAMPOLINE PGSIZE L.trampoline ⟨true, false, true, false, 0#5⟩ then
      if ← mappages pagetable TRAPFRAME PGSIZE trapframe ⟨true, true, false, false, 0#5⟩ then pure (some pagetable)
      else do
        uvmunmap L pagetable TRAMPOLINE 1 false
        uvmfree L pagetable 0
        pure none
    else do
      uvmfree L pagetable 0
      pure none

def procFreepagetable (pagetable : Page) (sz : ℕ) : Vm Unit := do
  uvmunmap L pagetable TRAMPOLINE 1 false
  uvmunmap L pagetable TRAPFRAME 1 false
  uvmfree L pagetable sz

/-! ## Processes and pipes -/

abbrev NOFILE : ℕ := 16

abbrev NFILE : ℕ := 100

abbrev MAXARG : ℕ := 32

/-- The fields of `struct proc` that own pages, or decide when they are given up. -/
structure Proc where
  state : ProcState
  parent : Option Slot
  sz : ℕ
  pagetable : Option Page
  trapframe : Option Page
  ofile : Fin NOFILE → Option (Fin NFILE)

inductive FileType
  | none | pipe
  deriving DecidableEq, Repr

structure File where
  type : FileType
  ref : ℕ
  writable : Bool
  pipe : Page

structure Pipe where
  readopen : Bool
  writeopen : Bool

/-- `pipe` are the pipes in the pages of type `struct pipe`, `kernel` the pages taken at boot and never given back. -/
structure State where
  mem : Mem
  proc : Slot → Proc
  initproc : Slot
  file : Fin NFILE → File
  pipe : Page → Pipe
  kernel : List Page

abbrev Sys (α : Type) := StateT State Option α

def vm {α : Type} (code : Vm α) : Sys α := fun s => (code s.mem).map fun (a, m) => (a, { s with mem := m })

def setProc (p : Slot) (proc : Proc) : Sys Unit := modify fun s => { s with proc := Function.update s.proc p proc }

/-! ## System calls -/

/-- What a call answers: `-1`, something else, or the pid of this child. -/
inductive Ret
  | failed | done | reaped (child : Slot)
  deriving DecidableEq, Repr

def growproc (p : Slot) (n : ℤ) : Sys Ret := do
  let proc := (← get).proc p
  match proc.pagetable with
  | none => failure
  | some pagetable =>
    let newsz := ((proc.sz + n) % 2 ^ 64).toNat
    if n > 0 then do
      let sz ← vm (uvmalloc L pagetable proc.sz newsz ⟨false, true, false, false, 0#5⟩)
      if sz = 0 then pure .failed
      else do
        setProc p { proc with sz := sz }
        pure .done
    else if n < 0 then do
      let sz ← vm (uvmdealloc L pagetable proc.sz newsz)
      setProc p { proc with sz := sz }
      pure .done
    else pure .done

end OsProjects.Paging
