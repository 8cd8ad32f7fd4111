import OsProjects.Copying.Out

namespace OsProjects.Exec
open Bytes
open Paging hiding Proc State vm
open Copying hiding copyout

/-! ## The state of the call -/

def KERNBASE : ℕ := 0x80000000

/-- What the file system answers: whether `namei` finds the file, its bytes, which do not change while it is locked, and how
many of them each `readi` delivers, by the number of the call, the offset and the count. -/
structure File where
  found : Bool
  data : BitVec 32 → UInt8
  delivered : ℕ → BitVec 32 → BitVec 32 → ℕ

def File.bytes (file : File) (off : BitVec 32) (n : ℕ) : List UInt8 := (List.range n).map fun k => file.data (off + .ofNat 32 k)

/-- The registers that `exec` sets. -/
structure Trapframe where
  epc : BitVec 64
  sp : BitVec 64
  a1 : BitVec 64

structure Proc where
  pagetable : Page
  sz : ℕ
  trapframe : Page
  regs : Trapframe
  name : ℕ → UInt8

structure State where
  mem : Mem
  proc : Proc
  reads : ℕ

/-- Code that may panic, or not end. -/
abbrev Code (α : Type) := StateT State Option α

def vm {α : Type} (code : Vm α) : Code α := fun s => (code s.mem).map fun (a, m) => (a, { s with mem := m })

/-- `readi` to a kernel address: the bytes that arrive there. -/
def readi (file : File) (off n : BitVec 32) : Code (List UInt8) :=
  fun s => some (file.bytes off (min n.toNat (file.delivered s.reads off n)), { s with reads := s.reads + 1 })

def copyout (pagetable : Page) (dstva : BitVec 64) (src : List UInt8) (len : ℕ) : Code ℤ :=
  vm (Copying.copyout pagetable dstva.toNat (fun k => src.getD k 0) len)

/-! ## The headers of the file -/

def ELF_MAGIC : ℕ := 0x464C457F

def ELF_PROG_LOAD : ℕ := 1

/-- `sizeof(struct elfhdr)`. -/
def elfhdrSize : BitVec 32 := 64

/-- `sizeof(struct proghdr)`. -/
def proghdrSize : BitVec 32 := 56

/-- The fields of `struct elfhdr` that `exec` reads. -/
structure Elfhdr where
  magic : ℕ
  entry : BitVec 64
  phoff : BitVec 64
  phnum : ℕ

def elfhdr (bytes : List UInt8) : Elfhdr :=
  let f := fun k => bytes.getD k 0
  ⟨word f 0 4, .ofNat 64 (word f 24 8), .ofNat 64 (word f 32 8), word f 56 2⟩

/-- The fields of `struct proghdr` that `exec` reads. -/
structure Proghdr where
  type : ℕ
  flags : BitVec 32
  off : BitVec 64
  vaddr : BitVec 64
  filesz : BitVec 64
  memsz : BitVec 64

def proghdr (bytes : List UInt8) : Proghdr :=
  let f := fun k => bytes.getD k 0
  ⟨word f 0 4, .ofNat 32 (word f 4 4), .ofNat 64 (word f 8 8), .ofNat 64 (word f 16 8), .ofNat 64 (word f 32 8),
    .ofNat 64 (word f 40 8)⟩

/-- `PTE_W` and `PTE_X`. -/
def flags2perm (flags : BitVec 32) : Perm := ⟨false, flags.getLsbD 1, flags.getLsbD 0, false, 0#5⟩

/-! ## The segments -/

/-- The loop of `loadseg`, whose counter wraps. -/
def loadsegFrom (file : File) (pagetable : Page) (va : BitVec 64) (offset sz : BitVec 32) : ℕ → BitVec 32 → Code Bool
  | 0, i => if i < sz then failure else pure true
  | fuel + 1, i =>
    if i < sz then do
      match walkaddr (← get).mem pagetable (va + i.setWidth 64).toNat with
      | none => failure
      | some pa => do
        let n := if (sz - i).toNat < PGSIZE then sz - i else .ofNat 32 PGSIZE
        let bytes ← readi file (offset + i) n
        modify fun s => { s with mem := s.mem.write pa bytes.length fun k => bytes.getD k 0 }
        if bytes.length ≠ n.toNat then pure false
        else loadsegFrom file pagetable va offset sz fuel (i + .ofNat 32 PGSIZE)
    else pure true

def loadseg (file : File) (pagetable : Page) (va : BitVec 64) (offset sz : BitVec 32) : Code Bool :=
  loadsegFrom file pagetable va offset sz (sz.toNat / PGSIZE + 1) 0

variable (L : Layout)

/-- The loop over the program headers: whether all went well, and the size of the image so far. -/
def loadSegments (file : File) (pagetable : Page) : ℕ → BitVec 32 → ℕ → Code (Bool × ℕ)
  | 0, _, sz => pure (true, sz)
  | n + 1, off, sz => do
    let bytes ← readi file off proghdrSize
    if bytes.length ≠ proghdrSize.toNat then pure (false, sz)
    else
      let ph := proghdr bytes
      if ph.type ≠ ELF_PROG_LOAD then loadSegments file pagetable n (off + proghdrSize) sz
      else if ph.memsz < ph.filesz then pure (false, sz)
      else if ph.vaddr + ph.memsz < ph.vaddr then pure (false, sz)
      else if ph.vaddr.toNat % PGSIZE ≠ 0 then pure (false, sz)
      else do
        let sz1 ← vm (uvmalloc L pagetable sz (ph.vaddr + ph.memsz).toNat (flags2perm ph.flags))
        if sz1 = 0 then pure (false, sz)
        else do
          if ← loadseg file pagetable ph.vaddr (ph.off.setWidth 32) (ph.filesz.setWidth 32) then
            loadSegments file pagetable n (off + proghdrSize) sz1
          else pure (false, sz1)

/-! ## The arguments -/

def le64 (x : BitVec 64) : List UInt8 := (List.range 8).map fun k => .ofNat (x.toNat / 256 ^ k)

/-- The loop over `argv`, whose strings are given by their bytes before the NUL: the stack pointer and `ustack`. -/
def pushStrings (pagetable : Page) (stackbase : BitVec 64) :
    List (List UInt8) → ℕ → BitVec 64 → List (BitVec 64) → Code (Option (BitVec 64 × List (BitVec 64)))
  | [], _, sp, ustack => pure (some (sp, ustack))
  | arg :: argv, argc, sp, ustack =>
    if argc ≥ MAXARG then pure none
    else
      let sp := sp - .ofNat 64 (arg.length + 1)
      let sp := sp - sp % 16
      if sp < stackbase then pure none
      else do
        if (← copyout pagetable sp (arg ++ [0]) (arg.length + 1)) < 0 then pure none
        else pushStrings pagetable stackbase argv (argc + 1) sp (ustack ++ [sp])

/-- The strings and then `ustack` with its 0, which has to fit in the array. -/
def pushArgs (pagetable : Page) (stackbase : BitVec 64) (argv : List (List UInt8)) (sp : BitVec 64) : Code (Option (BitVec 64)) := do
  match ← pushStrings pagetable stackbase argv 0 sp [] with
  | none => pure none
  | some (sp, ustack) =>
    if ustack.length ≥ MAXARG then failure
    else
      let sp := sp - .ofNat 64 ((ustack.length + 1) * 8)
      let sp := sp - sp % 16
      if sp < stackbase then pure none
      else do
        if (← copyout pagetable sp ((ustack ++ [0]).flatMap le64) ((ustack.length + 1) * 8)) < 0 then pure none
        else pure (some sp)

/-- The new image up to the commit: the stack pointer, or none where the source goes to `bad`, and the size. -/
def build (file : File) (elf : Elfhdr) (argv : List (List UInt8)) (pagetable : Page) : Code (Option (BitVec 64) × ℕ) := do
  let (loaded, sz) ← loadSegments L file pagetable elf.phnum (elf.phoff.setWidth 32) 0
  if loaded = false then pure (none, sz)
  else do
    let sz := pgRoundUp sz
    let sz1 ← vm (uvmalloc L pagetable sz ((sz + 2 * PGSIZE) % 2 ^ 64) ⟨false, true, false, false, 0#5⟩)
    if sz1 = 0 then pure (none, sz)
    else do
      vm (uvmclear pagetable (sz1 - 2 * PGSIZE))
      let sp ← pushArgs pagetable (.ofNat 64 (sz1 - PGSIZE)) argv (.ofNat 64 sz1)
      pure (sp, sz1)

/-! ## `exec` -/

/-- What follows the last slash. -/
def lastElement : List UInt8 → List UInt8 → List UInt8
  | [], last => last
  | c :: s, last => lastElement s (if c = 47 then s else last)

/-- The loop of `safestrcpy` with `n - 1` bytes to go, and the NUL after it. -/
def safestrcpyFrom : ℕ → ℕ → List UInt8 → (ℕ → UInt8) → ℕ → UInt8
  | 0, i, _, s => Function.update s i 0
  | _ + 1, i, [], s => Function.update (Function.update s i 0) (i + 1) 0
  | n + 1, i, c :: t, s => safestrcpyFrom n (i + 1) t (Function.update s i c)

def safestrcpy (s : ℕ → UInt8) (t : List UInt8) (n : ℕ) : ℕ → UInt8 := if n = 0 then s else safestrcpyFrom (n - 1) 0 t s

/-- `sizeof(p->name)`. -/
def nameSize : ℕ := 16

def exec (file : File) (path : List UInt8) (argv : List (List UInt8)) : Code ℤ :=
  if file.found = false then pure (-1)
  else do
    let bytes ← readi file 0 elfhdrSize
    if bytes.length ≠ elfhdrSize.toNat then pure (-1)
    else
      let elf := elfhdr bytes
      if elf.magic ≠ ELF_MAGIC then pure (-1)
      else do
        match ← vm (procPagetable L (← get).proc.trapframe) with
        | none => pure (-1)
        | some pagetable => do
          match ← build L file elf argv pagetable with
          | (none, sz) => do
            vm (procFreepagetable L pagetable sz)
            pure (-1)
          | (some sp, sz) => do
            let p := (← get).proc
            modify fun s => { s with proc := { p with
              pagetable := pagetable, sz := sz, regs := ⟨elf.entry, sp, sp⟩,
              name := safestrcpy p.name (lastElement path path) nameSize } }
            vm (procFreepagetable L p.pagetable p.sz)
            pure argv.length

end OsProjects.Exec
