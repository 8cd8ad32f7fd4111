import OsProjects.Volume.Model

namespace OsProjects.Directories
open Bytes Volume
open Inodes (Dinode Kind Entry NINODE)

/-! ## The inode table -/

/-- An entry of `itable`. Calls run one after the other, so that the sleep locks of the entries are left out. -/
structure Inode where
  inum : ℕ
  ref : ℕ
  valid : Bool
  d : Dinode

structure Fs where
  disk : Disk
  table : Entry → Inode

abbrev FsM (α : Type) := StateT Fs (Except Panic) α

def Fs.set (s : Fs) (ip : Entry) (inode : Inode) : Fs := { s with table := Function.update s.table ip inode }

def setInode (ip : Entry) (inode : Inode) : FsM Unit := modify fun s => s.set ip inode

/-- The working state of an inode. -/
def Fs.open (s : Fs) (ip : Entry) : Volume.State := ⟨s.disk, (s.table ip).d⟩

def Fs.close (s : Fs) (ip : Entry) (t : Volume.State) : Fs := { s with disk := t.disk }.set ip { s.table ip with d := t.ip }

/-- Code that works on one inode and the disk. -/
def onInode {α : Type} (ip : Entry) (x : VolM α) : FsM α := fun s =>
  match x (s.open ip) with
  | .ok (a, t) => .ok (a, s.close ip t)
  | .error e => .error e

section
variable (sb : Superblock)

def iget (inum : ℕ) : FsM Entry := do
  let s ← get
  match (List.finRange NINODE).find? fun ip => 0 < (s.table ip).ref ∧ (s.table ip).inum = inum with
  | some ip => do
    setInode ip { s.table ip with ref := (s.table ip).ref + 1 }
    pure ip
  | none =>
    match (List.finRange NINODE).find? fun ip => (s.table ip).ref = 0 with
    | some ip => do
      setInode ip { s.table ip with inum := inum, ref := 1, valid := false }
      pure ip
    | none => throw .igetNoInodes

def idup (ip : Entry) : FsM Entry := do
  let inode := (← get).table ip
  setInode ip { inode with ref := inode.ref + 1 }
  pure ip

def ilock (ip : Entry) : FsM Unit := do
  let s ← get
  let inode := s.table ip
  if inode.ref < 1 then throw .ilock
  else if inode.valid then pure ()
  else if sb.ninodes.toNat ≤ inode.inum then throw .beyond
  else do
    let d := s.disk.dinode inode.inum
    setInode ip { inode with d := d, valid := true }
    if d.type = 0 then throw .ilockNoType else pure ()

/-- The part of `iput` in which an inode without links is freed. -/
def freeInode (inum : ℕ) : VolM Unit := do
  itrunc inum
  modify fun t => { t with ip := { t.ip with type := 0 } }
  iupdate inum

def putLast (ip : Entry) : FsM Unit := do
  let inode := (← get).table ip
  if inode.ref = 1 ∧ inode.valid ∧ inode.d.nlink = 0 then do
    onInode ip (freeInode inode.inum)
    let inode := (← get).table ip
    setInode ip { inode with valid := false }
  else pure ()

def iput (ip : Entry) : FsM Unit := do
  putLast ip
  let inode := (← get).table ip
  setInode ip { inode with ref := inode.ref - 1 }

/-! ## Directories -/

abbrev DIRSIZ : ℕ := 14

/-- `sizeof(struct dirent)`. -/
abbrev ENTRY : ℕ := 16

structure Dirent where
  inum : BitVec 16
  name : List UInt8
  deriving DecidableEq

/-- The characters `strncmp` and `strncpy` look at. -/
def cstr (s : List UInt8) : List UInt8 := (s.take DIRSIZ).takeWhile (· ≠ 0)

/-- Whether `strncmp` gives zero. -/
def namecmp (s t : List UInt8) : Bool := cstr s = cstr t

def strncpy (name : List UInt8) : List UInt8 := cstr name ++ List.replicate (DIRSIZ - (cstr name).length) 0

def Dirent.ofBytes (bytes : List UInt8) : Dirent := ⟨.ofNat 16 (word (fun i => bytes.getD i 0) 0 2), bytes.drop 2⟩

def Dirent.byte (de : Dirent) (i : ℕ) : UInt8 :=
  if i < 2 then .ofNat (de.inum.toNat / 256 ^ i) else de.name.getD (i - 2) 0

def readDirent (dp : Entry) (off : ℕ) (panic : Panic) : FsM Dirent := do
  match ← onInode dp (readi sb (fun _ _ => true) (.ofNat 32 off) (.ofNat 32 ENTRY)) with
  | some bytes => if bytes.length = ENTRY then pure (.ofBytes bytes) else throw panic
  | none => throw panic

/-- Whether the whole entry is written. -/
def writeDirent (dp : Entry) (off : ℕ) (de : Dirent) : FsM Bool := do
  let inum := ((← get).table dp).inum
  let written ← onInode dp (writei sb inum (.whole de.byte) (.ofNat 32 off) (.ofNat 32 ENTRY))
  pure (written = some ENTRY)

/-- The loop over the entries of a directory at some offsets, up to one with a property. -/
def scanDir (dp : Entry) (panic : Panic) (p : Dirent → Bool) : List ℕ → FsM (Option (ℕ × Dirent))
  | [] => pure none
  | off :: rest => do
    let de ← readDirent sb dp off panic
    if p de then pure (some (off, de)) else scanDir dp panic p rest

/-- The number of times `off` is less than the size, from zero on in steps of an entry. -/
def slots (size : Uint) : ℕ := (size.toNat + ENTRY - 1) / ENTRY

/-- The offsets of a loop that starts with some slot. -/
def offsets (first : ℕ) (size : Uint) : List ℕ := (List.range' first (slots size - first)).map (ENTRY * ·)

/-- The entry found, and its offset. -/
def dirlookup (dp : Entry) (name : List UInt8) : FsM (Option (Entry × ℕ)) := do
  let d := ((← get).table dp).d
  if d.type ≠ Kind.dir.type then throw .dirlookupNotDir
  else do
    match ← scanDir sb dp .dirlookupRead (fun de => de.inum ≠ 0 ∧ namecmp name de.name) (offsets 0 d.size) with
    | none => pure none
    | some (off, de) => do
      let ip ← iget de.inum.toNat
      pure (some (ip, off))

def dirlink (dp : Entry) (name : List UInt8) (inum : ℕ) : FsM Bool := do
  match ← dirlookup sb dp name with
  | some (ip, _) => do
    iput ip
    pure false
  | none => do
    let size := ((← get).table dp).d.size
    match ← scanDir sb dp .dirlinkRead (fun de => de.inum = 0) (offsets 0 size) with
    | some (off, _) => writeDirent sb dp off ⟨.ofNat 16 inum, strncpy name⟩
    | none => writeDirent sb dp (ENTRY * slots size) ⟨.ofNat 16 inum, strncpy name⟩

/-! ## Paths -/

def slash : UInt8 := 47

abbrev ROOTINO : ℕ := 1

/-- The next element of a path and the path after it. -/
def skipelem (path : List UInt8) : Option (List UInt8 × List UInt8) :=
  let path := path.dropWhile (· = slash)
  if path = [] then none
  else some ((path.takeWhile (· ≠ slash)).take DIRSIZ, (path.dropWhile (· ≠ slash)).dropWhile (· = slash))

/-- The loop of `namex`. The name is that of the last element, if the parent is asked for. -/
def namexLoop (nameiparent : Bool) : ℕ → Entry → List UInt8 → FsM (Option (Entry × List UInt8))
  | 0, _, _ => throw .endless
  | fuel + 1, ip, path =>
    match skipelem path with
    | none =>
      if nameiparent then do
        iput ip
        pure none
      else pure (some (ip, []))
    | some (name, rest) => do
      ilock sb ip
      if ((← get).table ip).d.type ≠ Kind.dir.type then do
        iput ip
        pure none
      else if nameiparent ∧ rest = [] then pure (some (ip, name))
      else do
        match ← dirlookup sb ip name with
        | none => do
          iput ip
          pure none
        | some (next, _) => do
          iput ip
          namexLoop nameiparent fuel next rest

def namexFirst (cwd : Entry) (path : List UInt8) : FsM Entry := if path.head? = some slash then iget ROOTINO else idup cwd

def namex (cwd : Entry) (path : List UInt8) (nameiparent : Bool) : FsM (Option (Entry × List UInt8)) := do
  let ip ← namexFirst cwd path
  namexLoop sb nameiparent (path.length + 1) ip path

/-! ## Unlinking -/

def removeEntry (dp : Entry) (off : ℕ) : FsM Unit := do
  if ← writeDirent sb dp off ⟨0, List.replicate DIRSIZ 0⟩ then pure () else throw .unlinkWritei

end

end OsProjects.Directories
