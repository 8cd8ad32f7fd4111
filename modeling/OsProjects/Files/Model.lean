import OsProjects.Kernel.Proc
import OsProjects.Transition.System

namespace OsProjects.Files
open Transition Kernel

/-! ## The file table -/

abbrev NOFILE : ℕ := 16

abbrev NFILE : ℕ := 100

inductive FileType
  | none | pipe | inode | device
  deriving DecidableEq

/-- `pipe` is the page of the pipe and `ip` the number of the inode; both stay when the file is closed. -/
structure File where
  type : FileType
  ref : ℕ
  readable : Bool
  writable : Bool
  pipe : ℕ
  ip : ℕ

structure Pipe where
  readopen : Bool
  writeopen : Bool
  deriving DecidableEq

/-- `ofile` is the array of that name of every process, `pipe` the pipe in each page. -/
structure Table where
  file : Fin NFILE → File
  ofile : Slot × Fin NOFILE → Option (Fin NFILE)
  pipe : ℕ → Pipe

inductive Panic
  | filedup | fileclose | initExiting
  deriving DecidableEq

abbrev FileM (α : Type) := StateT Table (Except Panic) α

def setFile (f : Fin NFILE) (file : File) : FileM Unit := modify fun s => { s with file := Function.update s.file f file }

def setPipe (pi : ℕ) (pipe : Pipe) : FileM Unit := modify fun s => { s with pipe := Function.update s.pipe pi pipe }

def setOfile (p : Slot) (fd : Fin NOFILE) (f : Option (Fin NFILE)) : FileM Unit :=
  modify fun s => { s with ofile := Function.update s.ofile (p, fd) f }

def filealloc : FileM (Option (Fin NFILE)) := do
  let s ← get
  match (List.finRange NFILE).find? fun f => (s.file f).ref = 0 with
  | none => pure none
  | some f => do
    setFile f { s.file f with ref := 1 }
    pure (some f)

def filedup (f : Fin NFILE) : FileM Unit := do
  let file := (← get).file f
  if file.ref < 1 then throw .filedup
  else setFile f { file with ref := file.ref + 1 }

/-- It gives the page of the pipe if it is to be freed. -/
def pipeclose (pi : ℕ) (writable : Bool) : FileM (Option ℕ) := do
  let pipe := (← get).pipe pi
  let pipe : Pipe := if writable then { pipe with writeopen := false } else { pipe with readopen := false }
  setPipe pi pipe
  pure (if pipe.readopen = false ∧ pipe.writeopen = false then some pi else none)

/-- `iput` for an inode is outside of the file table. -/
def fileclose (f : Fin NFILE) : FileM (Option ℕ) := do
  let file := (← get).file f
  if file.ref < 1 then throw .fileclose
  else if file.ref - 1 > 0 then do
    setFile f { file with ref := file.ref - 1 }
    pure none
  else do
    setFile f { file with ref := 0, type := .none }
    match file.type with
    | .pipe => pipeclose file.pipe file.writable
    | _ => pure none

def fdalloc (p : Slot) (f : Fin NFILE) : FileM (Option (Fin NOFILE)) := do
  let s ← get
  match (List.finRange NOFILE).find? fun fd => s.ofile (p, fd) = none with
  | none => pure none
  | some fd => do
    setOfile p fd (some f)
    pure (some fd)

def closeBoth (f0 f1 : Fin NFILE) : FileM (List ℕ) := do
  let first ← fileclose f0
  let second ← fileclose f1
  pure (first.toList ++ second.toList)

/-- `pipealloc` up to its `kalloc`. -/
def pipefiles : FileM (Option (Fin NFILE × Fin NFILE)) := do
  match ← filealloc with
  | none => pure none
  | some f0 => do
    match ← filealloc with
    | none => do
      let _ ← fileclose f0
      pure none
    | some f1 => pure (some (f0, f1))

/-- The rest of `pipealloc`, with the page of `kalloc`. -/
def pipeinit (f0 f1 : Fin NFILE) (page : Option ℕ) : FileM Bool := do
  match page with
  | none => do
    let _ ← closeBoth f0 f1
    pure false
  | some pi => do
    setPipe pi ⟨true, true⟩
    setFile f0 { (← get).file f0 with type := .pipe, readable := true, writable := false, pipe := pi }
    setFile f1 { (← get).file f1 with type := .pipe, readable := false, writable := true, pipe := pi }
    pure true

/-! ## System calls

The value is whether the call succeeds; those that close files also give the pages of pipes to be freed. -/

def sysDup (p : Slot) (fd : Fin NOFILE) : FileM Bool := do
  match (← get).ofile (p, fd) with
  | none => pure false
  | some f => do
    match ← fdalloc p f with
    | none => pure false
    | some _ => do
      filedup f
      pure true

def sysClose (p : Slot) (fd : Fin NOFILE) : FileM (Bool × List ℕ) := do
  match (← get).ofile (p, fd) with
  | none => pure (false, [])
  | some f => do
    setOfile p fd none
    let freed ← fileclose f
    pure (true, freed.toList)

/-- `sys_pipe` after `pipealloc`. -/
def pipefds (p : Slot) (rf wf : Fin NFILE) (copyout : Bool) : FileM (Bool × List ℕ) := do
  match ← fdalloc p rf with
  | none => do
    let freed ← closeBoth rf wf
    pure (false, freed)
  | some fd0 => do
    match ← fdalloc p wf with
    | none => do
      setOfile p fd0 none
      let freed ← closeBoth rf wf
      pure (false, freed)
    | some fd1 =>
      if copyout then pure (true, [])
      else do
        setOfile p fd0 none
        setOfile p fd1 none
        let freed ← closeBoth rf wf
        pure (false, freed)

def sysPipe (p : Slot) (page : Option ℕ) (copyout : Bool) : FileM (Bool × List ℕ) := do
  match ← pipefiles with
  | none => pure (false, [])
  | some (rf, wf) => do
    if ← pipeinit rf wf page then pipefds p rf wf copyout
    else pure (false, [])

/-- An inode `sys_open` has found or created. -/
structure Inode where
  ip : ℕ
  device : Bool
  badMajor : Bool

/-- `sys_open` with the inode the path leads to, unless looking it up or creating it fails. -/
def sysOpen (p : Slot) (found : Option Inode) (wronly rdwr : Bool) : FileM Bool := do
  match found with
  | none => pure false
  | some inode =>
    if inode.device && inode.badMajor then pure false
    else do
      match ← filealloc with
      | none => pure false
      | some f => do
        match ← fdalloc p f with
        | none => do
          let _ ← fileclose f
          pure false
        | some _ => do
          let file := (← get).file f
          setFile f { file with
            type := if inode.device then .device else .inode
            ip := inode.ip
            readable := !wronly
            writable := wronly || rdwr }
          pure true

/-- The loop of `fork` over the files of the parent. -/
def dupFiles (p np : Slot) : List (Fin NOFILE) → FileM Unit
  | [] => pure ()
  | fd :: rest => do
    match (← get).ofile (p, fd) with
    | none => pure ()
    | some f => do
      filedup f
      setOfile np fd (some f)
    dupFiles p np rest

/-- The loop of `exit` over the files of the process. -/
def closeFiles (p : Slot) : List (Fin NOFILE) → FileM (List ℕ)
  | [] => pure []
  | fd :: rest => do
    let freed ← match (← get).ofile (p, fd) with
      | none => pure []
      | some f => do
        let freed ← fileclose f
        setOfile p fd none
        pure freed.toList
    let more ← closeFiles p rest
    pure (freed ++ more)

/-! ## Processes -/

def initproc : Slot := 0

structure State where
  files : Table
  proc : Slot → ProcState

/-- A call, with the answers of the code outside: the inode a path leads to, the page `kalloc` gives, whether the
rest of `fork` succeeds, and whether `copyout` does. -/
inductive Call
  | openFile (found : Option Inode) (wronly rdwr : Bool)
  | dup (fd : Fin NOFILE) | close (fd : Fin NOFILE)
  | pipe (page : Option ℕ) (copyout : Bool)
  | fork (succeeds : Bool) | exit | wait (child : Slot)

def allocproc (s : State) : Option Slot := (List.finRange NPROC).find? fun p => s.proc p = .unused

def fork (s : State) (p : Slot) (succeeds : Bool) : Except Panic State := do
  match allocproc s with
  | none => pure s
  | some np =>
    if succeeds then do
      let (_, files) ← (dupFiles p np (List.finRange NOFILE)).run s.files
      pure ⟨files, Function.update s.proc np .runnable⟩
    else pure s

def exit (s : State) (p : Slot) : Except Panic State := do
  if p = initproc then throw .initExiting
  else do
    let (_, files) ← (closeFiles p (List.finRange NOFILE)).run s.files
    pure ⟨files, Function.update s.proc p .zombie⟩

def wait (s : State) (child : Slot) : State :=
  if s.proc child = .zombie then { s with proc := Function.update s.proc child .unused } else s

def call (s : State) (p : Slot) : Call → Except Panic State
  | .openFile found wronly rdwr => do
    let (_, files) ← (sysOpen p found wronly rdwr).run s.files
    pure { s with files := files }
  | .dup fd => do
    let (_, files) ← (sysDup p fd).run s.files
    pure { s with files := files }
  | .close fd => do
    let (_, files) ← (sysClose p fd).run s.files
    pure { s with files := files }
  | .pipe page copyout => do
    let (_, files) ← (sysPipe p page copyout).run s.files
    pure { s with files := files }
  | .fork succeeds => fork s p succeeds
  | .exit => exit s p
  | .wait child => pure (wait s child)

/-- A page with a pipe that is still open. -/
def Table.InUse (s : Table) (pi : ℕ) : Prop := ∃ f, (s.file f).type = .pipe ∧ (s.file f).pipe = pi

instance (s : Table) (pi : ℕ) : Decidable (s.InUse pi) := inferInstanceAs (Decidable (∃ _, _))

/-- `kalloc` gives no page that is in use. -/
def Call.Fresh (s : State) : Call → Prop
  | .pipe (some pi) _ => ¬ s.files.InUse pi
  | _ => True

instance (s : State) (c : Call) : Decidable (c.Fresh s) := by
  unfold Call.Fresh
  split <;> infer_instance

def State.live (s : State) (p : Slot) : Prop := s.proc p ≠ .unused ∧ s.proc p ≠ .zombie

instance (s : State) (p : Slot) : Decidable (s.live p) := inferInstanceAs (Decidable (_ ∧ _))

def perform (s : State) (label : Slot × Call) : Option (Except Panic State) :=
  if s.live label.1 ∧ label.2.Fresh s then some (call s label.1 label.2) else none

/-- The first process has no files yet. -/
def start : State where
  files :=
    { file := fun _ => ⟨.none, 0, false, false, 0, 0⟩
      ofile := fun _ => none
      pipe := fun _ => ⟨false, false⟩ }
  proc := Function.update (fun _ => .unused) initproc .runnable

def system : System State (Slot × Call) where
  initial := start
  step s label := (perform s label).bind Except.toOption

end OsProjects.Files
