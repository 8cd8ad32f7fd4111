import Mathlib.Data.List.Basic
import Mathlib.Data.Nat.Notation

namespace OsProjects.Shell

/-! ## Commands -/

abbrev MAXARGS : ℕ := 10

abbrev O_RDONLY : ℕ := 0x000

abbrev O_WRONLY : ℕ := 0x001

abbrev O_CREATE : ℕ := 0x200

abbrev O_TRUNC : ℕ := 0x400

/-- A command over some representation of strings. -/
inductive Cmd (α : Type)
  | exec (argv : List α)
  | redir (cmd : Cmd α) (file : α) (mode fd : ℕ)
  | pipe (left right : Cmd α)
  | list (left right : Cmd α)
  | back (cmd : Cmd α)
  deriving DecidableEq

namespace Cmd
variable {α β : Type}

def map (f : α → β) : Cmd α → Cmd β
  | exec argv => exec (argv.map f)
  | redir cmd file mode fd => redir (cmd.map f) (f file) mode fd
  | pipe left right => pipe (left.map f) (right.map f)
  | list left right => list (left.map f) (right.map f)
  | back cmd => back (cmd.map f)

/-- The arguments and files of a command. -/
def strings : Cmd α → List α
  | exec argv => argv
  | redir cmd file _ _ => cmd.strings ++ [file]
  | pipe left right => left.strings ++ right.strings
  | list left right => left.strings ++ right.strings
  | back cmd => cmd.strings

/-- An argument is stored into the command at the bottom of the redirections. -/
def addArg (arg : α) : Cmd α → Cmd α
  | exec argv => exec (argv ++ [arg])
  | redir cmd file mode fd => redir (cmd.addArg arg) file mode fd
  | cmd => cmd

end Cmd

/-! ## Tokens -/

/-- `" \t\r\n\v"` -/
def whitespace : List UInt8 := [32, 9, 13, 10, 11]

/-- `"<|>&;()"` -/
def symbols : List UInt8 := [60, 124, 62, 38, 59, 40, 41]

def isSpace (c : UInt8) : Bool := c ∈ whitespace

/-- A character of a word. -/
def isPlain (c : UInt8) : Bool := c ∉ whitespace ∧ c ∉ symbols

/-- `endless` stands for a loop or a recursion that does not end. -/
inductive Stop
  | panic (text : String)
  | endless
  deriving DecidableEq

/-- The state is the position `*ps`. -/
abbrev Parse (α : Type) := StateT ℕ (Except Stop) α

section
variable (line : List UInt8)

/-- The loop over whitespace; the end of the line is a NUL. -/
def skip (s : ℕ) : ℕ := s + ((line.drop s).takeWhile isSpace).length

/-- What `gettoken` returns for the token at a position, and where it ends. -/
def scan (s : ℕ) : UInt8 × ℕ :=
  let c := line.getD s 0
  if c = 0 then (c, s)
  else if c = 124 ∨ c = 40 ∨ c = 41 ∨ c = 59 ∨ c = 38 ∨ c = 60 then (c, s + 1)
  else if c = 62 then if line.getD (s + 1) 0 = 62 then (43, s + 2) else (c, s + 1)
  else (97, s + ((line.drop s).takeWhile isPlain).length)

/-- The kind of the token, `*q` and `*eq`. -/
def gettoken : Parse (UInt8 × ℕ × ℕ) := do
  let q := skip line (← get)
  let (ret, eq) := scan line q
  set (skip line eq)
  pure (ret, q, eq)

def peek (toks : List UInt8) : Parse Bool := do
  let s := skip line (← get)
  set s
  let c := line.getD s 0
  pure (c ≠ 0 ∧ c ∈ toks)

/-! ## The parser -/

/-- A string is a pair of pointers, to its first character and behind its last one. -/
abbrev Span := ℕ × ℕ

def redircmd (cmd : Cmd Span) (file : Span) (tok : UInt8) : Cmd Span :=
  if tok = 60 then .redir cmd file O_RDONLY 0
  else if tok = 62 then .redir cmd file (O_WRONLY ||| O_CREATE ||| O_TRUNC) 1
  else if tok = 43 then .redir cmd file (O_WRONLY ||| O_CREATE) 1
  else cmd

def parseredirs : ℕ → Cmd Span → Parse (Cmd Span)
  | 0, _ => throw .endless
  | fuel + 1, cmd => do
    if ← peek line [60, 62] then do
      let (tok, _) ← gettoken line
      let (kind, file) ← gettoken line
      if kind ≠ 97 then throw (.panic "missing file for redirection")
      else parseredirs fuel (redircmd cmd file tok)
    else pure cmd

/-- The loop of `parseexec`. -/
def parseargs : ℕ → ℕ → Cmd Span → Parse (Cmd Span)
  | 0, _, _ => throw .endless
  | fuel + 1, argc, ret => do
    if ← peek line [124, 41, 38, 59] then pure ret
    else do
      let (tok, arg) ← gettoken line
      if tok = 0 then pure ret
      else if tok ≠ 97 then throw (.panic "syntax")
      else if MAXARGS ≤ argc + 1 then throw (.panic "too many args")
      else do
        let ret ← parseredirs line fuel (ret.addArg arg)
        parseargs fuel (argc + 1) ret

/-- The loop of `parseline`. -/
def parseback : ℕ → Cmd Span → Parse (Cmd Span)
  | 0, _ => throw .endless
  | fuel + 1, cmd => do
    if ← peek line [38] then do
      let _ ← gettoken line
      parseback fuel (.back cmd)
    else pure cmd

mutual

def parseline : ℕ → Parse (Cmd Span)
  | 0 => throw .endless
  | fuel + 1 => do
    let cmd ← parsepipe fuel
    let cmd ← parseback line fuel cmd
    if ← peek line [59] then do
      let _ ← gettoken line
      let right ← parseline fuel
      pure (.list cmd right)
    else pure cmd

def parsepipe : ℕ → Parse (Cmd Span)
  | 0 => throw .endless
  | fuel + 1 => do
    let cmd ← parseexec fuel
    if ← peek line [124] then do
      let _ ← gettoken line
      let right ← parsepipe fuel
      pure (.pipe cmd right)
    else pure cmd

def parseexec : ℕ → Parse (Cmd Span)
  | 0 => throw .endless
  | fuel + 1 => do
    if ← peek line [40] then parseblock fuel
    else do
      let ret ← parseredirs line fuel (.exec [])
      parseargs line fuel 0 ret

def parseblock : ℕ → Parse (Cmd Span)
  | 0 => throw .endless
  | fuel + 1 => do
    if ← peek line [40] then do
      let _ ← gettoken line
      let cmd ← parseline fuel
      if ← peek line [41] then do
        let _ ← gettoken line
        parseredirs line fuel cmd
      else throw (.panic "syntax - missing )")
    else throw (.panic "parseblock")

end

/-! ## The strings -/

def nulterminate : Cmd Span → (ℕ → UInt8) → ℕ → UInt8
  | .exec argv, buf => argv.foldl (fun buf arg => Function.update buf arg.2 0) buf
  | .redir cmd file _ _, buf => Function.update (nulterminate cmd buf) file.2 0
  | .pipe left right, buf => nulterminate right (nulterminate left buf)
  | .list left right, buf => nulterminate right (nulterminate left buf)
  | .back cmd, buf => nulterminate cmd buf

/-- The command and the buffer that `parsecmd` leaves. -/
def parsecmd (fuel : ℕ) : Except Stop (Cmd Span × (ℕ → UInt8)) := do
  let (cmd, s) ← (parseline line fuel).run 0
  let (_, s) ← (peek line []).run s
  if s ≠ line.length then throw (.panic "syntax")
  else pure (cmd, nulterminate cmd fun i => line.getD i 0)

end

/-- The string at a position of a buffer, if it ends within `n` characters. -/
def cstring (buf : ℕ → UInt8) : ℕ → ℕ → Option (List UInt8)
  | 0, _ => none
  | n + 1, q => if buf q = 0 then some [] else (cstring buf n (q + 1)).map (buf q :: ·)

end OsProjects.Shell
