import OsProjects.Exec.Build

namespace OsProjects.Exec
open Bytes Ownership
open Paging hiding Proc State vm
open Copying hiding copyout

variable {L : Layout} {s s' s₀ : State} {m : Mem} {root p : Page} {base n : ℕ} {sp u : BitVec 64}
  {bytes : List UInt8} {done : List (List UInt8)} {ustack : List (BitVec 64)} {Q : ℤ → State → Prop}
  {sp' stackbase : BitVec 64} {argv : List (List UInt8)}

/-! ## One push -/

theorem push_spec (sp : BitVec 64) (few : n < 2 ^ 32) : ((sp - .ofNat 64 n) - (sp - .ofNat 64 n) % 16).toNat % 16 = 0 ∧
    (((sp - .ofNat 64 n) - (sp - .ofNat 64 n) % 16).toNat + n ≤ sp.toNat ∨ MAXVA ≤ ((sp - .ofNat 64 n) - (sp - .ofNat 64 n) % 16).toNat) := by
  have size := sp.isLt
  have sixteen : (16 : BitVec 64).toNat = 16 := rfl
  simp only [BitVec.toNat_sub, BitVec.toNat_ofNat, BitVec.toNat_umod, sixteen, MAXVA] at *
  omega

/-- The page of the stack, which is not one of the page table. -/
structure StackPage (m : Mem) (root : Page) (base : ℕ) (p : Page) : Prop where
  page : walkaddr m root base = some (p * PGSIZE)
  aligned : base % PGSIZE = 0
  foreign : p ∉ tables m root

/-- The memory with these bytes on the stack. -/
def push (m : Mem) (p : Page) (base : ℕ) (sp : BitVec 64) (bytes : List UInt8) : Mem :=
  m.write (p * PGSIZE + (sp.toNat - base)) bytes.length fun k => bytes.getD k 0

theorem push_of_ne {q : Page} (low : base ≤ sp.toNat) (high : sp.toNat + bytes.length ≤ base + PGSIZE) (other : q ≠ p) :
    (push m p base sp bytes).mem q = m.mem q :=
  write_of_ne (by omega) (by omega) other

theorem StackPage.store {m' : Mem} (stack : StackPage m root base p) (others : ∀ q ≠ p, m'.mem q = m.mem q) : StackPage m' root base p := by
  have same : ∀ q ∈ tables m root, m'.mem q = m.mem q := fun q member => others q fun equal => stack.foreign (equal ▸ member)
  refine ⟨by rw [walkaddr_agree same]; exact stack.page, stack.aligned, ?_⟩
  rw [show tables m' root = tables m root from cells_agree same]
  exact stack.foreign

theorem returns_copyout (stack : StackPage s.mem root base p) (nonempty : bytes ≠ []) (low : base ≤ sp.toNat)
    (high : sp.toNat + bytes.length ≤ base + PGSIZE) :
    Returns (copyout root sp bytes bytes.length) s Q ↔ Q 0 { s with mem := push s.mem p base sp bytes } := by
  refine returns_of_eq (vm_eq ?_)
  have aligned := stack.aligned
  have more : bytes.length ≠ 0 := mt List.length_eq_zero_iff.mp nonempty
  obtain ⟨fuel, length⟩ : ∃ fuel, bytes.length = fuel + 1 := ⟨bytes.length - 1, by omega⟩
  obtain ⟨down, off⟩ : pgRoundDown sp.toNat = base ∧ sp.toNat % PGSIZE = sp.toNat - base := by
    simp only [pgRoundDown, PGSIZE] at *
    omega
  have copied : copyoutLoop root (fuel + 1) sp.toNat (fun k => bytes.getD k 0) bytes.length s.mem =
      some (0, s.mem.write (p * PGSIZE + sp.toNat % PGSIZE) bytes.length fun k => bytes.getD k 0) :=
    copyoutLoop_last more (by omega) (down ▸ stack.page)
  rwa [off, ← length] at copied

theorem returns_copyout_beyond (high : MAXVA ≤ sp.toNat) (nonempty : bytes ≠ []) :
    Returns (copyout root sp bytes bytes.length) s Q ↔ Q (-1) s := by
  refine returns_of_eq (vm_eq ?_)
  have more : bytes.length ≠ 0 := mt List.length_eq_zero_iff.mp nonempty
  obtain ⟨fuel, length⟩ : ∃ fuel, bytes.length = fuel + 1 := ⟨bytes.length - 1, by omega⟩
  have unmapped : walkaddr s.mem root (pgRoundDown sp.toNat) = none := by
    refine if_pos ?_
    simp only [pgRoundDown, MAXVA, PGSIZE] at *
    omega
  have failed : copyoutLoop root (fuel + 1) sp.toNat (fun k => bytes.getD k 0) bytes.length s.mem = some (-1, s.mem) :=
    copyoutLoop_unmapped more unmapped
  rwa [← length] at failed

/-! ## What is on the stack -/

structure Stored (m : Mem) (base : ℕ) (p : Page) (bytes : List UInt8) (u : BitVec 64) : Prop where
  aligned : u.toNat % 16 = 0
  low : base ≤ u.toNat
  high : u.toNat + bytes.length ≤ base + PGSIZE
  bytes : ∀ k < bytes.length, m.byte (p * PGSIZE + (u.toNat - base) + k) = bytes.getD k 0

theorem Stored.push {more : List UInt8} (stored : Stored m base p bytes u) (low : base ≤ sp.toNat) (below : sp.toNat + more.length ≤ u.toNat) :
    Stored (push m p base sp more) base p bytes u where
  aligned := stored.aligned
  low := stored.low
  high := stored.high
  bytes k less := by
    rw [Exec.push, byte_write, put_of_notMem (by omega)]
    exact stored.bytes k less

theorem stored_push (aligned : sp.toNat % 16 = 0) (low : base ≤ sp.toNat) (high : sp.toNat + bytes.length ≤ base + PGSIZE) :
    Stored (push m p base sp bytes) base p bytes sp where
  aligned := aligned
  low := low
  high := high
  bytes k less := by
    rw [push, byte_write, put_of_mem (by omega) (by omega), Nat.add_sub_cancel_left]

/-- Only the page of the stack has been written. -/
def Wrote (s s' : State) (p : Page) : Prop := ∃ m, s' = { s with mem := m } ∧ m.freelist = s.mem.freelist ∧ ∀ q ≠ p, m.mem q = s.mem.mem q

theorem Wrote.refl (s : State) (p : Page) : Wrote s s p := ⟨s.mem, rfl, rfl, fun _ _ => rfl⟩

theorem Wrote.trans {s'' : State} (first : Wrote s s' p) (second : Wrote s' s'' p) : Wrote s s'' p := by
  obtain ⟨m, rfl, free, others⟩ := first
  obtain ⟨m', rfl, free', others'⟩ := second
  exact ⟨m', rfl, free'.trans free, fun q other => (others' q other).trans (others q other)⟩

theorem wrote_push (low : base ≤ sp.toNat) (high : sp.toNat + bytes.length ≤ base + PGSIZE) :
    Wrote s { s with mem := push s.mem p base sp bytes } p := ⟨_, rfl, rfl, fun _ other => push_of_ne low high other⟩

/-! ## The loop over the arguments -/

structure Pushed (m : Mem) (base : ℕ) (p : Page) (done : List (List UInt8)) (sp : BitVec 64) (ustack : List (BitVec 64)) : Prop where
  low : base ≤ sp.toNat
  high : sp.toNat ≤ base + PGSIZE
  strings : List.Forall₂ (fun arg u => Stored m base p (arg ++ [0]) u) done ustack
  above : ∀ u ∈ ustack, sp.toNat ≤ u.toNat

theorem Pushed.stored
    (pushed : Pushed m base p done sp ustack) (low : base ≤ sp'.toNat) (below : sp'.toNat + bytes.length ≤ sp.toNat) :
    List.Forall₂ (fun arg u => Stored (push m p base sp' bytes) base p (arg ++ [0]) u)
      done ustack := by
  obtain ⟨_, _, strings, above⟩ := pushed
  induction strings with
  | nil => exact .nil
  | cons stored _ ih =>
    obtain ⟨first, rest⟩ := List.forall_mem_cons.mp above
    exact .cons (stored.push low (below.trans first)) (ih rest)

theorem Pushed.push {arg : List UInt8}
    (pushed : Pushed m base p done sp ustack) (aligned : sp'.toNat % 16 = 0) (low : base ≤ sp'.toNat)
    (below : sp'.toNat + (arg ++ [0]).length ≤ sp.toNat) :
    Pushed (push m p base sp' (arg ++ [0])) base p (done ++ [arg]) sp' (ustack ++ [sp']) where
  low := low
  high := by
    have top := pushed.high
    omega
  strings := List.rel_append (pushed.stored low below) (.cons (stored_push aligned low (below.trans pushed.high)) .nil)
  above u member := by
    rcases List.mem_append.mp member with old | new
    · have above := pushed.above u old
      omega
    · rw [List.mem_singleton.mp new]

theorem pushStrings_spec {argc : ℕ}
    (stack : StackPage s.mem root base p) (bottom : stackbase.toNat = base) (short : ∀ arg ∈ argv, arg.length + 1 < 2 ^ 32)
    (pushed : Pushed s.mem base p done sp ustack) :
    Returns (pushStrings root stackbase argv argc sp ustack) s fun r s' => Wrote s s' p ∧
      ∀ sp' ustack', r = some (sp', ustack') → Pushed s'.mem base p (done ++ argv) sp' ustack' := by
  induction argv generalizing s done sp ustack argc with
  | nil =>
    refine returns_pure.mpr ⟨.refl s p, fun sp' ustack' same => ?_⟩
    obtain ⟨rfl, rfl⟩ := Prod.mk.inj (Option.some.inj same)
    rwa [List.append_nil]
  | cons arg argv ih =>
    have stop : Returns (pure none : Code (Option (BitVec 64 × List (BitVec 64)))) s fun r s' => Wrote s s' p ∧
        ∀ sp' ustack', r = some (sp', ustack') → Pushed s'.mem base p (done ++ arg :: argv) sp' ustack' :=
      returns_pure.mpr ⟨.refl s p, fun sp' ustack' absurd => by cases absurd⟩
    rw [pushStrings]
    split
    · exact stop
    obtain ⟨fits, short⟩ := List.forall_mem_cons.mp short
    obtain ⟨aligned, moved⟩ := push_spec sp fits
    dsimp only
    generalize (sp - .ofNat 64 (arg.length + 1)) - (sp - .ofNat 64 (arg.length + 1)) % 16 = sp' at aligned moved
    split
    · exact stop
    rename_i above
    rw [BitVec.lt_def, bottom, not_lt] at above
    have length : arg.length + 1 = (arg ++ [0]).length := by simp
    rw [length] at moved ⊢
    rcases moved with below | beyond
    · rw [returns_bind, returns_copyout stack (by simp) above (below.trans pushed.high), if_neg (by decide)]
      have stack' : StackPage (push s.mem p base sp' (arg ++ [0])) root base p :=
        stack.store fun _ other => push_of_ne above (below.trans pushed.high) other
      refine (ih stack' short (pushed.push aligned above below)).mono fun r s' after => ?_
      obtain ⟨wrote, strings⟩ := after
      refine ⟨(wrote_push above (below.trans pushed.high)).trans wrote, fun sp'' ustack'' same => ?_⟩
      have all := strings sp'' ustack'' same
      rwa [List.append_assoc, List.singleton_append] at all
    · rw [returns_bind, returns_copyout_beyond beyond (by simp), if_pos (by decide)]
      exact stop

theorem length_words (l : List (BitVec 64)) : (l.flatMap le64).length = l.length * 8 := by
  simp [List.length_flatMap, le64]

theorem pushArgs_spec (stack : StackPage s.mem root base p)
    (bottom : stackbase.toNat = base) (top : sp.toNat = base + PGSIZE) (few : argv.length < MAXARG)
    (short : ∀ arg ∈ argv, arg.length + 1 < 2 ^ 32) :
    Returns (pushArgs root stackbase argv sp) s fun r s' => Wrote s s' p ∧ ∀ sp', r = some sp' → ∃ ustack,
      List.Forall₂ (fun arg u => Stored s'.mem base p (arg ++ [0]) u) argv ustack ∧
      Stored s'.mem base p ((ustack ++ [0]).flatMap le64) sp' := by
  have start : Pushed s.mem base p [] sp [] := ⟨by omega, by omega, .nil, by simp⟩
  rw [pushArgs, returns_bind]
  refine (pushStrings_spec stack bottom short start).mono fun r s₁ after => ?_
  obtain ⟨wrote, strings⟩ := after
  cases r with
  | none => exact returns_pure.mpr ⟨wrote, fun sp' absurd => by cases absurd⟩
  | some result =>
    obtain ⟨sp₁, ustack⟩ := result
    have pushed := strings sp₁ ustack rfl
    rw [List.nil_append] at pushed
    have count : ustack.length < MAXARG := pushed.strings.length_eq ▸ few
    have stop : Returns (pure none : Code (Option (BitVec 64))) s₁ fun r s' => Wrote s s' p ∧ ∀ sp', r = some sp' → ∃ ustack,
        List.Forall₂ (fun arg u => Stored s'.mem base p (arg ++ [0]) u) argv ustack ∧
        Stored s'.mem base p ((ustack ++ [0]).flatMap le64) sp' := returns_pure.mpr ⟨wrote, fun sp' absurd => by cases absurd⟩
    have length : (ustack.length + 1) * 8 = ((ustack ++ [0]).flatMap le64).length := by
      rw [length_words, List.length_append, List.length_singleton]
    have stack₁ : StackPage s₁.mem root base p := by
      obtain ⟨m, rfl, _, others⟩ := wrote
      exact stack.store others
    have fits : (ustack.length + 1) * 8 < 2 ^ 32 := by
      simp only [MAXARG] at count
      omega
    have nonempty : (ustack ++ [0]).flatMap le64 ≠ [] := by
      rw [ne_eq, ← List.length_eq_zero_iff, ← length]
      omega
    obtain ⟨aligned, moved⟩ := push_spec sp₁ fits
    dsimp only
    rw [if_neg (not_le.mpr count)]
    generalize (sp₁ - .ofNat 64 ((ustack.length + 1) * 8)) - (sp₁ - .ofNat 64 ((ustack.length + 1) * 8)) % 16 = sp' at aligned moved
    split
    · exact stop
    rename_i above
    rw [BitVec.lt_def, bottom, not_lt] at above
    rw [length] at moved ⊢
    rcases moved with below | beyond
    · have inside := below.trans pushed.high
      rw [returns_bind, returns_copyout stack₁ nonempty above inside, if_neg (by decide), returns_pure]
      refine ⟨wrote.trans (wrote_push above inside), fun sp'' same => ?_⟩
      obtain rfl := Option.some.inj same
      exact ⟨ustack, pushed.stored above below, stored_push aligned above inside⟩
    · rw [returns_bind, returns_copyout_beyond beyond nonempty, if_pos (by decide)]
      exact stop

end OsProjects.Exec
