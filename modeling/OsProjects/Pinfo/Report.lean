import OsProjects.Copying.Out
import OsProjects.Kernel.Proc

namespace OsProjects.Pinfo
open Bytes Kernel Copying Ownership
open Paging hiding Proc

/-! ## `getpinfo` -/

inductive Field
  | inuse | tickets | pid | ticks
  deriving DecidableEq

def Field.index : Field → ℕ
  | .inuse => 0
  | .tickets => 1
  | .pid => 2
  | .ticks => 3

def Field.offset (f : Field) (i : Slot) : ℕ := 4 * (NPROC * f.index + i)

def Field.value (p : Proc) : Field → ℤ
  | .inuse => if p.state ≠ .unused then 1 else 0
  | .tickets => p.tickets
  | .pid => p.pid
  | .ticks => p.ticks

/-- `sizeof(struct pstat)`. -/
def pstatSize : ℕ := 4 * (NPROC * 4)

def store (p : Proc) (i : Slot) (info : ℕ → UInt8) (f : Field) : ℕ → UInt8 :=
  putWord info (f.offset i) 4 (BitVec.ofInt 32 (f.value p)).toNat

def storeSlot (t : Slot → Proc) (info : ℕ → UInt8) (i : Slot) : ℕ → UInt8 :=
  [Field.tickets, .ticks, .pid, .inuse].foldl (store (t i) i) info

def processInfo (t : Slot → Proc) (stack : ℕ → UInt8) : ℕ → UInt8 := (List.finRange NPROC).foldl (storeSlot t) stack

def getpinfo (t : Slot → Proc) (stack : ℕ → UInt8) (pagetable : Page) (pFromUser : ℕ) : Vm ℤ :=
  if pFromUser = 0 then pure (-1)
  else do
    let _ ← eitherCopyout pagetable true pFromUser (processInfo t stack) pstatSize
    pure 0

def sysGetpinfo (t : Slot → Proc) (stack : ℕ → UInt8) (pagetable : Page) (a : BitVec 64) : Vm ℤ :=
  getpinfo t stack pagetable a.toNat

/-! ## What the user sees -/

def userInt (m : Mem) (pagetable : Page) (va : ℕ) : ℤ :=
  (BitVec.ofNat 32 (word (fun k => (userByte m pagetable k).getD 0) va 4)).toInt

def UserMapped (m : Mem) (pagetable : Page) (va len : ℕ) : Prop := ∀ k < len, (physAfter m pagetable va k).isSome

def Reported (t : Slot → Proc) (m : Mem) (pagetable : Page) (va : ℕ) : Prop :=
  ∀ f i, userInt m pagetable (va + Field.offset f i) = int (f.value (t i))

/-- The call succeeds just where the structure is in user pages, and has then written it there. -/
def Honest (t : Slot → Proc) (m : Mem) (pagetable : Page) (a : BitVec 64) (ret : ℤ) (m' : Mem) : Prop :=
  (a ≠ 0 ∧ UserMapped m pagetable a.toNat pstatSize → ret = 0 ∧ Reported t m' pagetable a.toNat) ∧
  (a = 0 ∨ ¬ UserMapped m pagetable a.toNat pstatSize → ret = -1)

variable {m m' : Mem} {pagetable : Page} {va : ℕ} {t : Slot → Proc}

/-! ## The fields of the structure -/

theorem word_store (p : Proc) (i : Slot) (info : ℕ → UInt8) (f : Field) :
    word (store p i info f) (f.offset i) 4 = (BitVec.ofInt 32 (f.value p)).toNat :=
  word_putWord (BitVec.isLt _)

theorem word_store_of_ne {p : Proc} {i j : Slot} {info : ℕ → UInt8} {f g : Field} (other : g ≠ f ∨ j ≠ i) :
    word (store p i info f) (g.offset j) 4 = word info (g.offset j) 4 := by
  refine word_putWord_of_apart ?_
  have different : NPROC * g.index + j.val ≠ NPROC * f.index + i.val := by
    have first := i.isLt
    have second := j.isLt
    rcases other with fields | slots
    · have indices : g.index ≠ f.index := by
        cases f <;> cases g <;> simp [Field.index] at fields ⊢
      simp only [NPROC] at *
      omega
    · have values : j.val ≠ i.val := fun same => slots (Fin.ext same)
      simp only [NPROC] at *
      omega
  simp only [Field.offset]
  omega

theorem word_storeSlot (info : ℕ → UInt8) (i : Slot) (f : Field) :
    word (storeSlot t info i) (f.offset i) 4 = (BitVec.ofInt 32 (f.value (t i))).toNat := by
  cases f <;> simp [storeSlot, word_store, word_store_of_ne]

theorem word_storeSlot_of_ne {info : ℕ → UInt8} {i j : Slot} (other : j ≠ i) (f : Field) :
    word (storeSlot t info i) (f.offset j) 4 = word info (f.offset j) 4 := by
  simp [storeSlot, word_store_of_ne (.inr other)]

theorem word_processInfo (t : Slot → Proc) (stack : ℕ → UInt8) (i : Slot) (f : Field) :
    word (processInfo t stack) (f.offset i) 4 = (BitVec.ofInt 32 (f.value (t i))).toNat := by
  have stored (l : List Slot) (mem : i ∈ l) :
      word (l.foldl (storeSlot t) stack) (f.offset i) 4 = (BitVec.ofInt 32 (f.value (t i))).toNat := by
    induction l using List.reverseRecOn with
    | nil => cases mem
    | append_singleton l j ih =>
      rw [List.foldl_append, List.foldl_cons, List.foldl_nil]
      by_cases this : i = j
      · subst this
        exact word_storeSlot _ _ _
      · rw [word_storeSlot_of_ne this]
        exact ih (by simpa [this] using mem)
  exact stored _ (List.mem_finRange i)

theorem word_shift (f : ℕ → UInt8) (va off w : ℕ) : word f (va + off) w = word (fun k => f (va + k)) off w := by
  induction w generalizing off with
  | zero => rfl
  | succ w ih => rw [word, word, Nat.add_assoc, ih]

theorem UserMapped.lt {len : ℕ} (mapped : UserMapped m pagetable va len) (small : va < 2 ^ 64) (positive : 0 < len) : va < MAXVA := by
  obtain ⟨a, address⟩ := Option.isSome_iff_exists.mp (mapped 0 positive)
  obtain ⟨pa, page, _⟩ := Option.map_eq_some_iff.mp address
  have less := (walkaddr_iff.mp page).1
  rw [Nat.add_zero, Nat.mod_eq_of_lt small] at less
  simp only [pgRoundDown, PGSIZE, MAXVA] at *
  omega

theorem reported_of_sent {stack : ℕ → UInt8} (small : va < 2 ^ 64) (mapped : UserMapped m pagetable va pstatSize)
    (sent : Sent m pagetable va pstatSize (processInfo t stack) m') : Reported t m' pagetable va := by
  intro f i
  have below := mapped.lt small (by decide)
  have limit : MAXVA + pstatSize < 2 ^ 64 := by decide
  have inside : f.offset i + 4 ≤ pstatSize := by
    have last := i.isLt
    cases f <;> simp only [Field.offset, Field.index, pstatSize, NPROC] at * <;> omega
  have same : word (fun k => (userByte m' pagetable (va + k)).getD 0) (f.offset i) 4 = word (processInfo t stack) (f.offset i) 4 := by
    refine word_congr fun k _ last => ?_
    obtain ⟨a, address⟩ := Option.isSome_iff_exists.mp (mapped k (by omega))
    rw [userByte_eq (by omega), physAfter_agree sent.tables, address, Option.map_some, Option.getD_some]
    exact sent.byte (by decide) (by omega) (fun j before => mapped j (by omega)) address
  rw [userInt, word_shift, same, word_processInfo, BitVec.ofNat_toNat, BitVec.setWidth_eq, BitVec.toInt_ofInt, int]

/-- The answer is right just for a null pointer and for a structure that is in user pages: the result of the copy is dropped. -/
theorem getpinfo_reports (t : Slot → Proc) (stack : ℕ → UInt8) (m : Mem) (pagetable : Page) (a : BitVec 64)
    (foreign : Foreign m pagetable a.toNat pstatSize) :
    ∃ ret m', sysGetpinfo t stack pagetable a m = some (ret, m') ∧ (a = 0 → m' = m) ∧
      (Honest t m pagetable a ret m' ↔ a = 0 ∨ UserMapped m pagetable a.toNat pstatSize) := by
  unfold sysGetpinfo getpinfo
  by_cases null : a = 0
  · subst null
    exact ⟨-1, m, rfl, fun _ => rfl, fun _ => .inl rfl, fun _ => ⟨fun some => absurd rfl some.1, fun _ => rfl⟩⟩
  · have nonzero : a.toNat ≠ 0 := fun zero => null (BitVec.eq_of_toNat_eq (by simpa using zero))
    obtain ⟨r, m', copied, _, _, sent⟩ := copyoutLoop_spec (processInfo t stack) a.isLt (le_refl pstatSize) foreign
    refine ⟨0, m', ?_, fun zero => absurd zero null, fun honest => ?_, fun fine => ?_⟩
    · rw [if_neg nonzero, eitherCopyout, if_pos rfl]
      exact bind_eq_some.mpr ⟨r, m', copied, rfl⟩
    · by_contra unmapped
      cases honest.2 (.inr fun mapped => unmapped (.inr mapped))
    · have mapped := fine.resolve_left null
      exact ⟨fun _ => ⟨rfl, reported_of_sent a.isLt mapped sent⟩, fun other => (other.elim null fun unmapped => unmapped mapped).elim⟩

theorem getpinfo_reports_twoPages : ∃ m',
    sysGetpinfo (fun _ => ⟨.runnable, none, false, 0, 7, 3, 9, none, 0⟩) (fun _ => 0) 7 8000 (leadingTo 5) = some (0, m') ∧
      ∀ i, userInt m' 7 (8000 + Field.tickets.offset i) = 3 := by
  have mapped : UserMapped (leadingTo 5) 7 (8000#64).toNat pstatSize := by
    intro k less
    have small : pgRoundDown (((8000#64).toNat + k) % 2 ^ 64) < MAXVA := by
      simp only [pgRoundDown, PGSIZE, MAXVA, pstatSize, NPROC, BitVec.toNat_ofNat] at *
      omega
    rw [physAfter, walkaddr_leadingTo small]
    rfl
  obtain ⟨ret, m', ran, _, right⟩ := getpinfo_reports (fun _ => ⟨.runnable, none, false, 0, 7, 3, 9, none, 0⟩) (fun _ => 0)
    (leadingTo 5) 7 8000 (foreign_leadingTo _ _)
  obtain ⟨rfl, fields⟩ := (right.mpr (.inr mapped)).1 ⟨by decide, mapped⟩
  exact ⟨m', ran, fun i => fields .tickets i⟩

theorem unmapped_getpinfo_succeeds :
    sysGetpinfo (fun _ => ⟨.unused, none, false, 0, 0, 0, 0, none, 0⟩) (fun _ => 0) 1 4096 noPages = some (0, noPages) ∧
      ∀ k < pstatSize, physAfter noPages 1 4096 k = none := by
  refine ⟨?_, fun k _ => by rw [physAfter, walkaddr_noPages, Option.map_none]⟩
  have copied : copyout 1 4096 (processInfo (fun _ => ⟨.unused, none, false, 0, 0, 0, 0, none, 0⟩) fun _ => 0) pstatSize noPages =
      some (-1, noPages) :=
    copyoutLoop_unmapped (by decide) walkaddr_noPages
  unfold sysGetpinfo getpinfo
  rw [if_neg (by decide), eitherCopyout, if_pos rfl]
  exact bind_eq_some.mpr ⟨-1, noPages, copied, rfl⟩

end OsProjects.Pinfo
