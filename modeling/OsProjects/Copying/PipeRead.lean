import OsProjects.Copying.User
import OsProjects.Piping.Model

namespace OsProjects.Copying
open Bytes Wrapping Piping
open Paging hiding Proc Pipe

/-! ## `piperead` into user memory -/

def readLoop (pagetable : Page) (addr : BitVec 64) : ℕ → ℕ → Pipe → Mem → Option (ℕ × Pipe × Mem)
  | 0, i, pi, m => some (i, pi, m)
  | left + 1, i, pi, m =>
    if pi.empty then some (i, pi, m)
    else do
      let ch := pi.data (position PIPESIZE pi.nread)
      let pi := { pi with nread := pi.nread + 1 }
      let (r, m) ← copyout pagetable (addr + BitVec.ofNat 64 i).toNat (fun _ => .ofBitVec ch) 1 m
      if r = -1 then some (i, pi, m) else readLoop pagetable addr left (i + 1) pi m

inductive Attempt
  | sleeps
  | returns (r : ℤ) (pi : Pipe) (m : Mem)

/-- `piperead` from the head of its first loop on, with the lock held: it goes to sleep or it returns. -/
def piperead (pagetable : Page) (killed : Bool) (addr : BitVec 64) (n : ℤ) (pi : Pipe) (m : Mem) : Option Attempt :=
  if pi.empty && pi.writeopen then some (if killed then .returns (-1) pi m else .sleeps)
  else (readLoop pagetable addr n.toNat 0 pi m).map fun (i, pi, m) => .returns i pi m

def Pipe.count (pi : Pipe) : ℕ := (pi.nwrite - pi.nread).toNat

def Pipe.byte (pi : Pipe) (k : ℕ) : UInt8 := .ofBitVec (pi.data (position PIPESIZE (pi.nread + BitVec.ofNat 32 k)))

def Pipe.advance (pi : Pipe) (k : ℕ) : Pipe := { pi with nread := pi.nread + BitVec.ofNat 32 k }

/-- A call that returns a number of bytes has taken that many from the pipe, and they are at the destination. -/
def Delivers (pagetable : Page) (addr : BitVec 64) (pi : Pipe) (attempt : Attempt) : Prop :=
  ∀ r pi' m', attempt = .returns r pi' m' → 0 ≤ r → ∃ i : ℕ, r = i ∧ i ≤ Pipe.count pi ∧ pi' = Pipe.advance pi i ∧
    ∀ k < i, userByte m' pagetable (addr + BitVec.ofNat 64 k).toNat = some (Pipe.byte pi k)

variable {m m' : Mem} {pagetable : Page} {addr : BitVec 64} {pi : Pipe} {i : ℕ}

/-! ## One byte -/

theorem physAfter_start (m : Mem) (pagetable : Page) (addr : BitVec 64) (i : ℕ) :
    physAfter m pagetable (addr + BitVec.ofNat 64 i).toNat 0 = physAfter m pagetable addr.toNat i := by
  rw [physAfter, physAfter, toNat_after, Nat.add_zero, Nat.mod_mod]

theorem place_ne {k a : ℕ} (before : k < i) (near : i < PIPESIZE) (here : physAfter m pagetable addr.toNat k = some a) :
    physAfter m pagetable addr.toNat i ≠ some a := by
  intro again
  have first := physAfter_mod here
  have second := physAfter_mod again
  simp only [PGSIZE, PIPESIZE] at *
  omega

theorem empty_iff (most : i ≤ Pipe.count pi) :
    (Pipe.advance pi i).empty = true ↔ i = Pipe.count pi := by
  have small : i < 2 ^ 32 := most.trans_lt (pi.nwrite - pi.nread).isLt
  rw [Pipe.empty, decide_eq_true_iff]
  change pi.nread + BitVec.ofNat 32 i = pi.nwrite ↔ i = (pi.nwrite - pi.nread).toNat
  constructor
  · intro equal
    rw [← equal]
    have back : pi.nread + BitVec.ofNat 32 i - pi.nread = BitVec.ofNat 32 i := by bv_omega
    rw [back, BitVec.toNat_ofNat, Nat.mod_eq_of_lt small]
  · intro equal
    rw [equal, BitVec.ofNat_toNat, BitVec.setWidth_eq]
    bv_omega

theorem advance_succ (pi : Pipe) (i : ℕ) : Pipe.advance pi (i + 1) = { Pipe.advance pi i with nread := (Pipe.advance pi i).nread + 1 } := by
  have next : pi.nread + BitVec.ofNat 32 (i + 1) = pi.nread + BitVec.ofNat 32 i + 1 := by
    rw [BitVec.ofNat_add, ← BitVec.add_assoc]
    rfl
  rw [Pipe.advance, next]
  rfl

theorem advance_ne (pi : Pipe) (i : ℕ) : Pipe.advance pi (i + 1) ≠ Pipe.advance pi i := by
  intro same
  have equal := congrArg Pipe.nread same
  rw [advance_succ] at equal
  simp at equal

/-! ## The loop -/

/-- The loop from byte `i` on, which stops at `g`: what it stored, and the byte it took without storing it. -/
structure Reads (m : Mem) (pagetable : Page) (addr : BitVec 64) (pi : Pipe) (i last g : ℕ) (pi' : Pipe) (m' : Mem) : Prop where
  tables : ∀ p ∈ tables m pagetable, m'.mem p = m.mem p
  first : i ≤ g
  most : g ≤ last
  mapped : ∀ k, i ≤ k → k < g → (physAfter m pagetable addr.toNat k).isSome
  stops : g < last → physAfter m pagetable addr.toNat g = none
  taken : pi' = Pipe.advance pi (if g < last then g + 1 else g)
  stored : ∀ k, i ≤ k → k < g → ∀ a, physAfter m pagetable addr.toNat k = some a → m'.byte a = Pipe.byte pi k
  others : ∀ a, (∀ k, i ≤ k → k < g → physAfter m pagetable addr.toNat k ≠ some a) → m'.byte a = m.byte a

theorem Reads.refl (m : Mem) (pagetable : Page) (addr : BitVec 64) (pi : Pipe) (i : ℕ) :
    Reads m pagetable addr pi i i i (Pipe.advance pi i) m where
  tables _ _ := rfl
  first := le_rfl
  most := le_rfl
  mapped k low high := by omega
  stops less := by omega
  taken := by rw [if_neg (lt_irrefl i)]
  stored k low high := by omega
  others _ _ := rfl

theorem Reads.lost {last : ℕ} (less : i < last) (none : physAfter m pagetable addr.toNat i = none)
    (tables : ∀ p ∈ Paging.tables m pagetable, m'.mem p = m.mem p) (same : ∀ b, m'.byte b = m.byte b) :
    Reads m pagetable addr pi i last i (Pipe.advance pi (i + 1)) m' where
  tables := tables
  first := le_rfl
  most := less.le
  mapped k low high := by omega
  stops _ := none
  taken := by rw [if_pos less]
  stored k low high := by omega
  others b _ := same b

theorem Reads.step {last g a : ℕ} {m₁ : Mem} {pi' : Pipe} (near : last ≤ PIPESIZE) (here : physAfter m pagetable addr.toNat i = some a)
    (tables : ∀ p ∈ Paging.tables m pagetable, m₁.mem p = m.mem p) (byte : m₁.byte a = Pipe.byte pi i)
    (others : ∀ b, b ≠ a → m₁.byte b = m.byte b) (rest : Reads m₁ pagetable addr pi (i + 1) last g pi' m') :
    Reads m pagetable addr pi i last g pi' m' := by
  have phys := physAfter_agree tables
  have span := rest.first
  have most := rest.most
  refine ⟨fun p member => ?_, by omega, most, fun k low high => ?_, fun less => ?_, rest.taken, fun k low high b address => ?_, fun b never => ?_⟩
  · rw [rest.tables p (by rwa [show Paging.tables m₁ pagetable = Paging.tables m pagetable from cells_agree tables]), tables p member]
  · obtain rfl | later := Nat.eq_or_lt_of_le low
    · rw [here]
      rfl
    · rw [← phys]
      exact rest.mapped k later high
  · rw [← phys]
    exact rest.stops less
  · obtain rfl | later := Nat.eq_or_lt_of_le low
    · obtain rfl : a = b := Option.some.inj (here.symm.trans address)
      rw [rest.others a fun k after before => ?_, byte]
      rw [phys]
      exact place_ne (by omega) (by omega) here
    · exact rest.stored k later high b (by rw [phys]; exact address)
  · rw [rest.others b fun k after before => ?_, others b fun same => ?_]
    · exact never i le_rfl (by omega) (by rw [here, same])
    · rw [phys]
      exact never k (by omega) before

theorem readLoop_spec (left : ℕ) (bounded : Pipe.count pi ≤ PIPESIZE) (most : i ≤ Pipe.count pi)
    (foreign : Foreign m pagetable addr.toNat (Pipe.count pi)) :
    ∃ g pi' m', readLoop pagetable addr left i (Pipe.advance pi i) m = some (g, pi', m') ∧
      Reads m pagetable addr pi i (min (i + left) (Pipe.count pi)) g pi' m' := by
  induction left generalizing i m with
  | zero =>
    refine ⟨i, _, m, rfl, ?_⟩
    rw [show min (i + 0) (Pipe.count pi) = i by omega]
    exact .refl m pagetable addr pi i
  | succ left ih =>
    by_cases done : i = Pipe.count pi
    · rw [readLoop, if_pos ((empty_iff most).mpr done), show min (i + (left + 1)) (Pipe.count pi) = i by omega]
      exact ⟨i, _, m, rfl, .refl m pagetable addr pi i⟩
    · have alone : Foreign m pagetable (addr + BitVec.ofNat 64 i).toNat 1 := by
        intro k less a address
        obtain rfl : k = 0 := by omega
        rw [physAfter_start] at address
        exact foreign i (by omega) a address
      obtain ⟨r, m₁, copied, code, mapped, sent⟩ := copyoutLoop_spec (fun _ => Pipe.byte pi i) (BitVec.isLt _) (le_refl 1) alone
      have one : r = 0 ↔ (physAfter m pagetable addr.toNat i).isSome := by
        rw [mapped, ← physAfter_start]
        exact ⟨fun all => all 0 Nat.one_pos, fun some k less => by rwa [show k = 0 by omega]⟩
      rw [readLoop, if_neg (mt (empty_iff most).mp done), ← advance_succ]
      change ∃ g pi' m', ((copyout pagetable (addr + BitVec.ofNat 64 i).toNat (fun _ => Pipe.byte pi i) 1 m).bind fun x =>
        if x.1 = -1 then some (i, Pipe.advance pi (i + 1), x.2)
        else readLoop pagetable addr left (i + 1) (Pipe.advance pi (i + 1)) x.2) = some (g, pi', m') ∧ _
      rw [copyout, copied, Option.bind_some]
      by_cases failed : r = -1
      · have none : physAfter m pagetable addr.toNat i = none := by
          rw [failed] at one
          simpa using one
        rw [if_pos failed]
        refine ⟨i, _, m₁, rfl, .lost (by omega) none sent.tables fun b => sent.others b fun k less reached => ?_⟩
        have first := reached 0 (Nat.zero_le k)
        rw [physAfter_start, none] at first
        cases first
      · obtain ⟨a, here⟩ := Option.isSome_iff_exists.mp (one.mp (code.resolve_right failed))
        have start : physAfter m pagetable (addr + BitVec.ofNat 64 i).toNat 0 = some a := (physAfter_start ..).trans here
        have byte : m₁.byte a = Pipe.byte pi i := by
          refine sent.byte (by decide) Nat.one_pos (fun j before => ?_) start
          rw [show j = 0 by omega, start]
          rfl
        have others : ∀ b, b ≠ a → m₁.byte b = m.byte b := by
          intro b other
          refine sent.others b fun k less _ address => other ?_
          rw [show k = 0 by omega, start] at address
          exact (Option.some.inj address).symm
        have foreign' : Foreign m₁ pagetable addr.toNat (Pipe.count pi) := by
          rw [Foreign, physAfter_agree sent.tables, show tables m₁ pagetable = tables m pagetable from cells_agree sent.tables]
          exact foreign
        obtain ⟨g, pi', m', ran, rest⟩ := ih (by omega : i + 1 ≤ Pipe.count pi) foreign'
        rw [if_neg failed]
        refine ⟨g, pi', m', ran, .step (by omega) here sent.tables byte others ?_⟩
        rwa [show i + (left + 1) = i + 1 + left by omega]

theorem Reads.delivers {last g : ℕ} {pi' : Pipe} (most : last ≤ Pipe.count pi) (reads : Reads m pagetable addr pi 0 last g pi' m') :
    Delivers pagetable addr pi (.returns g pi' m') ↔ ∀ k < last, (physAfter m pagetable addr.toNat k).isSome := by
  have within := reads.most
  constructor
  · intro delivers k less
    obtain ⟨i, count, _, taken, _⟩ := delivers g pi' m' rfl (Int.natCast_nonneg g)
    obtain rfl : g = i := Int.ofNat_inj.mp count
    have whole : g = last := by
      by_contra part
      have lost := reads.taken
      rw [if_pos (by omega), taken] at lost
      exact advance_ne pi g lost.symm
    exact reads.mapped k (Nat.zero_le k) (by omega)
  · rintro mapped _ _ _ ⟨⟩ _
    obtain rfl : g = last := by
      by_contra part
      have some := mapped g (by omega)
      rw [reads.stops (by omega)] at some
      cases some
    refine ⟨g, rfl, most, by rw [reads.taken, if_neg (lt_irrefl g)], fun k less => ?_⟩
    obtain ⟨a, here⟩ := Option.isSome_iff_exists.mp (mapped k less)
    rw [← byteAfter_eq, byteAfter, physAfter_agree reads.tables, here, Option.map_some, reads.stored k (Nat.zero_le k) less a here]

/-- A read delivers the bytes that it takes if and only if the destination is mapped for all it could take: the first
byte with no place to go is taken and lost. -/
theorem piperead_delivers (m : Mem) (pagetable : Page) (killed : Bool) (addr : BitVec 64) (n : ℤ) (pi : Pipe)
    (bounded : Pipe.count pi ≤ PIPESIZE) (foreign : Foreign m pagetable addr.toNat (Pipe.count pi)) :
    ∃ attempt, piperead pagetable killed addr n pi m = some attempt ∧
      (Delivers pagetable addr pi attempt ↔ ∀ k < min n.toNat (Pipe.count pi), (physAfter m pagetable addr.toNat k).isSome) := by
  have start : Pipe.advance pi 0 = pi := by
    rw [Pipe.advance, show pi.nread + BitVec.ofNat 32 0 = pi.nread from BitVec.add_zero _]
  unfold piperead
  by_cases waits : (pi.empty && pi.writeopen) = true
  · have empty : Pipe.count pi = 0 := by
      refine ((empty_iff (Nat.zero_le _)).mp ?_).symm
      rw [start]
      exact (Bool.and_eq_true_iff.mp waits).1
    rw [if_pos waits]
    refine ⟨_, rfl, fun _ k less => by omega, fun _ r pi' m' returned positive => ?_⟩
    cases killed
    · cases returned
    · cases returned
      omega
  · obtain ⟨g, pi', m', ran, reads⟩ := readLoop_spec n.toNat bounded (Nat.zero_le _) foreign
    rw [start] at ran
    rw [Nat.zero_add] at reads
    rw [if_neg waits, ran]
    exact ⟨_, rfl, reads.delivers (min_le_right ..)⟩

def Attempt.result : Attempt → Option ℤ
  | .sleeps => none
  | .returns r _ _ => some r

def threeBytes : Pipe := ⟨fun i => .ofNat 8 i, -1, 2, true, true⟩

theorem piperead_delivers_threeBytes : ∃ m', piperead 7 false 4094 10 threeBytes (leadingTo 5) =
      some (.returns 3 { threeBytes with nread := 2 } m') ∧
    userByte m' 7 4094 = some 255 ∧ userByte m' 7 4095 = some 0 ∧ userByte m' 7 4096 = some 1 := by
  have done : (piperead 7 false 4094 10 threeBytes (leadingTo 5)).bind Attempt.result = some 3 := by decide +kernel
  obtain ⟨attempt, ran, right⟩ := piperead_delivers (leadingTo 5) 7 false 4094 10 threeBytes (by decide) (foreign_leadingTo _ _)
  rw [ran, Option.bind_some] at done
  cases attempt with
  | sleeps => cases done
  | returns r pi' m' =>
    have mapped : ∀ k < 3, (physAfter (leadingTo 5) 7 4094 k).isSome := by decide
    obtain ⟨i, count, _, rfl, bytes⟩ := right.mpr mapped r pi' m' rfl (by cases done; decide)
    obtain rfl : i = 3 := by
      rw [count] at done
      exact Int.ofNat_inj.mp (Option.some.inj done)
    subst count
    exact ⟨m', ran, bytes 0 (by decide), bytes 1 (by decide), bytes 2 (by decide)⟩

theorem failed_copy_loses_byte : ∃ pi', piperead 1 false 0 1 threeBytes noPages = some (.returns 0 pi' noPages) ∧
    pi'.nread = threeBytes.nread + 1 ∧ Pipe.count threeBytes = 3 ∧ Pipe.count pi' = 2 :=
  ⟨{ threeBytes with nread := 0 }, rfl, rfl, rfl, rfl⟩

end OsProjects.Copying
