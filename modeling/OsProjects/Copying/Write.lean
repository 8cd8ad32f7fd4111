import OsProjects.Copying.User
import OsProjects.Volume.Partial

namespace OsProjects.Copying
open Bytes Hoare
open Paging hiding Proc
open Volume (Superblock VolM Uint BSIZE MAXFILE Source chunk uadd bmap setBlock iupdate readi blockAt Reserved Mapped Rejected)

variable {m : Mem} {pagetable : Page}

/-! ## `writei` from user space -/

/-- The loop of `writei` with `user_src` set: a block that cannot be filled stays in the cache as far as it was. -/
def writeUserLoop (sb : Superblock) (m : Mem) (pagetable : Page) (n : ℕ) : ℕ → ℕ → ℕ → ℕ → VolM (ℕ × ℕ)
  | 0, _, _, _ => throw .endless
  | fuel + 1, tot, off, src =>
    if tot < n then do
      let addr ← bmap sb (off / BSIZE)
      if addr = 0 then pure (tot, off)
      else do
        let len := chunk n tot off
        match copyinLoop m pagetable len (off % BSIZE) src len ((← get).disk.block addr) with
        | none => throw .endless
        | some (r, block) => do
          setBlock addr block
          if r = -1 then pure (tot, off)
          else writeUserLoop sb m pagetable n fuel (uadd tot len) (uadd off len) ((src + len) % 2 ^ 64)
    else pure (tot, off)

def writeiUser (sb : Superblock) (inum : ℕ) (m : Mem) (pagetable : Page) (src : BitVec 64) (off n : Uint) :
    VolM (Option ℕ) := do
  let size := (← get).ip.size
  if off > size ∨ off + n < off then pure none
  else if (off + n).toNat > MAXFILE * BSIZE then pure none
  else do
    let (tot, off) ← writeUserLoop sb m pagetable n.toNat (n.toNat + 1) 0 off.toNat src.toNat
    modify fun s => { s with ip := { s.ip with size := if off > size.toNat then .ofNat 32 off else size } }
    iupdate inum
    pure (some tot)

def userSource (m : Mem) (pagetable : Page) (src : ℕ) : Source where
  byte i := (byteAfter m pagetable src i).getD 0
  copied tot len := mappedRun m pagetable ((src + tot) % 2 ^ 64) len

theorem byteAfter_add (src tot k : ℕ) : byteAfter m pagetable ((src + tot) % 2 ^ 64) k = byteAfter m pagetable src (tot + k) := by
  rw [byteAfter, byteAfter, physAfter, physAfter, Nat.mod_add_mod, Nat.add_assoc]

theorem writeUserLoop_eq {sb : Superblock} {n fuel tot off : ℕ} (src : ℕ) (small : n < 2 ^ 32) (le : tot ≤ n) :
    writeUserLoop sb m pagetable n fuel tot off ((src + tot) % 2 ^ 64) =
      Volume.writeLoop sb (userSource m pagetable src) n fuel tot off := by
  induction fuel generalizing tot off with
  | zero => rfl
  | succ fuel ih =>
    rw [writeUserLoop, Volume.writeLoop]
    by_cases less : tot < n
    · have fits := Volume.chunk_le n tot off
      rw [if_pos less, if_pos less]
      refine congrArg _ (funext fun addr => ?_)
      by_cases zero : addr = 0
      · rw [if_pos zero, if_pos zero]
      · rw [if_neg zero, if_neg zero]
        dsimp only
        refine congrArg _ (funext fun s => ?_)
        have run := (mappedRun_spec m pagetable ((src + tot) % 2 ^ 64) (chunk n tot off)).1
        have got : min (chunk n tot off) ((userSource m pagetable src).copied tot (chunk n tot off)) =
            mappedRun m pagetable ((src + tot) % 2 ^ 64) (chunk n tot off) := min_eq_right run
        simp only [copyinLoop_run _ _ (Nat.mod_lt _ (by norm_num)) le_rfl, byteAfter_add, got]
        refine congrArg _ (funext fun _ => ?_)
        by_cases whole : mappedRun m pagetable ((src + tot) % 2 ^ 64) (chunk n tot off) = chunk n tot off
        · have next : uadd tot (chunk n tot off) = tot + chunk n tot off := Volume.uadd_eq (by omega)
          rw [if_pos whole, if_neg (by decide), if_neg (by omega), Nat.mod_add_mod, Nat.add_assoc, next]
          exact ih (by omega)
        · rw [if_neg whole, if_pos rfl, if_pos (by omega)]
    · rw [if_neg less, if_neg less]

theorem writeiUser_eq {sb : Superblock} {inum : ℕ} {src : BitVec 64} {off n : Uint} :
    writeiUser sb inum m pagetable src off n = Volume.writei sb inum (userSource m pagetable src.toNat) off n := by
  have start : (src.toNat + 0) % 2 ^ 64 = src.toNat := Nat.mod_eq_of_lt src.isLt
  have loop : writeUserLoop sb m pagetable n.toNat (n.toNat + 1) 0 off.toNat src.toNat =
      Volume.writeLoop sb (userSource m pagetable src.toNat) n.toNat (n.toNat + 1) 0 off.toNat := by
    rw [← writeUserLoop_eq src.toNat n.isLt (Nat.zero_le _), start]
  rw [writeiUser, Volume.writei, loop]

/-! ## What readers see -/

def reads (sb : Superblock) (s : Volume.State) (i : ℕ) : Option UInt8 :=
  match readi sb (fun _ _ => true) (.ofNat 32 i) 1 s with
  | .ok (some [v], _) => some v
  | _ => none

theorem reads_eq {sb : Superblock} {s : Volume.State} {i : ℕ} (reserved : Reserved sb s.disk) (mapped : Mapped sb s.disk s.ip)
    (less : i < s.ip.size.toNat) : reads sb s i = some (s.byte i) := by
  have bounded := mapped.bounded
  have limit : MAXFILE * BSIZE < 2 ^ 32 - 1 := by decide
  have first : (BitVec.ofNat 32 i).toNat = i := by rw [BitVec.toNat_ofNat, Nat.mod_eq_of_lt (by omega)]
  have one : Volume.readRange s.ip.size (.ofNat 32 i) 1 = 1 := by
    rw [Volume.readRange_eq, BitVec.toNat_add, first]
    change min ((i + 1) % 2 ^ 32) _ - i = 1
    omega
  obtain ⟨r, t, result, rfl, success, data⟩ := (Volume.readi_spec reserved mapped (fun _ _ => true) (.ofNat 32 i) 1).exists_ok
  cases r with
  | none => exact absurd rfl (success fun _ _ => rfl)
  | some bytes =>
    have value := data bytes rfl
    rw [one, first] at value
    rw [reads, result, value]
    rfl

def chunkStart (off k : ℕ) : ℕ := max off ((off + k) / BSIZE * BSIZE)

/-- What `writei` reports is what it changed: the other bytes below the old size are as before, and those it counts are
the first ones of the source. -/
def Touches (sb : Superblock) (s : Volume.State) (m : Mem) (pagetable : Page) (src off : ℕ) (r : Option ℕ) (s' : Volume.State) : Prop :=
  ∀ k, r = some k →
    (∀ i < s.ip.size.toNat, i < off ∨ off + k ≤ i → ∃ v, reads sb s i = some v ∧ reads sb s' i = some v) ∧
    ∀ i < k, ∃ v, byteAfter m pagetable src i = some v ∧ reads sb s' (off + i) = some v

/-- What the chunk with the first unmapped source byte puts below the old size, before it fails, is there already. -/
def Harmless (sb : Superblock) (s : Volume.State) (m : Mem) (pagetable : Page) (src off n : ℕ) : Prop :=
  ∀ k < n, (∀ j < k, (byteAfter m pagetable src j).isSome) → byteAfter m pagetable src k = none →
    ∀ j < k, chunkStart off k ≤ off + j → off + j < s.ip.size.toNat → byteAfter m pagetable src j = reads sb s (off + j)

section
variable {sb : Superblock} {s s' : Volume.State} {inum src off n k extra : ℕ}

theorem spilled_copied {tot : ℕ} (spilled : Volume.Spilled (userSource m pagetable src) n 0 off s k tot extra s') :
    ∀ j < k, (byteAfter m pagetable src j).isSome := by
  intro j less
  obtain ⟨first, len, low, high, all⟩ := spilled.whole j (Nat.zero_le _) less
  obtain ⟨j, rfl⟩ := Nat.exists_eq_add_of_le low
  rw [← byteAfter_add]
  exact (mappedRun_spec m pagetable _ len).2.1 j (Nat.lt_of_lt_of_le (by omega) all)

/-- A copy that stops part-way has come to the first byte that is not mapped. -/
theorem part_first (copied : ∀ j < k, (byteAfter m pagetable src j).isSome)
    (count : extra = (userSource m pagetable src).copied k (chunk n k (off + k))) (part : extra < chunk n k (off + k)) :
    k + extra < n ∧ (∀ j < k + extra, (byteAfter m pagetable src j).isSome) ∧ byteAfter m pagetable src (k + extra) = none := by
  have chunks := Volume.chunk_le n k (off + k)
  obtain ⟨_, before, after⟩ := mappedRun_spec m pagetable ((src + k) % 2 ^ 64) (chunk n k (off + k))
  change extra = mappedRun m pagetable ((src + k) % 2 ^ 64) (chunk n k (off + k)) at count
  rw [← count] at before after
  simp only [byteAfter_add] at before after
  refine ⟨by omega, fun j less => ?_, after part⟩
  by_cases counted : j < k
  · exact copied j counted
  · obtain ⟨j, rfl⟩ := Nat.exists_eq_add_of_le (not_lt.mp counted)
    exact before j (by omega)

theorem chunkStart_part (edge : k = n ∨ k = 0 ∨ (off + k) % BSIZE = 0) (part : extra < chunk n k (off + k)) :
    chunkStart off (k + extra) = off + k := by
  have chunks := Volume.chunk_le n k (off + k)
  have fits := Volume.chunk_fits n k (off + k)
  simp only [chunkStart, BSIZE] at edge fits ⊢
  omega

theorem chunkStart_ge {f : ℕ} (edge : k = n ∨ k = 0 ∨ (off + k) % BSIZE = 0) (later : k ≤ f) (less : f < n) :
    off + k ≤ chunkStart off f := by
  simp only [chunkStart, BSIZE] at edge ⊢
  omega

variable (reserved : Reserved sb s.disk) (wrote : Volume.Wrote sb inum (userSource m pagetable src) off n s k s')
  (spilled : Volume.Spilled (userSource m pagetable src) n 0 off s k (off + k) extra s')
include reserved wrote spilled

theorem reads_spilled {j : ℕ} (less : j < k + extra) (inside : off + j < s'.ip.size.toNat) (copied : (byteAfter m pagetable src j).isSome) :
    reads sb s' (off + j) = byteAfter m pagetable src j := by
  obtain ⟨v, value⟩ := Option.isSome_iff_exists.mp copied
  rw [reads_eq (wrote.ext.reserved reserved) wrote.mapped inside, spilled.bytes _ (by omega) (by omega)]
  simp [userSource, value]

variable (mapped : Mapped sb s.disk s.ip)
include mapped

theorem touches_of_harmless (harmless : Harmless sb s m pagetable src off n) : Touches sb s m pagetable src off (some k) s' := by
  rintro _ ⟨⟩
  have size := wrote.size
  have bounded := mapped.bounded
  have copied := spilled_copied spilled
  refine ⟨fun i less out => ⟨s.byte i, reads_eq reserved mapped less, ?_⟩, fun i less => ?_⟩
  · by_cases kept : i < off ∨ off + k + extra ≤ i
    · rw [reads_eq (wrote.ext.reserved reserved) wrote.mapped (by omega), spilled.others i (by omega) kept (mapped.at_byte less)]
    · obtain ⟨_, count, part⟩ := spilled.cause.resolve_left (by omega)
      obtain ⟨inside, all, none⟩ := part_first copied count part
      obtain ⟨j, rfl⟩ : ∃ j, i = off + j := ⟨i - off, by omega⟩
      have start := chunkStart_part wrote.edge part
      rw [reads_spilled reserved wrote spilled (by omega) (by omega) (all j (by omega)),
        harmless (k + extra) inside all none j (by omega) (by omega) less, reads_eq reserved mapped less]
  · obtain ⟨v, value⟩ := Option.isSome_iff_exists.mp (copied i less)
    exact ⟨v, value, (reads_spilled reserved wrote spilled (by omega) (by omega) (copied i less)).trans value⟩

theorem harmless_of_touches (touches : Touches sb s m pagetable src off (some k) s') : Harmless sb s m pagetable src off n := by
  intro f less before none j early behind old
  have size := wrote.size
  have copied := spilled_copied spilled
  have reached : k ≤ f := by
    by_contra passed
    have some := copied f (not_le.mp passed)
    rw [none] at some
    cases some
  have later := chunkStart_ge wrote.edge reached less
  rcases spilled.cause with ⟨_, whole | full⟩ | ⟨_, count, part⟩
  · omega
  · exact absurd full (mapped.at_byte (by omega))
  · obtain ⟨_, all, missing⟩ := part_first copied count part
    have most : f ≤ k + extra := by
      by_contra past
      have some := before _ (not_le.mp past)
      rw [missing] at some
      cases some
    obtain ⟨v, was, now⟩ := (touches k rfl).1 (off + j) old (.inr (by omega))
    rw [was, ← now, reads_spilled reserved wrote spilled (by omega) (by omega) (before j early)]

end

/-- `writei` changes the bytes that it reports and no others if and only if it refuses the call, or the chunk at which the
source ends changes no old byte. -/
theorem writei_touches_reported (sb : Superblock) (s : Volume.State) (inum : ℕ) (m : Mem) (pagetable : Page)
    (src : BitVec 64) (off n : Uint) (reserved : Reserved sb s.disk) (mapped : Mapped sb s.disk s.ip) :
    ∃ r s', writeiUser sb inum m pagetable src off n s = .ok (r, s') ∧
      (Touches sb s m pagetable src.toNat off.toNat r s' ↔
        Rejected s.ip.size off n ∨ Harmless sb s m pagetable src.toNat off.toNat n.toNat) := by
  rw [writeiUser_eq]
  obtain ⟨r, s', ran, outcome, spilled⟩ := ((Volume.writei_spec reserved mapped inum (userSource m pagetable src.toNat) off n).and
    (Volume.writei_spilled reserved mapped inum (userSource m pagetable src.toNat) off n)).exists_ok
  refine ⟨r, s', ran, ?_⟩
  rcases outcome with ⟨rejected, rfl, _⟩ | ⟨accepted, k, rfl, wrote⟩
  · exact ⟨fun _ => .inl rejected, fun _ k absurd => by cases absurd⟩
  · obtain ⟨extra, spilled⟩ := spilled k rfl
    exact ⟨fun touches => .inr (harmless_of_touches reserved wrote spilled mapped touches),
      fun fine => touches_of_harmless reserved wrote spilled mapped (fine.resolve_left accepted)⟩

def oneBlock : Volume.State where
  disk :=
    { used := fun b => b.toNat < 13
      block := fun _ _ => 0
      dinode := fun _ => .fresh .file }
  ip := { Inodes.Dinode.fresh .file with size := 1024, addrs := Function.update (fun _ => 0) 0 10 }

theorem oneBlock_reserved : Reserved ⟨16, 10, 3⟩ oneBlock.disk := by
  intro b before
  have less : b.toNat < 4 := before
  simp only [oneBlock, decide_eq_true_eq]
  omega

theorem oneBlock_mapped : Mapped ⟨16, 10, 3⟩ oneBlock.disk oneBlock.ip :=
  Volume.mapped_single rfl (by decide) (by decide) (by decide) (by decide)

def lettersPage : Mem := (leadingTo 5).write (5 * PGSIZE) 26 fun k => .ofNat (65 + k)

theorem writei_touches_reported_boundary :
    ∃ s', writeiUser ⟨16, 10, 3⟩ 1 lettersPage 7 4095 3 2 oneBlock = .ok (some 2, s') ∧
      (∀ i < 1024, i < 3 ∨ 5 ≤ i → ∃ v, reads ⟨16, 10, 3⟩ oneBlock i = some v ∧ reads ⟨16, 10, 3⟩ s' i = some v) ∧
      byteAfter lettersPage 7 4095 1 = some 65 ∧ reads ⟨16, 10, 3⟩ s' 4 = some 65 := by
  have done : (writeiUser ⟨16, 10, 3⟩ 1 lettersPage 7 4095 3 2 oneBlock).toOption.map Prod.fst = some (some 2) := by decide +kernel
  have all : ∀ k < 2, (byteAfter lettersPage 7 4095 k).isSome := by decide
  have harmless : Harmless ⟨16, 10, 3⟩ oneBlock lettersPage 7 4095 3 2 := by
    intro k less _ none
    have some := all k less
    rw [none] at some
    cases some
  obtain ⟨r, s', ran, right⟩ := writei_touches_reported ⟨16, 10, 3⟩ oneBlock 1 lettersPage 7 4095 3 2 oneBlock_reserved oneBlock_mapped
  rw [ran] at done
  obtain rfl : r = some 2 := Option.some.inj done
  obtain ⟨others, bytes⟩ := right.mpr (.inr harmless) 2 rfl
  obtain ⟨v, byte, now⟩ := bytes 1 (by decide)
  have value : byteAfter lettersPage 7 4095 1 = some 65 := by decide
  obtain rfl : v = 65 := Option.some.inj (byte.symm.trans value)
  exact ⟨s', ran, others, value, now⟩

def firstPage : Mem where
  freelist := []
  mem p i := if p = 7 then ⟨true, .none, 8⟩ else if p = 8 then ⟨true, .none, 9⟩
    else if p = 9 ∧ i = 0 then ⟨true, userPage, 5⟩ else if p = 5 then .ofBits (BitVec.allOnes 64) else memset 0 i
  quota := 0

/-- One of two bytes is copied before the source ends: nothing is reported as written, but a byte of the file is. -/
theorem failed_write_changes_byte :
    ((writeiUser ⟨16, 10, 3⟩ 1 firstPage 7 4095 0 2 oneBlock).toOption.map fun out =>
      (out.1, reads ⟨16, 10, 3⟩ oneBlock 0, reads ⟨16, 10, 3⟩ out.2 0)) = some (some 0, some 0, some 255) ∧
    Reserved ⟨16, 10, 3⟩ oneBlock.disk ∧ Mapped ⟨16, 10, 3⟩ oneBlock.disk oneBlock.ip :=
  ⟨by decide +kernel, oneBlock_reserved, oneBlock_mapped⟩

end OsProjects.Copying
