import OsProjects.Volume.Mapping

namespace OsProjects.Volume
open Bytes Hoare
open Inodes (Dinode)

/-! ## The bytes of an inode -/

def blockAt (i : ℕ) : Fin MAXFILE := ⟨i / BSIZE % MAXFILE, Nat.mod_lt _ (by decide)⟩

def byteAt (disk : Disk) (d : Dinode) (i : ℕ) : UInt8 := disk.block (lookup disk d (some (blockAt i))) (i % BSIZE)

def State.byte (s : State) (i : ℕ) : UInt8 := byteAt s.disk s.ip i

theorem blockAt_val {i : ℕ} (less : i < MAXFILE * BSIZE) : (blockAt i).val = i / BSIZE :=
  Nat.mod_eq_of_lt (Nat.div_lt_of_lt_mul (by rwa [Nat.mul_comm]))

theorem Mapped.at_byte {sb : Superblock} {disk : Disk} {d : Dinode} (mapped : Mapped sb disk d) {i : ℕ} (less : i < d.size.toNat) :
    lookup disk d (some (blockAt i)) ≠ 0 := by
  refine mapped.covered _ ?_
  rw [blockAt_val (Nat.lt_of_lt_of_le less mapped.bounded)]
  exact Nat.lt_of_le_of_lt (Nat.div_mul_le_self i BSIZE) less

section
variable {n tot off i : ℕ}

theorem chunk_pos (off : ℕ) (less : tot < n) : 0 < chunk n tot off := by
  simp only [chunk, BSIZE]
  omega

theorem chunk_le (n tot off : ℕ) : chunk n tot off ≤ n - tot := Nat.min_le_left _ _

theorem chunk_fits (n tot off : ℕ) : off % BSIZE + chunk n tot off ≤ BSIZE := by
  simp only [chunk, BSIZE]
  omega

theorem blockAt_chunk (less : i < chunk n tot off) : blockAt (off + i) = blockAt off := by
  have fits := chunk_fits n tot off
  have same : (off + i) / BSIZE = off / BSIZE := by
    simp only [BSIZE] at fits ⊢
    omega
  simp only [blockAt, same]

theorem mod_chunk (less : i < chunk n tot off) : (off + i) % BSIZE = off % BSIZE + i := by
  have fits := chunk_fits n tot off
  simp only [BSIZE] at fits ⊢
  omega

theorem uadd_eq {a b : ℕ} (small : a + b < 2 ^ 32) : uadd a b = a + b := Nat.mod_eq_of_lt small

end

variable {sb : Superblock} {s s' s'' : State} {E : Panic → Prop} {fuel : ℕ} {src : Source}

/-! ## Reading -/

theorem slice_eq {n tot off : ℕ} :
    slice (s.disk.block (s.look (some (blockAt off)))) (off % BSIZE) (chunk n tot off) =
      (List.range (chunk n tot off)).map fun i => s.byte (off + i) := by
  refine List.map_congr_left fun i less => ?_
  rw [List.mem_range] at less
  rw [State.byte, byteAt, blockAt_chunk less, mod_chunk less]
  rfl

theorem readLoop_spec {copies : ℕ → ℕ → Bool} {n tot off : ℕ} {out : List UInt8} (reserved : Reserved sb s.disk)
    (mapped : Mapped sb s.disk s.ip) (small : n < 2 ^ 32) (enough : n < fuel + tot) (le : tot ≤ n)
    (inside : off + (n - tot) ≤ s.ip.size.toNat) :
    wp E (readLoop sb copies n fuel tot off out) (fun r s' => s' = s ∧ ((∀ tot m, copies tot m = true) → r ≠ none) ∧
      ∀ data, r = some data → data = out ++ (List.range (n - tot)).map fun i => s.byte (off + i)) s := by
  induction fuel generalizing tot off out with
  | zero => omega
  | succ fuel ih =>
    have bounded := mapped.bounded
    simp only [MAXFILE, NDIRECT, NINDIRECT, BSIZE] at bounded
    rw [readLoop, wp_ite]
    refine ⟨fun less => ?_, fun done => ?_⟩
    · have index : (blockAt off).val = off / BSIZE := blockAt_val (by simp only [MAXFILE, NDIRECT, NINDIRECT, BSIZE]; omega)
      have has : s.look (some (blockAt off)) ≠ 0 := mapped.at_byte (by omega)
      rw [← index, wp_bind]
      refine (bmap_spec mapped reserved (blockAt off)).mono fun addr t ⟨_, same, found, _⟩ => ?_
      obtain rfl := same has
      subst found
      rw [if_neg has, wp_ite]
      refine ⟨fun copied => ?_, fun failed => ⟨rfl, fun all => absurd (all _ _) failed, by simp⟩⟩
      have pos := chunk_pos off less
      have fits := chunk_le n tot off
      rw [wp_bind, wp_get, uadd_eq (by omega), uadd_eq (by omega), slice_eq]
      refine (ih (by omega) (by omega) (by omega)).mono fun r u ⟨same, success, exact⟩ => ⟨same, success, fun data got => ?_⟩
      have rest : n - tot = chunk n tot off + (n - (tot + chunk n tot off)) := by omega
      rw [exact data got, rest, List.range_add, List.map_append, List.map_map, List.append_assoc]
      congr 3
      funext i
      simp only [Function.comp, Nat.add_assoc]
    · have zero : n - tot = 0 := by omega
      simp [zero]

def readRange (size off n : Uint) : ℕ :=
  if off > size ∨ off + n < off then 0 else if off + n > size then size.toNat - off.toNat else n.toNat

theorem readRange_eq {size off n : Uint} : readRange size off n = min (off + n).toNat size.toNat - off.toNat := by
  unfold readRange
  split
  · bv_omega
  · split <;> bv_omega

theorem readi_spec (reserved : Reserved sb s.disk) (mapped : Mapped sb s.disk s.ip) (copies : ℕ → ℕ → Bool) (off n : Uint) :
    wp E (readi sb copies off n) (fun r s' => s' = s ∧ ((∀ tot m, copies tot m = true) → r ≠ none) ∧
      ∀ data, r = some data → data = (List.range (readRange s.ip.size off n)).map fun i => s.byte (off.toNat + i)) s := by
  unfold readi readRange
  simp only [wp_bind, wp_get]
  by_cases rejected : off > s.ip.size ∨ off + n < off
  · simp [if_pos rejected]
  · rw [if_neg rejected, if_neg rejected]
    have size := s.ip.size.isLt
    by_cases past : off + n > s.ip.size
    · rw [if_pos past, if_pos past]
      have length : (s.ip.size - off).toNat = s.ip.size.toNat - off.toNat := by
        rw [not_or] at rejected
        bv_omega
      rw [length]
      refine (readLoop_spec reserved mapped (by omega) (by omega) (by omega) ?_).mono fun r t got => by simpa using got
      rw [not_or] at rejected
      bv_omega
    · rw [if_neg past, if_neg past]
      refine (readLoop_spec reserved mapped n.isLt (by omega) (by omega) ?_).mono fun r t got => by simpa using got
      rw [not_or] at rejected
      bv_omega

/-! ## Writing -/

def State.store (s : State) (bn : Fin MAXFILE) (block : Block) : State :=
  { s with disk := { s.disk with block := Function.update s.disk.block (s.look (some bn)) block } }

section
variable {bn : Fin MAXFILE} {block : Block} (mapped : Mapped sb s.disk s.ip) (has : s.look (some bn) ≠ 0)
include mapped has

theorem look_store : (s.store bn block).look = s.look := by
  funext p
  have other : s.ip.addrs indirect ≠ s.look (some bn) := by
    intro same
    cases mapped.distinct (some bn) none has same.symm
  cases p with
  | none => rfl
  | some bn' =>
    by_cases direct : bn'.val < NDIRECT
    · rw [look_direct direct, look_direct direct]
      rfl
    · rw [look_entry direct, look_entry direct]
      simp only [State.store, Function.update_of_ne other]

theorem extends_store : Extends sb s (s.store bn block) := by
  have looks : (s.store bn block).look = s.look := look_store mapped has
  refine ⟨fun p _ => by rw [looks], fun p zero some => ?_, fun p q zero _ some _ => ?_, fun b => ⟨.inl, fun h => h.elim id ?_⟩,
    fun b _ other => Function.update_of_ne (Ne.symm (other _)) _ _⟩
  · rw [looks] at some
    exact absurd zero some
  · rw [looks] at some
    exact absurd zero some
  · rintro ⟨p, zero, same, some⟩
    rw [looks] at same
    exact absurd (same.symm.trans zero) some

theorem mapped_store : Mapped sb (s.store bn block).disk (s.store bn block).ip := by
  have looks : ∀ p, lookup (s.store bn block).disk (s.store bn block).ip p = lookup s.disk s.ip p :=
    congrFun (look_store mapped has)
  refine ⟨?_, ?_, ?_, ?_, mapped.bounded⟩ <;> simp only [looks]
  · exact mapped.used
  · exact mapped.inside
  · exact mapped.distinct
  · exact mapped.covered

theorem byte_store (i : ℕ) : (s.store bn block).byte i = if blockAt i = bn then block (i % BSIZE) else s.byte i := by
  have looks : lookup (s.store bn block).disk (s.store bn block).ip (some (blockAt i)) = s.look (some (blockAt i)) :=
    congrFun (look_store mapped has) _
  rw [State.byte, byteAt, looks]
  by_cases here : blockAt i = bn
  · rw [if_pos here, here]
    exact congrFun (Function.update_self _ _ _) _
  · rw [if_neg here]
    have apart : s.look (some (blockAt i)) ≠ s.look (some bn) := by
      intro same
      exact here (Option.some.inj (mapped.distinct (some bn) (some (blockAt i)) has same.symm)).symm
    exact congrFun (Function.update_of_ne apart _ _) _

end

structure Written (sb : Superblock) (src : Source) (n tot off : ℕ) (s : State) (tot' off' : ℕ) (s' : State) : Prop where
  ext : Extends sb s s'
  fields : s'.ip = { s.ip with addrs := s'.ip.addrs }
  dinode : s'.disk.dinode = s.disk.dinode
  le : tot ≤ tot'
  bound : tot' ≤ n
  moved : off' = off + (tot' - tot)
  edge : tot' = n ∨ tot' = tot ∨ off' % BSIZE = 0
  mapped : ∀ i, off ≤ i → i < off' → s'.look (some (blockAt i)) ≠ 0
  short : (∀ tot m, m ≤ src.copied tot m) → tot' < n → Full sb s'.disk
  bytes : (∀ tot m, m ≤ src.copied tot m) → ∀ i, off ≤ i → i < off' → s'.byte i = src.byte (tot + (i - off))
  others : (∀ tot m, m ≤ src.copied tot m) → ∀ i, i < MAXFILE * BSIZE → i < off ∨ off' ≤ i → s.look (some (blockAt i)) ≠ 0 →
    s'.byte i = s.byte i

theorem Grows.byte {i : ℕ} (grows : Grows sb s s') (has : s.look (some (blockAt i)) ≠ 0) : s'.byte i = s.byte i := by
  have same : lookup s'.disk s'.ip (some (blockAt i)) = s.look (some (blockAt i)) := grows.ext.keeps _ has
  rw [State.byte, byteAt, same, grows.data _ has]
  rfl

section
variable {n tot off : ℕ} {byte : ℕ → UInt8}

theorem byte_storePart {count : ℕ} (mapped : Mapped sb s.disk s.ip) (has : s.look (some (blockAt off)) ≠ 0)
    (inside : off < MAXFILE * BSIZE) {i : ℕ} (bound : i < MAXFILE * BSIZE) (out : i < off ∨ off + count ≤ i) :
    (s.store (blockAt off) (put (s.disk.block (s.look (some (blockAt off)))) (off % BSIZE) count byte)).byte i = s.byte i := by
  rw [byte_store mapped has]
  by_cases here : blockAt i = blockAt off
  · have same : i / BSIZE = off / BSIZE := by rw [← blockAt_val bound, ← blockAt_val inside, here]
    rw [if_pos here, put_of_notMem, ← here]
    · rfl
    · simp only [BSIZE] at same ⊢
      omega
  · rw [if_neg here]

theorem byte_storePart_of_mem {count : ℕ} (mapped : Mapped sb s.disk s.ip) (has : s.look (some (blockAt off)) ≠ 0)
    (most : count ≤ chunk n tot off) {i : ℕ} (first : off ≤ i) (last : i < off + count) :
    (s.store (blockAt off) (put (s.disk.block (s.look (some (blockAt off)))) (off % BSIZE) count fun i => byte (tot + i))).byte i =
      byte (tot + (i - off)) := by
  obtain ⟨k, rfl⟩ := Nat.exists_eq_add_of_le first
  have less : k < chunk n tot off := by omega
  rw [byte_store mapped has, if_pos (blockAt_chunk less), mod_chunk less, put_of_mem (by omega) (by omega)]
  congr 1
  omega

def State.storeChunk (s : State) (n tot off : ℕ) (byte : ℕ → UInt8) : State :=
  s.store (blockAt off) (put (s.disk.block (s.look (some (blockAt off)))) (off % BSIZE) (chunk n tot off) fun i => byte (tot + i))

theorem byte_storeChunk (mapped : Mapped sb s.disk s.ip) (has : s.look (some (blockAt off)) ≠ 0) {i : ℕ} (first : off ≤ i)
    (last : i < off + chunk n tot off) : (s.storeChunk n tot off byte).byte i = byte (tot + (i - off)) :=
  byte_storePart_of_mem mapped has le_rfl first last

theorem byte_storeChunk_of_out (mapped : Mapped sb s.disk s.ip) (has : s.look (some (blockAt off)) ≠ 0)
    (inside : off < MAXFILE * BSIZE) {i : ℕ} (bound : i < MAXFILE * BSIZE) (out : i < off ∨ off + chunk n tot off ≤ i) :
    (s.storeChunk n tot off byte).byte i = s.byte i := byte_storePart mapped has inside bound out

end

theorem Written.stop {n tot off : ℕ} (grows : Grows sb s s') (le : tot ≤ n) (short : tot < n → Full sb s'.disk) :
    Written sb src n tot off s tot off s' :=
  ⟨grows.ext, grows.fields, grows.dinode, le_rfl, le, by omega, .inr (.inl rfl), by omega, fun _ => short, by omega, fun _ i _ _ has => grows.byte has⟩

theorem Written.step {n tot off tot' off' : ℕ} {t : State} (grows : Grows sb s t) (mapped : Mapped sb t.disk t.ip)
    (has : t.look (some (blockAt off)) ≠ 0) (inside : off + (n - tot) ≤ MAXFILE * BSIZE) (less : tot < n)
    (rest : Written sb src n (tot + chunk n tot off) (off + chunk n tot off) (t.storeChunk n tot off src.byte) tot' off' s') :
    Written sb src n tot off s tot' off' s' := by
  have fits := chunk_le n tot off
  have le := rest.le
  have moved := rest.moved
  have looks : (t.storeChunk n tot off src.byte).look = t.look := look_store mapped has
  have old : ∀ i, s.look (some (blockAt i)) ≠ 0 → t.look (some (blockAt i)) ≠ 0 := fun i has => by
    rwa [grows.ext.keeps _ has]
  have own : ∀ i, off ≤ i → i < off + chunk n tot off → (t.storeChunk n tot off src.byte).look (some (blockAt i)) ≠ 0 := by
    intro i first last
    obtain ⟨k, rfl⟩ := Nat.exists_eq_add_of_le first
    have near : k < chunk n tot off := by omega
    rwa [looks, blockAt_chunk near]
  refine ⟨grows.ext.trans ((extends_store mapped has).trans rest.ext), ?_, rest.dinode.trans grows.dinode, by omega, rest.bound,
    by omega, ?_, fun i first last => ?_, rest.short, fun whole i first last => ?_, fun whole i bound out some => ?_⟩
  · rw [rest.fields, State.storeChunk, State.store, grows.fields]
  · rcases rest.edge with all | stopped | edge
    · exact .inl all
    · by_cases all : chunk n tot off = n - tot
      · exact .inl (by omega)
      · refine .inr (.inr ?_)
        have rest : chunk n tot off = BSIZE - off % BSIZE := by
          simp only [chunk] at all ⊢
          omega
        simp only [BSIZE] at rest ⊢
        omega
    · exact .inr (.inr edge)
  · by_cases near : i < off + chunk n tot off
    · rw [rest.ext.keeps _ (own i first near)]
      exact own i first near
    · exact rest.mapped i (by omega) last
  · by_cases near : i < off + chunk n tot off
    · rw [rest.others whole i (by omega) (.inl near) (own i first near), byte_storeChunk mapped has first near]
    · rw [rest.bytes whole i (by omega) last]
      congr 1
      omega
  · have there := old i some
    rw [rest.others whole i bound (by omega) (by rwa [looks]), byte_storeChunk_of_out mapped has (by omega) bound (by omega),
      grows.byte some]

theorem writeLoop_spec {n tot off : ℕ} (reserved : Reserved sb s.disk) (mapped : Mapped sb s.disk s.ip)
    (small : n < 2 ^ 32) (enough : n < fuel + tot) (le : tot ≤ n) (inside : off + (n - tot) ≤ MAXFILE * BSIZE) :
    wp E (writeLoop sb src n fuel tot off) (fun r s' => Written sb src n tot off s r.1 r.2 s') s := by
  induction fuel generalizing tot off s with
  | zero => omega
  | succ fuel ih =>
    rw [writeLoop, wp_ite]
    refine ⟨fun less => ?_, fun done => .stop .refl le fun less => absurd less done⟩
    have index : (blockAt off).val = off / BSIZE := blockAt_val (by omega)
    rw [← index, wp_bind]
    refine (bmap_spec mapped reserved (blockAt off)).mono fun addr t ⟨grows, _, found, full⟩ => ?_
    subst found
    rw [wp_ite]
    refine ⟨fun zero => .stop grows le fun _ => full zero, fun has => ?_⟩
    have pos := chunk_pos off less
    have fits := chunk_le n tot off
    have mapped' := grows.mapped reserved mapped
    simp only [wp_bind, wp_get]
    let got := min (chunk n tot off) (src.copied tot (chunk n tot off))
    let stored := t.store (blockAt off)
      (put (t.disk.block (t.look (some (blockAt off)))) (off % BSIZE) got fun i => src.byte (tot + i))
    change wp E (if got < chunk n tot off then pure (tot, off)
      else writeLoop sb src n fuel (uadd tot (chunk n tot off)) (uadd off (chunk n tot off))) _ stored
    rw [wp_ite]
    refine ⟨fun failed => ?_, fun copied => ?_⟩
    · have part : ¬ ∀ tot m, m ≤ src.copied tot m := fun whole => by
        have all := whole tot (chunk n tot off)
        omega
      exact ⟨grows.ext.trans (extends_store mapped' has), grows.fields, grows.dinode, le_rfl, le, by omega, .inr (.inl rfl), by omega,
        fun whole => absurd whole part, fun whole => absurd whole part, fun whole => absurd whole part⟩
    · have all : got = chunk n tot off := by omega
      have same : stored = t.storeChunk n tot off src.byte := by simp only [stored, all, State.storeChunk]
      have bound : MAXFILE * BSIZE < 2 ^ 32 := by decide
      rw [same, uadd_eq (by omega), uadd_eq (by omega)]
      refine (ih ((extends_store mapped' has).reserved (grows.ext.reserved reserved)) (mapped_store mapped' has) (by omega)
        (by omega) (by omega)).mono fun r u rest => ?_
      exact .step grows mapped' has inside less rest

def Rejected (size off n : Uint) : Prop := off > size ∨ off + n < off ∨ (off + n).toNat > MAXFILE * BSIZE

structure Wrote (sb : Superblock) (inum : ℕ) (src : Source) (off n : ℕ) (s : State) (k : ℕ) (s' : State) : Prop where
  ext : Extends sb s s'
  mapped : Mapped sb s'.disk s'.ip
  fields : s'.ip = { s.ip with size := s'.ip.size, addrs := s'.ip.addrs }
  dinode : s'.disk.dinode = Function.update s.disk.dinode inum s'.ip
  bound : k ≤ n
  edge : k = n ∨ k = 0 ∨ (off + k) % BSIZE = 0
  size : s'.ip.size.toNat = max s.ip.size.toNat (off + k)
  short : (∀ tot m, m ≤ src.copied tot m) → k < n → Full sb s'.disk
  bytes : (∀ tot m, m ≤ src.copied tot m) → ∀ i, off ≤ i → i < off + k → s'.byte i = src.byte (i - off)
  others : (∀ tot m, m ≤ src.copied tot m) → ∀ i, i < s.ip.size.toNat → i < off ∨ off + k ≤ i → s'.byte i = s.byte i

theorem Written.finish {inum : ℕ} {n off : Uint} {tot' off' : ℕ} {t : State} (reserved : Reserved sb s.disk)
    (mapped : Mapped sb s.disk s.ip) (inside : off.toNat + n.toNat ≤ MAXFILE * BSIZE) (before : off.toNat ≤ s.ip.size.toNat)
    (written : Written sb src n.toNat 0 off.toNat s tot' off' t)
    (size : s'.ip.size = if off' > s.ip.size.toNat then .ofNat 32 off' else s.ip.size)
    (disk : s'.disk = { t.disk with dinode := Function.update t.disk.dinode inum s'.ip })
    (ip : s'.ip = { t.ip with size := s'.ip.size }) : Wrote sb inum src off.toNat n.toNat s tot' s' := by
  have addrs : s'.ip.addrs = t.ip.addrs := by rw [ip]
  have block : s'.disk.block = t.disk.block := by rw [disk]
  have used : s'.disk.used = t.disk.used := by rw [disk]
  have looks : s'.look = t.look := lookup_congr addrs fun _ => by rw [block]
  have bytes : s'.byte = t.byte := by
    funext i
    have here : lookup s'.disk s'.ip (some (blockAt i)) = lookup t.disk t.ip (some (blockAt i)) := congrFun looks _
    simp only [State.byte, byteAt, here, block]
  have ext := written.ext.congr looks used block
  have moved := written.moved
  have bound := written.bound
  have limit : MAXFILE * BSIZE < 2 ^ 32 := by decide
  have length : s'.ip.size.toNat = max s.ip.size.toNat (off.toNat + tot') := by
    rw [size]
    split
    · rw [BitVec.toNat_ofNat, Nat.mod_eq_of_lt (by omega)]
      omega
    · omega
  refine ⟨ext, ext.mapped reserved mapped (fun bn reached => ?_) ?_, ?_, ?_, bound, ?_, length, fun whole less => ?_,
    fun whole i first last => ?_, fun whole i less out => ?_⟩
  · -- A block below the old size was there before, one above it has just been written.
    by_cases old : bn.val * BSIZE < s.ip.size.toNat
    · have has := mapped.covered bn old
      rw [ext.keeps _ has]
      exact has
    · have here : blockAt (bn.val * BSIZE) = bn := by
        have below : bn.val * BSIZE < MAXFILE * BSIZE := (Nat.mul_lt_mul_right (by decide)).mpr bn.isLt
        refine Fin.ext ?_
        rw [blockAt_val below, Nat.mul_div_cancel _ (by decide)]
      have last : bn.val * BSIZE < off' := by
        rw [length] at reached
        have new := (lt_max_iff.mp reached).resolve_left old
        rwa [moved, Nat.sub_zero]
      have has := written.mapped (bn.val * BSIZE) (before.trans (not_lt.mp old)) last
      rwa [here, ← looks] at has
  · have old := mapped.bounded
    rw [length]
    exact max_le old (by omega)
  · rw [ip, written.fields]
  · rw [disk]
    simp only [written.dinode]
  · have edge := written.edge
    rwa [moved, Nat.sub_zero] at edge
  · have full := written.short whole less
    simpa only [Full, used] using full
  · rw [bytes, written.bytes whole i first (by omega), Nat.zero_add]
  · have inside : i < MAXFILE * BSIZE := Nat.lt_of_lt_of_le less mapped.bounded
    rw [bytes, written.others whole i inside (by omega) (mapped.at_byte less)]

theorem writei_spec (reserved : Reserved sb s.disk) (mapped : Mapped sb s.disk s.ip) (inum : ℕ) (src : Source) (off n : Uint) :
    wp E (writei sb inum src off n) (fun r s' => Rejected s.ip.size off n ∧ r = none ∧ s' = s ∨
      ¬ Rejected s.ip.size off n ∧ ∃ k, r = some k ∧ Wrote sb inum src off.toNat n.toNat s k s') s := by
  unfold writei
  simp only [wp_bind, wp_get]
  by_cases out : off > s.ip.size ∨ off + n < off
  · rw [if_pos out]
    exact .inl ⟨by rw [Rejected, ← or_assoc]; exact .inl out, rfl, rfl⟩
  · by_cases large : (off + n).toNat > MAXFILE * BSIZE
    · rw [if_neg out, if_pos large]
      exact .inl ⟨.inr (.inr large), rfl, rfl⟩
    · rw [if_neg out, if_neg large, wp_bind]
      rw [not_or] at out
      have total : (off + n).toNat = off.toNat + n.toNat := by bv_omega
      have before : off.toNat ≤ s.ip.size.toNat := by bv_omega
      have accepted : ¬ Rejected s.ip.size off n := by
        rintro (past | wraps | past)
        · exact out.1 past
        · exact out.2 wraps
        · exact large past
      have inside : off.toNat + n.toNat ≤ MAXFILE * BSIZE := by omega
      refine (writeLoop_spec reserved mapped n.isLt (by omega) (by omega) (by omega)).mono fun r t written => ?_
      exact .inr ⟨accepted, r.1, rfl, written.finish reserved mapped inside before rfl rfl rfl⟩

theorem writeLoop_whole {n tot off : ℕ} (reserved : Reserved sb s.disk) (mapped : Mapped sb s.disk s.ip)
    (small : n < 2 ^ 32) (enough : n < fuel + tot) (le : tot ≤ n) (inside : off + (n - tot) ≤ MAXFILE * BSIZE)
    (whole : ∀ tot m, m ≤ src.copied tot m)
    (there : ∀ i, off ≤ i → i < off + (n - tot) → s.look (some (blockAt i)) ≠ 0) :
    wp E (writeLoop sb src n fuel tot off) (fun r _ => r.1 = n) s := by
  induction fuel generalizing tot off s with
  | zero => omega
  | succ fuel ih =>
    rw [writeLoop, wp_ite]
    refine ⟨fun less => ?_, fun done => le_antisymm le (not_lt.mp done)⟩
    have index : (blockAt off).val = off / BSIZE := blockAt_val (by omega)
    have has : s.look (some (blockAt off)) ≠ 0 := there off le_rfl (by omega)
    rw [← index, wp_bind]
    refine (bmap_spec mapped reserved (blockAt off)).mono fun addr t ⟨_, same, found, _⟩ => ?_
    obtain rfl := same has
    subst found
    have pos := chunk_pos off less
    have fits := chunk_le n tot off
    have bound : MAXFILE * BSIZE < 2 ^ 32 := by decide
    have all : min (chunk n tot off) (src.copied tot (chunk n tot off)) = chunk n tot off := min_eq_left (whole _ _)
    simp only [if_neg has, wp_bind, wp_get, all, lt_irrefl, if_false]
    rw [uadd_eq (by omega), uadd_eq (by omega)]
    refine ih (s := t.storeChunk n tot off src.byte) ((extends_store mapped has).reserved reserved) (mapped_store mapped has)
      (by omega) (by omega) (by omega) fun i first last => ?_
    rw [State.storeChunk, look_store mapped has]
    exact there i (by omega) (by omega)

theorem writei_whole (reserved : Reserved sb s.disk) (mapped : Mapped sb s.disk s.ip) (inum : ℕ) {off n : Uint}
    (whole : ∀ tot m, m ≤ src.copied tot m) (accepted : ¬ Rejected s.ip.size off n)
    (there : ∀ i, off.toNat ≤ i → i < off.toNat + n.toNat → s.look (some (blockAt i)) ≠ 0) :
    wp E (writei sb inum src off n) (fun r _ => r = some n.toNat) s := by
  obtain ⟨before, total, bound⟩ : ¬ off > s.ip.size ∧ ¬ off + n < off ∧ ¬ (off + n).toNat > MAXFILE * BSIZE := by
    simpa only [Rejected, not_or] using accepted
  have sum : (off + n).toNat = off.toNat + n.toNat := by bv_omega
  unfold writei
  simp only [wp_bind, wp_get]
  rw [if_neg (not_or.mpr ⟨before, total⟩), if_neg bound]
  simp only [wp_bind]
  refine (writeLoop_whole reserved mapped n.isLt (by omega) (by omega) (by omega) whole there).mono fun r t all => ?_
  exact congrArg some all

end OsProjects.Volume
