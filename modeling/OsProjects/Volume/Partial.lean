import OsProjects.Volume.Content

namespace OsProjects.Volume
open Bytes Hoare

/-! ## Writes from memory that may fail -/

variable {sb : Superblock} {s s' t : State} {E : Panic → Prop} {src : Source} {n tot off tot' off' : ℕ}

/-- Why the loop of `writei` stops, with the number of bytes that it copies without counting them: all is written, there
is no block, or a copy stops part-way. -/
def Stops (src : Source) (n : ℕ) (s : State) (tot' off' extra : ℕ) : Prop :=
  extra = 0 ∧ (tot' = n ∨ s.look (some (blockAt off')) = 0) ∨
    tot' < n ∧ extra = src.copied tot' (chunk n tot' off') ∧ extra < chunk n tot' off'

/-- What the loop does to the bytes of the file: those it counts are copies made in whole chunks, and if it stops in a
chunk, the bytes of the chunk that came before the failure are copied too. -/
structure Spilled (src : Source) (n tot off : ℕ) (s : State) (tot' off' extra : ℕ) (s' : State) : Prop where
  le : tot ≤ tot'
  moved : off' = off + (tot' - tot)
  whole : ∀ j, tot ≤ j → j < tot' → ∃ first len, first ≤ j ∧ j < first + len ∧ len ≤ src.copied first len
  cause : Stops src n s tot' off' extra
  bytes : ∀ i, off ≤ i → i < off' + extra → s'.byte i = src.byte (tot + (i - off))
  others : ∀ i, i < MAXFILE * BSIZE → i < off ∨ off' + extra ≤ i → s.look (some (blockAt i)) ≠ 0 → s'.byte i = s.byte i

theorem Spilled.stop (grows : Grows sb s s') (ends : tot = n ∨ s.look (some (blockAt off)) = 0) :
    Spilled src n tot off s tot off 0 s' :=
  ⟨le_rfl, by omega, by omega, .inl ⟨rfl, ends⟩, by omega, fun _ _ _ has => grows.byte has⟩

theorem Spilled.part (grows : Grows sb s t) (mapped : Mapped sb t.disk t.ip) (has : t.look (some (blockAt off)) ≠ 0)
    (inside : off + (n - tot) ≤ MAXFILE * BSIZE) (less : tot < n) (fails : src.copied tot (chunk n tot off) < chunk n tot off) :
    Spilled src n tot off s tot off (src.copied tot (chunk n tot off)) (t.store (blockAt off)
      (put (t.disk.block (t.look (some (blockAt off)))) (off % BSIZE) (src.copied tot (chunk n tot off)) fun i => src.byte (tot + i))) := by
  refine ⟨le_rfl, by omega, by omega, .inr ⟨less, rfl, fails⟩, fun i first last => ?_, fun i bound out some => ?_⟩
  · exact byte_storePart_of_mem mapped has fails.le first last
  · rw [← grows.byte some]
    exact byte_storePart mapped has (by omega) bound out

theorem Spilled.step {extra : ℕ} (grows : Grows sb s t) (mapped : Mapped sb t.disk t.ip) (has : t.look (some (blockAt off)) ≠ 0)
    (inside : off + (n - tot) ≤ MAXFILE * BSIZE) (less : tot < n)
    (copied : chunk n tot off ≤ src.copied tot (chunk n tot off))
    (rest : Spilled src n (tot + chunk n tot off) (off + chunk n tot off) (t.storeChunk n tot off src.byte) tot' off' extra s') :
    Spilled src n tot off s tot' off' extra s' := by
  have fits := chunk_le n tot off
  have le := rest.le
  have moved := rest.moved
  have looks : (t.storeChunk n tot off src.byte).look = t.look := look_store mapped has
  refine ⟨by omega, by omega, fun j first last => ?_, ?_, fun i first last => ?_, fun i bound out some => ?_⟩
  · by_cases near : j < tot + chunk n tot off
    · exact ⟨tot, chunk n tot off, first, near, copied⟩
    · exact rest.whole j (by omega) last
  · rcases rest.cause with ⟨zero, ends⟩ | part
    · refine .inl ⟨zero, ends.imp_right fun none => ?_⟩
      by_contra some
      rw [looks, grows.ext.keeps _ some] at none
      exact some none
    · exact .inr part
  · by_cases near : i < off + chunk n tot off
    · obtain ⟨k, rfl⟩ := Nat.exists_eq_add_of_le first
      have there : t.look (Option.some (blockAt (off + k))) ≠ 0 := by rwa [blockAt_chunk (show k < chunk n tot off by omega)]
      rw [rest.others (off + k) (by omega) (.inl near) (by rwa [looks]), byte_storeChunk mapped has first near]
    · rw [rest.bytes i (by omega) last]
      congr 1
      omega
  · have there : t.look (Option.some (blockAt i)) ≠ 0 := by rwa [grows.ext.keeps _ some]
    rw [rest.others i bound (by omega) (by rwa [looks]), byte_storeChunk_of_out mapped has (by omega) bound (by omega), grows.byte some]

theorem writeLoop_spilled {fuel : ℕ} (reserved : Reserved sb s.disk) (mapped : Mapped sb s.disk s.ip) (small : n < 2 ^ 32)
    (enough : n < fuel + tot) (le : tot ≤ n) (inside : off + (n - tot) ≤ MAXFILE * BSIZE) :
    wp E (writeLoop sb src n fuel tot off) (fun r s' => ∃ extra, Spilled src n tot off s r.1 r.2 extra s') s := by
  induction fuel generalizing tot off s with
  | zero => omega
  | succ fuel ih =>
    rw [writeLoop, wp_ite]
    have grows : Grows sb s s := .refl
    refine ⟨fun less => ?_, fun done => ⟨0, .stop grows (.inl (by omega))⟩⟩
    have index : (blockAt off).val = off / BSIZE := blockAt_val (by omega)
    rw [← index, wp_bind]
    refine (bmap_spec mapped reserved (blockAt off)).mono ?_
    rintro addr t ⟨grows, _, found, _⟩
    subst found
    rw [wp_ite]
    refine ⟨fun zero => ⟨0, .stop grows (.inr ?_)⟩, fun has => ?_⟩
    · by_contra some
      rw [grows.ext.keeps _ some] at zero
      exact some zero
    have pos := chunk_pos off less
    have fits := chunk_le n tot off
    have mapped' := grows.mapped reserved mapped
    have limit : MAXFILE * BSIZE < 2 ^ 32 := by decide
    simp only [wp_bind, wp_get]
    by_cases whole : chunk n tot off ≤ src.copied tot (chunk n tot off)
    · have all : min (chunk n tot off) (src.copied tot (chunk n tot off)) = chunk n tot off := min_eq_left whole
      simp only [all, lt_irrefl, if_false]
      rw [uadd_eq (by omega), uadd_eq (by omega)]
      refine (ih (s := t.storeChunk n tot off src.byte) ((extends_store mapped' has).reserved (grows.ext.reserved reserved))
        (mapped_store mapped' has) (by omega) (by omega) (by omega)).mono ?_
      rintro r u ⟨extra, rest⟩
      exact ⟨extra, .step grows mapped' has inside less whole rest⟩
    · have part : min (chunk n tot off) (src.copied tot (chunk n tot off)) = src.copied tot (chunk n tot off) :=
        min_eq_right (by omega)
      simp only [part, if_pos (not_le.mp whole)]
      exact ⟨_, .part grows mapped' has inside less (not_le.mp whole)⟩

theorem byte_congr (addrs : s'.ip.addrs = s.ip.addrs) (block : s'.disk.block = s.disk.block) : s'.byte = s.byte := by
  funext i
  have looks : lookup s'.disk s'.ip = lookup s.disk s.ip := lookup_congr addrs fun _ => by rw [block]
  rw [State.byte, byteAt, looks, block]
  rfl

theorem writei_spilled (reserved : Reserved sb s.disk) (mapped : Mapped sb s.disk s.ip) (inum : ℕ) (src : Source) (off n : Uint) :
    wp E (writei sb inum src off n)
      (fun r s' => ∀ k, r = some k → ∃ extra, Spilled src n.toNat 0 off.toNat s k (off.toNat + k) extra s') s := by
  unfold writei
  simp only [wp_bind, wp_get, wp_ite]
  refine ⟨fun _ => by simp, fun accepted => ⟨fun _ => by simp, fun bounded => ?_⟩⟩
  rw [not_or] at accepted
  have total : (off + n).toNat = off.toNat + n.toNat := by bv_omega
  refine (writeLoop_spilled reserved mapped n.isLt (by omega) (by omega) (by omega)).mono ?_
  rintro r t ⟨extra, spilled⟩
  rintro k ⟨⟩
  have moved := spilled.moved
  rw [Nat.sub_zero] at moved
  rw [← moved]
  -- the size of the file does not matter to its bytes
  refine ⟨extra, spilled.le, spilled.moved, spilled.whole, spilled.cause, ?_, ?_⟩
  · rw [byte_congr rfl rfl]
    exact spilled.bytes
  · rw [byte_congr rfl rfl]
    exact spilled.others

end OsProjects.Volume
