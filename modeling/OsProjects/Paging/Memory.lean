import OsProjects.Paging.Model

namespace OsProjects.Paging
open Bytes

variable {m m' : Mem} {a n : ℕ} {src : ℕ → UInt8}

/-! ## The bytes of the memory -/

theorem Pte.bits_ofBits (bits : BitVec 64) : (Pte.ofBits bits).bits = bits := by
  refine BitVec.eq_of_toNat_eq ?_
  have bit (i : ℕ) : (bits.getLsbD i).toNat = bits.toNat / 2 ^ i % 2 := by
    rw [BitVec.getLsbD, Nat.toNat_testBit]
  have size := bits.isLt
  simp only [Pte.bits, Pte.ofBits, Perm.flags, bit, BitVec.toNat_ofNat, BitVec.extractLsb'_toNat, Nat.shiftRight_eq_div_pow]
  omega

theorem byte_write (m : Mem) (a n : ℕ) (src : ℕ → UInt8) : (m.write a n src).byte = put m.byte a n src := by
  funext b
  have inside : b % PGSIZE / 8 < 512 := by
    simp only [PGSIZE]
    omega
  obtain ⟨first, start⟩ : ∃ first, b / PGSIZE * PGSIZE + 8 * (b % PGSIZE / 8) = first := ⟨_, rfl⟩
  have place : first + b % 8 = b := by
    simp only [PGSIZE] at *
    omega
  have fits : word (put m.byte a n src) first 8 < 2 ^ 64 := (word_lt _ _ 8).trans_eq (by norm_num)
  rw [Mem.byte, Mem.write]
  simp only [Fin.val_ofNat, Nat.mod_eq_of_lt inside, start]
  split
  · rename_i apart
    rw [put_of_notMem (by omega), Mem.byte]
  · rw [Pte.bits_ofBits, BitVec.toNat_ofNat, Nat.mod_eq_of_lt fits, byte_word (by omega), place]

theorem write_of_apart {p : ℕ} (apart : p * PGSIZE + PGSIZE ≤ a ∨ a + n ≤ p * PGSIZE) : (m.write a n src).mem p = m.mem p := by
  funext i
  have inside := i.isLt
  have outside : p * PGSIZE + 8 * i.val + 8 ≤ a ∨ a + n ≤ p * PGSIZE + 8 * i.val := by
    simp only [PGSIZE] at *
    omega
  exact if_pos outside

theorem write_of_ne {p q : ℕ} (first : p * PGSIZE ≤ a) (last : a + n ≤ p * PGSIZE + PGSIZE) (other : q ≠ p) :
    (m.write a n src).mem q = m.mem q := by
  refine write_of_apart ?_
  simp only [PGSIZE] at *
  omega

theorem page_add (p : ℕ) {k : ℕ} (less : k < PGSIZE) : (p * PGSIZE + k) / PGSIZE = p := by
  simp only [PGSIZE] at *
  omega

theorem byte_memset {p k : ℕ} (zero : m.mem p = memset 0) (less : k < PGSIZE) : m.byte (p * PGSIZE + k) = 0 := by
  have page := page_add p less
  have bits : (memset 0 (Fin.ofNat 512 ((p * PGSIZE + k) % PGSIZE / 8))).bits = 0 := Pte.bits_ofBits _
  rw [Mem.byte, page, zero, bits]
  simp

theorem byte_of_page (same : m'.mem (a / PGSIZE) = m.mem (a / PGSIZE)) : m'.byte a = m.byte a := by
  rw [Mem.byte, same, Mem.byte]

end OsProjects.Paging
