import Mathlib.Data.BitVec
import Mathlib.Tactic.NormNum

namespace OsProjects.Wrapping

/-! Queues in an array, between two counters that wrap around. -/

variable {w N : ℕ} {α : Type*}

/-- The place of a count in an array. -/
def position (N : ℕ) [NeZero N] (count : BitVec w) : Fin N := Fin.ofNat N count.toNat

/-- What is in the array between the counters. -/
def contents [NeZero N] (data : Fin N → α) (tail head : BitVec w) : List α :=
  (List.range (head - tail).toNat).map fun k => data (position N (tail + BitVec.ofNat w k))

variable [NeZero N] {data : Fin N → α} {tail head : BitVec w}

theorem position_add (divides : N ∣ 2 ^ w) (count : BitVec w) (k : ℕ) :
    (position N (count + BitVec.ofNat w k)).val = (count.toNat + k) % N := by
  simp only [position, Fin.val_ofNat, BitVec.toNat_add, BitVec.toNat_ofNat, Nat.add_mod_mod]
  exact Nat.mod_mod_of_dvd _ divides

theorem add_sub_toNat (tail head : BitVec w) : tail + BitVec.ofNat w (head - tail).toNat = head := by
  rw [BitVec.ofNat_toNat, BitVec.setWidth_eq, BitVec.add_comm, BitVec.sub_add_cancel]

@[simp]
theorem contents_self (data : Fin N → α) (tail : BitVec w) : contents data tail tail = [] := by
  simp [contents]

@[simp]
theorem length_contents (data : Fin N → α) (tail head : BitVec w) :
    (contents data tail head).length = (head - tail).toNat := by
  simp [contents]

theorem position_inj (divides : N ∣ 2 ^ w) {i j : ℕ} (small : i < N) (small' : j < N)
    (same : position N (tail + BitVec.ofNat w i) = position N (tail + BitVec.ofNat w j)) : i = j := by
  have equal := congrArg Fin.val same
  rw [position_add divides, position_add divides] at equal
  have cancelled := Nat.ModEq.add_left_cancel' tail.toNat equal
  exact Nat.ModEq.eq_of_lt_of_lt cancelled small small'

theorem toNat_one (wide : 1 < 2 ^ w) : (1 : BitVec w).toNat = 1 :=
  (BitVec.toNat_ofNat 1 w).trans (Nat.mod_eq_of_lt wide)

theorem toNat_succ_sub (room : (head - tail).toNat + 1 < 2 ^ w) : (head + 1 - tail).toNat = (head - tail).toNat + 1 := by
  have shifted : head + 1 - tail = head - tail + 1 := by
    rw [BitVec.sub_eq_add_neg, BitVec.sub_eq_add_neg, BitVec.add_assoc, BitVec.add_comm 1, ← BitVec.add_assoc]
  rw [shifted, BitVec.toNat_add, toNat_one (by omega), Nat.mod_eq_of_lt room]

theorem toNat_sub_succ (some_left : (head - tail).toNat ≠ 0) : (head - (tail + 1)).toNat + 1 = (head - tail).toNat := by
  have shifted : head - (tail + 1) = head - tail - 1 := by
    rw [BitVec.sub_eq_add_neg, BitVec.neg_add, BitVec.sub_eq_add_neg, ← BitVec.add_assoc,
      ← BitVec.sub_eq_add_neg, ← BitVec.sub_eq_add_neg]
  have bound := (head - tail).isLt
  have around : 2 ^ w - 1 + (head - tail).toNat = 2 ^ w + ((head - tail).toNat - 1) := by omega
  rw [shifted, BitVec.toNat_sub, toNat_one (by omega), around, Nat.add_mod_left, Nat.mod_eq_of_lt (by omega)]
  omega

theorem contents_snoc (room : (head - tail).toNat + 1 < 2 ^ w) :
    contents data tail (head + 1) = contents data tail head ++ [data (position N head)] := by
  rw [contents, toNat_succ_sub room, List.range_succ, List.map_append, List.map_singleton, add_sub_toNat, contents]

theorem contents_update (divides : N ∣ 2 ^ w) (room : (head - tail).toNat < N) (x : α) :
    contents (Function.update data (position N head) x) tail head = contents data tail head := by
  refine List.map_congr_left fun k member => Function.update_of_ne (fun same => ?_) _ _
  have before : k < (head - tail).toNat := List.mem_range.mp member
  have last : position N (tail + BitVec.ofNat w (head - tail).toNat) = position N head := by rw [add_sub_toNat]
  have equal := position_inj divides (before.trans room) room (same.trans last.symm)
  omega

theorem contents_put (divides : N ∣ 2 ^ w) (room : (head - tail).toNat < N) (wide : N < 2 ^ w) (x : α) :
    contents (Function.update data (position N head) x) tail (head + 1) = contents data tail head ++ [x] := by
  rw [contents_snoc (by omega), contents_update divides room, Function.update_self]

theorem contents_take (data : Fin N → α) (left : tail ≠ head) :
    contents data tail head = data (position N tail) :: contents data (tail + 1) head := by
  have some_left : (head - tail).toNat ≠ 0 := by
    intro zero
    have equal := add_sub_toNat tail head
    rw [zero] at equal
    exact left (by simpa using equal)
  rw [contents, contents, ← toNat_sub_succ some_left, List.range_succ_eq_map, List.map_cons, List.map_map]
  congr 1
  · simp
  · refine List.map_congr_left fun k _ => ?_
    simp only [Function.comp_apply, Nat.succ_eq_add_one, BitVec.ofNat_add, BitVec.add_comm (BitVec.ofNat w k),
      ← BitVec.add_assoc]
    rfl

end OsProjects.Wrapping
