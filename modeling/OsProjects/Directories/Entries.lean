import Mathlib.Data.List.GetD
import OsProjects.Directories.Blocks

namespace OsProjects.Directories
open Bytes Hoare Volume
open Inodes (Dinode Entry)

/-! ## The entries of a directory -/

def slot (disk : Disk) (d : Dinode) (j : ℕ) : Dirent :=
  .ofBytes ((List.range ENTRY).map fun i => byteAt disk d (ENTRY * j + i))

def dirents (disk : Disk) (d : Dinode) : List Dirent := (List.range (d.size.toNat / ENTRY)).map (slot disk d)

variable {sb : Superblock} {disk disk' : Disk} {d d' : Dinode} {s : Fs} {dp : Entry} {E : Panic → Prop}

theorem slot_congr {j : ℕ} (bytes : ∀ i, ENTRY * j ≤ i → i < ENTRY * j + ENTRY → byteAt disk' d' i = byteAt disk d i) :
    slot disk' d' j = slot disk d j := by
  refine congrArg Dirent.ofBytes (List.map_congr_left fun i less => ?_)
  rw [List.mem_range] at less
  exact bytes _ (by omega) (by omega)

theorem dirents_congr (size : d'.size = d.size) (bytes : ∀ i, i < d.size.toNat → byteAt disk' d' i = byteAt disk d i) :
    dirents disk' d' = dirents disk d := by
  unfold dirents
  rw [size]
  refine List.map_congr_left fun j less => slot_congr fun i _ last => bytes i ?_
  rw [List.mem_range] at less
  simp only [ENTRY] at less last ⊢
  omega

theorem ofBytes_byte {de : Dirent} (length : de.name.length = DIRSIZ) : .ofBytes ((List.range ENTRY).map de.byte) = de := by
  obtain ⟨inum, name⟩ := de
  have bytes : ∀ i, i < 2 → ((List.range ENTRY).map (Dirent.byte ⟨inum, name⟩)).getD i 0 =
      putWord (fun _ => 0) 0 2 inum.toNat i := by
    intro i less
    rw [putWord, put_of_mem (Nat.zero_le _) (by omega), List.getD_eq_getElem _ _ (by simp [ENTRY]; omega)]
    simp [Dirent.byte, less]
  have number : word (fun i => ((List.range ENTRY).map (Dirent.byte ⟨inum, name⟩)).getD i 0) 0 2 = inum.toNat := by
    rw [word_congr (g := putWord (fun _ => 0) 0 2 inum.toNat) fun i _ last => bytes i (by omega), word_putWord inum.isLt]
  have rest : ((List.range ENTRY).map (Dirent.byte ⟨inum, name⟩)).drop 2 = name := by
    refine List.ext_getElem ?_ fun i first last => ?_
    · simpa [ENTRY] using length.symm
    · rw [List.getElem_drop, List.getElem_map, List.getElem_range, Dirent.byte, if_neg (by omega), Nat.add_sub_cancel_left]
      exact List.getD_eq_getElem _ _ last
  rw [Dirent.ofBytes, number, rest]
  simp

theorem wp_onInode {α : Type} {ip : Entry} {x : VolM α} {Q : α → Fs → Prop} :
    wp E (onInode ip x) Q s ↔ wp E x (fun a t => Q a (s.close ip t)) (s.open ip) := by
  simp only [wp, onInode]
  cases x (s.open ip) <;> rfl

theorem close_open (s : Fs) (ip : Entry) : s.close ip (s.open ip) = s := by
  simp [Fs.close, Fs.open, Fs.set]

section
variable (reserved : Reserved sb s.disk) (mapped : Mapped sb s.disk (s.table dp).d)
include reserved mapped

theorem readDirent_spec {j : ℕ} {panic : Panic} (below : ENTRY * j < (s.table dp).d.size.toNat)
    (allowed : ¬ ENTRY * j + ENTRY ≤ (s.table dp).d.size.toNat → E panic) :
    wp E (readDirent sb dp (ENTRY * j) panic) (fun de s' => s' = s ∧ de = slot s.disk (s.table dp).d j ∧
      ENTRY * j + ENTRY ≤ (s.table dp).d.size.toNat) s := by
  simp only [readDirent, wp_bind, wp_onInode]
  refine (readi_spec (s := s.open dp) reserved mapped _ _ _).mono ?_
  rintro r t ⟨same, success, data⟩
  subst same
  rw [close_open]
  cases r with
  | none => exact absurd rfl (success fun _ _ => rfl)
  | some bytes =>
    have first : (BitVec.ofNat 32 (ENTRY * j)).toNat = ENTRY * j := by
      rw [BitVec.toNat_ofNat, Nat.mod_eq_of_lt (by omega)]
    have exact := data bytes rfl
    rw [first, readRange_eq] at exact
    simp only [wp_ite]
    have count : bytes.length = min (BitVec.ofNat 32 (ENTRY * j) + BitVec.ofNat 32 ENTRY).toNat (s.table dp).d.size.toNat - ENTRY * j := by
      rw [exact, List.length_map, List.length_range, first]
      rfl
    refine ⟨fun whole => ?_, fun part => allowed fun fits => part ?_⟩
    · rw [whole] at count
      have fits : ENTRY * j + ENTRY ≤ (s.table dp).d.size.toNat := by
        simp only [ENTRY] at count ⊢
        omega
      refine ⟨rfl, ?_, fits⟩
      rw [exact, first]
      change Dirent.ofBytes ((List.range (min _ (s.table dp).d.size.toNat - ENTRY * j)).map _) = _
      rw [← count]
      rfl
    · rw [count, BitVec.toNat_add, first, BitVec.toNat_ofNat]
      simp only [ENTRY] at fits ⊢
      omega

theorem scanDir_spec {panic : Panic} (p : Dirent → Bool) (l : List ℕ) (sorted : l.Pairwise (· < ·))
    (below : ∀ j ∈ l, ENTRY * j < (s.table dp).d.size.toNat)
    (allowed : ∀ j ∈ l, ¬ ENTRY * j + ENTRY ≤ (s.table dp).d.size.toNat → E panic) :
    wp E (scanDir sb dp panic p (l.map (ENTRY * ·))) (fun r s' => s' = s ∧
      (r = none ∧ (∀ j ∈ l, ENTRY * j + ENTRY ≤ (s.table dp).d.size.toNat ∧ p (slot s.disk (s.table dp).d j) = false) ∨
        ∃ j ∈ l, r = some (ENTRY * j, slot s.disk (s.table dp).d j) ∧ ENTRY * j + ENTRY ≤ (s.table dp).d.size.toNat ∧
          p (slot s.disk (s.table dp).d j) = true ∧ ∀ j' ∈ l, j' < j → p (slot s.disk (s.table dp).d j') = false)) s := by
  induction l with
  | nil => exact ⟨rfl, .inl ⟨rfl, by simp⟩⟩
  | cons j rest ih =>
    obtain ⟨least, sorted⟩ := List.pairwise_cons.mp sorted
    rw [List.map_cons, scanDir, wp_bind]
    refine (readDirent_spec reserved mapped (below j (by simp)) (allowed j (by simp))).mono fun de t ⟨same, here, fits⟩ => ?_
    subst same here
    rw [wp_ite]
    refine ⟨fun found => ⟨rfl, .inr ⟨j, by simp, rfl, fits, found, fun j' mem less => ?_⟩⟩, fun other => ?_⟩
    · rcases List.mem_cons.mp mem with rfl | mem
      · omega
      · exact absurd (least j' mem) (by omega)
    refine (ih sorted (fun j' mem => below j' (by simp [mem])) fun j' mem => allowed j' (by simp [mem])).mono fun r u ⟨same, got⟩ => ⟨same, ?_⟩
    rcases got with ⟨none, all⟩ | ⟨j', mem, found, here, has, before⟩
    · refine .inl ⟨none, fun j' mem => ?_⟩
      rcases List.mem_cons.mp mem with rfl | mem
      · exact ⟨fits, by simpa using other⟩
      · exact all j' mem
    · refine .inr ⟨j', by simp [mem], found, here, has, fun k mem less => ?_⟩
      rcases List.mem_cons.mp mem with rfl | mem
      · simpa using other
      · exact before k mem less

end

theorem mem_offsets {first j : ℕ} {size : Uint} (mem : j ∈ List.range' first (slots size - first)) :
    first ≤ j ∧ ENTRY * j < size.toNat := by
  have range := List.mem_range'_1.mp mem
  simp only [slots, ENTRY] at range ⊢
  omega

/-! ## Writing an entry -/

def setSlot (l : List Dirent) (j : ℕ) (de : Dirent) : List Dirent := if j < l.length then l.set j de else l ++ [de]

section
variable {t t' : Volume.State} {inum j k : ℕ} {de : Dirent} (wrote : Wrote sb inum (.whole de.byte) (ENTRY * j) ENTRY t k t')
include wrote

theorem write_whole : k = ENTRY ∨ k = 0 := by
  have bound := wrote.bound
  rcases wrote.edge with whole | none | edge
  · exact .inl whole
  · exact .inr none
  · simp only [BSIZE, ENTRY] at edge bound ⊢
    omega

theorem dirents_write (length : de.name.length = DIRSIZ) (inside : ENTRY * j ≤ t.ip.size.toNat) (whole : k = ENTRY) :
    dirents t'.disk t'.ip = setSlot (dirents t.disk t.ip) j de := by
  have size := wrote.size
  have all : ∀ tot m : ℕ, m ≤ (Source.whole de.byte).copied tot m := fun _ _ => le_rfl
  have here : slot t'.disk t'.ip j = de := by
    rw [← ofBytes_byte length]
    refine congrArg Dirent.ofBytes (List.map_congr_left fun i less => ?_)
    rw [List.mem_range] at less
    have written := wrote.bytes all (ENTRY * j + i) (by omega) (by omega)
    rwa [Nat.add_sub_cancel_left] at written
  have others : ∀ i, i < t.ip.size.toNat / ENTRY → i ≠ j → slot t'.disk t'.ip i = slot t.disk t.ip i := by
    intro i less other
    refine slot_congr fun b first last => wrote.others all b ?_ ?_
    · simp only [ENTRY] at *
      omega
    · simp only [ENTRY] at *
      omega
  have length : (dirents t.disk t.ip).length = t.ip.size.toNat / ENTRY := by simp [dirents]
  unfold setSlot
  rw [length]
  split
  · rename_i inner
    have same : t'.ip.size.toNat / ENTRY = t.ip.size.toNat / ENTRY := by
      simp only [ENTRY] at *
      omega
    refine List.ext_getElem (by simp [dirents, same]) fun i first last => ?_
    rw [List.getElem_set]
    split
    · rename_i equal
      simp [dirents, ← equal, here]
    · rename_i other
      simp only [dirents, List.getElem_map, List.getElem_range]
      exact others i (by simpa [dirents, same] using first) (Ne.symm other)
  · rename_i outer
    have last : j = t.ip.size.toNat / ENTRY := by
      simp only [ENTRY] at *
      omega
    have next : t'.ip.size.toNat / ENTRY = t.ip.size.toNat / ENTRY + 1 := by
      simp only [ENTRY] at *
      omega
    simp only [dirents]
    rw [next, List.range_succ, List.map_append, List.map_singleton, ← last, here]
    refine congrArg (· ++ [de]) (List.map_congr_left fun i less => ?_)
    rw [List.mem_range] at less
    exact others i (by omega) (by omega)

theorem dirents_write_none (inside : ENTRY * j ≤ t.ip.size.toNat) (none : k = 0) : dirents t'.disk t'.ip = dirents t.disk t.ip := by
  have size := wrote.size
  have all : ∀ tot m : ℕ, m ≤ (Source.whole de.byte).copied tot m := fun _ _ => le_rfl
  refine dirents_congr (BitVec.eq_of_toNat_eq (by omega)) fun i less => ?_
  exact wrote.others all i less (by omega)

end

end OsProjects.Directories
