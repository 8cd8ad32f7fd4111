import OsProjects.Transition.System
import OsProjects.Volume.Content
import OsProjects.Volume.Truncation

namespace OsProjects.Volume
open Hoare Transition

/-! ## An inode as an array of bytes -/

def contents (s : State) : List UInt8 := (List.range s.ip.size.toNat).map s.byte

def overwrite (a : List UInt8) (off : ℕ) (data : List UInt8) : List UInt8 :=
  a.take off ++ data ++ a.drop (off + data.length)

inductive Call
  | writei (byte : ℕ → UInt8) (off n : Uint) | readi (off n : Uint) | itrunc

def perform (sb : Superblock) (inum : ℕ) (s : State) : Call → Except Panic State
  | .writei byte off n => do
    let (_, s) ← writei sb inum (.whole byte) off n s
    pure s
  | .readi off n => do
    let (_, s) ← readi sb (fun _ _ => true) off n s
    pure s
  | .itrunc => do
    let (_, s) ← itrunc inum s
    pure s

def system (sb : Superblock) (inum : ℕ) (start : State) : System State Call where
  initial := start
  step s c := (perform sb inum s c).toOption

variable {sb : Superblock} {s s' : State} {inum : ℕ}

theorem length_contents : (contents s).length = s.ip.size.toNat := by simp [contents]

theorem contents_getElem {i : ℕ} (less : i < (contents s).length) : (contents s)[i] = s.byte i := by simp [contents]

theorem contents_range {off m : ℕ} :
    ((contents s).take m).drop off = (List.range (min m s.ip.size.toNat - off)).map fun i => s.byte (off + i) := by
  refine List.ext_getElem (by simp [contents]) fun i first last => ?_
  rw [List.getElem_drop, List.getElem_take, contents_getElem]
  simp

theorem Wrote.contents {byte : ℕ → UInt8} {off n : ℕ} {k : ℕ} (wrote : Wrote sb inum (.whole byte) off n s k s')
    (before : off ≤ s.ip.size.toNat) : Volume.contents s' = overwrite (Volume.contents s) off ((List.range k).map byte) := by
  have size := wrote.size
  have whole : ∀ tot m : ℕ, m ≤ (Source.whole byte).copied tot m := fun _ _ => le_rfl
  unfold overwrite
  refine List.ext_getElem ?_ fun i first last => ?_
  · simp only [List.length_append, List.length_take, List.length_drop, List.length_map, List.length_range, length_contents]
    omega
  · rw [contents_getElem]
    rw [length_contents] at first
    have left : ((Volume.contents s).take off).length = off := by
      rw [List.length_take, length_contents]
      omega
    have middle : ((Volume.contents s).take off ++ (List.range k).map byte).length = off + k := by
      rw [List.length_append, left, List.length_map, List.length_range]
    by_cases high : off + k ≤ i
    · rw [wrote.others whole i (by omega) (.inr high), List.getElem_append_right (by omega), List.getElem_drop, contents_getElem]
      congr 1
      rw [middle, List.length_map, List.length_range]
      omega
    · rw [List.getElem_append_left (by omega)]
      by_cases low : i < off
      · rw [wrote.others whole i (by omega) (.inl low), List.getElem_append_left (by omega), List.getElem_take, contents_getElem]
      · rw [wrote.bytes whole i (by omega) (by omega), List.getElem_append_right (by omega), List.getElem_map, List.getElem_range, left]
        rfl

/-! ## Runs -/

theorem Reserved.itrunc {t : State} (reserved : Reserved sb s.disk) (mapped : Mapped sb s.disk s.ip)
    (used : ∀ b, t.disk.used b = true ↔ s.disk.used b = true ∧ ∀ p, s.look p ≠ 0 → s.look p ≠ b) : Reserved sb t.disk := by
  intro b before
  refine (used b).mpr ⟨reserved b before, fun p has same => ?_⟩
  have inside : sb.dataStart ≤ (s.look p).toNat := (mapped.inside p has).1
  rw [same] at inside
  omega

theorem inv_step {c : Call} (reserved : Reserved sb s.disk) (mapped : Mapped sb s.disk s.ip)
    (action : (perform sb inum s c).toOption = some s') : Reserved sb s'.disk ∧ Mapped sb s'.disk s'.ip := by
  cases c with
  | writei byte off n =>
    obtain ⟨r, t, result, got⟩ := (writei_spec reserved mapped inum (.whole byte) off n).exists_ok
    obtain rfl : t = s' := by simpa [perform, result, Except.toOption] using action
    rcases got with ⟨_, _, rfl⟩ | ⟨_, k, _, wrote⟩
    · exact ⟨reserved, mapped⟩
    · exact ⟨wrote.ext.reserved reserved, wrote.mapped⟩
  | readi off n =>
    obtain ⟨r, t, result, rfl, _⟩ := (readi_spec reserved mapped (fun _ _ => true) off n).exists_ok
    obtain rfl : t = s' := by simpa [perform, result, Except.toOption] using action
    exact ⟨reserved, mapped⟩
  | itrunc =>
    obtain ⟨_, t, result, used, _, ip, _⟩ := (itrunc_spec mapped inum).exists_ok
    obtain rfl : t = s' := by simpa [perform, result, Except.toOption] using action
    exact ⟨reserved.itrunc mapped used, mapped_empty (by rw [ip]) (by simp [ip])⟩

/-- The contents of an inode that was empty are an array of bytes of its size, all of whose blocks are there: `writei` is
refused or overwrites as many bytes as there are blocks for, `readi` gives the bytes of its range and changes nothing,
and `itrunc` makes the array empty. -/
theorem inode_is_byte_array {start : State} (empty : start.ip.size = 0 ∧ ∀ i, start.ip.addrs i = 0)
    (reserved : Reserved sb start.disk) (reached : (system sb inum start).Reachable s) :
    (contents s).length = s.ip.size.toNat ∧ s.ip.size.toNat ≤ MAXFILE * BSIZE ∧
    (∀ bn : Fin MAXFILE, bn.val * BSIZE < s.ip.size.toNat → s.look (some bn) ≠ 0) ∧
    (∀ byte off n, ∃ r s', writei sb inum (.whole byte) off n s = .ok (r, s') ∧
      (Rejected s.ip.size off n → r = none ∧ s' = s) ∧
      (¬ Rejected s.ip.size off n → ∃ k, r = some k ∧ k ≤ n.toNat ∧ (k < n.toNat → Full sb s'.disk) ∧
        contents s' = overwrite (contents s) off.toNat ((List.range k).map byte))) ∧
    (∀ off n, readi sb (fun _ _ => true) off n s = .ok (some (((contents s).take (off + n).toNat).drop off.toNat), s)) ∧
    ∃ s', itrunc inum s = .ok ((), s') ∧ contents s' = [] := by
  obtain ⟨reserved, mapped⟩ : Reserved sb s.disk ∧ Mapped sb s.disk s.ip :=
    System.Reachable.invariant (fun s => Reserved sb s.disk ∧ Mapped sb s.disk s.ip) ⟨reserved, mapped_empty empty.1 empty.2⟩
      (fun _ _ _ _ inv action => inv_step inv.1 inv.2 action) reached
  refine ⟨length_contents, mapped.bounded, mapped.covered, fun byte off n => ?_, fun off n => ?_, ?_⟩
  · obtain ⟨r, s', result, got⟩ := (writei_spec reserved mapped inum (.whole byte) off n).exists_ok
    refine ⟨r, s', result, fun rejected => ?_, fun accepted => ?_⟩
    · exact (got.resolve_right fun other => other.1 rejected).2
    · obtain ⟨_, k, value, wrote⟩ := got.resolve_left fun other => accepted other.1
      have before : off.toNat ≤ s.ip.size.toNat := by
        by_contra past
        exact accepted (.inl (by bv_omega))
      exact ⟨k, value, wrote.bound, wrote.short fun _ _ => le_rfl, wrote.contents before⟩
  · obtain ⟨r, s', result, rfl, success, data⟩ :=
      (readi_spec reserved mapped (fun _ _ => true) off n).exists_ok
    rw [result, contents_range, ← readRange_eq]
    cases r with
    | none => exact absurd rfl (success fun _ _ => rfl)
    | some data' => rw [data data' rfl]
  · obtain ⟨_, s', result, _, _, ip, _⟩ := (itrunc_spec mapped inum).exists_ok
    refine ⟨s', result, ?_⟩
    simp [contents, ip]

def freshInode : State where
  disk :=
    { used := fun b => b.toNat < 13
      block := fun _ _ => 7
      dinode := fun _ => .fresh .file }
  ip := .fresh .file

def smallDisk : Superblock := ⟨16, 10, 3⟩

theorem inode_is_byte_array_two_writes : ∃ s, (system smallDisk 1 freshInode).run freshInode
      [.writei (fun _ => 1) 0 2, .writei (fun i => .ofNat i) 2 20] = some s ∧
    readi smallDisk (fun _ _ => true) 1 3 s = .ok (some [1, 0, 1], s) := by
  have checked : ((system smallDisk 1 freshInode).run freshInode
      [.writei (fun _ => 1) 0 2, .writei (fun i => .ofNat i) 2 20]).map (fun s => ((contents s).take 4).drop 1) =
        some [1, 0, 1] := by
    decide +kernel
  obtain ⟨s, result, shown⟩ := Option.map_eq_some_iff.mp checked
  have reached : (system smallDisk 1 freshInode).Reachable s := System.Reachable.run .initial result
  have reserved : Reserved smallDisk freshInode.disk := by
    intro b before
    have less : b.toNat < 4 := before
    simp only [freshInode, decide_eq_true_eq]
    omega
  have read := (inode_is_byte_array ⟨rfl, fun _ => rfl⟩ reserved reached).2.2.2.2.1 1 3
  exact ⟨s, result, read.trans (by rw [← shown]; rfl)⟩

end OsProjects.Volume
