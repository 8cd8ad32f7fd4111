import OsProjects.Directories.Model
import OsProjects.Volume.Content
import OsProjects.Volume.Truncation

namespace OsProjects.Directories
open Hoare Volume
open Inodes (Dinode)

/-! ## The blocks of all inodes -/

def Live (sb : Superblock) (disk : Disk) (k : ℕ) : Prop := k < sb.ninodes.toNat ∧ (disk.dinode k).type ≠ 0

def blockOf (disk : Disk) (k : ℕ) (p : Place) : Uint := lookup disk (disk.dinode k) p

/-- Every inode in use has its own blocks, and there is no other block in use in the data area. -/
structure Blocks (sb : Superblock) (disk : Disk) : Prop where
  reserved : Reserved sb disk
  mapped : ∀ k, Live sb disk k → Mapped sb disk (disk.dinode k)
  apart : ∀ k k' p p', Live sb disk k → Live sb disk k' → blockOf disk k p ≠ 0 → blockOf disk k p = blockOf disk k' p' → k = k'
  owned : ∀ b : Uint, sb.dataStart ≤ b.toNat → b.toNat < sb.size.toNat → disk.used b = true →
    ∃ k p, Live sb disk k ∧ blockOf disk k p = b

variable {sb : Superblock} {disk disk' : Disk} {k k' : ℕ} {t : Volume.State}

theorem Blocks.change (blocks : Blocks sb disk) (reserved : Reserved sb disk')
    (dinode : ∀ k', k' ≠ k → disk'.dinode k' = disk.dinode k')
    (look : ∀ k', k' ≠ k → Live sb disk k' → ∀ p, blockOf disk' k' p = blockOf disk k' p)
    (used : ∀ k', k' ≠ k → Live sb disk k' → ∀ p, blockOf disk k' p ≠ 0 → disk'.used (blockOf disk k' p) = true)
    (mapped : Live sb disk' k → Mapped sb disk' (disk'.dinode k))
    (apart : Live sb disk' k → ∀ k', k' ≠ k → Live sb disk k' → ∀ p q, blockOf disk k' p ≠ 0 → blockOf disk' k q ≠ blockOf disk k' p)
    (owned : ∀ b : Uint, sb.dataStart ≤ b.toNat → b.toNat < sb.size.toNat → disk'.used b = true →
      (Live sb disk' k ∧ ∃ p, blockOf disk' k p = b) ∨ ∃ k', k' ≠ k ∧ Live sb disk k' ∧ ∃ p, blockOf disk k' p = b) :
    Blocks sb disk' := by
  have before : ∀ k', k' ≠ k → (Live sb disk' k' ↔ Live sb disk k') := fun k' other => by rw [Live, Live, dinode k' other]
  refine ⟨reserved, fun k' live => ?_, fun k₁ k₂ p q live₁ live₂ has same => ?_, fun b low high set => ?_⟩
  · by_cases this : k' = k
    · subst this
      exact mapped live
    · rw [before k' this] at live
      have old := blocks.mapped k' live
      have looks : ∀ p, lookup disk' (disk'.dinode k') p = lookup disk (disk.dinode k') p := look k' this live
      have size : (disk'.dinode k').size = (disk.dinode k').size := by rw [dinode k' this]
      refine ⟨fun p has => ?_, ?_, ?_, ?_, size ▸ old.bounded⟩
      · rw [looks] at has ⊢
        exact used k' this live p has
      · simp only [looks]
        exact old.inside
      · simp only [looks]
        exact old.distinct
      · simp only [looks, size]
        exact old.covered
  · by_cases this₁ : k₁ = k
    · by_cases this₂ : k₂ = k
      · rw [this₁, this₂]
      · subst this₁
        rw [before k₂ this₂] at live₂
        rw [look k₂ this₂ live₂] at same
        exact absurd same (apart live₁ k₂ this₂ live₂ q p (same ▸ has))
    · rw [before k₁ this₁] at live₁
      rw [look k₁ this₁ live₁] at same has
      by_cases this₂ : k₂ = k
      · subst this₂
        exact absurd same.symm (apart live₂ k₁ this₁ live₁ p q has)
      · rw [before k₂ this₂] at live₂
        rw [look k₂ this₂ live₂] at same
        exact blocks.apart k₁ k₂ p q live₁ live₂ has same
  · rcases owned b low high set with ⟨live, p, here⟩ | ⟨k', other, live, p, here⟩
    · exact ⟨k, p, live, here⟩
    · exact ⟨k', p, (before k' other).mpr live, (look k' other live p).trans here⟩

theorem Blocks.foreign (blocks : Blocks sb disk) (live : Live sb disk k) (live' : Live sb disk k') (other : k' ≠ k) {p : Place}
    (has : blockOf disk k' p ≠ 0) : disk.used (blockOf disk k' p) = true ∧ ∀ q, blockOf disk k q ≠ blockOf disk k' p :=
  ⟨(blocks.mapped k' live').used p has, fun q same => other (blocks.apart k' k p q live' live has same.symm)⟩

theorem Blocks.truncate (blocks : Blocks sb disk) (live : Live sb disk k)
    (used : ∀ b, disk'.used b = true ↔ disk.used b = true ∧ ∀ p, blockOf disk k p ≠ 0 → blockOf disk k p ≠ b)
    (block : disk'.block = disk.block) (dinode : ∀ k', k' ≠ k → disk'.dinode k' = disk.dinode k')
    (size : (disk'.dinode k).size = 0) (addrs : ∀ i, (disk'.dinode k).addrs i = 0) : Blocks sb disk' := by
  have zero : ∀ p, blockOf disk' k p = 0 := lookup_empty addrs
  have look : ∀ k', k' ≠ k → ∀ p, blockOf disk' k' p = blockOf disk k' p := fun k' other =>
    congrFun (lookup_congr (by rw [dinode k' other]) fun _ => by rw [block])
  refine blocks.change (k := k) (fun b low => ?_) dinode (fun k' other _ => look k' other) (fun k' other live' p has => ?_)
    (fun _ => mapped_empty size addrs) (fun _ k' _ _ p q has same => ?_) fun b low high set => ?_
  · refine (used b).mpr ⟨blocks.reserved b low, fun p has same => ?_⟩
    have inside := ((blocks.mapped k live).inside p has).1
    rw [show lookup disk (disk.dinode k) p = b from same] at inside
    omega
  · obtain ⟨old, foreign⟩ := blocks.foreign live live' other has
    exact (used _).mpr ⟨old, fun q _ => foreign q⟩
  · rw [zero] at same
    exact has same.symm
  · obtain ⟨before, mine⟩ := (used b).mp set
    obtain ⟨k', p, live', same⟩ := blocks.owned b low high before
    by_cases this : k' = k
    · subst this
      refine absurd same (mine p ?_)
      intro zero'
      rw [← same, zero'] at low
      simp [Superblock.dataStart] at low
    · exact .inr ⟨k', this, live', p, same⟩

end OsProjects.Directories
