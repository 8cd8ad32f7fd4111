import OsProjects.Volume.Mapping

namespace OsProjects.Volume
open Hoare
open Inodes (Dinode)

variable {sb : Superblock} {s t : State} {E : Panic → Prop}

/-! ## Giving blocks back -/

structure Freed (s : State) (l : List Place) (t : State) : Prop where
  used : ∀ b, t.disk.used b = true ↔ s.disk.used b = true ∧ ∀ p ∈ l, s.look p ≠ 0 → s.look p ≠ b
  block : t.disk.block = s.disk.block
  dinode : t.disk.dinode = s.disk.dinode

namespace Freed
variable {l : List Place} {p : Place}

theorem skip (freed : Freed s l t) (zero : s.look p = 0) : Freed s (l ++ [p]) t := by
  refine ⟨fun b => ?_, freed.block, freed.dinode⟩
  rw [freed.used]
  simp [or_imp, forall_and, zero]

theorem bfree (mapped : Mapped sb s.disk s.ip) (freed : Freed s l t) (new : p ∉ l) (has : s.look p ≠ 0) :
    wp E (bfree (s.look p)) (fun _ t' => Freed s (l ++ [p]) t' ∧ t'.ip = t.ip) t := by
  have used : t.disk.used (s.look p) = true := by
    refine (freed.used _).mpr ⟨mapped.used p has, fun q mem some same => ?_⟩
    exact new (mapped.distinct q p some same ▸ mem)
  simp only [Volume.bfree, wp_bind, wp_get]
  rw [if_pos used]
  refine ⟨⟨fun b => ?_, freed.block, freed.dinode⟩, rfl⟩
  change Function.update t.disk.used (s.look p) false b = true ↔ _
  by_cases same : b = s.look p
  · subst same
    rw [Function.update_self]
    exact ⟨fun h => absurd h (by decide), fun both => absurd rfl (both.2 p (by simp) has)⟩
  · rw [Function.update_of_ne same, freed.used]
    simp [or_imp, forall_and, Ne.symm same]

end Freed

def withAddrs (d : Dinode) (addrs : Fin (NDIRECT + 1) → Uint) : Dinode := { d with addrs := addrs }

@[simp]
theorem addrs_withAddrs (d : Dinode) (addrs : Fin (NDIRECT + 1) → Uint) : (withAddrs d addrs).addrs = addrs := rfl

def directPlace (i : Fin NDIRECT) : Place := some (i.castLE (Nat.le_add_right _ _))

def entryPlace (j : Fin NINDIRECT) : Place := some (j.natAdd NDIRECT)

theorem look_directPlace (i : Fin NDIRECT) : s.look (directPlace i) = s.ip.addrs i.castSucc := look_direct i.isLt

theorem look_entryPlace (j : Fin NINDIRECT) (has : s.ip.addrs indirect ≠ 0) :
    s.look (entryPlace j) = entry (s.disk.block (s.ip.addrs indirect)) j := by
  rw [entryPlace, look_entry (by simp), if_neg has]
  simp

theorem mem_places (p : Place) :
    p ∈ (List.finRange NDIRECT).map directPlace ++ (List.finRange NINDIRECT).map entryPlace ++ [none] := by
  cases p with
  | none => simp
  | some bn =>
    refine List.mem_append_left _ (List.mem_append.mpr ?_)
    by_cases direct : bn.val < NDIRECT
    · exact .inl (List.mem_map.mpr ⟨⟨bn.val, direct⟩, List.mem_finRange _, rfl⟩)
    · refine .inr (List.mem_map.mpr ⟨⟨bn.val - NDIRECT, ?_⟩, List.mem_finRange _, ?_⟩)
      · have less := bn.isLt
        simp only [MAXFILE] at less
        omega
      · simp only [entryPlace, Option.some.injEq, Fin.ext_iff, Fin.val_natAdd]
        omega

theorem nodup_of_split {α : Type} {l done rest : List α} {a : α} (nodup : l.Nodup) (split : l = done ++ a :: rest) : a ∉ done := by
  intro mem
  rw [split, List.nodup_append] at nodup
  exact nodup.2.2 a mem a (by simp) rfl

theorem freeDirect_spec (mapped : Mapped sb s.disk s.ip) :
    wp E ((List.finRange NDIRECT).forM fun i => freeAddr i.castSucc) (fun _ t =>
      Freed s ((List.finRange NDIRECT).map directPlace) t ∧
      t.ip = withAddrs s.ip fun i => if i = indirect then s.ip.addrs i else 0) s := by
  refine (wp_forM (fun done t => Freed s (done.map directPlace) t ∧
    t.ip = withAddrs s.ip fun i => if ∃ j ∈ done, j.castSucc = i then 0 else s.ip.addrs i) ?_ ?_).mono ?_
  · exact ⟨⟨by simp, rfl, rfl⟩, by simp [withAddrs]⟩
  · rintro done i rest t split ⟨freed, ip⟩
    have new := nodup_of_split (List.nodup_finRange NDIRECT) split
    have here : t.ip.addrs i.castSucc = s.look (directPlace i) := by
      have other : ¬ ∃ j ∈ done, j.castSucc = i.castSucc := by
        rintro ⟨j, mem, same⟩
        exact new (Fin.castSucc_injective _ same ▸ mem)
      rw [ip, look_directPlace]
      exact if_neg other
    simp only [freeAddr, wp_bind, wp_get, wp_ite, List.map_append, List.map_cons, List.map_nil]
    rw [here]
    refine ⟨fun has => ?_, fun zero => ?_⟩
    · refine (freed.bfree mapped ?_ has).mono fun _ t' got => ⟨⟨got.1.used, got.1.block, got.1.dinode⟩, ?_⟩
      · intro mem
        obtain ⟨j, mem, same⟩ := List.mem_map.mp mem
        exact new ((Fin.castLE_injective _ (Option.some.inj same)) ▸ mem)
      · change withAddrs t'.ip (Function.update t'.ip.addrs i.castSucc 0) = _
        rw [got.2, ip]
        refine congrArg (withAddrs s.ip) (funext fun k => ?_)
        by_cases same : k = i.castSucc
        · simp [same]
        · simp [Function.update_of_ne same, or_and_right, exists_or, Ne.symm same]
    · rw [not_not] at zero
      refine ⟨freed.skip zero, ?_⟩
      rw [ip]
      refine congrArg (withAddrs s.ip) (funext fun k => ?_)
      by_cases same : k = i.castSucc
      · subst same
        rw [look_directPlace] at zero
        simp [zero]
      · simp [or_and_right, exists_or, Ne.symm same]
  · rintro _ t ⟨freed, ip⟩
    refine ⟨freed, ?_⟩
    rw [ip]
    refine congrArg (withAddrs s.ip) (funext fun i => ?_)
    refine Fin.lastCases ?_ (fun j => ?_) i
    · have other : ¬ ∃ j ∈ List.finRange NDIRECT, j.castSucc = Fin.last NDIRECT := by
        rintro ⟨j, _, same⟩
        exact (Fin.castSucc_lt_last j).ne same
      rw [if_neg other]
      exact (if_pos rfl).symm
    · rw [if_pos ⟨j, List.mem_finRange j, rfl⟩]
      exact (if_neg (Fin.castSucc_lt_last j).ne).symm

theorem freeIndirect_spec (mapped : Mapped sb s.disk s.ip) (freed : Freed s ((List.finRange NDIRECT).map directPlace) t)
    (ip : t.ip = withAddrs s.ip fun i => if i = indirect then s.ip.addrs i else 0) :
    wp E freeIndirect (fun _ t' => (∀ b, t'.disk.used b = true ↔ s.disk.used b = true ∧ ∀ p, s.look p ≠ 0 → s.look p ≠ b) ∧
      t'.disk.block = s.disk.block ∧ t'.disk.dinode = s.disk.dinode ∧ t'.ip = withAddrs s.ip fun _ => 0) t := by
  have addr : t.ip.addrs indirect = s.look none := by
    rw [ip, addrs_withAddrs]
    exact if_pos rfl
  have whole : ∀ t', Freed s ((List.finRange NDIRECT).map directPlace ++ (List.finRange NINDIRECT).map entryPlace ++ [none]) t' →
      ∀ b, t'.disk.used b = true ↔ s.disk.used b = true ∧ ∀ p, s.look p ≠ 0 → s.look p ≠ b := by
    intro t' freed b
    rw [freed.used]
    exact and_congr_right fun _ => ⟨fun all p => all p (mem_places p), fun all p _ => all p⟩
  simp only [freeIndirect, wp_bind, wp_get, wp_ite]
  rw [addr]
  refine ⟨fun has => ?_, fun zero => ?_⟩
  · refine (wp_forM (fun done t' => Freed s ((List.finRange NDIRECT).map directPlace ++ done.map entryPlace) t' ∧ t'.ip = t.ip)
      ⟨by simpa using freed, rfl⟩ ?_).mono ?_
    · rintro done j rest t' split ⟨freed', ip'⟩
      have new := nodup_of_split (List.nodup_finRange NINDIRECT) split
      have here : entry (t.disk.block (s.look none)) j = s.look (entryPlace j) := by
        rw [look_entryPlace j has, freed.block]
        rfl
      rw [freeEntry, here, wp_ite, List.map_append, ← List.append_assoc]
      refine ⟨fun has' => ?_, fun zero => ⟨freed'.skip (not_not.mp zero), ip'⟩⟩
      refine (freed'.bfree mapped ?_ has').mono fun _ t'' got => ⟨got.1, got.2.trans ip'⟩
      intro mem
      rcases List.mem_append.mp mem with mem | mem
      · obtain ⟨i, _, same⟩ := List.mem_map.mp mem
        have less := i.isLt
        simp only [directPlace, entryPlace, Option.some.injEq, Fin.ext_iff, Fin.val_castLE, Fin.val_natAdd] at same
        omega
      · obtain ⟨k, mem, same⟩ := List.mem_map.mp mem
        have equal : k = j := by
          simp only [entryPlace, Option.some.injEq, Fin.ext_iff, Fin.val_natAdd] at same
          exact Fin.ext (by omega)
        exact new (equal ▸ mem)
    · rintro _ t' ⟨freed', ip'⟩
      refine (freed'.bfree mapped (by simp [directPlace, entryPlace]) has).mono ?_
      rintro _ t'' ⟨freed'', ip''⟩
      refine ⟨whole t'' freed'', freed''.block, freed''.dinode, ?_⟩
      change withAddrs t''.ip (Function.update t''.ip.addrs indirect 0) = _
      rw [ip'', ip', ip]
      refine congrArg (withAddrs s.ip) (funext fun i => ?_)
      by_cases last : i = indirect
      · rw [last, Function.update_self]
      · rw [Function.update_of_ne last]
        exact if_neg last
  · rw [not_not] at zero
    -- Without a block of entries, no place of an entry has a block.
    have none : ∀ j, s.look (entryPlace j) = 0 := by
      intro j
      rw [entryPlace, look_entry (by simp)]
      exact if_pos zero
    refine ⟨fun b => ?_, freed.block, freed.dinode, ?_⟩
    · rw [freed.used]
      refine and_congr_right fun _ => ⟨fun all p has => ?_, fun all p _ => all p⟩
      rcases List.mem_append.mp (mem_places p) with mem | mem
      · rcases List.mem_append.mp mem with mem | mem
        · exact all p mem has
        · obtain ⟨j, _, rfl⟩ := List.mem_map.mp mem
          exact absurd (none j) has
      · rw [List.mem_singleton.mp mem] at has
        exact absurd zero has
    · rw [ip]
      refine congrArg (withAddrs s.ip) (funext fun i => ?_)
      by_cases last : i = indirect
      · rw [if_pos last, last]
        exact zero
      · exact if_neg last

theorem itrunc_spec (mapped : Mapped sb s.disk s.ip) (inum : ℕ) :
    wp E (itrunc inum) (fun _ t => (∀ b, t.disk.used b = true ↔ s.disk.used b = true ∧ ∀ p, s.look p ≠ 0 → s.look p ≠ b) ∧
      t.disk.block = s.disk.block ∧ t.ip = { s.ip with size := 0, addrs := fun _ => 0 } ∧
      t.disk.dinode = Function.update s.disk.dinode inum t.ip) s := by
  simp only [itrunc, wp_bind]
  refine (freeDirect_spec mapped).mono ?_
  rintro _ t ⟨freed, ip⟩
  refine (freeIndirect_spec mapped freed ip).mono ?_
  rintro _ t' ⟨used, block, dinode, ip'⟩
  refine ⟨used, block, ?_, ?_⟩
  · change { t'.ip with size := 0 } = _
    rw [ip']
    rfl
  · change Function.update t'.disk.dinode inum _ = _
    rw [dinode]

end OsProjects.Volume
