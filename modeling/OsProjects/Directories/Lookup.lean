import OsProjects.Directories.Table

namespace OsProjects.Directories
open Hoare Volume
open Inodes (Dinode Entry Kind)

variable {sb : Superblock} {base : Entry → ℕ} {l : List Entry} {s : Fs} {dp : Entry} {E : Panic → Prop}

/-! ## Looking a name up -/

theorem getElem?_dirents {disk : Disk} {d : Dinode} {j : ℕ} (fits : ENTRY * j + ENTRY ≤ d.size.toNat) :
    (dirents disk d)[j]? = some (slot disk d j) := by
  have less : j < d.size.toNat / ENTRY := by
    simp only [ENTRY] at *
    omega
  simp [dirents, less]

theorem length_dirents {disk : Disk} {d : Dinode} : (dirents disk d).length = d.size.toNat / ENTRY := by simp [dirents]

theorem length_strncpy (name : List UInt8) : (strncpy name).length = DIRSIZ := by
  have short : (cstr name).length ≤ DIRSIZ := (List.takeWhile_prefix _).length_le.trans (List.length_take_le _ _)
  rw [strncpy, List.length_append, List.length_replicate]
  omega

theorem scan_dirents {panic : Panic} (reserved : Reserved sb s.disk) (mapped : Mapped sb s.disk (s.table dp).d)
    (p : Dirent → Bool) (first : ℕ) (allowed : ¬ ENTRY ∣ (s.table dp).d.size.toNat → E panic) :
    wp E (scanDir sb dp panic p (offsets first (s.table dp).d.size)) (fun r s' => s' = s ∧
      (r = none ∧ (slots (s.table dp).d.size ≤ first ∨ slots (s.table dp).d.size = (dirents s.disk (s.table dp).d).length) ∧
        (∀ j, first ≤ j → ∀ de, (dirents s.disk (s.table dp).d)[j]? = some de → p de = false) ∨
        ∃ j de, r = some (ENTRY * j, de) ∧ first ≤ j ∧ ENTRY * j < (s.table dp).d.size.toNat ∧
          (dirents s.disk (s.table dp).d)[j]? = some de ∧ p de = true ∧
          ∀ j', first ≤ j' → j' < j → ∀ de', (dirents s.disk (s.table dp).d)[j']? = some de' → p de' = false)) s := by
  have part : ∀ j ∈ List.range' first (slots (s.table dp).d.size - first), ¬ ENTRY * j + ENTRY ≤ (s.table dp).d.size.toNat → E panic := by
    refine fun j mem past => allowed fun ⟨n, whole⟩ => past ?_
    have below := (mem_offsets mem).2
    simp only [ENTRY] at whole below ⊢
    omega
  refine (scanDir_spec reserved mapped p _ List.pairwise_lt_range' (fun j mem => (mem_offsets mem).2) part).mono fun r t ⟨same, got⟩ => ⟨same, ?_⟩
  rcases got with ⟨none, all⟩ | ⟨j, mem', found, fits, has, before⟩
  · refine .inl ⟨none, ?_, fun j low de here => ?_⟩
    · rw [length_dirents]
      by_contra neither
      rw [not_or, not_le] at neither
      have last := (all (slots (s.table dp).d.size - 1) (List.mem_range'_1.mpr (by omega))).1
      simp only [slots, ENTRY] at *
      omega
    · obtain ⟨less, equal⟩ := List.getElem?_eq_some_iff.mp here
      have same : de = slot s.disk (s.table dp).d j := by simpa [dirents] using equal.symm
      rw [length_dirents] at less
      rw [same]
      refine (all j (List.mem_range'_1.mpr ?_)).2
      simp only [slots, ENTRY] at *
      omega
  · refine .inr ⟨j, _, found, (mem_offsets mem').1, (mem_offsets mem').2, getElem?_dirents fits, has, fun k low less de here => ?_⟩
    rw [getElem?_dirents (by simp only [ENTRY] at *; omega)] at here
    rw [← Option.some.inj here]
    refine before k (List.mem_range'_1.mpr ?_) less
    have range := List.mem_range'_1.mp mem'
    omega

/-! ## Directories -/

def find (v : ℕ → Node) (k : ℕ) (name : List UInt8) : Option ℕ :=
  if (v k).type = Kind.dir.type then
    ((v k).dirents.find? fun de => de.inum ≠ 0 ∧ namecmp name de.name).map (·.inum.toNat)
  else none

section
variable {v : ℕ → Node} {k : ℕ} {name : List UInt8}

theorem find_of_missing (dir : (v k).type = Kind.dir.type)
    (missing : ∀ de ∈ (v k).dirents, de.inum ≠ 0 → namecmp name de.name = false) : find v k name = none := by
  rw [find, if_pos dir, Option.map_eq_none_iff, List.find?_eq_none]
  intro de mem
  simpa using missing de mem

theorem find_of_first (dir : (v k).type = Kind.dir.type) {j : ℕ} {de : Dirent} (here : (v k).dirents[j]? = some de) (used : de.inum ≠ 0)
    (equal : namecmp name de.name = true)
    (before : ∀ j' < j, ∀ de', (v k).dirents[j']? = some de' → ¬ (de'.inum ≠ 0 ∧ namecmp name de'.name = true)) :
    find v k name = some de.inum.toNat := by
  obtain ⟨less, there⟩ := List.getElem?_eq_some_iff.mp here
  have found : (v k).dirents.find? (fun de => de.inum ≠ 0 ∧ namecmp name de.name) = some de := by
    refine List.find?_eq_some_iff_getElem.mpr ⟨decide_eq_true ⟨used, equal⟩, j, less, there, fun j' less' => ?_⟩
    have other := before j' less' _ (List.getElem?_eq_getElem (by omega))
    simpa only [Bool.not_eq_true', decide_eq_false_iff_not] using other
  rw [find, if_pos dir, found]
  rfl

end

section
variable (held : Held sb base l s) (mem : dp ∈ l) (valid : (s.table dp).valid = true)
include held mem valid

theorem node_of_dir (dir : (s.table dp).d.type = Kind.dir.type) :
    (node sb s.disk (s.table dp).inum).type = Kind.dir.type ∧
      (node sb s.disk (s.table dp).inum).dirents = dirents s.disk (s.table dp).d := by
  have synced := (held.synced dp (held.ref_pos mem) valid).2
  rw [synced] at dir ⊢
  rw [node_of_lt (held.known dp (held.ref_pos mem))]
  exact ⟨dir, if_pos dir⟩

theorem dirlookup_spec (name : List UInt8) (notDir : (s.table dp).d.type ≠ Kind.dir.type → E .dirlookupNotDir)
    (part : ¬ ENTRY ∣ (s.table dp).d.size.toNat → E .dirlookupRead)
    (full : ∀ inum, find (node sb s.disk) (s.table dp).inum name = some inum →
      (∀ e, 0 < base e + l.count e ∧ (s.table e).inum ≠ inum) → E .igetNoInodes) :
    wp E (dirlookup sb dp name) (fun r s' => s'.disk = s.disk ∧
      (r = none ∧ s' = s ∧ find (node sb s.disk) (s.table dp).inum name = none ∨
        ∃ e off, ∃ de ∈ (node sb s.disk (s.table dp).inum).dirents, de.inum ≠ 0 ∧ r = some (e, off) ∧
          find (node sb s.disk) (s.table dp).inum name = some de.inum.toNat ∧ (s'.table e).inum = de.inum.toNat ∧
          Held sb base (e :: l) s' ∧ Keeps base l s s')) s := by
  simp only [dirlookup, wp_bind, wp_get, wp_ite]
  refine ⟨notDir, fun dir => ?_⟩
  rw [not_not] at dir
  obtain ⟨type, entries⟩ := node_of_dir held mem valid dir
  have mapped : Mapped sb s.disk (s.table dp).d := by
    rw [(held.synced dp (held.ref_pos mem) valid).2]
    exact held.blocks.mapped _ (held.live mem valid)
  refine (scan_dirents held.blocks.reserved mapped _ 0 part).mono ?_
  rintro r t ⟨same, got⟩
  subst same
  rw [← entries] at got
  rcases got with ⟨rfl, _, all⟩ | ⟨j, de, rfl, _, _, here, has, before⟩
  · refine ⟨rfl, .inl ⟨rfl, rfl, find_of_missing type fun de mem' used => ?_⟩⟩
    obtain ⟨j, here⟩ := List.mem_iff_getElem?.mp mem'
    have other : ¬ (de.inum ≠ 0 ∧ namecmp name de.name = true) := by simpa using all j (Nat.zero_le _) de here
    exact Bool.eq_false_iff.mpr fun equal => other ⟨used, equal⟩
  · obtain ⟨used, equal⟩ : de.inum ≠ 0 ∧ namecmp name de.name = true := by simpa using has
    have member : de ∈ (node sb t.disk (t.table dp).inum).dirents := List.mem_iff_getElem?.mpr ⟨j, here⟩
    have found : find (node sb t.disk) (t.table dp).inum name = some de.inum.toNat :=
      find_of_first type here used equal fun j' less de' here' => of_decide_eq_false (before j' (Nat.zero_le _) less de' here')
    simp only [wp_bind]
    refine (iget_spec held (held.inRange _ de member) (full _ found)).mono ?_
    rintro e s' ⟨disk, held', keeps, number⟩
    exact ⟨disk, .inr ⟨e, _, de, member, used, rfl, found, number, held', keeps⟩⟩

end

/-! ## Paths -/

theorem length_skipelem {path name rest : List UInt8} (found : skipelem path = some (name, rest)) : rest.length < path.length := by
  unfold skipelem at found
  obtain ⟨some, equal⟩ := Option.ite_none_left_eq_some.mp found
  obtain ⟨_, rfl⟩ := Prod.mk.inj (Option.some.inj equal)
  have suffix : (path.dropWhile (· = slash)).length ≤ path.length := (List.dropWhile_suffix _).length_le
  have tail : ((path.dropWhile (· = slash)).dropWhile (· ≠ slash)).length < (path.dropWhile (· = slash)).length := by
    cases elem : path.dropWhile (· = slash) with
    | nil => exact absurd elem some
    | cons c cs =>
      have first : (c ≠ slash) := by
        have head := List.head?_dropWhile_not (fun c => decide (c = slash)) path
        simpa [elem] using head
      rw [List.dropWhile_cons, if_pos (by simpa using first)]
      exact Nat.lt_succ_of_le (List.dropWhile_suffix _).length_le
  exact Nat.lt_of_le_of_lt (List.dropWhile_suffix _).length_le (Nat.lt_of_lt_of_le tail suffix)

end OsProjects.Directories
