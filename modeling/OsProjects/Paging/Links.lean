import OsProjects.Paging.Table

namespace OsProjects.Paging
open Ownership

variable {m m' : Mem} {root q p : Page} {A B : Multiset Page} {va : ℕ} {i : Fin 512} {owned : List (Fin 512) → Bool}

/-- The entries above the lowest level are links to page tables, and the upper half of the root, which no address below
`MAXVA` uses, is empty. -/
structure Linked (m : Mem) (root : Page) : Prop where
  low : ∀ i : Fin 512, 256 ≤ i.val → (m.mem root i).v = false
  link : ∀ table q i, table.length < 2 → follow (next m.mem) table root = some q → (m.mem q i).v = true →
    (m.mem q i).perm = .none

theorem px_top (small : va < MAXVA) : (px 2 va).val < 256 := by
  simp only [px, Fin.val_ofNat, MAXVA] at *
  norm_num
  omega

theorem Linked.kept (linked : Linked m root) (moves : Moves m.heap m'.heap A B)
    (nodup : ((m.freelist : Multiset Page) + (A + cells owned m root)).Nodup) : Linked m' root where
  low i high := by
    have cell : m'.mem root = m.mem root := moves.kept nodup (mem_span_root ..)
    rw [cell]
    exact linked.low i high
  link table q i upper reach := by
    rw [follow_kept moves nodup (by omega)] at reach
    have cell : m'.mem q = m.mem q := moves.kept nodup (mem_span_of_follow (by omega) reach)
    rw [cell]
    exact linked.link table q i upper reach

theorem Linked.setLeaf (linked : Linked m root) (nodup : (cells owned m root).Nodup) (leaf : Leaf m root va q i) (pte : Pte) :
    Linked (m.setPte q i pte) root := by
  obtain ⟨rfl, reach⟩ := leaf_table leaf
  have above {table : List (Fin 512)} {b : Page} (upper : table.length < 2) (here : follow (next m.mem) table root = some b) : b ≠ q := by
    rintro rfl
    have same := follow_unique_of_lt nodup (by omega) (tablePath_lt va) here reach
    exact absurd (congrArg List.length same) upper.ne
  constructor
  · intro j high
    have top : root ≠ q := above (by decide) (rfl : follow (next m.mem) [] root = some root)
    rw [setPte_other m pte (.inl top)]
    exact linked.low j high
  · intro table b j upper here
    rw [follow_setPte_upper nodup (tablePath_lt va) reach pte upper.le] at here
    rw [setPte_other m pte (.inl (above upper here))]
    exact linked.link table b j upper here

section walk
variable (nodup : ((m.freelist : Multiset Page) + cells owned m root).Nodup)
include nodup

theorem Linked.table (linked : Linked m root) {m1 m2 m3 : Mem} {fresh : Page} {u u' : Unit} {table : List (Fin 512)}
    (taken : kalloc m = some (some fresh, m1)) (filled : fill fresh (memset 0) m1 = some (u, m2))
    (stored : setPte q i ⟨true, .none, fresh⟩ m2 = some (u', m3)) (reach : follow (next m.mem) table root = some q)
    (upper : table.length < 2) (low : table = [] → i.val < 256) : Linked m3 root := by
  have gained : Moves m.heap m2.heap 0 {fresh} :=
    (kalloc_moves taken).trans (fill_moves filled (Multiset.mem_singleton_self fresh))
  have alone : ((m.freelist : Multiset Page) + (0 + cells owned m root)).Nodup := by rwa [zero_add]
  have linked₂ : Linked m2 root := linked.kept gained alone
  have reach₂ : follow (next m2.mem) table root = some q := (follow_kept gained alone (by omega)).trans reach
  have cells₂ : cells owned m2 root = cells owned m root := cells_kept gained alone
  have nodup₂ : (cells owned m2 root).Nodup := by
    rw [cells₂]
    exact (Multiset.nodup_add.mp nodup).2.1
  have other : fresh ≠ q := by
    have apart := (gained.add (cells owned m root)).nodup alone
    rintro rfl
    exact Multiset.disjoint_left.mp (Multiset.nodup_add.mp (Multiset.nodup_add.mp apart).2.1).2.2
      (Multiset.mem_singleton_self _) (mem_span_of_follow (by omega) reach)
  rw [setPte_eq stored]
  constructor
  · intro j high
    have away : root ≠ q ∨ j ≠ i := by
      by_contra same
      push Not at same
      obtain ⟨rfl, rfl⟩ := same
      have top : [] = table := follow_unique_of_lt nodup₂ (by decide) (by omega) rfl reach₂
      exact absurd (low top.symm) (not_lt.mpr high)
    rw [setPte_other m2 _ away]
    exact linked₂.low j high
  · intro path b j short here valid
    by_cases new : b = q ∧ j = i
    · obtain ⟨rfl, rfl⟩ := new
      simp [Mem.setPte]
    rw [setPte_other m2 _ (not_and_or.mp new)] at valid ⊢
    by_cases through : table ++ [i] <+: path
    · -- the path is the new link itself, and what it leads to is empty
      have length := through.length_le
      rw [List.length_append, List.length_singleton] at length
      obtain rfl : table ++ [i] = path := through.eq_of_length (by rw [List.length_append, List.length_singleton]; omega)
      rw [follow_append, follow_setPte nodup₂ (by omega) reach₂, Option.bind_some, follow, next_setPte] at here
      obtain rfl : fresh = b := Option.some.inj here
      rw [fill_eq filled] at valid
      simp [memset, Pte.ofBits] at valid
    · rw [follow_setPte_of_apart nodup₂ (by omega) reach₂ _ (by omega) through] at here
      exact linked₂.link path b j short here valid

theorem walkFrom_linked {alloc : Bool} {level : ℕ} {r : Option (Page × Fin 512)} {table : List (Fin 512)} (small : va < MAXVA)
    (action : walkFrom va alloc level p m = some (r, m')) (reach : follow (next m.mem) table root = some p)
    (here : table ++ pathFrom level va = path va) (deep : table.length + level = 2) (linked : Linked m root) : Linked m' root := by
  induction level generalizing m p table with
  | zero =>
    obtain ⟨_, rfl⟩ := pure_eq_some.mp action
    exact linked
  | succ level ih =>
    have here' : (table ++ [px (level + 1) va]) ++ pathFrom level va = path va := by
      rw [List.append_assoc]
      exact here
    have deep' : (table ++ [px (level + 1) va]).length + level = 2 := by
      rw [List.length_append, List.length_singleton]
      omega
    simp only [walkFrom, bind_eq_some, get_eq_some] at action
    obtain ⟨_, _, ⟨rfl, rfl⟩, action⟩ := action
    split at action
    · rename_i valid
      refine ih nodup action ?_ here' deep' linked
      rw [follow_append, reach]
      simp [follow, next, valid]
    rename_i invalid
    split at action
    · obtain ⟨answer, m1, taken, action⟩ := bind_eq_some.mp action
      cases answer with
      | none =>
        obtain ⟨_, rfl⟩ := pure_eq_some.mp action
        rwa [kalloc_none taken]
      | some fresh =>
        simp only [bind_eq_some] at action
        obtain ⟨_, m2, filled, _, m3, stored, action⟩ := action
        obtain ⟨moves, reach', _⟩ := moves_table nodup taken filled stored reach (by omega) (by simp [next, invalid])
        refine ih (moves.nodup nodup) action reach' here' deep'
          (linked.table nodup taken filled stored reach (by omega) ?_)
        rintro rfl
        obtain rfl : level = 1 := by simpa using deep
        exact px_top small
    · obtain ⟨_, rfl⟩ := pure_eq_some.mp action
      exact linked

theorem walk_linked {alloc : Bool} {r : Option (Page × Fin 512)} (action : walk root va alloc m = some (r, m'))
    (linked : Linked m root) : Linked m' root := by
  unfold walk at action
  split at action
  · exact (failure_eq_some.mp action).elim
  · rename_i small
    have start : follow (next m.mem) [] root = some root := rfl
    exact walkFrom_linked nodup (not_le.mp small) action start rfl rfl linked

end walk

end OsProjects.Paging
