import OsProjects.Paging.Rollback

namespace OsProjects.Paging
open Ownership

variable {L : Layout} {m m' : Mem} {root p : Page} {A B : Multiset Page} {levels n v sz : ℕ}

/-! ## `freewalk` -/

abbrev subtables (m : Mem) (levels : ℕ) (p : Page) : Multiset Page := span (next m.mem) levels (fun _ => false) p

def Hollow (L : Layout) (m : Mem) : ℕ → Page → Prop
  | 0, _ => False
  | levels + 1, p => InRam L p ∧ ∀ i, (m.mem p i).v = true →
      ((m.mem p i).perm.r || (m.mem p i).perm.w || (m.mem p i).perm.x) = false ∧ Hollow L m levels (m.mem p i).ppn

theorem Hollow.congr (hollow : Hollow L m levels p) (same : ∀ x ∈ subtables m levels p, m'.mem x = m.mem x) : Hollow L m' levels p := by
  induction levels generalizing p with
  | zero => exact hollow
  | succ levels ih =>
    obtain ⟨ram, entries⟩ := hollow
    refine ⟨ram, fun i => ?_⟩
    rw [same p (mem_span_root ..)]
    intro valid
    obtain ⟨link, below⟩ := entries i valid
    refine ⟨link, ih below fun x member => same x (mem_span_succ.mpr (.inr ⟨i, _, ?_, member⟩))⟩
    simp [next, valid]

theorem subtables_congr (same : ∀ x ∈ subtables m levels p, m'.mem x = m.mem x) : subtables m' levels p = subtables m levels p :=
  span_congr_of_mem fun x member => funext fun i => by rw [next, next, same x member]

def hanging (m : Mem) (levels : ℕ) (p : Page) (i : Fin 512) : Multiset Page :=
  below (next m.mem) levels (fun _ => false) (next m.mem p i)

theorem hanging_valid {i : Fin 512} (valid : (m.mem p i).v = true) : hanging m levels p i = subtables m levels (m.mem p i).ppn := by
  rw [hanging, next, if_pos valid]
  rfl

theorem hanging_invalid {i : Fin 512} (invalid : ¬ (m.mem p i).v = true) : hanging m levels p i = 0 := by
  rw [hanging, next, if_neg invalid]
  rfl

theorem subtables_succ (m : Mem) (levels : ℕ) (p : Page) :
    subtables m (levels + 1) p = {p} + ((List.finRange 512).map (hanging m levels p)).sum := by
  rw [subtables, span, ← Fin.sum_univ_def]
  rfl

theorem freeEntries_spec {descend : Page → Vm Unit}
    (down : ∀ {m : Mem} {c : Page}, Hollow L m levels c → ((m.freelist : Multiset Page) + subtables m levels c).Nodup →
      ∃ m', descend c m = some ((), m') ∧ Moves m.heap m'.heap (subtables m levels c) 0)
    {l : List (Fin 512)} (distinct : l.Nodup)
    (entries : ∀ i ∈ l, (m.mem p i).v = true →
      ((m.mem p i).perm.r || (m.mem p i).perm.w || (m.mem p i).perm.x) = false ∧ Hollow L m levels (m.mem p i).ppn)
    (nodup : ((m.freelist : Multiset Page) + ({p} + (l.map (hanging m levels p)).sum)).Nodup) :
    ∃ m', freeEntries descend p l m = some ((), m') ∧ Moves m.heap m'.heap ({p} + (l.map (hanging m levels p)).sum) {p} := by
  induction l generalizing m with
  | nil => exact ⟨m, rfl, by simpa using Moves.refl m.heap {p}⟩
  | cons i rest ih =>
    obtain ⟨fresh, distinct⟩ := List.nodup_cons.mp distinct
    rw [List.map_cons, List.sum_cons] at nodup ⊢
    by_cases valid : (m.mem p i).v = true
    · obtain ⟨link, hollow⟩ := entries i (List.mem_cons_self ..) valid
      rw [hanging_valid valid] at nodup ⊢
      obtain ⟨c, child⟩ : ∃ c, (m.mem p i).ppn = c := ⟨_, rfl⟩
      rw [child] at hollow nodup ⊢
      obtain ⟨S, others⟩ : ∃ S, (rest.map (hanging m levels p)).sum = S := ⟨_, rfl⟩
      rw [others] at nodup ⊢
      have order : ({p} + (subtables m levels c + S) : Multiset Page) = subtables m levels c + ({p} + S) := by abel
      have nodup₁ := nodup
      rw [order] at nodup₁
      obtain ⟨m₁, ran, moves⟩ := down hollow (Multiset.nodup_add.mp (by rwa [add_assoc])).1
      have here : m₁.mem p = m.mem p := moves.kept nodup₁ (Multiset.mem_add.mpr (.inl (Multiset.mem_singleton_self p)))
      have cleared : Moves m.heap (m₁.setPte p i (Pte.ofBits 0)).heap ({p} + subtables m levels c) {p} := by
        have first := moves.add {p}
        rw [zero_add, add_comm] at first
        exact first.trans (.store (Multiset.mem_singleton_self p) _)
      -- the later entries are as they were, and so is what hangs from them
      have apart : ((m.freelist : Multiset Page) + (({p} + subtables m levels c) + S)).Nodup := by rwa [add_assoc ({p} : Multiset Page)]
      have entry {j : Fin 512} (later : j ∈ rest) : (m₁.setPte p i (Pte.ofBits 0)).mem p j = m.mem p j := by
        have other : j ≠ i := fun same => fresh (same ▸ later)
        rw [setPte_other m₁ _ (.inr other), here]
      have inside {j : Fin 512} (later : j ∈ rest) {x : Page} (member : x ∈ hanging m levels p j) : x ∈ S := by
        rw [← others]
        exact Multiset.mem_of_le (List.single_le_sum (fun _ _ => Multiset.zero_le _) _ (List.mem_map_of_mem later)) member
      have kept {j : Fin 512} (later : j ∈ rest) (set : (m.mem p j).v = true) :
          ∀ x ∈ subtables m levels (m.mem p j).ppn, (m₁.setPte p i (Pte.ofBits 0)).mem x = m.mem x := by
        intro x member
        rw [← hanging_valid set] at member
        exact cleared.kept apart (inside later member)
      have same : rest.map (hanging (m₁.setPte p i (Pte.ofBits 0)) levels p) = rest.map (hanging m levels p) := by
        refine List.map_congr_left fun j later => ?_
        by_cases set : (m.mem p j).v = true
        · rw [hanging_valid (by rwa [entry later]), entry later, hanging_valid set]
          exact subtables_congr (kept later set)
        · rw [hanging_invalid (by rwa [entry later]), hanging_invalid set]
      obtain ⟨m', rest', last⟩ := ih distinct (m := m₁.setPte p i (Pte.ofBits 0))
        (fun j later set => by
          rw [entry later] at set ⊢
          obtain ⟨plain, deeper⟩ := entries j (List.mem_cons_of_mem _ later) set
          exact ⟨plain, deeper.congr (kept later set)⟩)
        (by rw [same, others]; exact (cleared.add S).nodup apart)
      rw [same, others] at last
      refine ⟨m', ?_, ?_⟩
      · rw [freeEntries]
        refine bind_eq_some.mpr ⟨m, m, rfl, ?_⟩
        simp only [valid, if_true, link, Bool.false_eq_true, if_false]
        rw [child]
        exact bind_eq_some.mpr ⟨(), m₁, ran, bind_eq_some.mpr ⟨(), _, rfl, rest'⟩⟩
      · rw [← add_assoc]
        exact (cleared.add S).trans last
    · rw [hanging_invalid valid, zero_add] at nodup ⊢
      obtain ⟨m', ran, moves⟩ := ih distinct (fun j later => entries j (List.mem_cons_of_mem _ later)) nodup
      refine ⟨m', ?_, moves⟩
      rw [freeEntries]
      refine bind_eq_some.mpr ⟨m, m, rfl, ?_⟩
      simp only [valid]
      exact ran

theorem kfree_returns (ram : InRam L p) (m : Mem) : ∃ m', kfree L p m = some ((), m') :=
  ⟨_, if_neg (not_or.mpr ⟨not_lt.mpr ram.1, not_le.mpr ram.2⟩)⟩

theorem freewalk_spec (hollow : Hollow L m levels p) (nodup : ((m.freelist : Multiset Page) + subtables m levels p).Nodup) :
    ∃ m', freewalk L levels p m = some ((), m') ∧ Moves m.heap m'.heap (subtables m levels p) 0 := by
  induction levels generalizing m p with
  | zero => exact hollow.elim
  | succ levels ih =>
    obtain ⟨ram, entries⟩ := hollow
    obtain ⟨l, all⟩ : ∃ l, List.finRange 512 = l := ⟨_, rfl⟩
    have distinct : l.Nodup := all ▸ List.nodup_finRange 512
    rw [subtables_succ, all] at nodup ⊢
    obtain ⟨m₁, ran, moves⟩ := freeEntries_spec (fun hollow nodup => ih hollow nodup) distinct (fun i _ => entries i) nodup
    obtain ⟨m', gone⟩ := kfree_returns ram m₁
    refine ⟨m', ?_, moves.trans (kfree_moves gone)⟩
    rw [freewalk, all]
    exact bind_eq_some.mpr ⟨(), m₁, ran, gone⟩

/-! ## `uvmfree` -/

theorem px_of_digits (i j k : Fin 512) : px 2 (((i.val * 512 + j) * 512 + k) * PGSIZE) = i ∧
    px 1 (((i.val * 512 + j) * 512 + k) * PGSIZE) = j ∧ px 0 (((i.val * 512 + j) * 512 + k) * PGSIZE) = k := by
  simp only [px, Fin.ext_iff, Fin.val_ofNat, PGSIZE]
  norm_num
  omega

theorem Linked.hollow (linked : Linked m root) (bare : ∀ v, pageMap m root v = none) (ram : ∀ p ∈ tables m root, InRam L p) :
    Hollow L m 3 root := by
  have link {table : List (Fin 512)} {q : Page} {i : Fin 512} (reach : follow (next m.mem) table root = some q)
      (valid : (m.mem q i).v = true) : follow (next m.mem) (table ++ [i]) root = some (m.mem q i).ppn := by
    rw [follow_append, reach]
    simp [follow, next, valid]
  have plain {perm : Perm} (none : perm = .none) : (perm.r || perm.w || perm.x) = false := by
    rw [none]
    rfl
  refine ⟨ram root (mem_span_root ..), fun i first => ?_⟩
  have reach₁ := link (rfl : follow (next m.mem) [] root = some root) first
  refine ⟨plain (linked.link [] root i (by decide) rfl first), ram _ (mem_span_of_follow (by simp) reach₁), fun j second => ?_⟩
  have reach₂ := link reach₁ second
  refine ⟨plain (linked.link _ _ j (by simp) reach₁ second), ram _ (mem_span_of_follow (by simp) reach₂), fun k third => ?_⟩
  have top : i.val < 256 := by
    by_contra high
    rw [linked.low i (not_lt.mp high)] at first
    cases first
  obtain ⟨px₂, px₁, px₀⟩ := px_of_digits i j k
  have small : ((i.val * 512 + j) * 512 + k) * PGSIZE < MAXVA := by
    simp only [PGSIZE, MAXVA]
    omega
  have leaf : Leaf m root (((i.val * 512 + j) * 512 + k) * PGSIZE) _ k :=
    ⟨_, by rw [path, pathFrom, pathFrom, pathFrom, px₂, px₁, px₀]; rfl, reach₂⟩
  have target := target_leaf leaf small
  rw [bare, Pte.target, if_pos third] at target
  cases target

theorem uvmfree_eq (m : Mem) : uvmfree L root sz m =
    ((if sz > 0 then uvmunmap L root 0 (pgRoundUp sz / PGSIZE) true else pure ()) >>= fun _ => freewalk L 3 root) m := by
  unfold uvmfree
  generalize freewalk L 3 root = rest
  split <;> rfl

theorem uvmfree_spec (linked : Linked m root) (few : pagesOf sz ≤ PHYSTOP / PGSIZE) (pages : Removable L m root true 0 (pagesOf sz))
    (bare : ∀ v, pagesOf sz ≤ v → pageMap m root v = none)
    (ram : ∀ p ∈ (m.freelist : Multiset Page) + (tables m root + (pageMap m root).frames 0 (pagesOf sz)), InRam L p)
    (nodup : ((m.freelist : Multiset Page) + (tables m root + (pageMap m root).frames 0 (pagesOf sz))).Nodup) :
    ∃ m', uvmfree L root sz m = some ((), m') ∧
      Moves m.heap m'.heap (tables m root + (pageMap m root).frames 0 (pagesOf sz)) 0 := by
  obtain ⟨m₁, ran, moves, map, linked₁⟩ : ∃ m₁,
      (if sz > 0 then uvmunmap L root 0 (pgRoundUp sz / PGSIZE) true else pure ()) m = some ((), m₁) ∧
      Moves m.heap m₁.heap (tables m root + (pageMap m root).frames 0 (pagesOf sz)) (tables m₁ root) ∧
      (∀ v, pageMap m₁ root v = none) ∧ Linked m₁ root := by
    by_cases some : sz > 0
    · have count : pgRoundUp sz / PGSIZE = pagesOf sz := by
        simp only [pgRoundUp, pagesOf, PHYSTOP, PGSIZE] at *
        omega
      obtain ⟨m₁, ran, _, moves, map, links⟩ := uvmunmap_spec pages nodup
      rw [Nat.zero_mul] at ran
      refine ⟨m₁, ?_, moves, fun v => ?_, links linked⟩
      · rw [if_pos some, count, ran]
      · rw [map, PageMap.remove]
        split
        · rfl
        · rename_i outside
          exact bare v (by simp at outside; omega)
    · obtain rfl : sz = 0 := by omega
      exact ⟨m, rfl, by simpa [pagesOf, PGSIZE, PageMap.frames] using Moves.refl m.heap (tables m root),
        fun v => bare v (by simp [pagesOf, PGSIZE]), linked⟩
  have inRam : ∀ p ∈ tables m₁ root, InRam L p := fun p member => ram p (by simpa using (moves.mem_iff p).mp (.inr member))
  obtain ⟨m', gone, last⟩ := freewalk_spec (linked₁.hollow map inRam) (moves.nodup nodup)
  refine ⟨m', ?_, moves.trans last⟩
  rw [uvmfree_eq]
  exact bind_eq_some.mpr ⟨(), m₁, ran, gone⟩

end OsProjects.Paging
