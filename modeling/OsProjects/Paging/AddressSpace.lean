import OsProjects.Paging.Release

namespace OsProjects.Paging
open Ownership

variable {L : Layout} {m m' : Mem} {root p trapframe : Page} {A B : Multiset Page} {n v sz : ℕ}

/-! ## What a process maps -/

def trampolinePerm : Perm := ⟨true, false, true, false, 0#5⟩

def trapframePerm : Perm := ⟨true, true, false, false, 0#5⟩

/-- A user page table with the two pages of the kernel at its top. -/
structure AddressSpace (L : Layout) (m : Mem) (root : Page) (sz : ℕ) (trapframe : Page) : Prop extends UserTable L m root sz where
  linked : Linked m root
  trampoline : pageMap m root (TRAMPOLINE / PGSIZE) = some (L.trampoline, trampolinePerm)
  trapframe : pageMap m root (TRAPFRAME / PGSIZE) = some (trapframe, trapframePerm)

theorem pagesOf_zero : pagesOf 0 = 0 := by decide

theorem owns_zero (m : Mem) (root : Page) : owns m root 0 = tables m root := by
  rw [owns, pagesOf_zero]
  exact add_zero _

namespace AddressSpace

theorem kept (space : AddressSpace L m root sz trapframe) (moves : Moves m.heap m'.heap A B)
    (nodup : ((m.freelist : Multiset Page) + (A + owns m root sz)).Nodup) (ram : ∀ p ∈ A, InRam L p) :
    AddressSpace L m' root sz trapframe ∧ pageMap m' root = pageMap m root ∧ owns m' root sz = owns m root sz := by
  have apart : ((m.freelist : Multiset Page) + (A + tables m root)).Nodup := by
    rw [← add_assoc A, ← add_assoc] at nodup
    exact (Multiset.nodup_add.mp nodup).1
  have map : pageMap m' root = pageMap m root := pageMap_kept moves apart
  have same : owns m' root sz = owns m root sz := by
    rw [owns, map, show tables m' root = tables m root from cells_kept moves apart]
  have all := (moves.add (owns m root sz)).nodup nodup
  refine ⟨⟨⟨?_, fun p member => ?_, map ▸ space.user, map ▸ space.leaf⟩, space.linked.kept moves apart, map ▸ space.trampoline,
    map ▸ space.trapframe⟩, map, same⟩
  · rw [same]
    exact Multiset.nodup_of_le (add_le_add_right (Multiset.le_add_left _ _) _) all
  · rw [same, Multiset.mem_add, Multiset.mem_coe] at member
    rcases member with free | owned
    · rcases (moves.mem_iff p).mp (.inl free) with before | taken
      · exact space.ram p (Multiset.mem_add.mpr (.inl before))
      · exact ram p taken
    · exact space.ram p (Multiset.mem_add.mpr (.inr owned))

theorem resize {sz' : ℕ} (space : AddressSpace L m root sz trapframe) (same : pagesOf sz' = pagesOf sz) : AddressSpace L m root sz' trapframe := by
  obtain ⟨⟨nodup, ram, user, leaf⟩, linked, trampoline, top⟩ := space
  rw [owns, ← same] at nodup ram
  rw [← same] at user leaf
  exact ⟨⟨nodup, ram, user, leaf⟩, linked, trampoline, top⟩

end AddressSpace

theorem pageMap_beyond (m : Mem) (root : Page) (high : pageCount ≤ v) : pageMap m root v = none := if_neg (not_lt.mpr high)

theorem AddressSpace.userFrame {perm : Perm} (space : AddressSpace L m root sz trapframe) (here : pageMap m root v = some (p, perm)) (user : perm.u = true) :
    v < pagesOf sz ∧ p ∈ (pageMap m root).frames 0 (pagesOf sz) := by
  have low : v < TRAPFRAME / PGSIZE := by
    by_contra high
    by_cases beyond : pageCount ≤ v
    · cases (pageMap_beyond m root beyond).symm.trans here
    · have last : v = TRAPFRAME / PGSIZE ∨ v = TRAMPOLINE / PGSIZE := by
        simp only [pageCount, TRAPFRAME, TRAMPOLINE, MAXVA, PGSIZE] at *
        omega
      rcases last with rfl | rfl
      · rw [space.trapframe] at here
        rw [← (Prod.mk.inj (Option.some.inj here)).2] at user
        cases user
      · rw [space.trampoline] at here
        rw [← (Prod.mk.inj (Option.some.inj here)).2] at user
        cases user
  have inside : v < pagesOf sz := (space.user v low).mp (by rw [here]; rfl)
  exact ⟨inside, PageMap.mem_frames (e := (p, perm)) (by rw [Nat.zero_add, here]) inside⟩

/-- A store to a page of the user. -/
theorem AddressSpace.store {perm : Perm} (space : AddressSpace L m root sz trapframe) (here : pageMap m root v = some (p, perm))
    (user : v < pagesOf sz) (free : m'.freelist = m.freelist) (others : ∀ q ≠ p, m'.mem q = m.mem q) :
    AddressSpace L m' root sz trapframe ∧ Moves m.heap m'.heap (owns m root sz) (owns m' root sz) ∧ pageMap m' root = pageMap m root ∧
      p ∉ tables m root := by
  have frame : p ∈ (pageMap m root).frames 0 (pagesOf sz) := PageMap.mem_frames (e := (p, perm)) (by rw [Nat.zero_add, here]) user
  have unused : p ∉ tables m root := fun member =>
    Multiset.disjoint_left.mp (Multiset.nodup_add.mp (Multiset.nodup_add.mp space.nodup).2.1).2.2 member frame
  have same : ∀ q ∈ tables m root, m'.mem q = m.mem q := fun q member => others q fun equal => unused (equal ▸ member)
  have map : pageMap m' root = pageMap m root := pageMap_congr fun _ => mapped_agree same
  have own : owns m' root sz = owns m root sz := by
    rw [owns, owns, map, show tables m' root = tables m root from cells_agree same]
  have moves : Moves m.heap m'.heap (owns m root sz) (owns m' root sz) := by
    refine ⟨by rw [own]; exact congrArg (fun l : List Page => (l : Multiset Page) + owns m root sz) free, fun q _ away => others q ?_⟩
    rintro rfl
    exact away (Multiset.mem_add.mpr (.inr frame))
  have alone : Moves m.heap m'.heap {p} {p} :=
    ⟨congrArg (fun l : List Page => (l : Multiset Page) + {p}) free, fun q _ away => others q fun equal => away (by simp [equal])⟩
  have apart : ((m.freelist : Multiset Page) + ({p} + tables m root)).Nodup := by
    refine Multiset.nodup_of_le (add_le_add_right ?_ _) space.nodup
    rw [owns, add_comm ({p} : Multiset Page)]
    exact add_le_add_right (Multiset.singleton_le.mpr frame) _
  refine ⟨⟨space.moves moves (map ▸ space.user) (map ▸ space.leaf), space.linked.kept alone apart, map ▸ space.trampoline, map ▸ space.trapframe⟩,
    moves, map, unused⟩

theorem AddressSpace.frame_ne {u : ℕ} {q : Page} {perm perm' : Perm} (space : AddressSpace L m root sz trapframe)
    (here : pageMap m root v = some (p, perm)) (there : pageMap m root u = some (q, perm')) (user : v < pagesOf sz) (user' : u < pagesOf sz)
    (other : u ≠ v) : q ≠ p := by
  have nodup := (Multiset.nodup_add.mp (Multiset.nodup_add.mp space.nodup).2.1).2.1
  rw [← Nat.zero_add v] at here
  rw [← Nat.zero_add u] at there
  rcases Nat.lt_or_gt_of_ne other with less | more
  · exact PageMap.frames_inj nodup there here less user
  · exact (PageMap.frames_inj nodup here there more user').symm

/-! ## `proc_freepagetable` -/

theorem unmapOne (tree : Tree m root) {frame : Page} {perm : Perm} (here : pageMap m root v = some (frame, perm)) (live : perm ≠ .none) :
    ∃ m', uvmunmap L root (v * PGSIZE) 1 false m = some ((), m') ∧ Moves m.heap m'.heap (tables m root) (tables m' root) ∧
      pageMap m' root = Function.update (pageMap m root) v none ∧ (Linked m root → Linked m' root) := by
  have none : freed false ((pageMap m root).frames v 1) = 0 := rfl
  have removable : Removable L m root false v 1 := by
    intro k less
    obtain rfl : k = 0 := by omega
    exact ⟨frame, perm, here, live, fun absurd => by cases absurd⟩
  obtain ⟨m', ran, _, moves, map, links⟩ := uvmunmap_spec removable (by rwa [none, add_zero])
  rw [none, add_zero] at moves
  refine ⟨m', ran, moves, ?_, links⟩
  rw [map, ← PageMap.remove_succ]
  funext u
  exact if_neg (by omega)

theorem TRAMPOLINE_page : TRAMPOLINE = TRAMPOLINE / PGSIZE * PGSIZE := by decide

theorem TRAPFRAME_page : TRAPFRAME = TRAPFRAME / PGSIZE * PGSIZE := by decide

theorem AddressSpace.free (space : AddressSpace L m root sz trapframe) :
    ∃ m', procFreepagetable L root sz m = some ((), m') ∧ Moves m.heap m'.heap (owns m root sz) 0 := by
  obtain ⟨m₁, ran₁, moves₁, map₁, links₁⟩ := unmapOne (L := L) space.tree space.trampoline (by decide)
  have there : pageMap m₁ root (TRAPFRAME / PGSIZE) = some (trapframe, trapframePerm) := by
    rw [map₁, Function.update_of_ne (by decide)]
    exact space.trapframe
  obtain ⟨m₂, ran₂, moves₂, map₂, links₂⟩ := unmapOne (L := L) (moves₁.nodup space.tree) there (by decide)
  rw [← TRAMPOLINE_page] at ran₁
  rw [← TRAPFRAME_page] at ran₂
  rw [map₁] at map₂
  have size := space.size
  have low (v : ℕ) (user : v < pagesOf sz) : pageMap m₂ root v = pageMap m root v := by
    have below : v < TRAPFRAME / PGSIZE ∧ v < TRAMPOLINE / PGSIZE :=
      ⟨user.trans_le (size.trans (by decide)), user.trans_le (size.trans (by decide))⟩
    rw [map₂, Function.update_of_ne below.1.ne, Function.update_of_ne below.2.ne]
  have frames : (pageMap m₂ root).frames 0 (pagesOf sz) = (pageMap m root).frames 0 (pagesOf sz) :=
    PageMap.frames_congr fun k less => low (0 + k) (by omega)
  have moves : Moves m.heap m₂.heap (owns m root sz) (owns m₂ root sz) := by
    rw [owns, owns, frames]
    exact (moves₁.trans moves₂).add _
  have bare (v : ℕ) (above : pagesOf sz ≤ v) : pageMap m₂ root v = none := by
    by_cases user : v < TRAPFRAME / PGSIZE
    · have below : v < TRAMPOLINE / PGSIZE := user.trans (by decide)
      rw [map₂, Function.update_of_ne user.ne, Function.update_of_ne below.ne]
      exact Option.not_isSome_iff_eq_none.mp (mt (space.user v user).mp (not_lt.mpr above))
    · by_cases high : pageCount ≤ v
      · exact pageMap_beyond m₂ root high
      · have last : v = TRAPFRAME / PGSIZE ∨ v = TRAMPOLINE / PGSIZE := by
          simp only [pageCount, TRAPFRAME, TRAMPOLINE, MAXVA, PGSIZE] at *
          omega
        rcases last with rfl | rfl
        · rw [map₂, Function.update_self]
        · rw [map₂, Function.update_of_ne (by decide), Function.update_self]
  have removable : Removable L m₂ root true 0 (pagesOf sz) := by
    intro k less
    obtain ⟨⟨frame, perm⟩, here⟩ := Option.isSome_iff_exists.mp (space.mapped less)
    refine ⟨frame, perm, by rw [Nat.zero_add, low k less, here], space.leaf k less _ here, fun _ => ?_⟩
    refine space.ram frame (Multiset.mem_add.mpr (.inr (Multiset.mem_add.mpr (.inr ?_))))
    exact PageMap.mem_frames (e := (frame, perm)) (by rw [Nat.zero_add, here]) less
  obtain ⟨m', ran, last⟩ := uvmfree_spec (links₂ (links₁ space.linked)) size removable bare
    (fun p member => space.ram p (by
      rw [Multiset.mem_add, Multiset.mem_coe] at member ⊢
      exact (moves.mem_iff p).mp member))
    (moves.nodup space.nodup)
  refine ⟨m', ?_, moves.trans last⟩
  unfold procFreepagetable
  exact bind_eq_some.mpr ⟨(), m₁, ran₁, bind_eq_some.mpr ⟨(), m₂, ran₂, ran⟩⟩

/-! ## `proc_pagetable` -/

theorem uvmfree_empty (linked : Linked m root) (bare : ∀ v, pageMap m root v = none) (ram : ∀ p ∈ (m.freelist : Multiset Page) + tables m root, InRam L p)
    (tree : Tree m root) : ∃ m', uvmfree L root 0 m = some ((), m') ∧ Moves m.heap m'.heap (tables m root) 0 := by
  have pages : Removable L m root true 0 (pagesOf 0) := fun k absurd => by
    rw [pagesOf_zero] at absurd
    omega
  have all : tables m root = owns m root 0 := (owns_zero m root).symm
  rw [Tree, all] at tree
  rw [all] at ram ⊢
  exact uvmfree_spec linked (by decide) pages (fun v _ => bare v) ram tree

theorem uvmcreate_spec (m : Mem) : ∃ r m', uvmcreate m = some (r, m') ∧ (r = none → Moves m.heap m'.heap 0 0) ∧
    ∀ root, r = some root → Moves m.heap m'.heap 0 (tables m' root) ∧ (∀ v, pageMap m' root v = none) ∧ Linked m' root := by
  obtain ⟨answer, m₁, taken⟩ := kalloc_total m
  cases answer with
  | none =>
    refine ⟨none, m₁, bind_eq_some.mpr ⟨none, m₁, taken, rfl⟩, fun _ => ?_, fun root absurd => by cases absurd⟩
    rw [kalloc_none taken]
    exact .refl _ _
  | some fresh =>
    obtain ⟨m₂, filled⟩ : ∃ m₂, fill fresh (memset 0) m₁ = some ((), m₂) := ⟨_, rfl⟩
    refine ⟨some fresh, m₂, bind_eq_some.mpr ⟨some fresh, m₁, taken, bind_eq_some.mpr ⟨(), m₂, filled, rfl⟩⟩, fun absurd => (by cases absurd), ?_⟩
    rintro root ⟨rfl⟩
    have zero : m₂.mem fresh = memset 0 := by
      rw [fill_eq filled]
      exact Function.update_self ..
    have empty (i : Fin 512) : next m₂.mem fresh i = none := next_zero (congrFun zero i)
    have invalid (i : Fin 512) : (m₂.mem fresh i).v = false := by rw [zero]; rfl
    have alone : tables m₂ fresh = {fresh} := span_bare empty
    refine ⟨?_, fun v => ?_, fun i _ => invalid i, fun table q i upper reach valid => ?_⟩
    · rw [alone]
      exact (kalloc_moves taken).trans (fill_moves filled (Multiset.mem_singleton_self fresh))
    · rw [pageMap, mapped, tablePath, follow, empty]
      simp
    · cases table with
      | nil =>
        obtain rfl : fresh = q := Option.some.inj reach
        rw [invalid] at valid
        cases valid
      | cons j rest =>
        rw [follow, empty] at reach
        cases reach

theorem procPagetable_spec (trapframe : Page) (distinct : (m.freelist : Multiset Page).Nodup) (ram : ∀ p ∈ m.freelist, InRam L p) :
    ∃ r m', procPagetable L trapframe m = some (r, m') ∧ (r = none → Moves m.heap m'.heap 0 0) ∧
      ∀ root, r = some root → Moves m.heap m'.heap 0 (owns m' root 0) ∧ AddressSpace L m' root 0 trapframe := by
  obtain ⟨answer, m₁, created, failed, made⟩ := uvmcreate_spec m
  cases answer with
  | none => exact ⟨none, m₁, bind_eq_some.mpr ⟨none, m₁, created, rfl⟩, failed, fun root absurd => by cases absurd⟩
  | some root =>
    obtain ⟨moves₁, bare₁, linked₁⟩ := made root rfl
    have start : ((m.freelist : Multiset Page) + 0).Nodup := by rwa [add_zero]
    have inRam {m' : Mem} (moves : Moves m.heap m'.heap 0 (tables m' root)) : ∀ p ∈ (m'.freelist : Multiset Page) + tables m' root, InRam L p := by
      intro p member
      rw [moves.total, add_zero] at member
      exact ram p member
    have tree₁ : Tree m₁ root := moves₁.nodup start
    obtain ⟨ok₁, m₂, ran₂, _, moves₂, map₂, links₂⟩ :=
      mapPage_spec L.trampoline trampolinePerm tree₁ (by decide : TRAMPOLINE / PGSIZE < pageCount) (bare₁ _)
    rw [← TRAMPOLINE_page] at ran₂
    have done₂ := moves₁.trans moves₂
    have tree₂ : Tree m₂ root := done₂.nodup start
    cases ok₁ with
    | false =>
      obtain ⟨m', ran, gone⟩ := uvmfree_empty (links₂ linked₁) (fun v => (congrFun map₂ v).trans (bare₁ v)) (inRam done₂) tree₂
      refine ⟨none, m', ?_, fun _ => done₂.trans gone, fun root absurd => by cases absurd⟩
      exact bind_eq_some.mpr ⟨some root, m₁, created, bind_eq_some.mpr ⟨false, m₂, ran₂, bind_eq_some.mpr ⟨(), m', ran, rfl⟩⟩⟩
    | true =>
      rw [if_pos rfl] at map₂
      have free : pageMap m₂ root (TRAPFRAME / PGSIZE) = none := by
        rw [map₂, Function.update_of_ne (by decide)]
        exact bare₁ _
      obtain ⟨ok₂, m₃, ran₃, _, moves₃, map₃, links₃⟩ :=
        mapPage_spec trapframe trapframePerm tree₂ (by decide : TRAPFRAME / PGSIZE < pageCount) free
      rw [← TRAPFRAME_page] at ran₃
      have done₃ := done₂.trans moves₃
      have tree₃ : Tree m₃ root := done₃.nodup start
      cases ok₂ with
      | false =>
        rw [if_neg Bool.false_ne_true, map₂] at map₃
        have there : pageMap m₃ root (TRAMPOLINE / PGSIZE) = some (L.trampoline, trampolinePerm) := by
          rw [map₃, Function.update_self]
        obtain ⟨m₄, ran₄, moves₄, map₄, links₄⟩ := unmapOne (L := L) tree₃ there (by decide)
        rw [← TRAMPOLINE_page] at ran₄
        have done₄ := done₃.trans moves₄
        have bare₄ (v : ℕ) : pageMap m₄ root v = none := by
          rw [map₄, map₃, Function.update_idem]
          by_cases last : v = TRAMPOLINE / PGSIZE
          · rw [last, Function.update_self]
          · rw [Function.update_of_ne last, bare₁]
        obtain ⟨m', ran, gone⟩ := uvmfree_empty (links₄ (links₃ (links₂ linked₁))) bare₄ (inRam done₄) (done₄.nodup start)
        refine ⟨none, m', ?_, fun _ => done₄.trans gone, fun root absurd => by cases absurd⟩
        exact bind_eq_some.mpr ⟨some root, m₁, created, bind_eq_some.mpr ⟨true, m₂, ran₂, bind_eq_some.mpr ⟨false, m₃, ran₃,
          bind_eq_some.mpr ⟨(), m₄, ran₄, bind_eq_some.mpr ⟨(), m', ran, rfl⟩⟩⟩⟩⟩
      | true =>
        rw [if_pos rfl, map₂] at map₃
        refine ⟨some root, m₃, ?_, fun absurd => (by cases absurd), ?_⟩
        · exact bind_eq_some.mpr ⟨some root, m₁, created, bind_eq_some.mpr ⟨true, m₂, ran₂, bind_eq_some.mpr ⟨true, m₃, ran₃, rfl⟩⟩⟩
        rintro _ ⟨rfl⟩
        have low (v : ℕ) (user : v < TRAPFRAME / PGSIZE) : pageMap m₃ root v = none := by
          have below : v < TRAMPOLINE / PGSIZE := user.trans (by decide)
          rw [map₃, Function.update_of_ne user.ne, Function.update_of_ne below.ne, bare₁]
        refine ⟨by rwa [owns_zero], ⟨⟨by rwa [owns_zero], by rw [owns_zero]; exact inRam done₃, ?_, ?_⟩, links₃ (links₂ linked₁), ?_, ?_⟩⟩
        · intro v user
          simp [low v user, pagesOf_zero]
        · intro v absurd
          rw [pagesOf_zero] at absurd
          omega
        · rw [map₃, Function.update_of_ne (by decide), Function.update_self]
        · rw [map₃, Function.update_self]

/-! ## `uvmalloc` and `uvmclear` -/

theorem AddressSpace.uvmalloc (space : AddressSpace L m root sz trapframe) (newsz : ℕ) (xperm : Perm) :
    ∃ r m', uvmalloc L root sz newsz xperm m = some (r, m') ∧
      ∃ sz', (r = 0 ∧ sz' = sz ∨ r ≠ 0 ∧ r = sz' ∧ sz' = max sz newsz) ∧ Moves m.heap m'.heap (owns m root sz) (owns m' root sz') ∧
        AddressSpace L m' root sz' trapframe ∧ (∀ v < pagesOf sz, pageMap m' root v = pageMap m root v) ∧
        (∀ p ∈ (pageMap m root).frames 0 (pagesOf sz), m'.mem p = m.mem p) ∧
        ∀ v, pagesOf sz ≤ v → v < pagesOf sz' → ∃ p, pageMap m' root v = some (p, { xperm with r := true, u := true }) ∧ m'.mem p = memset 0 := by
  by_cases less : newsz < sz
  · refine ⟨sz, m, by rw [Paging.uvmalloc, if_pos less]; rfl, sz, .inr ⟨by omega, rfl, by omega⟩, .refl _ _, space, fun _ _ => rfl,
      fun _ _ => rfl, fun v low high => ?_⟩
    omega
  obtain ⟨r, m', sz', ran, outcome, moves, user, links, kept, others, new⟩ := space.toUserTable.alloc (not_lt.mp less) xperm
  have top (v : ℕ) (high : TRAPFRAME / PGSIZE ≤ v) : pageMap m' root v = pageMap m root v :=
    others v (.inr (user.size.trans (le_trans (by decide) high)))
  refine ⟨r, m', ran, sz', ?_, moves, ⟨user, links space.linked, ?_, ?_⟩, fun v before => others v (.inl before), kept, new⟩
  · rcases outcome with ⟨rfl, rfl⟩ | ⟨_, rfl, rfl, _⟩
    · by_cases none : sz' = 0
      · exact .inl ⟨none, by omega⟩
      · exact .inr ⟨none, rfl, by omega⟩
    · exact .inl ⟨rfl, rfl⟩
  · rw [top _ (by decide)]
    exact space.trampoline
  · rw [top _ le_rfl]
    exact space.trapframe

theorem AddressSpace.uvmclear (space : AddressSpace L m root sz trapframe) (user : v < pagesOf sz) {perm : Perm}
    (here : pageMap m root v = some (p, perm)) (readable : perm.r = true) :
    ∃ m', uvmclear root (v * PGSIZE) m = some ((), m') ∧ Moves m.heap m'.heap (owns m root sz) (owns m' root sz) ∧
      AddressSpace L m' root sz trapframe ∧ pageMap m' root = Function.update (pageMap m root) v (some (p, { perm with u := false })) ∧
      ∀ p ∈ (pageMap m root).frames 0 (pagesOf sz), m'.mem p = m.mem p := by
  have page : v * PGSIZE / PGSIZE = v := Nat.mul_div_cancel _ (by decide)
  have here' : pageMap m root (v * PGSIZE / PGSIZE) = some (p, perm) := by rw [page, here]
  obtain ⟨small, q, reach, content⟩ := follow_of_pageMap (Nat.mul_mod_left _ _) here'
  have leaf : Leaf m root (v * PGSIZE) q (px 0 (v * PGSIZE)) := ⟨tablePath _, rfl, reach⟩
  have tree := space.tree.tables
  obtain ⟨pte, cleared⟩ : ∃ pte : Pte, pte = ⟨true, { perm with u := false }, p⟩ := ⟨_, rfl⟩
  have map : pageMap (m.setPte q (px 0 (v * PGSIZE)) pte) root = Function.update (pageMap m root) v (some (p, { perm with u := false })) := by
    rw [pageMap_setPte tree leaf small, page, cleared]
    rfl
  have other (k : ℕ) (away : k ≠ v) : pageMap (m.setPte q (px 0 (v * PGSIZE)) pte) root k = pageMap m root k := by
    rw [map, Function.update_of_ne away]
  have frames : (pageMap (m.setPte q (px 0 (v * PGSIZE)) pte) root).frames 0 (pagesOf sz) = (pageMap m root).frames 0 (pagesOf sz) := by
    rw [PageMap.frames, PageMap.frames]
    congr 1
    refine List.filterMap_congr fun k _ => ?_
    by_cases same : 0 + k = v
    · rw [same, map, Function.update_self, here]
      rfl
    · rw [other _ same]
  have moves : Moves m.heap (m.setPte q (px 0 (v * PGSIZE)) pte).heap (owns m root sz) (owns (m.setPte q (px 0 (v * PGSIZE)) pte) root sz) := by
    rw [owns, owns, frames]
    exact (moves_leaf tree leaf pte).add _
  have below : v < TRAPFRAME / PGSIZE ∧ v < TRAMPOLINE / PGSIZE :=
    ⟨user.trans_le (space.size.trans (by decide)), user.trans_le (space.size.trans (by decide))⟩
  refine ⟨m.setPte q (px 0 (v * PGSIZE)) pte, ?_, moves, ⟨space.moves moves ?_ ?_, space.linked.setLeaf tree leaf pte, ?_, ?_⟩, map,
    fun p member => (moves_leaf tree leaf pte).kept space.nodup member⟩
  · have walked := walk_false m root small
    rw [reach, Option.map_some] at walked
    refine bind_eq_some.mpr ⟨_, m, walked, bind_eq_some.mpr ⟨m, m, rfl, ?_⟩⟩
    rw [content, cleared]
    rfl
  · intro k inside
    by_cases same : k = v
    · rw [same, map, Function.update_self]
      exact iff_of_true rfl user
    · rw [other k same]
      exact space.user k inside
  · intro k inside e entry
    by_cases same : k = v
    · rw [same, map, Function.update_self] at entry
      rw [← Option.some.inj entry]
      simp [Perm.none, readable]
    · rw [other k same] at entry
      exact space.leaf k inside e entry
  · rw [other _ below.2.ne']
    exact space.trampoline
  · rw [other _ below.1.ne']
    exact space.trapframe

end OsProjects.Paging
