import OsProjects.Paging.Map

namespace OsProjects.Paging
open Ownership

variable {L : Layout} {m m₀ m₁ m₂ m' : Mem} {root p : Page} {v n base : ℕ} {perm : Perm} {G : Multiset Page}
  {k newsz : ℕ} {e : Page × Perm}

/-! ## Pages one after the other -/

def PageMap.extendBy (f : PageMap) (base : ℕ) (E : List (Page × Perm)) : PageMap :=
  fun v => if base ≤ v ∧ v < base + E.length then E[v - base]? else f v

theorem PageMap.extendBy_nil (f : PageMap) (base : ℕ) : f.extendBy base [] = f := by
  funext v
  exact if_neg (by rw [List.length_nil]; omega)

theorem PageMap.extendBy_of_notMem (f : PageMap) (E : List (Page × Perm)) (out : v < base ∨ base + E.length ≤ v) :
    f.extendBy base E v = f v := if_neg (by omega)

variable {f : PageMap}

theorem PageMap.extendBy_add (f : PageMap) {E : List (Page × Perm)} (inside : k < E.length) :
    f.extendBy base E (base + k) = E[k]? := by
  rw [PageMap.extendBy, if_pos (by omega), Nat.add_sub_cancel_left]

theorem PageMap.update_extendBy (f : PageMap) (base : ℕ) (E : List (Page × Perm)) (e : Page × Perm) :
    Function.update (f.extendBy base E) (base + E.length) (some e) = f.extendBy base (E ++ [e]) := by
  funext v
  by_cases same : v = base + E.length
  · rw [same, Function.update_self, PageMap.extendBy_add f (by simp)]
    simp
  · rw [Function.update_of_ne same]
    by_cases inside : base ≤ v ∧ v < base + E.length
    · obtain ⟨k, rfl⟩ := Nat.exists_eq_add_of_le inside.1
      rw [PageMap.extendBy_add f (by omega), PageMap.extendBy_add f (by simp; omega), List.getElem?_append_left (by omega)]
    · rw [PageMap.extendBy_of_notMem f _ (by omega), PageMap.extendBy_of_notMem f _ (by simp; omega)]

theorem PageMap.frames_extendBy (f : PageMap) (base : ℕ) (E : List (Page × Perm)) :
    (f.extendBy base E).frames base E.length = (E.map Prod.fst : List Page) := by
  induction E generalizing base with
  | nil => rfl
  | cons e E ih =>
    have first : f.extendBy base (e :: E) base = some (e.1, e.2) := f.extendBy_add (k := 0) (Nat.succ_pos _)
    have rest : ∀ k < E.length, f.extendBy base (e :: E) (base + 1 + k) = f.extendBy (base + 1) E (base + 1 + k) := by
      intro k less
      rw [f.extendBy_add less, Nat.add_assoc, Nat.add_comm 1, f.extendBy_add (by simpa using less), List.getElem?_cons_succ]
    rw [List.length_cons, PageMap.frames_succ _ _ _ first, PageMap.frames_congr rest, ih, List.map_cons, ← Multiset.cons_coe,
      Multiset.singleton_add]

theorem PageMap.remove_extendBy (f : PageMap) (base : ℕ) (E : List (Page × Perm))
    (fresh : ∀ v, base ≤ v → v < base + E.length → f v = none) : (f.extendBy base E).remove base E.length = f := by
  funext v
  rw [PageMap.remove]
  split
  · rename_i inside
    exact (fresh v inside.1 inside.2).symm
  · rename_i outside
    exact PageMap.extendBy_of_notMem f E (by omega)

/-! ## Pages taken from the free list -/

/-- Pages were taken, one for each that the quota lost. -/
structure Takes (m m' : Mem) : Prop where
  quota : m'.quota ≤ m.quota
  pace : m'.quota + m.freelist.length = m.quota + m'.freelist.length
  free : m'.freelist ⊆ m.freelist

theorem Takes.refl (m : Mem) : Takes m m := ⟨le_rfl, rfl, List.Subset.refl _⟩

theorem Takes.trans (first : Takes m m₁) (second : Takes m₁ m₂) : Takes m m₂ where
  quota := second.quota.trans first.quota
  pace := by
    have one := first.pace
    have two := second.pace
    omega
  free := List.Subset.trans second.free first.free

/-- There is no page for a `kalloc`. -/
def Short (m : Mem) : Prop := m.quota = 0 ∨ m.freelist = []

/-- Every page there was for the call has been taken. -/
def Exhausted (m m' : Mem) : Prop := m'.quota = m.quota - m.freelist.length

theorem Takes.exhausted (takes : Takes m m') (short : Short m') : Exhausted m m' := by
  have pace := takes.pace
  unfold Exhausted
  rcases short with none | empty
  · omega
  · rw [empty, List.length_nil] at pace
    omega

theorem kalloc_takes {r : Option Page} (action : kalloc m = some (r, m')) :
    Takes m m' ∧ (∀ p, r = some p → p ∈ m.freelist) ∧ (r = none → Short m') := by
  unfold kalloc at action
  split at action
  · rename_i head rest quota free
    obtain ⟨rfl, rfl⟩ := Prod.mk.inj (Option.some.inj action)
    refine ⟨⟨quota ▸ Nat.le_succ _, ?_, by simp [free]⟩, fun p same => ?_, fun absurd => by cases absurd⟩
    · rw [quota, free, List.length_cons]
      exact (Nat.add_assoc _ _ _).symm.trans (Nat.add_right_comm _ _ _)
    rw [free, ← Option.some.inj same]
    exact List.mem_cons_self
  · rename_i other
    obtain ⟨rfl, rfl⟩ := Prod.mk.inj (Option.some.inj action)
    refine ⟨.refl _, fun p none => (by cases none), fun _ => ?_⟩
    cases quota : m.quota with
    | zero => exact .inl quota
    | succ q =>
      cases free : m.freelist with
      | nil => exact .inr free
      | cons head rest => exact (other q head rest quota free).elim

theorem walkFrom_takes {va level : ℕ} {r : Option (Page × Fin 512)} (action : walkFrom va true level p m = some (r, m')) :
    Takes m m' ∧ (r = none → Short m') := by
  induction level generalizing p m with
  | zero =>
    obtain ⟨rfl, rfl⟩ := pure_eq_some.mp action
    exact ⟨.refl _, fun absurd => by cases absurd⟩
  | succ level ih =>
    simp only [walkFrom, bind_eq_some, get_eq_some] at action
    obtain ⟨_, _, ⟨rfl, rfl⟩, action⟩ := action
    split at action
    · exact ih action
    rw [if_pos trivial] at action
    obtain ⟨answer, m₁, taken, action⟩ := bind_eq_some.mp action
    obtain ⟨takes, _, short⟩ := kalloc_takes taken
    cases answer with
    | none =>
      obtain ⟨rfl, rfl⟩ := pure_eq_some.mp action
      exact ⟨takes, fun _ => short rfl⟩
    | some fresh =>
      simp only [bind_eq_some] at action
      obtain ⟨_, m₂, filled, _, m₃, linked, action⟩ := action
      obtain ⟨rest, short⟩ := ih action
      rw [setPte_eq linked, fill_eq filled] at rest
      exact ⟨takes.trans ⟨rest.quota, rest.pace, rest.free⟩, short⟩

/-! ## One page -/

theorem mapPage_spec (pa : Page) (perm : Perm) (tree : Tree m root) (small : v < pageCount) (free : pageMap m root v = none) :
    ∃ ok m', mappages root (v * PGSIZE) PGSIZE pa perm m = some (ok, m') ∧ (Takes m m' ∧ (ok = false → Short m')) ∧
      Moves m.heap m'.heap (tables m root) (tables m' root) ∧
      (pageMap m' root = if ok then Function.update (pageMap m root) v (some (pa, perm)) else pageMap m root) ∧
      (Linked m root → Linked m' root) := by
  have inside : v * PGSIZE < MAXVA := lt_pageCount.mp small
  have page : v * PGSIZE / PGSIZE = v := Nat.mul_div_cancel _ (by decide)
  obtain ⟨first, last⟩ : pgRoundDown (v * PGSIZE) = v * PGSIZE ∧ pgRoundDown ((v * PGSIZE + PGSIZE - 1) % 2 ^ 64) = v * PGSIZE := by
    simp only [pgRoundDown, PGSIZE, MAXVA] at *
    omega
  obtain ⟨r, m₁, ran⟩ := walkFrom_total (v * PGSIZE) true 2 root m
  have walked : walk root (v * PGSIZE) true m = some (r, m₁) := by rw [walk, if_neg (not_le.mpr inside), ran]
  obtain ⟨_, moves, same, leaf⟩ := walk_moves tree walked
  obtain ⟨takes, short⟩ := walkFrom_takes ran
  rw [mappages, if_neg (by decide), first, last, mapFrom]
  cases r with
  | none => exact ⟨false, m₁, bind_eq_some.mpr ⟨none, m₁, walked, rfl⟩, ⟨takes, fun _ => short rfl⟩, moves, pageMap_congr same, walk_linked tree walked⟩
  | some entry =>
    obtain ⟨q, i⟩ := entry
    have here := leaf q i rfl
    have tree₁ : Tree m₁ root := moves.nodup tree
    have invalid : ¬ (m₁.mem q i).v = true := by
      intro valid
      have target := target_leaf here inside
      rw [page, pageMap_congr same, free, Pte.target, if_pos valid] at target
      cases target
    refine ⟨true, m₁.setPte q i ⟨true, perm, pa⟩, bind_eq_some.mpr ⟨some (q, i), m₁, walked, bind_eq_some.mpr ⟨m₁, m₁, rfl, ?_⟩⟩,
      ⟨⟨takes.quota, takes.pace, takes.free⟩, fun absurd => by cases absurd⟩,
      moves.trans (moves_leaf tree₁.tables here ⟨true, perm, pa⟩), ?_,
      fun linked => (walk_linked tree walked linked).setLeaf tree₁.tables here _⟩
    · simp only [if_neg invalid, if_true]
      exact bind_eq_some.mpr ⟨(), _, rfl, rfl⟩
    · rw [pageMap_setPte tree₁.tables here inside, pageMap_congr same, page]
      rfl

theorem addPage_spec (data : Fin 512 → Pte) (perm : Perm) (tree : Tree m root) (small : v < pageCount) (free : pageMap m root v = none)
    (taken : kalloc m = some (some p, m₁)) (filled : fill p data m₁ = some ((), m₂)) :
    ∃ ok m', mappages root (v * PGSIZE) PGSIZE p perm m₂ = some (ok, m') ∧ p ∈ m.freelist ∧ (Takes m m' ∧ (ok = false → Short m')) ∧
      Moves m.heap m'.heap (tables m root) (tables m' root + {p}) ∧ m'.mem p = data ∧
      (pageMap m' root = if ok then Function.update (pageMap m root) v (some (p, perm)) else pageMap m root) ∧
      (Linked m root → Linked m' root) := by
  have gained : Moves m.heap m₂.heap 0 {p} := (kalloc_moves taken).trans (fill_moves filled (Multiset.mem_singleton_self p))
  have alone : ((m.freelist : Multiset Page) + (0 + tables m root)).Nodup := by
    rw [zero_add]
    exact tree
  have kept : tables m₂ root = tables m root := cells_kept gained alone
  have first : Moves m.heap m₂.heap (tables m root) (tables m₂ root + {p}) := by
    rw [kept, add_comm]
    simpa using gained.add (tables m root)
  have nodup : ((m₂.freelist : Multiset Page) + (tables m₂ root + {p})).Nodup := first.nodup tree
  have tree₂ : Tree m₂ root := (Multiset.nodup_add.mp (by rwa [add_assoc])).1
  obtain ⟨ok, m', ran, ⟨takes, short⟩, moves, map, links⟩ := mapPage_spec p perm tree₂ small ((congrFun (pageMap_kept gained alone) v).trans free)
  obtain ⟨popped, member, _⟩ := kalloc_takes taken
  have takes₂ : Takes m m₂ := by
    rw [fill_eq filled]
    exact ⟨popped.quota, popped.pace, popped.free⟩
  refine ⟨ok, m', ran, member p rfl, ⟨takes₂.trans takes, short⟩, first.trans (moves.add {p}), ?_, ?_,
    fun linked => links (linked.kept gained alone)⟩
  · have content : m'.mem p = m₂.mem p := moves.kept nodup (Multiset.mem_singleton_self p)
    rw [content, fill_eq filled]
    exact Function.update_self p _ _
  · rw [map, pageMap_kept gained alone]

/-! ## Pages that were added since the start -/

structure Filled (m₀ m : Mem) (root : Page) (base : ℕ) (E : List (Page × Perm)) : Prop where
  moves : Moves m₀.heap m.heap (tables m₀ root) (tables m root + (E.map Prod.fst : List Page))
  map : pageMap m root = (pageMap m₀ root).extendBy base E
  taken : ∀ e ∈ E, e.1 ∈ m₀.freelist
  free : m.freelist ⊆ m₀.freelist

variable {E : List (Page × Perm)}

theorem Filled.start (m : Mem) (root : Page) (base : ℕ) : Filled m m root base [] where
  moves := by simpa using Moves.refl m.heap (tables m root)
  map := (PageMap.extendBy_nil ..).symm
  taken := by simp
  free := List.Subset.refl _

section
variable (filled : Filled m₀ m root base E)
include filled

theorem Filled.nodup (tree : Tree m₀ root) :
    ((m.freelist : Multiset Page) + (tables m root + (E.map Prod.fst : List Page))).Nodup := filled.moves.nodup tree

theorem Filled.tree (tree : Tree m₀ root) : Tree m root := by
  have nodup := filled.nodup tree
  rw [← add_assoc] at nodup
  exact (Multiset.nodup_add.mp nodup).1

theorem Filled.add (member : e.1 ∈ m.freelist) (fewer : m'.freelist ⊆ m.freelist)
    (moves : Moves m.heap m'.heap (tables m root) (tables m' root + {e.1}))
    (map : pageMap m' root = Function.update (pageMap m root) (base + E.length) (some e)) :
    Filled m₀ m' root base (E ++ [e]) where
  moves := by
    have both := filled.moves.trans (moves.add (E.map Prod.fst : List Page))
    rw [List.map_append, ← Multiset.coe_add, add_comm (E.map Prod.fst : Multiset Page), ← add_assoc]
    exact both
  map := by rw [map, filled.map, PageMap.update_extendBy]
  taken e' inside := by
    rcases List.mem_append.mp inside with old | new
    · exact filled.taken e' old
    · rw [List.mem_singleton.mp new]
      exact filled.free member
  free := List.Subset.trans fewer filled.free

theorem Filled.undo (tree : Tree m₀ root) (visible : ∀ e ∈ E, e.2 ≠ Perm.none)
    (fresh : ∀ v, base ≤ v → v < base + E.length → pageMap m₀ root v = none)
    (ram : ∀ e ∈ E, L.kernelEnd ≤ e.1 ∧ e.1 < PHYSTOP / PGSIZE) :
    ∃ m', uvmunmap L root (base * PGSIZE) E.length true m = some ((), m') ∧ m'.quota = m.quota ∧
      Moves m₀.heap m'.heap (tables m₀ root) (tables m' root) ∧ pageMap m' root = pageMap m₀ root ∧
      (Linked m root → Linked m' root) := by
  have frames : freed true ((pageMap m root).frames base E.length) = (E.map Prod.fst : List Page) := by
    rw [filled.map, PageMap.frames_extendBy]
    rfl
  have nodup := filled.nodup tree
  rw [← frames] at nodup
  have removable : Removable L m root true base E.length := by
    intro k less
    have member := List.getElem_mem less
    refine ⟨_, _, ?_, visible _ member, fun _ => ram _ member⟩
    rw [filled.map, PageMap.extendBy_add _ less, List.getElem?_eq_getElem less]
  obtain ⟨m', ran, quota, moves, map, links⟩ := uvmunmap_spec removable nodup
  rw [frames] at moves
  refine ⟨m', ran, quota, filled.moves.trans moves, ?_, links⟩
  rw [map, filled.map, PageMap.remove_extendBy _ _ _ fresh]

theorem Filled.giveBack (tree : Tree m₀ root) (member : p ∈ m.freelist)
    (fewer : m'.freelist ⊆ m.freelist) (moves : Moves m.heap m'.heap (tables m root) (tables m' root + {p})) (map : pageMap m' root = pageMap m root)
    (ram : L.kernelEnd ≤ p ∧ p < PHYSTOP / PGSIZE) : ∃ m₁, kfree L p m' = some ((), m₁) ∧ m₁.quota = m'.quota ∧ Filled m₀ m₁ root base E ∧
      (Linked m' root → Linked m₁ root) := by
  have freed : kfree L p m' = some ((), { m' with freelist := p :: m'.freelist, mem := Function.update m'.mem p (memset 1) }) :=
    if_neg (not_or.mpr ⟨not_lt.mpr ram.1, not_le.mpr ram.2⟩)
  refine ⟨_, freed, rfl, ?_⟩
  have gone := kfree_moves freed
  have nodup : ((m'.freelist : Multiset Page) + ({p} + tables m' root)).Nodup := by
    rw [add_comm _ (tables m' root)]
    exact moves.nodup (filled.tree tree)
  have kept : tables { m' with freelist := p :: m'.freelist, mem := Function.update m'.mem p (memset 1) } root = tables m' root :=
    cells_kept gone nodup
  have last := gone.add (tables m' root)
  rw [zero_add, add_comm _ (tables m' root)] at last
  nth_rewrite 2 [← kept] at last
  exact ⟨⟨filled.moves.trans ((moves.trans last).add _), (pageMap_kept gone nodup).trans (map.trans filled.map), filled.taken,
    List.cons_subset.mpr ⟨filled.free member, List.Subset.trans fewer filled.free⟩⟩, fun linked => linked.kept gone nodup⟩

end

/-! ## User page tables -/

def pagesOf (sz : ℕ) : ℕ := (sz + PGSIZE - 1) / PGSIZE

def InRam (L : Layout) (p : Page) : Prop := L.kernelEnd ≤ p ∧ p < PHYSTOP / PGSIZE

abbrev owns (m : Mem) (root : Page) (sz : ℕ) : Multiset Page := tables m root + (pageMap m root).frames 0 (pagesOf sz)

/-- A page table whose user pages are those of `[0, PGROUNDUP(sz))`, each its own page of RAM. -/
structure UserTable (L : Layout) (m : Mem) (root : Page) (sz : ℕ) : Prop where
  nodup : ((m.freelist : Multiset Page) + owns m root sz).Nodup
  ram : ∀ p ∈ (m.freelist : Multiset Page) + owns m root sz, InRam L p
  user : ∀ v < TRAPFRAME / PGSIZE, (pageMap m root v).isSome ↔ v < pagesOf sz
  leaf : ∀ v < pagesOf sz, ∀ e, pageMap m root v = some e → e.2 ≠ .none

theorem card_le_ram {A : Multiset Page} (nodup : A.Nodup) (ram : ∀ p ∈ A, InRam L p) : A.card ≤ PHYSTOP / PGSIZE := by
  rw [← Multiset.toFinset_card_of_nodup nodup, ← Finset.card_range (PHYSTOP / PGSIZE)]
  exact Finset.card_le_card fun p member => Finset.mem_range.mpr (ram p (Multiset.mem_toFinset.mp member)).2

theorem PageMap.card_frames {first : ℕ} (all : ∀ k < n, (f (first + k)).isSome) : (f.frames first n).card = n := by
  induction n generalizing first with
  | zero => rfl
  | succ n ih =>
    obtain ⟨e, here⟩ := Option.isSome_iff_exists.mp (all 0 (Nat.succ_pos n))
    rw [PageMap.frames_succ f first n here, Multiset.card_add, Multiset.card_singleton, ih fun k less => ?_, Nat.add_comm]
    rw [Nat.add_assoc, Nat.add_comm 1]
    exact all (k + 1) (by omega)

theorem PageMap.frames_le (f : PageMap) (base : ℕ) (less : k ≤ n) : f.frames base k ≤ f.frames base n := by
  rw [PageMap.frames, PageMap.frames, Multiset.coe_le]
  exact ((List.range_sublist.mpr less).filterMap _).subperm

theorem PageMap.frames_add (f : PageMap) (first n k : ℕ) : f.frames first (n + k) = f.frames first n + f.frames (first + n) k := by
  rw [PageMap.frames, PageMap.frames, PageMap.frames, List.range_add, List.filterMap_append, List.filterMap_map, ← Multiset.coe_add]
  simp only [Function.comp_def, Nat.add_assoc]

theorem PageMap.mem_frames (here : f (base + k) = some e) (less : k < n) : e.1 ∈ f.frames base n := by
  refine List.mem_filterMap.mpr ⟨k, List.mem_range.mpr less, ?_⟩
  rw [here]
  rfl

theorem PageMap.frames_inj {e' : Page × Perm} {j : ℕ} (nodup : (f.frames base n).Nodup) (first : f (base + j) = some e)
    (second : f (base + k) = some e') (less : j < k) (inside : k < n) : e.1 ≠ e'.1 := by
  intro same
  have split := PageMap.frames_add f base k (n - k)
  rw [show k + (n - k) = n by omega] at split
  rw [split] at nodup
  refine Multiset.disjoint_left.mp (Multiset.nodup_add.mp nodup).2.2 (PageMap.mem_frames first less) ?_
  rw [same]
  exact PageMap.mem_frames (k := 0) second (by omega)

variable {sz : ℕ}

theorem UserTable.tree (space : UserTable L m root sz) : Tree m root := by
  have nodup := space.nodup
  rw [← add_assoc] at nodup
  exact (Multiset.nodup_add.mp nodup).1

theorem UserTable.size (space : UserTable L m root sz) : pagesOf sz ≤ PHYSTOP / PGSIZE := by
  by_contra large
  have few : PHYSTOP / PGSIZE + 1 ≤ pagesOf sz := by omega
  have all : ∀ k < PHYSTOP / PGSIZE + 1, (pageMap m root (0 + k)).isSome := by
    intro k less
    rw [Nat.zero_add]
    refine (space.user k ?_).mpr (by omega)
    exact lt_of_lt_of_le less (by decide)
  have frames : ∀ p ∈ (pageMap m root).frames 0 (pagesOf sz), InRam L p :=
    fun p member => space.ram p (Multiset.mem_add.mpr (.inr (Multiset.mem_add.mpr (.inr member))))
  have nodup := (Multiset.nodup_add.mp (Multiset.nodup_add.mp space.nodup).2.1).2.1
  have most := (Multiset.card_le_card (PageMap.frames_le (pageMap m root) 0 few)).trans (card_le_ram nodup frames)
  rw [PageMap.card_frames all] at most
  omega

theorem UserTable.mapped (space : UserTable L m root sz) (less : v < pagesOf sz) : (pageMap m root v).isSome :=
  (space.user v (less.trans_le (space.size.trans (by decide)))).mpr less

theorem UserTable.card (space : UserTable L m root sz) : ((pageMap m root).frames 0 (pagesOf sz)).card = pagesOf sz :=
  PageMap.card_frames fun k less => by
    rw [Nat.zero_add]
    exact space.mapped less

theorem Filled.bound (filled : Filled m₀ m root base E) {U : Multiset Page}
    (nodup : ((m₀.freelist : Multiset Page) + (tables m₀ root + U)).Nodup)
    (ram : ∀ p ∈ (m₀.freelist : Multiset Page) + (tables m₀ root + U), InRam L p) : U.card + E.length ≤ PHYSTOP / PGSIZE := by
  have both : ((E.map Prod.fst : List Page) + U : Multiset Page).Nodup := by
    have all := (filled.moves.add U).nodup nodup
    rw [add_assoc] at all
    exact (Multiset.nodup_add.mp (Multiset.nodup_add.mp all).2.1).2.1
  have few := card_le_ram (L := L) both fun p member => by
    refine ram p (Multiset.mem_add.mpr ?_)
    rcases Multiset.mem_add.mp member with added | old
    · obtain ⟨e, inside, rfl⟩ := List.mem_map.mp added
      exact .inl (filled.taken e inside)
    · exact .inr (Multiset.mem_add.mpr (.inr old))
  rw [Multiset.card_add, Multiset.coe_card, List.length_map] at few
  omega

theorem UserTable.moves {sz' : ℕ} (space : UserTable L m root sz) (moves : Moves m.heap m'.heap (owns m root sz) (owns m' root sz'))
    (user : ∀ v < TRAPFRAME / PGSIZE, (pageMap m' root v).isSome ↔ v < pagesOf sz')
    (leaf : ∀ v < pagesOf sz', ∀ e, pageMap m' root v = some e → e.2 ≠ .none) : UserTable L m' root sz' where
  nodup := moves.nodup space.nodup
  ram p member := space.ram p (by
    rw [Multiset.mem_add, Multiset.mem_coe] at member ⊢
    exact (moves.mem_iff p).mp member)
  user := user
  leaf := leaf

theorem UserTable.same (space : UserTable L m root sz) (moves : Moves m.heap m'.heap (tables m root) (tables m' root))
    (map : pageMap m' root = pageMap m root) : Moves m.heap m'.heap (owns m root sz) (owns m' root sz) ∧ UserTable L m' root sz := by
  have own : Moves m.heap m'.heap (owns m root sz) (owns m' root sz) := by
    rw [owns, owns, map]
    exact moves.add _
  exact ⟨own, space.moves own (map ▸ space.user) (map ▸ space.leaf)⟩

theorem UserTable.filled {sz' : ℕ} (space : UserTable L m root sz) (filled : Filled m m' root (pagesOf sz) E)
    (count : pagesOf sz' = pagesOf sz + E.length) (visible : ∀ e ∈ E, e.2 ≠ .none) :
    Moves m.heap m'.heap (owns m root sz) (owns m' root sz') ∧ UserTable L m' root sz' := by
  have old (v : ℕ) (before : v < pagesOf sz) : pageMap m' root v = pageMap m root v := by
    rw [filled.map, PageMap.extendBy_of_notMem _ _ (.inl before)]
  have new (v : ℕ) (low : pagesOf sz ≤ v) (high : v < pagesOf sz') : ∃ e ∈ E, pageMap m' root v = some e := by
    obtain ⟨k, rfl⟩ := Nat.exists_eq_add_of_le low
    have inside : k < E.length := by omega
    rw [filled.map, PageMap.extendBy_add _ inside, List.getElem?_eq_getElem inside]
    exact ⟨E[k], List.getElem_mem inside, rfl⟩
  have moves : Moves m.heap m'.heap (owns m root sz) (owns m' root sz') := by
    have frames : (pageMap m' root).frames 0 (pagesOf sz') = (E.map Prod.fst : List Page) + (pageMap m root).frames 0 (pagesOf sz) := by
      rw [count, PageMap.frames_add, PageMap.frames_congr fun k before => old (0 + k) (by omega), Nat.zero_add, filled.map,
        PageMap.frames_extendBy, add_comm]
    rw [owns, owns, frames, ← add_assoc]
    exact filled.moves.add _
  refine ⟨moves, space.moves moves (fun v user => ?_) fun v less e here => ?_⟩
  · by_cases before : v < pagesOf sz
    · rw [old v before]
      exact iff_of_true (space.mapped before) (by omega)
    · by_cases inside : v < pagesOf sz'
      · obtain ⟨e, _, here⟩ := new v (not_lt.mp before) inside
        simp [here, inside]
      · rw [filled.map, PageMap.extendBy_of_notMem _ _ (.inr (by omega)), space.user v user]
        exact iff_of_false before inside
  · by_cases before : v < pagesOf sz
    · rw [old v before] at here
      exact space.leaf v before e here
    · obtain ⟨e', member, there⟩ := new v (not_lt.mp before) less
      rw [← Option.some.inj (there.symm.trans here)]
      exact visible e' member

/-! ## `uvmalloc` -/

/-- The call unmaps the pages that are only in the old size. -/
theorem uvmdealloc_eq {first : ℕ} (bound : first + n ≤ PHYSTOP / PGSIZE) (less : newsz ≤ sz) (start : pagesOf newsz = first)
    (count : pagesOf sz = first + n) (ran : uvmunmap L root (first * PGSIZE) n true m = some ((), m')) :
    uvmdealloc L root sz newsz m = some (newsz, m') := by
  obtain ⟨round, round'⟩ : pgRoundUp newsz = first * PGSIZE ∧ pgRoundUp sz = (first + n) * PGSIZE := by
    simp only [pgRoundUp, pagesOf, PHYSTOP, PGSIZE] at *
    omega
  have none (zero : n = 0) : m' = m := by
    rw [zero, uvmunmap, if_neg (not_not.mpr (Nat.mul_mod_left _ _)), Nat.zero_mul, Nat.add_zero,
      Nat.div_eq_of_lt (by simp only [PHYSTOP, PGSIZE] at *; omega)] at ran
    exact (pure_eq_some.mp ran).2.symm
  rw [uvmdealloc]
  by_cases equal : newsz = sz
  · rw [if_pos equal.ge, equal, none (by rw [← start, equal] at count; omega)]
    rfl
  · rw [if_neg (by omega), round, round']
    by_cases some : first * PGSIZE < (first + n) * PGSIZE
    · have pages : ((first + n) * PGSIZE - first * PGSIZE) / PGSIZE = n := by
        rw [← Nat.sub_mul, Nat.add_sub_cancel_left, Nat.mul_div_cancel _ (by decide)]
      rw [if_pos some, pages]
      exact bind_eq_some.mpr ⟨(), m', ran, rfl⟩
    · rw [if_neg some, none (by simp only [PGSIZE] at some; omega)]
      rfl

theorem uvmdealloc_undo (filled : Filled m₀ m root base E) (tree : Tree m₀ root) (visible : ∀ e ∈ E, e.2 ≠ Perm.none)
    (fresh : ∀ v, base ≤ v → v < base + E.length → pageMap m₀ root v = none) (ram : ∀ e ∈ E, InRam L e.1)
    (bound : base + E.length ≤ PHYSTOP / PGSIZE) :
    ∃ m', uvmdealloc L root ((base + E.length) * PGSIZE) (base * PGSIZE) m = some (base * PGSIZE, m') ∧ m'.quota = m.quota ∧
      Moves m₀.heap m'.heap (tables m₀ root) (tables m' root) ∧ pageMap m' root = pageMap m₀ root ∧
      (Linked m root → Linked m' root) := by
  obtain ⟨m', ran, rest⟩ := filled.undo tree visible fresh ram
  have pages (k : ℕ) : pagesOf (k * PGSIZE) = k := by
    simp only [pagesOf, PGSIZE]
    omega
  exact ⟨m', uvmdealloc_eq bound (Nat.mul_le_mul_right _ (Nat.le_add_right ..)) (pages _) (pages _) ran, rest⟩

theorem allocFrom_rolls (newsz n : ℕ) (perm : Perm) {U : Multiset Page} (nodup : ((m₀.freelist : Multiset Page) + (tables m₀ root + U)).Nodup)
    (ram : ∀ p ∈ (m₀.freelist : Multiset Page) + (tables m₀ root + U), InRam L p) (card : U.card = base) (visible : perm ≠ .none)
    (fresh : ∀ v, base ≤ v → v < TRAPFRAME / PGSIZE → pageMap m₀ root v = none)
    (filled : Filled m₀ m root base E) (takes : Takes m₀ m) (zeros : ∀ e ∈ E, e.2 = perm ∧ m.mem e.1 = memset 0) :
    ∃ r m', allocFrom L root (base * PGSIZE) newsz perm n ((base + E.length) * PGSIZE) m = some (r, m') ∧
      (Linked m root → Linked m' root) ∧
      ((r = newsz ∧ ∃ E', E'.length = E.length + n ∧ Filled m₀ m' root base E' ∧ ∀ e ∈ E', e.2 = perm ∧ m'.mem e.1 = memset 0) ∨
        (0 < n ∧ r = 0 ∧ Exhausted m₀ m' ∧ Moves m₀.heap m'.heap (tables m₀ root) (tables m' root) ∧ pageMap m' root = pageMap m₀ root)) := by
  have tree : Tree m₀ root := (Multiset.nodup_add.mp (by rwa [add_assoc])).1
  have inRam : ∀ p ∈ m₀.freelist, InRam L p := fun p member => ram p (Multiset.mem_add.mpr (.inl member))
  induction n generalizing m E with
  | zero => exact ⟨newsz, m, rfl, id, .inl ⟨rfl, E, rfl, filled, zeros⟩⟩
  | succ n ih =>
    have bound := filled.bound nodup ram
    rw [card] at bound
    have unmapped : ∀ v, base ≤ v → v < base + E.length → pageMap m₀ root v = none :=
      fun v low high => fresh v low (high.trans_le (bound.trans (by decide)))
    have here : base + E.length < TRAPFRAME / PGSIZE := bound.trans_lt (by decide)
    have visible' : ∀ e ∈ E, e.2 ≠ Perm.none := fun e member => (zeros e member).1 ▸ visible
    have added : ∀ e ∈ E, InRam L e.1 := fun e member => inRam _ (filled.taken e member)
    obtain ⟨answer, m₁, taken⟩ := kalloc_total m
    cases answer with
    | none =>
      obtain rfl := kalloc_none taken
      obtain ⟨m', ran, quota, moves, map, links⟩ := uvmdealloc_undo filled tree visible' unmapped added bound
      have spent : Exhausted m₀ m' := quota.trans (takes.exhausted ((kalloc_takes taken).2.2 rfl))
      exact ⟨0, m', bind_eq_some.mpr ⟨none, _, taken, bind_eq_some.mpr ⟨_, m', ran, rfl⟩⟩, links,
        .inr ⟨Nat.succ_pos n, rfl, spent, moves, map⟩⟩
    | some p =>
      have stored : fill p (memset 0) m₁ = some ((), { m₁ with mem := Function.update m₁.mem p (memset 0) }) := rfl
      have empty : pageMap m root (base + E.length) = none := by
        rw [filled.map, PageMap.extendBy_of_notMem _ _ (.inr le_rfl)]
        exact fresh _ (by omega) here
      obtain ⟨ok, m₃, made, member, ⟨taking, short⟩, moves, content, map, links⟩ :=
        addPage_spec (memset 0) perm (filled.tree tree) (here.trans (by decide)) empty taken stored
      cases ok with
      | true =>
        have more : Filled m₀ m₃ root base (E ++ [(p, perm)]) := filled.add member taking.free moves map
        have zeros' : ∀ e ∈ E ++ [(p, perm)], e.2 = perm ∧ m₃.mem e.1 = memset 0 := by
          intro e member
          rcases List.mem_append.mp member with old | new
          · have kept : m₃.mem e.1 = m.mem e.1 := moves.kept (filled.nodup tree) (List.mem_map_of_mem old)
            rw [kept]
            exact zeros e old
          · obtain rfl := List.mem_singleton.mp new
            exact ⟨rfl, content⟩
        obtain ⟨r, m', ran, links', outcome⟩ := ih more (takes.trans taking) zeros'
        have next : (base + E.length) * PGSIZE + PGSIZE = (base + (E ++ [(p, perm)]).length) * PGSIZE := by
          rw [List.length_append, List.length_singleton, ← Nat.add_assoc, Nat.succ_mul]
        refine ⟨r, m', bind_eq_some.mpr ⟨some p, m₁, taken, bind_eq_some.mpr ⟨(), _, stored,
          bind_eq_some.mpr ⟨true, m₃, made, ?_⟩⟩⟩, fun linked => links' (links linked), ?_⟩
        · simp only [if_true]
          rw [next]
          exact ran
        · rcases outcome with ⟨rfl, E', length, rest⟩ | ⟨_, failed⟩
          · refine .inl ⟨rfl, E', ?_, rest⟩
            rw [length, List.length_append, List.length_singleton]
            omega
          · exact .inr ⟨Nat.succ_pos n, failed⟩
      | false =>
        obtain ⟨m₄, gone, same, filled, back⟩ := filled.giveBack tree member taking.free moves map (inRam p (filled.free member))
        obtain ⟨m', ran, quota, moves, map, undone⟩ := uvmdealloc_undo filled tree visible' unmapped added bound
        have spent : Exhausted m₀ m' := (quota.trans same).trans ((takes.trans taking).exhausted (short rfl))
        exact ⟨0, m', bind_eq_some.mpr ⟨some p, m₁, taken, bind_eq_some.mpr ⟨(), _, stored,
          bind_eq_some.mpr ⟨false, m₃, made, bind_eq_some.mpr ⟨(), m₄, gone, bind_eq_some.mpr ⟨_, m', ran, rfl⟩⟩⟩⟩⟩,
          fun linked => undone (back (links linked)), .inr ⟨Nat.succ_pos n, rfl, spent, moves, map⟩⟩

theorem uvmalloc_rolls (space : UserTable L m root sz) (more : sz ≤ newsz) (xperm : Perm) :
    ∃ r m', uvmalloc L root sz newsz xperm m = some (r, m') ∧ (Linked m root → Linked m' root) ∧
      ((r = newsz ∧ pagesOf sz ≤ pagesOf newsz ∧ ∃ E, E.length = pagesOf newsz - pagesOf sz ∧ Filled m m' root (pagesOf sz) E ∧
          ∀ e ∈ E, e.2 = { xperm with r := true, u := true } ∧ m'.mem e.1 = memset 0) ∨
        (0 < newsz ∧ r = 0 ∧ Exhausted m m' ∧ Moves m.heap m'.heap (tables m root) (tables m' root) ∧ pageMap m' root = pageMap m root)) := by
  have size := space.size
  have round : pgRoundUp sz = pagesOf sz * PGSIZE := by
    simp only [pgRoundUp, pagesOf, PHYSTOP, PGSIZE] at *
    omega
  obtain ⟨n, count⟩ : ∃ n, (newsz - pagesOf sz * PGSIZE + PGSIZE - 1) / PGSIZE = n := ⟨_, rfl⟩
  have total : n = pagesOf newsz - pagesOf sz ∧ pagesOf sz ≤ pagesOf newsz := by
    simp only [pagesOf, PGSIZE] at *
    omega
  have fresh : ∀ v, pagesOf sz ≤ v → v < TRAPFRAME / PGSIZE → pageMap m root v = none := fun v above user =>
    Option.not_isSome_iff_eq_none.mp (mt (space.user v user).mp (not_lt.mpr above))
  obtain ⟨r, m', ran, links, outcome⟩ := allocFrom_rolls newsz n { xperm with r := true, u := true } space.nodup space.ram
    space.card (by simp [Perm.none]) fresh (Filled.start m root (pagesOf sz)) (.refl m) (by simp)
  refine ⟨r, m', ?_, links, ?_⟩
  · rw [uvmalloc, if_neg (not_lt.mpr more), round, count]
    exact ran
  · rcases outcome with ⟨done, E, length, rest⟩ | ⟨positive, rest⟩
    · refine .inl ⟨done, total.2, E, ?_, rest⟩
      rw [length, List.length_nil, Nat.zero_add]
      exact total.1
    · refine .inr ⟨?_, rest⟩
      simp only [pagesOf, PGSIZE] at *
      omega

/-- What a call of `uvmalloc` leaves: the page table for the new size or, where there was no page, for the old one. The
pages from the old end on are new and zero. -/
theorem UserTable.alloc (space : UserTable L m root sz) (more : sz ≤ newsz) (xperm : Perm) :
    ∃ r m' sz', uvmalloc L root sz newsz xperm m = some (r, m') ∧
      (r = newsz ∧ sz' = newsz ∨ 0 < newsz ∧ r = 0 ∧ sz' = sz ∧ Exhausted m m' ∧ pageMap m' root = pageMap m root) ∧
      Moves m.heap m'.heap (owns m root sz) (owns m' root sz') ∧ UserTable L m' root sz' ∧ (Linked m root → Linked m' root) ∧
      (∀ p ∈ (pageMap m root).frames 0 (pagesOf sz), m'.mem p = m.mem p) ∧
      (∀ v, v < pagesOf sz ∨ pagesOf sz' ≤ v → pageMap m' root v = pageMap m root v) ∧
      ∀ v, pagesOf sz ≤ v → v < pagesOf sz' → ∃ p, pageMap m' root v = some (p, { xperm with r := true, u := true }) ∧ m'.mem p = memset 0 := by
  obtain ⟨r, m', ran, links, outcome⟩ := uvmalloc_rolls space more xperm
  rcases outcome with ⟨done, order, E, length, filled, zeros⟩ | ⟨positive, rfl, spent, moves, map⟩
  · have count : pagesOf newsz = pagesOf sz + E.length := by omega
    obtain ⟨moves, user⟩ := space.filled filled count fun e member => by
      rw [(zeros e member).1]
      simp [Perm.none]
    refine ⟨r, m', newsz, ran, .inl ⟨done, rfl⟩, moves, user, links, fun p member => filled.moves.kept space.nodup member,
      fun v out => ?_, fun v low high => ?_⟩
    · rw [filled.map, PageMap.extendBy_of_notMem _ _ (by omega)]
    · obtain ⟨k, rfl⟩ := Nat.exists_eq_add_of_le low
      have inside : k < E.length := by omega
      obtain ⟨perm, zero⟩ := zeros _ (List.getElem_mem inside)
      rw [filled.map, PageMap.extendBy_add _ inside, List.getElem?_eq_getElem inside]
      exact ⟨E[k].1, by rw [← perm], zero⟩
  · obtain ⟨own, user⟩ := space.same moves map
    exact ⟨0, m', sz, ran, .inr ⟨positive, rfl, rfl, spent, map⟩, own, user, links, fun p member => moves.kept space.nodup member,
      fun v _ => by rw [map], fun v low high => by omega⟩

/-! ## `uvmdealloc` -/

theorem UserTable.dealloc (space : UserTable L m root sz) (less : newsz ≤ sz) :
    ∃ m', uvmdealloc L root sz newsz m = some (newsz, m') ∧ UserTable L m' root newsz := by
  obtain ⟨first, start⟩ : ∃ first, pagesOf newsz = first := ⟨_, rfl⟩
  obtain ⟨n, count⟩ : ∃ n, pagesOf sz = first + n := ⟨pagesOf sz - first, by
    simp only [pagesOf, PGSIZE] at *
    omega⟩
  have nodup : ((m.freelist : Multiset Page) + (tables m root + freed true ((pageMap m root).frames first n) +
      (pageMap m root).frames 0 first)).Nodup := by
    have all := space.nodup
    rwa [owns, count, PageMap.frames_add, Nat.zero_add, add_comm ((pageMap m root).frames 0 first), ← add_assoc (tables m root)] at all
  have removable : Removable L m root true first n := by
    intro k inside
    obtain ⟨⟨frame, perm⟩, here⟩ := Option.isSome_iff_exists.mp (space.mapped (v := first + k) (by omega))
    refine ⟨frame, perm, here, space.leaf _ (by omega) _ here, fun _ => space.ram frame ?_⟩
    refine Multiset.mem_add.mpr (.inr (Multiset.mem_add.mpr (.inr ?_)))
    exact PageMap.mem_frames (e := (frame, perm)) (by rw [Nat.zero_add, here]) (by omega : first + k < pagesOf sz)
  obtain ⟨m', ran, _, moves, map, _⟩ := uvmunmap_spec removable (Multiset.nodup_add.mp (by rwa [add_assoc])).1
  have old (v : ℕ) (out : v < first ∨ first + n ≤ v) : pageMap m' root v = pageMap m root v := by
    rw [map]
    exact if_neg (by omega)
  have frames : (pageMap m' root).frames 0 first = (pageMap m root).frames 0 first :=
    PageMap.frames_congr fun k inside => old _ (by omega)
  have own : Moves m.heap m'.heap (owns m root sz) (owns m' root newsz) := by
    have kept := moves.add ((pageMap m root).frames 0 first)
    rw [owns, owns, start, frames, count, PageMap.frames_add, Nat.zero_add, add_comm ((pageMap m root).frames 0 first), ← add_assoc]
    exact kept
  refine ⟨m', uvmdealloc_eq (count ▸ space.size) less start count ran, space.moves own (fun v user => ?_) fun v inside e here => ?_⟩
  · rw [start]
    by_cases gone : first ≤ v ∧ v < first + n
    · rw [map, PageMap.remove, if_pos gone]
      exact iff_of_false (by simp) (by omega)
    · rw [old v (by omega), space.user v user]
      omega
  · rw [start] at inside
    rw [old v (.inl inside)] at here
    exact space.leaf v (by omega) e here

/-! ## `uvmcopy` -/

/-- The pages copied so far have the contents and permissions of those they are copies of. -/
def Copied (m₀ m : Mem) (old : Page) (E : List (Page × Perm)) : Prop :=
  ∀ k e, E[k]? = some e → ∃ frame, pageMap m₀ old k = some (frame, e.2) ∧ m.mem e.1 = m₀.mem frame

variable {old new : Page}

theorem copyFrom_succ {a : ℕ} {q frame : Page} (small : a < MAXVA) (reach : follow (next m.mem) (tablePath a) old = some q)
    (content : m.mem q (px 0 a) = ⟨true, perm, frame⟩) : copyFrom L old new (n + 1) a m = (do
      let undo : Vm Bool := do
        uvmunmap L new 0 (a / PGSIZE) true
        pure false
      (← kalloc).elim undo fun mem => do
        fill mem ((← get).mem frame)
        if ← mappages new a PGSIZE mem perm then copyFrom L old new n (a + PGSIZE)
        else do
          kfree L mem
          undo : Vm Bool) m := by
  have read (rest : Mem → Vm Bool) : (get >>= rest) m = rest m m := rfl
  rw [copyFrom, walk_bind small reach]
  simp only [read, content, Bool.true_eq_false, if_false]
  refine congrFun (congrArg (kalloc >>= ·) (funext fun answer => ?_)) m
  cases answer <;> rfl

theorem copyFrom_rolls (space : UserTable L m₀ old sz)
    (nodup : ((m₀.freelist : Multiset Page) + (tables m₀ new + (tables m₀ old + (pageMap m₀ old).frames 0 (pagesOf sz)))).Nodup)
    (bare : ∀ v < TRAPFRAME / PGSIZE, pageMap m₀ new v = none) (filled : Filled m₀ m new 0 E) (takes : Takes m₀ m) (copied : Copied m₀ m old E)
    (count : E.length + n = pagesOf sz) :
    ∃ r m', copyFrom L old new n (E.length * PGSIZE) m = some (r, m') ∧ (Linked m new → Linked m' new) ∧
      ((r = true ∧ ∃ E', E'.length = pagesOf sz ∧ Filled m₀ m' new 0 E' ∧ Copied m₀ m' old E') ∨
        (r = false ∧ Exhausted m₀ m' ∧ Moves m₀.heap m'.heap (tables m₀ new) (tables m' new) ∧ pageMap m' new = pageMap m₀ new)) := by
  have tree : Tree m₀ new := (Multiset.nodup_add.mp (by rwa [add_assoc])).1
  have inRam : ∀ p ∈ m₀.freelist, InRam L p := fun p member => space.ram p (Multiset.mem_add.mpr (.inl member))
  induction n generalizing m E with
  | zero => exact ⟨true, m, rfl, id, .inl ⟨rfl, E, count, filled, copied⟩⟩
  | succ n ih =>
    have few : E.length < TRAPFRAME / PGSIZE := lt_of_lt_of_le (by omega) (space.size.trans (by decide))
    have page : E.length * PGSIZE / PGSIZE = E.length := Nat.mul_div_cancel _ (by decide)
    have unmapped : ∀ v, 0 ≤ v → v < 0 + E.length → pageMap m₀ new v = none := fun v _ high => bare v (by omega)
    have added : ∀ e ∈ E, InRam L e.1 := fun e member => inRam _ (filled.taken e member)
    have visible : ∀ e ∈ E, e.2 ≠ Perm.none := by
      intro e member
      obtain ⟨k, less, rfl⟩ := List.getElem_of_mem member
      obtain ⟨frame, here, _⟩ := copied k _ (List.getElem?_eq_getElem less)
      exact space.leaf k (by omega) (frame, E[k].2) here
    -- the parent is as it was
    have apart : ((m₀.freelist : Multiset Page) + (tables m₀ new + tables m₀ old)).Nodup := by
      rw [← add_assoc (tables m₀ new), ← add_assoc] at nodup
      exact (Multiset.nodup_add.mp nodup).1
    have parent : pageMap m old = pageMap m₀ old := pageMap_kept filled.moves apart
    obtain ⟨⟨frame, perm⟩, here⟩ := Option.isSome_iff_exists.mp (space.mapped (v := E.length) (by omega))
    have here₀ : pageMap m₀ old (0 + E.length) = some (frame, perm) := by rw [Nat.zero_add, here]
    have owned : frame ∈ (pageMap m₀ old).frames 0 (pagesOf sz) := PageMap.mem_frames here₀ (by omega)
    have same : m.mem frame = m₀.mem frame := filled.moves.kept nodup (Multiset.mem_add.mpr (.inr owned))
    have here' : pageMap m old (E.length * PGSIZE / PGSIZE) = some (frame, perm) := by rw [page, parent, here]
    obtain ⟨small, q, reach, content⟩ := follow_of_pageMap (Nat.mul_mod_left _ _) here'
    have undo {m₂ : Mem} (filled : Filled m₀ m₂ new 0 E) : ∃ m', uvmunmap L new 0 (E.length * PGSIZE / PGSIZE) true m₂ = some ((), m') ∧
        m'.quota = m₂.quota ∧ Moves m₀.heap m'.heap (tables m₀ new) (tables m' new) ∧ pageMap m' new = pageMap m₀ new ∧
        (Linked m₂ new → Linked m' new) := by
      rw [page]
      simpa only [Nat.zero_mul] using filled.undo tree visible unmapped added
    obtain ⟨answer, m₁, taken⟩ := kalloc_total m
    rw [copyFrom_succ small reach content]
    cases answer with
    | none =>
      obtain rfl := kalloc_none taken
      obtain ⟨m', ran, quota, moves, map, links⟩ := undo filled
      have spent : Exhausted m₀ m' := quota.trans (takes.exhausted ((kalloc_takes taken).2.2 rfl))
      exact ⟨false, m', bind_eq_some.mpr ⟨none, _, taken, bind_eq_some.mpr ⟨(), m', ran, rfl⟩⟩, links, .inr ⟨rfl, spent, moves, map⟩⟩
    | some p =>
      have untouched : m₁.mem frame = m₀.mem frame := by
        have alone : ((m.freelist : Multiset Page) + (0 + (tables m new + (E.map Prod.fst : List Page) +
            (tables m₀ old + (pageMap m₀ old).frames 0 (pagesOf sz))))).Nodup := by
          rw [zero_add]
          exact (filled.moves.add _).nodup nodup
        refine Eq.trans ((kalloc_moves taken).kept alone ?_) same
        exact Multiset.mem_add.mpr (.inr (Multiset.mem_add.mpr (.inr owned)))
      have stored : fill p (m₁.mem frame) m₁ = some ((), { m₁ with mem := Function.update m₁.mem p (m₁.mem frame) }) := rfl
      have empty : pageMap m new E.length = none := by
        rw [filled.map, PageMap.extendBy_of_notMem _ _ (.inr (Nat.zero_add _).le)]
        exact bare _ few
      obtain ⟨ok, m₃, made, member, ⟨taking, short⟩, moves, data, map, links⟩ :=
        addPage_spec (m₁.mem frame) perm (filled.tree tree) (few.trans (by decide)) empty taken stored
      cases ok with
      | true =>
        have more : Filled m₀ m₃ new 0 (E ++ [(p, perm)]) := filled.add member taking.free moves (by rw [Nat.zero_add]; exact map)
        have copied' : Copied m₀ m₃ old (E ++ [(p, perm)]) := by
          intro k e inside
          by_cases last : k < E.length
          · rw [List.getElem?_append_left last] at inside
            obtain ⟨frame, there, equal⟩ := copied k e inside
            have kept : m₃.mem e.1 = m.mem e.1 :=
              moves.kept (filled.nodup tree) (List.mem_map_of_mem (List.mem_of_getElem? inside))
            exact ⟨frame, there, kept.trans equal⟩
          · obtain rfl : k = E.length := by
              have short := (List.getElem?_eq_some_iff.mp inside).1
              rw [List.length_append, List.length_singleton] at short
              omega
            rw [List.getElem?_concat_length] at inside
            obtain rfl := Option.some.inj inside
            exact ⟨frame, here, data.trans untouched⟩
        obtain ⟨r, m', ran, links', outcome⟩ := ih more (takes.trans taking) copied' (by rw [List.length_append, List.length_singleton]; omega)
        have next : E.length * PGSIZE + PGSIZE = (E ++ [(p, perm)]).length * PGSIZE := by
          rw [List.length_append, List.length_singleton, Nat.succ_mul]
        refine ⟨r, m', bind_eq_some.mpr ⟨some p, m₁, taken, bind_eq_some.mpr ⟨m₁, m₁, rfl, bind_eq_some.mpr ⟨(), _, stored,
          bind_eq_some.mpr ⟨true, m₃, made, ?_⟩⟩⟩⟩, fun linked => links' (links linked), outcome⟩
        simp only [if_true]
        rw [next]
        exact ran
      | false =>
        obtain ⟨m₄, gone, same, filled, back⟩ := filled.giveBack tree member taking.free moves map (inRam p (filled.free member))
        obtain ⟨m', ran, quota, moves, map, undone⟩ := undo filled
        have spent : Exhausted m₀ m' := (quota.trans same).trans ((takes.trans taking).exhausted (short rfl))
        exact ⟨false, m', bind_eq_some.mpr ⟨some p, m₁, taken, bind_eq_some.mpr ⟨m₁, m₁, rfl, bind_eq_some.mpr ⟨(), _, stored,
          bind_eq_some.mpr ⟨false, m₃, made, bind_eq_some.mpr ⟨(), m₄, gone, bind_eq_some.mpr ⟨(), m', ran, rfl⟩⟩⟩⟩⟩⟩,
          fun linked => undone (back (links linked)), .inr ⟨rfl, spent, moves, map⟩⟩

/-! ## Both calls, done or undone -/

/-- A call either adds pages from the free list or gives everything back but page tables, and the pages that were there
keep their contents; so does the parent of a copy. -/
theorem uvm_calls_roll_back (L : Layout) (m : Mem) :
    (∀ root oldsz newsz xperm, UserTable L m root oldsz → oldsz ≤ newsz → ∃ r m', uvmalloc L root oldsz newsz xperm m = some (r, m') ∧
      (∀ p ∈ (pageMap m root).frames 0 (pagesOf oldsz), m'.mem p = m.mem p) ∧
      ((r = newsz ∧ ∃ F : List Page, F.length = pagesOf newsz - pagesOf oldsz ∧ F.Nodup ∧
          (∀ p ∈ F, p ∈ m.freelist ∧ m'.mem p = memset 0) ∧
          pageMap m' root = (pageMap m root).extendBy (pagesOf oldsz) (F.map fun p => (p, { xperm with r := true, u := true }))) ∨
        (0 < newsz ∧ r = 0 ∧ Exhausted m m' ∧ pageMap m' root = pageMap m root ∧
          (m'.freelist + tables m' root : Multiset Page) = m.freelist + tables m root))) ∧
    ∀ old new sz, UserTable L m old sz →
      ((m.freelist : Multiset Page) + (tables m new + (tables m old + (pageMap m old).frames 0 (pagesOf sz)))).Nodup →
      (∀ v < TRAPFRAME / PGSIZE, pageMap m new v = none) → ∃ r m', uvmcopy L old new sz m = some (r, m') ∧
      pageMap m' old = pageMap m old ∧ (∀ p ∈ (pageMap m old).frames 0 (pagesOf sz), m'.mem p = m.mem p) ∧
      ((r = true ∧ ∃ E, E.length = pagesOf sz ∧ (E.map Prod.fst).Nodup ∧ (∀ e ∈ E, e.1 ∈ m.freelist) ∧
          pageMap m' new = (pageMap m new).extendBy 0 E ∧
          ∀ k e, E[k]? = some e → ∃ frame, pageMap m old k = some (frame, e.2) ∧ m'.mem e.1 = m.mem frame) ∨
        (r = false ∧ Exhausted m m' ∧ pageMap m' new = pageMap m new ∧
          (m'.freelist + tables m' new : Multiset Page) = m.freelist + tables m new)) := by
  constructor
  · intro root oldsz newsz xperm space more
    obtain ⟨r, m', ran, _, outcome⟩ := uvmalloc_rolls space more xperm
    refine ⟨r, m', ran, ?_⟩
    rcases outcome with ⟨rfl, order, E, length, filled, zeros⟩ | ⟨positive, failed, spent, moves, map⟩
    · have entries : E = (E.map Prod.fst).map fun p => (p, { xperm with r := true, u := true }) := by
        rw [List.map_map]
        refine (List.map_congr_left fun e member => ?_).trans (List.map_id E) |>.symm
        rw [Function.comp_apply, ← (zeros e member).1]
        rfl
      refine ⟨fun p member => filled.moves.kept space.nodup member, .inl ⟨rfl, E.map Prod.fst, by rw [List.length_map, length], ?_, ?_, ?_⟩⟩
      · exact Multiset.coe_nodup.mp (Multiset.nodup_add.mp (Multiset.nodup_add.mp (filled.nodup space.tree)).2.1).2.1
      · intro p member
        obtain ⟨e, inside, rfl⟩ := List.mem_map.mp member
        exact ⟨filled.taken e inside, (zeros e inside).2⟩
      · rw [← entries]
        exact filled.map
    · exact ⟨fun p member => moves.kept space.nodup member, .inr ⟨positive, failed, spent, map, moves.total⟩⟩
  · intro old new sz space nodup bare
    have start : Copied m m old [] := fun k e absurd => by simp at absurd
    obtain ⟨r, m', ran, _, outcome⟩ := copyFrom_rolls space nodup bare (Filled.start m new 0) (.refl m) start (Nat.zero_add (pagesOf sz))
    have copied : uvmcopy L old new sz m = some (r, m') := by
      rw [uvmcopy, ← ran, List.length_nil, Nat.zero_mul]
      rfl
    have tree : Tree m new := (Multiset.nodup_add.mp (by rwa [add_assoc])).1
    have apart : ((m.freelist : Multiset Page) + (tables m new + tables m old)).Nodup := by
      rw [← add_assoc (tables m new), ← add_assoc] at nodup
      exact (Multiset.nodup_add.mp nodup).1
    refine ⟨r, m', copied, ?_⟩
    rcases outcome with ⟨done, E, length, filled, copies⟩ | ⟨failed, spent, moves, map⟩
    · refine ⟨pageMap_kept filled.moves apart, fun p member => filled.moves.kept nodup (Multiset.mem_add.mpr (.inr member)),
        .inl ⟨done, E, length, ?_, filled.taken, filled.map, copies⟩⟩
      exact Multiset.coe_nodup.mp (Multiset.nodup_add.mp (Multiset.nodup_add.mp (filled.nodup tree)).2.1).2.1
    · exact ⟨pageMap_kept moves apart, fun p member => moves.kept nodup (Multiset.mem_add.mpr (.inr member)),
        .inr ⟨failed, spent, map, moves.total⟩⟩

/-! ## A parent of two pages and a child without any -/

def anyRam : Layout := ⟨0, 9⟩

def pool (n : ℕ) : Mem := ⟨List.range' 1 n, fun _ => memset 0, n⟩

theorem pool_pageMap (n : ℕ) (root : Page) (v : ℕ) : pageMap (pool n) root v = none := by
  rw [pageMap]
  split <;> rfl

theorem pool_tables (n : ℕ) (root : Page) : tables (pool n) root = {root} := span_bare fun _ => next_zero rfl

theorem pool_nodup {n : ℕ} (few : n < 20) : ((pool n).freelist + ({20} + {21}) : Multiset Page).Nodup := by
  have range : ((pool n).freelist : Multiset Page).Nodup := List.nodup_range'
  refine Multiset.nodup_add.mpr ⟨range, by decide, Multiset.disjoint_left.mpr fun {p} free => ?_⟩
  have bound := (List.mem_range'_1.mp free).2
  intro root
  have root : p = 20 ∨ p = 21 := by simpa using root
  rcases root with rfl | rfl <;> omega

theorem pool_user {n : ℕ} (few : n < 20) : UserTable anyRam (pool n) 20 0 where
  nodup := by
    rw [owns, pool_tables]
    have both := pool_nodup few
    rw [← add_assoc] at both
    exact (Multiset.nodup_add.mp both).1
  ram p member := by
    rw [owns, pool_tables] at member
    refine ⟨Nat.zero_le p, ?_⟩
    rcases Multiset.mem_add.mp member with free | root
    · exact (List.mem_range'_1.mp free).2.trans (lt_of_le_of_lt (by omega) (by decide : 20 < PHYSTOP / PGSIZE))
    · obtain rfl : p = 20 := by simpa [pagesOf, PageMap.frames, PGSIZE] using root
      decide
  user v _ := by simp [pool_pageMap, pagesOf, PGSIZE]
  leaf v less := by simp [pagesOf, PGSIZE] at less

def parent (n : ℕ) : Mem := ((uvmalloc anyRam 20 0 8192 userPage (pool n)).map Prod.snd).getD (pool n)

theorem parent_user {n : ℕ} (few : n < 20) (enough : (uvmalloc anyRam 20 0 8192 userPage (pool n)).map Prod.fst = some 8192) :
    UserTable anyRam (parent n) 20 8192 ∧
      (((parent n).freelist : Multiset Page) + (tables (parent n) 21 + owns (parent n) 20 8192)).Nodup ∧
      ∀ v, pageMap (parent n) 21 v = none := by
  obtain ⟨⟨_, m'⟩, ran, rfl⟩ := Option.map_eq_some_iff.mp enough
  have mem : parent n = m' := by rw [parent, ran]; rfl
  obtain ⟨r, m'', ran', _, outcome⟩ := uvmalloc_rolls (pool_user few) (Nat.zero_le 8192) userPage
  obtain ⟨rfl, rfl⟩ := Prod.mk.inj (Option.some.inj (ran.symm.trans ran'))
  rw [mem]
  rcases outcome with ⟨_, _, E, length, filled, zeros⟩ | ⟨_, absurd, _⟩
  · have count : pagesOf 8192 = pagesOf 0 + E.length := by rw [length]; rfl
    obtain ⟨moves, user⟩ := (pool_user few).filled filled count fun e member => by rw [(zeros e member).1]; decide
    have apart : (((pool n).freelist : Multiset Page) + (owns (pool n) 20 0 + tables (pool n) 21)).Nodup := by
      rw [owns, pool_tables, pool_tables]
      exact pool_nodup few
    have child : tables m' 21 = tables (pool n) 21 := cells_kept moves apart
    refine ⟨user, ?_, fun v => ?_⟩
    · rw [child, add_comm (tables (pool n) 21)]
      exact (moves.add _).nodup apart
    · rw [pageMap_kept moves apart, pool_pageMap]
  · cases absurd

/-- Two new pages; a second page that is not to be had; a copy of two pages; and a copy that ends after the first. -/
theorem uvm_calls_roll_back_twoPages :
    (∃ m', ∃ F : List Page, uvmalloc anyRam 20 0 8192 userPage (pool 4) = some (8192, m') ∧ F.length = 2 ∧ F.Nodup ∧ (∀ p ∈ F, m'.mem p = memset 0) ∧
      pageMap m' 20 = (pageMap (pool 4) 20).extendBy 0 (F.map fun p => (p, userPage))) ∧
    (∃ m', uvmalloc anyRam 20 0 8192 userPage (pool 3) = some (0, m') ∧ Exhausted (pool 3) m' ∧ pageMap m' 20 = pageMap (pool 3) 20) ∧
    (∃ m', ∃ E : List (Page × Perm), uvmcopy anyRam 20 21 8192 (parent 8) = some (true, m') ∧ E.length = 2 ∧
      pageMap m' 21 = (pageMap (parent 8) 21).extendBy 0 E ∧
      ∀ k e, E[k]? = some e → ∃ frame, pageMap (parent 8) 20 k = some (frame, e.2) ∧ m'.mem e.1 = (parent 8).mem frame) ∧
    ∃ m', uvmcopy anyRam 20 21 8192 (parent 7) = some (false, m') ∧ Exhausted (parent 7) m' ∧ pageMap m' 21 = pageMap (parent 7) 21 := by
  refine ⟨?_, ?_, ?_, ?_⟩
  · have done : (uvmalloc anyRam 20 0 8192 userPage (pool 4)).map Prod.fst = some 8192 := by decide +kernel
    obtain ⟨⟨_, m'⟩, ran, rfl⟩ := Option.map_eq_some_iff.mp done
    obtain ⟨r, m'', ran', _, outcome⟩ :=
      (uvm_calls_roll_back anyRam (pool 4)).1 20 0 8192 userPage (pool_user (by decide)) (Nat.zero_le _)
    obtain ⟨rfl, rfl⟩ := Prod.mk.inj (Option.some.inj (ran.symm.trans ran'))
    rcases outcome with ⟨_, F, length, distinct, zeros, map⟩ | ⟨_, absurd, _⟩
    · exact ⟨m', F, ran, length, distinct, fun p member => (zeros p member).2, map⟩
    · cases absurd
  · have done : (uvmalloc anyRam 20 0 8192 userPage (pool 3)).map Prod.fst = some 0 := by decide +kernel
    obtain ⟨⟨_, m'⟩, ran, rfl⟩ := Option.map_eq_some_iff.mp done
    obtain ⟨r, m'', ran', _, outcome⟩ :=
      (uvm_calls_roll_back anyRam (pool 3)).1 20 0 8192 userPage (pool_user (by decide)) (Nat.zero_le _)
    obtain ⟨rfl, rfl⟩ := Prod.mk.inj (Option.some.inj (ran.symm.trans ran'))
    rcases outcome with ⟨absurd, _⟩ | ⟨_, _, spent, map, _⟩
    · cases absurd
    · exact ⟨m', ran, spent, map⟩
  · have done : (uvmcopy anyRam 20 21 8192 (parent 8)).map Prod.fst = some true := by decide +kernel
    obtain ⟨⟨_, m'⟩, ran, rfl⟩ := Option.map_eq_some_iff.mp done
    obtain ⟨user, apart, none⟩ := parent_user (n := 8) (by decide) (by decide +kernel)
    obtain ⟨r, m'', ran', _, _, outcome⟩ := (uvm_calls_roll_back anyRam (parent 8)).2 20 21 8192 user apart fun v _ => none v
    obtain ⟨rfl, rfl⟩ := Prod.mk.inj (Option.some.inj (ran.symm.trans ran'))
    rcases outcome with ⟨_, E, length, _, _, map, copies⟩ | ⟨absurd, _⟩
    · exact ⟨m', E, ran, length, map, copies⟩
    · cases absurd
  · have done : (uvmcopy anyRam 20 21 8192 (parent 7)).map Prod.fst = some false := by decide +kernel
    obtain ⟨⟨_, m'⟩, ran, rfl⟩ := Option.map_eq_some_iff.mp done
    obtain ⟨user, apart, none⟩ := parent_user (n := 7) (by decide) (by decide +kernel)
    obtain ⟨r, m'', ran', _, _, outcome⟩ := (uvm_calls_roll_back anyRam (parent 7)).2 20 21 8192 user apart fun v _ => none v
    obtain ⟨rfl, rfl⟩ := Prod.mk.inj (Option.some.inj (ran.symm.trans ran'))
    rcases outcome with ⟨absurd, _⟩ | ⟨_, spent, map, _⟩
    · cases absurd
    · exact ⟨m', ran, spent, map⟩

end OsProjects.Paging
