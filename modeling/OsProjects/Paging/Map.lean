import OsProjects.Paging.Links

namespace OsProjects.Paging
open Ownership

/-! ## A page table as a map -/

def pageCount : ℕ := MAXVA / PGSIZE

abbrev tables (m : Mem) (root : Page) : Multiset Page := cells (fun _ => false) m root

def Tree (m : Mem) (root : Page) : Prop := ((m.freelist : Multiset Page) + tables m root).Nodup

def Apart (m : Mem) (root other : Page) : Prop := ((m.freelist : Multiset Page) + (tables m root + tables m other)).Nodup

abbrev PageMap := ℕ → Option (Page × Perm)

def Pte.target (pte : Pte) : Option (Page × Perm) := if pte.v then some (pte.ppn, pte.perm) else none

def pageMap (m : Mem) (root : Page) : PageMap :=
  fun v => if v < pageCount then (mapped m root (v * PGSIZE)).bind Pte.target else none

/-- The pages from `first` to `last` are sent to those from `pa` on; physical addresses wrap. -/
def PageMap.extend (f : PageMap) (first last : ℕ) (pa : Page) (perm : Perm) : PageMap :=
  fun v => if first ≤ v ∧ v ≤ last then some ((pa + (v - first)) % 2 ^ 52, perm) else f v

def PageMap.remove (f : PageMap) (first n : ℕ) : PageMap := fun v => if first ≤ v ∧ v < first + n then none else f v

def PageMap.frames (f : PageMap) (first n : ℕ) : Multiset Page :=
  ((List.range n).filterMap fun k => (f (first + k)).map Prod.fst : List Page)

variable {L : Layout} {m m' : Mem} {root other q : Page} {va a n v : ℕ} {i : Fin 512} {pte : Pte} {A B : Multiset Page}
  {pa : Page} {first : ℕ} {perm : Perm} {doFree : Bool}

theorem lt_pageCount : v < pageCount ↔ v * PGSIZE < MAXVA := by
  simp only [pageCount, MAXVA, PGSIZE]
  omega

theorem page_lt (small : va < MAXVA) : va / PGSIZE < pageCount := by
  simp only [pageCount, MAXVA, PGSIZE] at *
  omega

theorem pageMap_congr {root' : Page} (same : ∀ va, mapped m' root' va = mapped m root va) : pageMap m' root' = pageMap m root := by
  funext v
  rw [pageMap, pageMap, same]

theorem mapped_target (m : Mem) (root : Page) (small : va < MAXVA) :
    pageMap m root (va / PGSIZE) = (mapped m root va).bind Pte.target := by
  rw [pageMap, if_pos (page_lt small), mapped_congr m root (Nat.mul_div_cancel (va / PGSIZE) (by decide))]

theorem pageMap_kept (moves : Moves m.heap m'.heap A B) (nodup : ((m.freelist : Multiset Page) + (A + tables m root)).Nodup) :
    pageMap m' root = pageMap m root :=
  pageMap_congr fun _ => mapped_kept moves nodup

theorem Apart.moves (apart : Apart m root other) (moves : Moves m.heap m'.heap (tables m root) (tables m' root)) :
    Apart m' root other ∧ pageMap m' other = pageMap m other := by
  refine ⟨?_, pageMap_kept moves apart⟩
  have kept : tables m' other = tables m other := cells_kept moves apart
  rw [Apart, kept]
  exact (moves.add (tables m other)).nodup apart

/-! ## `walk` -/

theorem pageMap_walk (m : Mem) (root : Page) (small : va < MAXVA) : ∃ r, walk root va false m = some (r, m) ∧
    pageMap m root (va / PGSIZE) = r.bind fun (q, i) => Pte.target (m.mem q i) := by
  refine ⟨_, walk_false m root small, ?_⟩
  rw [mapped_target m root small, mapped, Option.bind_assoc]
  cases follow (next m.mem) (tablePath va) root with
  | none => rfl
  | some q =>
    cases valid : (m.mem q (px 0 va)).v <;> simp [Pte.target, valid]

/-! ## One entry -/

theorem Tree.tables (tree : Tree m root) : (tables m root).Nodup := (Multiset.nodup_add.mp tree).2.1

theorem tables_setPte (tree : (tables m root).Nodup) (leaf : Leaf m root va q i) (pte : Pte) :
    tables (m.setPte q i pte) root = tables m root := by
  obtain ⟨rfl, reach⟩ := leaf_table leaf
  have total := cells_setPte tree reach (d := 0) rfl (px 0 va) pte
  have nothing (next : Page → Fin 512 → Option Page) (link : Option Page) : below next 0 (fun _ => false) link = 0 := by
    cases link <;> simp [below, span]
  rwa [nothing, nothing, add_zero, add_zero] at total

theorem moves_leaf (tree : (tables m root).Nodup) (leaf : Leaf m root va q i) (pte : Pte) :
    Moves m.heap (m.setPte q i pte).heap (tables m root) (tables (m.setPte q i pte) root) := by
  rw [tables_setPte tree leaf]
  exact .store (mem_span_of_follow (tablePath_lt va) (leaf_table leaf).2) _

theorem pageMap_setPte (tree : (tables m root).Nodup) (leaf : Leaf m root va q i) (small : va < MAXVA) (pte : Pte) :
    pageMap (m.setPte q i pte) root = Function.update (pageMap m root) (va / PGSIZE) pte.target := by
  obtain ⟨rfl, reach⟩ := leaf_table leaf
  funext v
  by_cases same : v = va / PGSIZE
  · rw [same, Function.update_self, mapped_target _ _ small, mapped, follow_setPte tree (tablePath_lt va) reach]
    cases valid : pte.v <;> simp [Mem.setPte, Pte.target, valid]
  · rw [Function.update_of_ne same, pageMap, pageMap]
    by_cases inside : v < pageCount
    · have page : va / PGSIZE ≠ v * PGSIZE / PGSIZE := by
        rw [Nat.mul_div_cancel _ (by decide)]
        exact Ne.symm same
      rw [mapped_setPte_of_apart tree (tablePath_lt va) reach pte (apart_of_page small (lt_pageCount.mp inside) page)]
    · rw [if_neg inside, if_neg inside]

theorem target_leaf (leaf : Leaf m root va q i) (small : va < MAXVA) : pageMap m root (va / PGSIZE) = (m.mem q i).target := by
  rw [mapped_target m root small, mapped_leaf leaf]
  cases valid : (m.mem q i).v <;> simp [Pte.target, valid]

/-! ## `mappages` -/

theorem PageMap.extend_self (f : PageMap) (first : ℕ) (perm : Perm) (small : pa < 2 ^ 52) :
    f.extend first first pa perm = Function.update f first (some (pa, perm)) := by
  funext v
  rw [PageMap.extend]
  by_cases same : v = first
  · rw [if_pos (by omega), same, Function.update_self, Nat.sub_self, Nat.add_zero, Nat.mod_eq_of_lt small]
  · rw [Function.update_of_ne same, if_neg (by omega)]

theorem PageMap.extend_cons (f : PageMap) {last : ℕ} (perm : Perm) (small : pa < 2 ^ 52) (less : first < last) :
    extend (Function.update f first (some (pa, perm))) (first + 1) last ((pa + 1) % 2 ^ 52) perm = f.extend first last pa perm := by
  funext v
  rw [PageMap.extend, PageMap.extend]
  by_cases same : v = first
  · rw [if_neg (by omega), if_pos (by omega), same, Function.update_self, Nat.sub_self, Nat.add_zero, Nat.mod_eq_of_lt small]
  · rw [Function.update_of_ne same]
    refine if_ctx_congr (by omega) (fun later => ?_) fun _ => rfl
    have shift : 1 + (v - (first + 1)) = v - first := by omega
    rw [Nat.mod_add_mod, Nat.add_assoc, shift]

theorem mapFrom_spec {r : Bool} {last fuel : ℕ} (action : mapFrom root perm last fuel a pa m = some (r, m'))
    (tree : Tree m root) (aligned : a % PGSIZE = 0) (end' : last % PGSIZE = 0) (small : pa < 2 ^ 52) :
    Moves m.heap m'.heap (tables m root) (tables m' root) ∧ (r = true → a ≤ last ∧
      (∀ v, a / PGSIZE ≤ v → v ≤ last / PGSIZE → v < pageCount ∧ pageMap m root v = none) ∧
      pageMap m' root = (pageMap m root).extend (a / PGSIZE) (last / PGSIZE) pa perm) := by
  induction fuel generalizing a pa m with
  | zero => exact (failure_eq_some.mp action).elim
  | succ fuel ih =>
    obtain ⟨answer, m₁, walked, action⟩ := bind_eq_some.mp action
    obtain ⟨below, moves, same, leaf⟩ := walk_moves tree walked
    have tree₁ : Tree m₁ root := moves.nodup tree
    cases answer with
    | none =>
      obtain ⟨rfl, rfl⟩ := pure_eq_some.mp action
      exact ⟨moves, by simp⟩
    | some entry =>
      obtain ⟨q, i⟩ := entry
      have here := leaf q i rfl
      simp only [bind_eq_some, get_eq_some] at action
      obtain ⟨_, _, ⟨rfl, rfl⟩, action⟩ := action
      split at action
      · exact (failure_eq_some.mp action).elim
      rename_i invalid
      obtain ⟨_, m₂, stored, action⟩ := bind_eq_some.mp action
      obtain rfl := setPte_eq stored
      have linked := moves_leaf tree₁.tables here ⟨true, perm, pa⟩
      have first : a / PGSIZE < pageCount ∧ pageMap m root (a / PGSIZE) = none := by
        refine ⟨page_lt below, ?_⟩
        rw [← pageMap_congr same, target_leaf here below, Pte.target, if_neg invalid]
      have map : pageMap (m₁.setPte q i ⟨true, perm, pa⟩) root = Function.update (pageMap m root) (a / PGSIZE) (some (pa, perm)) := by
        rw [pageMap_setPte tree₁.tables here below, pageMap_congr same]
        rfl
      split at action
      · rename_i done
        obtain ⟨rfl, rfl⟩ := pure_eq_some.mp action
        refine ⟨moves.trans linked, fun _ => ⟨done.le, fun v low high => ?_, ?_⟩⟩
        · obtain rfl : v = a / PGSIZE := by
            rw [← done] at high
            omega
          exact first
        · rw [map, ← done, PageMap.extend_self _ _ _ small]
      · obtain ⟨next, aligned', page⟩ : (a + PGSIZE) % 2 ^ 64 = a + PGSIZE ∧ (a + PGSIZE) % PGSIZE = 0 ∧
            (a + PGSIZE) / PGSIZE = a / PGSIZE + 1 := by
          simp only [PGSIZE, MAXVA] at *
          omega
        rw [next] at action
        obtain ⟨rest, mapping⟩ := ih action (linked.nodup tree₁) aligned' (Nat.mod_lt _ (by norm_num))
        refine ⟨(moves.trans linked).trans rest, fun done => ?_⟩
        obtain ⟨order, fresh, after⟩ := mapping done
        rw [page, map] at fresh after
        have more : a / PGSIZE < last / PGSIZE := by
          simp only [PGSIZE] at *
          omega
        refine ⟨by omega, fun v low high => ?_, ?_⟩
        · by_cases same : v = a / PGSIZE
          · rw [same]
            exact first
          · have later := fresh v (by omega) high
            rwa [Function.update_of_ne same] at later
        · rw [after, PageMap.extend_cons _ _ small more]

/-- The last page of `mappages`, where the address may wrap. -/
def lastPage (va size : ℕ) : ℕ := (va + size - 1) % 2 ^ 64 / PGSIZE

theorem mappages_map {size : ℕ} {r : Bool} (action : mappages root va size pa perm m = some (r, m'))
    (tree : Tree m root) (small : pa < 2 ^ 52) :
    Moves m.heap m'.heap (tables m root) (tables m' root) ∧ (r = true → va / PGSIZE ≤ lastPage va size ∧
      (∀ v, va / PGSIZE ≤ v → v ≤ lastPage va size → v < pageCount ∧ pageMap m root v = none) ∧
      pageMap m' root = (pageMap m root).extend (va / PGSIZE) (lastPage va size) pa perm) := by
  unfold mappages at action
  split at action
  · exact (failure_eq_some.mp action).elim
  · have page (b : ℕ) : pgRoundDown b / PGSIZE = b / PGSIZE := Nat.mul_div_cancel _ (by decide)
    obtain ⟨moves, mapping⟩ := mapFrom_spec action tree (Nat.mul_mod_left _ _) (Nat.mul_mod_left _ _) small
    rw [page, page] at mapping
    refine ⟨moves, fun done => ?_⟩
    obtain ⟨order, rest⟩ := mapping done
    refine ⟨?_, rest⟩
    rw [lastPage, ← page, ← page ((va + size - 1) % 2 ^ 64)]
    exact Nat.div_le_div_right order

/-! ## `uvmunmap` -/

theorem PageMap.frames_succ (f : PageMap) (first n : ℕ) {frame : Page} (here : f first = some (frame, perm)) :
    f.frames first (n + 1) = {frame} + f.frames (first + 1) n := by
  have rest : (List.range n).filterMap (fun k => (f (first + (k + 1))).map Prod.fst) =
      (List.range n).filterMap fun k => (f (first + 1 + k)).map Prod.fst :=
    List.filterMap_congr fun k _ => by rw [Nat.add_assoc, Nat.add_comm 1 k]
  rw [PageMap.frames, PageMap.frames, List.range_succ_eq_map, List.filterMap_cons_some (by rw [Nat.add_zero, here]; rfl),
    List.filterMap_map, Multiset.singleton_add, Multiset.cons_coe]
  exact congrArg (fun l : List Page => ((frame :: l : List Page) : Multiset Page)) rest

theorem PageMap.frames_congr {f g : PageMap} (same : ∀ k < n, f (first + k) = g (first + k)) :
    f.frames first n = g.frames first n := by
  rw [PageMap.frames, PageMap.frames]
  congr 1
  refine List.filterMap_congr fun k member => ?_
  rw [same k (List.mem_range.mp member)]

def freed (doFree : Bool) (frames : Multiset Page) : Multiset Page := if doFree then frames else 0

theorem freed_add (doFree : Bool) (A B : Multiset Page) : freed doFree (A + B) = freed doFree A + freed doFree B := by
  cases doFree <;> simp [freed]

theorem unmapPage_map (frame : Page) (nodup : ((m.freelist : Multiset Page) + (tables m root + freed doFree {frame})).Nodup)
    (leaf : Leaf m root va q i) (small : va < MAXVA) {m₁ : Mem}
    (gone : (if doFree then kfree L frame else pure ()) m = some ((), m₁)) :
    Moves m.heap (m₁.setPte q i (Pte.ofBits 0)).heap (tables m root + freed doFree {frame})
      (tables (m₁.setPte q i (Pte.ofBits 0)) root) ∧
    pageMap (m₁.setPte q i (Pte.ofBits 0)) root = Function.update (pageMap m root) (va / PGSIZE) none ∧
    (Linked m root → Linked (m₁.setPte q i (Pte.ofBits 0)) root) := by
  have first : Moves m.heap m₁.heap (freed doFree {frame}) 0 := by
    cases doFree with
    | false =>
      obtain ⟨_, rfl⟩ := pure_eq_some.mp gone
      exact .refl _ _
    | true => exact kfree_moves gone
  rw [add_comm (tables m root)] at nodup
  have kept : tables m₁ root = tables m root := cells_kept first nodup
  have moves : Moves m.heap m₁.heap (tables m root + freed doFree {frame}) (tables m₁ root) := by
    rw [kept, add_comm]
    simpa using first.add (tables m root)
  have tree : Tree m₁ root := moves.nodup (by rwa [add_comm (tables m root)])
  have leaf₁ : Leaf m₁ root va q i := by
    obtain ⟨table, split, reach⟩ := leaf
    have short : table.length ≤ 3 := by
      have length := congrArg List.length split
      simp only [List.length_append, path, pathFrom, List.length_cons, List.length_nil] at length
      omega
    exact ⟨table, split, (follow_kept first nodup short).trans reach⟩
  refine ⟨moves.trans (moves_leaf tree.tables leaf₁ _), ?_, fun linked => (linked.kept first nodup).setLeaf tree.tables leaf₁ _⟩
  rw [pageMap_setPte tree.tables leaf₁ small, pageMap_kept first nodup]
  rfl

theorem walk_bind {α : Type} (small : a < MAXVA) (reach : follow (next m.mem) (tablePath a) root = some q)
    (rest : Option (Page × Fin 512) → Vm α) : (walk root a false >>= rest) m = rest (some (q, px 0 a)) m := by
  have walked := walk_false m root small
  rw [reach, Option.map_some] at walked
  change (walk root a false m).bind _ = _
  rw [walked]
  rfl

theorem unmapFrom_succ {frame : Page} {m₁ : Mem} (small : a < MAXVA) (reach : follow (next m.mem) (tablePath a) root = some q)
    (content : m.mem q (px 0 a) = ⟨true, perm, frame⟩) (live : perm ≠ .none)
    (gone : (if doFree then kfree L frame else pure ()) m = some ((), m₁)) :
    unmapFrom L root doFree (n + 1) a m = unmapFrom L root doFree n (a + PGSIZE) (m₁.setPte q (px 0 a) (Pte.ofBits 0)) := by
  have read (rest : Mem → Vm Unit) : (get >>= rest) m = rest m m := rfl
  rw [unmapFrom, walk_bind small reach]
  simp only [read, content, Bool.true_eq_false, live, or_self, if_false]
  cases doFree with
  | false =>
    obtain ⟨_, rfl⟩ := pure_eq_some.mp gone
    rfl
  | true =>
    change (kfree L frame m).bind _ = _
    rw [show kfree L frame m = some ((), m₁) from gone]
    rfl

theorem PageMap.remove_succ (f : PageMap) (first n : ℕ) :
    remove (Function.update f first none) (first + 1) n = f.remove first (n + 1) := by
  funext v
  rw [PageMap.remove, PageMap.remove]
  by_cases same : v = first
  · rw [if_neg (by omega), if_pos (by omega), same, Function.update_self]
  · rw [Function.update_of_ne same]
    exact if_congr (by omega) rfl rfl

theorem follow_of_pageMap {frame : Page} (aligned : a % PGSIZE = 0) (here : pageMap m root (a / PGSIZE) = some (frame, perm)) :
    a < MAXVA ∧ ∃ q, follow (next m.mem) (tablePath a) root = some q ∧ m.mem q (px 0 a) = ⟨true, perm, frame⟩ := by
  obtain ⟨inside, _⟩ := Option.ite_none_right_eq_some.mp here
  have small : a < MAXVA := by
    simp only [pageCount, MAXVA, PGSIZE] at *
    omega
  rw [mapped_target m root small] at here
  obtain ⟨pte, leaf, target⟩ := Option.bind_eq_some_iff.mp here
  obtain ⟨q, reach, entry⟩ := Option.bind_eq_some_iff.mp leaf
  obtain ⟨_, content⟩ := Option.ite_none_right_eq_some.mp entry
  obtain ⟨set, equal⟩ := Option.ite_none_right_eq_some.mp target
  obtain ⟨rfl, rfl⟩ := Prod.mk.inj (Option.some.inj equal)
  refine ⟨small, q, reach, (Option.some.inj content).trans ?_⟩
  rw [← set]

/-- Mapped pages with permissions, of which `uvmunmap` can free those it is asked to. -/
def Removable (L : Layout) (m : Mem) (root : Page) (doFree : Bool) (first n : ℕ) : Prop :=
  ∀ k < n, ∃ frame perm, pageMap m root (first + k) = some (frame, perm) ∧ perm ≠ .none ∧
    (doFree = true → L.kernelEnd ≤ frame ∧ frame < PHYSTOP / PGSIZE)

theorem unmapFrom_spec (pages : Removable L m root doFree first n)
    (nodup : ((m.freelist : Multiset Page) + (tables m root + freed doFree ((pageMap m root).frames first n))).Nodup) :
    ∃ m', unmapFrom L root doFree n (first * PGSIZE) m = some ((), m') ∧ m'.quota = m.quota ∧
      Moves m.heap m'.heap (tables m root + freed doFree ((pageMap m root).frames first n)) (tables m' root) ∧
      pageMap m' root = (pageMap m root).remove first n ∧ (Linked m root → Linked m' root) := by
  induction n generalizing first m with
  | zero =>
    have none : freed doFree ((pageMap m root).frames first 0) = 0 := by cases doFree <;> rfl
    rw [none, add_zero]
    exact ⟨m, rfl, rfl, .refl _ _, funext fun v => (if_neg (by omega)).symm, id⟩
  | succ n ih =>
    obtain ⟨frame, perm, here, live, ram⟩ := pages 0 (Nat.succ_pos n)
    rw [Nat.add_zero] at here
    have page : first * PGSIZE / PGSIZE = first := Nat.mul_div_cancel _ (by decide)
    obtain ⟨small, q, reach, content⟩ := follow_of_pageMap (Nat.mul_mod_left _ _) (by rw [page, here])
    obtain ⟨m₁, gone, quota⟩ : ∃ m₁, (if doFree then kfree L frame else pure ()) m = some ((), m₁) ∧ m₁.quota = m.quota := by
      cases doFree with
      | false => exact ⟨m, rfl, rfl⟩
      | true =>
        obtain ⟨low, high⟩ := ram rfl
        exact ⟨_, if_neg (not_or.mpr ⟨not_lt.mpr low, not_le.mpr high⟩), rfl⟩
    rw [PageMap.frames_succ _ _ _ here, freed_add, ← add_assoc (tables m root)] at nodup ⊢
    have one : ((m.freelist : Multiset Page) + (tables m root + freed doFree {frame})).Nodup :=
      (Multiset.nodup_add.mp (by rwa [add_assoc])).1
    obtain ⟨moves, map, links⟩ := unmapPage_map frame one ⟨_, rfl, reach⟩ small gone
    rw [page] at map
    have later (k : ℕ) : pageMap (m₁.setPte q (px 0 (first * PGSIZE)) (Pte.ofBits 0)) root (first + 1 + k) =
        pageMap m root (first + 1 + k) := by
      rw [map]
      exact Function.update_of_ne (by omega) _ _
    have frames := PageMap.frames_congr (n := n) fun k _ => later k
    have all := moves.add (freed doFree ((pageMap m root).frames (first + 1) n))
    have remaining : Removable L (m₁.setPte q (px 0 (first * PGSIZE)) (Pte.ofBits 0)) root doFree (first + 1) n := by
      intro k less
      rw [later, Nat.add_assoc, Nat.add_comm 1]
      exact pages (k + 1) (by omega)
    obtain ⟨m', ran, quota', rest, after, links'⟩ := ih remaining (by rw [frames]; exact all.nodup nodup)
    rw [frames] at rest
    refine ⟨m', ?_, quota'.trans quota, all.trans rest, ?_, fun linked => links' (links linked)⟩
    · rw [unmapFrom_succ small reach content live gone, ← Nat.succ_mul]
      exact ran
    · rw [after, map]
      exact PageMap.remove_succ ..

theorem Removable.fits (pages : Removable L m root doFree first n) : n = 0 ∨ first + n ≤ pageCount := by
  cases n with
  | zero => exact .inl rfl
  | succ n =>
    obtain ⟨_, _, here, _⟩ := pages n (Nat.lt_succ_self n)
    exact .inr (Option.ite_none_right_eq_some.mp here).1

theorem uvmunmap_spec (pages : Removable L m root doFree first n)
    (nodup : ((m.freelist : Multiset Page) + (tables m root + freed doFree ((pageMap m root).frames first n))).Nodup) :
    ∃ m', uvmunmap L root (first * PGSIZE) n doFree m = some ((), m') ∧ m'.quota = m.quota ∧
      Moves m.heap m'.heap (tables m root + freed doFree ((pageMap m root).frames first n)) (tables m' root) ∧
      pageMap m' root = (pageMap m root).remove first n ∧ (Linked m root → Linked m' root) := by
  have fits := pages.fits
  have count : ((first * PGSIZE + n * PGSIZE) % 2 ^ 64 - first * PGSIZE) / PGSIZE = n := by
    simp only [pageCount, MAXVA, PGSIZE] at *
    omega
  rw [uvmunmap, if_neg (not_not.mpr (Nat.mul_mod_left _ _)), count]
  exact unmapFrom_spec pages nodup

/-! ## The three operations -/

/-- Page tables that are trees are partial maps: `walk` looks an entry up, `mappages` adds pages that were not mapped,
`uvmunmap` takes pages away, and neither touches a page table that shares nothing with this one. -/
theorem page_tables_are_maps (L : Layout) {m : Mem} {root : Page} (tree : Tree m root) :
    (∀ va < MAXVA, ∃ r, walk root va false m = some (r, m) ∧
      pageMap m root (va / PGSIZE) = r.bind fun (q, i) => Pte.target (m.mem q i)) ∧
    (∀ va size pa perm r m', pa < 2 ^ 52 → mappages root va size pa perm m = some (r, m') →
      (r = true → va / PGSIZE ≤ lastPage va size ∧ (∀ v, va / PGSIZE ≤ v → v ≤ lastPage va size → pageMap m root v = none) ∧
        pageMap m' root = (pageMap m root).extend (va / PGSIZE) (lastPage va size) pa perm) ∧
      Tree m' root ∧ ∀ other, Apart m root other → Apart m' root other ∧ pageMap m' other = pageMap m other) ∧
    ∀ va n doFree, va % PGSIZE = 0 → Removable L m root doFree (va / PGSIZE) n →
      ((m.freelist : Multiset Page) + (tables m root + freed doFree ((pageMap m root).frames (va / PGSIZE) n))).Nodup →
      ∃ m', uvmunmap L root va n doFree m = some ((), m') ∧ pageMap m' root = (pageMap m root).remove (va / PGSIZE) n ∧
        Tree m' root ∧ ∀ other, ((m.freelist : Multiset Page) + (tables m root +
          freed doFree ((pageMap m root).frames (va / PGSIZE) n) + tables m other)).Nodup →
          Apart m' root other ∧ pageMap m' other = pageMap m other := by
  refine ⟨fun va small => pageMap_walk m root small, ?_, ?_⟩
  · intro va size pa perm r m' small action
    obtain ⟨moves, mapping⟩ := mappages_map action tree small
    refine ⟨fun done => ?_, moves.nodup tree, fun other apart => apart.moves moves⟩
    obtain ⟨order, fresh, map⟩ := mapping done
    exact ⟨order, fun v low high => (fresh v low high).2, map⟩
  · intro va n doFree aligned pages nodup
    obtain ⟨m', ran, _, moves, map, _⟩ := uvmunmap_spec pages nodup
    rw [Nat.div_mul_cancel (Nat.dvd_of_mod_eq_zero aligned)] at ran
    refine ⟨m', ran, map, moves.nodup nodup, fun other apart => ?_⟩
    have kept : tables m' other = tables m other := cells_kept moves apart
    refine ⟨?_, pageMap_kept moves apart⟩
    rw [Apart, kept]
    exact (moves.add (tables m other)).nodup apart

def bare : Mem := ⟨[1, 2, 3], fun _ => memset 0, 3⟩

theorem bare_tree : Tree bare 7 := by
  have root : tables bare 7 = {7} := span_bare fun i => next_zero rfl
  rw [Tree, root]
  decide

def userPage : Perm := ⟨true, true, false, true, 0#5⟩

/-- Two pages; and one page, where the end of the range wraps. -/
theorem page_tables_are_maps_twoPages :
    (∃ m', mappages 7 4096 8192 20 userPage bare = some (true, m') ∧
      pageMap m' 7 = (pageMap bare 7).extend 1 2 20 userPage ∧ Tree m' 7) ∧
    ∃ m', mappages 7 4100 (2 ^ 64 - 1) 20 userPage bare = some (true, m') ∧
      pageMap m' 7 = (pageMap bare 7).extend 1 1 20 userPage ∧ Tree m' 7 := by
  have maps := (page_tables_are_maps ⟨10, 9⟩ bare_tree).2.1
  constructor
  · have done : (mappages 7 4096 8192 20 userPage bare).map Prod.fst = some true := by decide
    obtain ⟨⟨_, m'⟩, ran, rfl⟩ := Option.map_eq_some_iff.mp done
    obtain ⟨map, tree, _⟩ := maps 4096 8192 20 userPage true m' (by decide) ran
    exact ⟨m', ran, (map rfl).2.2, tree⟩
  · have done : (mappages 7 4100 (2 ^ 64 - 1) 20 userPage bare).map Prod.fst = some true := by decide
    obtain ⟨⟨_, m'⟩, ran, rfl⟩ := Option.map_eq_some_iff.mp done
    obtain ⟨map, tree, _⟩ := maps 4100 (2 ^ 64 - 1) 20 userPage true m' (by decide) ran
    exact ⟨m', ran, (map rfl).2.2, tree⟩

end OsProjects.Paging
