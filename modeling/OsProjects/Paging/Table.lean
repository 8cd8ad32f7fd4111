import OsProjects.Ownership.Heap
import OsProjects.Ownership.Program
import OsProjects.Ownership.Tree
import OsProjects.Paging.Memory

namespace OsProjects.Paging
open Ownership

/-! ## The pages of a page table -/

abbrev Mem.heap (m : Mem) : Heap Page (Fin 512 → Pte) := ⟨m.freelist, m.mem⟩

def next (mem : Page → Fin 512 → Pte) (pagetable : Page) (i : Fin 512) : Option Page :=
  if (mem pagetable i).v then some (mem pagetable i).ppn else none

def pathFrom : ℕ → ℕ → List (Fin 512)
  | 0, va => [px 0 va]
  | level + 1, va => px (level + 1) va :: pathFrom level va

def path (va : ℕ) : List (Fin 512) := pathFrom 2 va

def vpn (path : List (Fin 512)) : ℕ := path.foldl (fun n i => 512 * n + i.val) 0

/-- The pages of the three levels of a page table, and those mapped where it owns what it maps. -/
abbrev cells (owned : List (Fin 512) → Bool) (m : Mem) (pagetable : Page) : Multiset Page := span (next m.mem) 3 owned pagetable

theorem vpn_path {va : ℕ} (small : va < 2 ^ 39) : vpn (path va) = va / PGSIZE := by
  simp only [vpn, path, pathFrom, List.foldl_cons, List.foldl_nil, px, Fin.val_ofNat, PGSIZE]
  norm_num
  omega

def tablePath (va : ℕ) : List (Fin 512) := [px 2 va, px 1 va]

theorem tablePath_lt (va : ℕ) : (tablePath va).length < 3 := Nat.lt_succ_self 2

def mapped (m : Mem) (root : Page) (va : ℕ) : Option Pte :=
  (follow (next m.mem) (tablePath va) root).bind fun q => if (m.mem q (px 0 va)).v then some (m.mem q (px 0 va)) else none

variable {p : Page} {d : ℕ} {u : Unit} {fresh : Page} {perm : Perm} {data : Fin 512 → Pte}

theorem next_zero {mem : Page → Fin 512 → Pte} {i : Fin 512} (zero : mem p i = memset 0 i) : next mem p i = none := by
  rw [next, zero]
  rfl

/-! ## Memories that agree on a page table -/

variable {m m' m'' : Mem} {root q : Page} {A B : Multiset Page} {va a b : ℕ} {i : Fin 512} {pte : Pte}

section agree
variable {owned : List (Fin 512) → Bool} (same : ∀ x ∈ cells owned m root, m'.mem x = m.mem x)
include same

theorem cells_agree : cells owned m' root = cells owned m root := by
  refine span_congr_of_mem fun x member => funext fun i => ?_
  rw [next, next, same x member]

theorem follow_agree {table : List (Fin 512)} (short : table.length ≤ 3) :
    follow (next m'.mem) table root = follow (next m.mem) table root := by
  refine follow_congr fun init i rest b split reach => ?_
  have inside : init.length < 3 := by
    rw [split, List.length_append, List.length_cons] at short
    omega
  rw [next, next, same b (mem_span_of_follow inside reach)]

theorem mapped_agree : mapped m' root va = mapped m root va := by
  rw [mapped, follow_agree same (tablePath_lt va).le, mapped]
  refine Option.bind_congr fun q reach => ?_
  rw [same q (mem_span_of_follow (tablePath_lt va) reach)]

end agree

section kept
variable {owned : List (Fin 512) → Bool} (moves : Moves m.heap m'.heap A B)
  (nodup : ((m.freelist : Multiset Page) + (A + cells owned m root)).Nodup)
include moves nodup

theorem cells_kept : cells owned m' root = cells owned m root := cells_agree fun _ member => moves.kept nodup member

theorem follow_kept {table : List (Fin 512)} (short : table.length ≤ 3) :
    follow (next m'.mem) table root = follow (next m.mem) table root :=
  follow_agree (fun _ member => moves.kept nodup member) short

theorem mapped_kept : mapped m' root va = mapped m root va := mapped_agree fun _ member => moves.kept nodup member

end kept

/-! ## One entry -/

def Mem.setPte (m : Mem) (pagetable : Page) (i : Fin 512) (pte : Pte) : Mem :=
  { m with mem := Function.update m.mem pagetable (Function.update (m.mem pagetable) i pte) }

theorem next_setPte (m : Mem) (q : Page) (i : Fin 512) (pte : Pte) :
    next (m.setPte q i pte).mem q i = if pte.v then some pte.ppn else none := by
  simp [next, Mem.setPte]

theorem setPte_other (m : Mem) (pte : Pte) {b : Page} {j : Fin 512} (other : b ≠ q ∨ j ≠ i) :
    (m.setPte q i pte).mem b j = m.mem b j := by
  by_cases same : b = q
  · subst same
    simp [Mem.setPte, Function.update_of_ne (other.resolve_left (not_not.mpr rfl))]
  · simp [Mem.setPte, Function.update_of_ne same]

section entry
variable {owned : List (Fin 512) → Bool} {table : List (Fin 512)} (nodup : (cells owned m root).Nodup) (short : table.length < 3)
  (reach : follow (next m.mem) table root = some q) {other : List (Fin 512)}
include nodup short reach

omit short in
theorem cells_setPte (deep : table.length + d = 2) (i : Fin 512) (pte : Pte) :
    cells owned (m.setPte q i pte) root + below (next m.mem) d (fun rest => owned (table ++ i :: rest)) (next m.mem q i) =
      cells owned m root + below (next (m.setPte q i pte).mem) d (fun rest => owned (table ++ i :: rest))
        (next (m.setPte q i pte).mem q i) := by
  refine span_store (fun b j other => ?_) nodup (by omega) reach
  rw [next, next, setPte_other m pte other]

theorem follow_setPte_of_apart (pte : Pte) (inside : other.length ≤ 3) (apart : ¬ table ++ [i] <+: other) :
    follow (next (m.setPte q i pte).mem) other root = follow (next m.mem) other root := by
  refine follow_congr fun init j rest b here reach' => ?_
  have away : b ≠ q ∨ j ≠ i := by
    by_contra same
    push Not at same
    obtain ⟨rfl, rfl⟩ := same
    have long : init.length < 3 := by
      rw [here, List.length_append, List.length_cons] at inside
      omega
    obtain rfl : init = table := follow_unique_of_lt nodup long short reach' reach
    exact apart ⟨rest, by rw [here]; simp⟩
  rw [next, next, setPte_other m pte away]

theorem follow_setPte_upper (pte : Pte) (upper : other.length ≤ table.length) :
    follow (next (m.setPte q i pte).mem) other root = follow (next m.mem) other root := by
  refine follow_setPte_of_apart nodup short reach pte (upper.trans short.le) fun before => ?_
  have longer := before.length_le
  rw [List.length_append, List.length_singleton] at longer
  omega

theorem follow_setPte (pte : Pte) : follow (next (m.setPte q i pte).mem) table root = some q :=
  (follow_setPte_upper nodup short reach pte le_rfl).trans reach

theorem mapped_setPte_of_apart (pte : Pte) (apart : ¬ table ++ [i] <+: path va) :
    mapped (m.setPte q i pte) root va = mapped m root va := by
  have split : path va = tablePath va ++ [px 0 va] := rfl
  have same : follow (next (m.setPte q i pte).mem) (tablePath va) root = follow (next m.mem) (tablePath va) root :=
    follow_setPte_of_apart nodup short reach pte (tablePath_lt va).le fun before =>
      apart (before.trans (split ▸ List.prefix_append _ _))
  rw [mapped, same, mapped]
  refine Option.bind_congr fun b inside => ?_
  have other : b ≠ q ∨ px 0 va ≠ i := by
    by_contra same
    push Not at same
    obtain ⟨rfl, rfl⟩ := same
    obtain rfl : tablePath va = table :=
      follow_unique_of_lt nodup (tablePath_lt va) short inside reach
    exact apart (by rw [split])
  rw [setPte_other m pte other]

theorem mapped_setPte_bare (upper : table.length < 2) (unused : next m.mem q i = none)
    (bare : (m.setPte q i ⟨true, perm, fresh⟩).mem fresh = memset 0) :
    mapped (m.setPte q i ⟨true, perm, fresh⟩) root va = mapped m root va := by
  by_cases apart : table ++ [i] <+: path va
  · obtain ⟨rest, split⟩ := apart
    obtain ⟨rest, here⟩ : ∃ rest, table ++ i :: rest = tablePath va := by
      refine ⟨rest.dropLast, ?_⟩
      have last := congrArg List.dropLast split
      have nonempty : rest ≠ [] := by
        rintro rfl
        have length := congrArg List.length split
        simp only [List.length_append, List.length_cons, List.length_nil, path, pathFrom] at length
        omega
      rw [List.append_assoc, List.dropLast_append_of_ne_nil (by simp), List.singleton_append,
        List.dropLast_cons_of_ne_nil nonempty] at last
      exact last
    have before : mapped m root va = none := by
      rw [mapped, ← here, follow_append, reach, Option.bind_some, follow, unused]
      rfl
    have link : next (m.setPte q i ⟨true, perm, fresh⟩).mem q i = some fresh := next_setPte _ _ _ _
    rw [before, mapped, ← here, follow_append, follow_setPte nodup short reach, Option.bind_some, follow, link, Option.bind_some]
    cases rest with
    | nil =>
      rw [follow, Option.bind_some, bare]
      rfl
    | cons j rest =>
      rw [follow, next_zero (congrFun bare j)]
      rfl
  · exact mapped_setPte_of_apart nodup short reach _ apart

omit short in
theorem moves_link (deep : table.length + d = 2) (unused : next m.mem q i = none) (pte : Pte) :
    Moves m.heap (m.setPte q i pte).heap (cells owned m root + below (next (m.setPte q i pte).mem) d
        (fun rest => owned (table ++ i :: rest)) (next (m.setPte q i pte).mem q i)) (cells owned (m.setPte q i pte) root) := by
  have total := cells_setPte nodup reach deep i pte
  rw [unused, below, Option.elim_none, add_zero] at total
  rw [total]
  exact .store (Multiset.mem_add.mpr (.inl (mem_span_of_follow (by omega) reach))) _

end entry

/-! ## `kalloc` and `kfree` -/

theorem kalloc_moves (action : kalloc m = some (some p, m')) : Moves m.heap m'.heap 0 {p} := by
  unfold kalloc at action
  split at action
  · rename_i quota r rest _ free
    obtain ⟨rfl, rfl⟩ : r = p ∧ _ = m' := by simpa using action
    exact .alloc free _
  · simp at action

theorem kalloc_none (action : kalloc m = some (none, m')) : m' = m := by
  unfold kalloc at action
  split at action
  · simp at action
  · exact (Prod.mk.inj (Option.some.inj action)).2.symm

theorem fill_eq (action : fill p data m = some (u, m')) : m' = { m with mem := Function.update m.mem p data } :=
  (modify_eq_some.mp action).symm

theorem fill_moves (action : fill p data m = some (u, m')) (owned : p ∈ A) : Moves m.heap m'.heap A A := by
  rw [fill_eq action]
  exact .store owned _

theorem setPte_eq (action : setPte q i pte m = some (u, m')) : m' = m.setPte q i pte :=
  (modify_eq_some.mp action).symm

theorem kfree_moves {L : Layout} (action : kfree L p m = some (u, m')) : Moves m.heap m'.heap {p} 0 := by
  unfold kfree at action
  split at action
  · cases action
  · obtain rfl := (Prod.mk.inj (Option.some.inj action)).2
    exact .release _ _ _

/-! ## `walk` -/

def Leaf (m : Mem) (root : Page) (va : ℕ) (q : Page) (i : Fin 512) : Prop :=
  ∃ table, table ++ [i] = path va ∧ follow (next m.mem) table root = some q

section walk
variable {owned : List (Fin 512) → Bool} (nodup : ((m.freelist : Multiset Page) + cells owned m root).Nodup)
  {alloc : Bool} {r : Option (Page × Fin 512)}
include nodup

theorem moves_table {m1 m2 m3 : Mem} {u' : Unit} {table : List (Fin 512)}
    (taken : kalloc m = some (some fresh, m1)) (filled : fill fresh (memset 0) m1 = some (u, m2))
    (linked : setPte q i ⟨true, perm, fresh⟩ m2 = some (u', m3)) (reach : follow (next m.mem) table root = some q)
    (deep : table.length + (d + 1) = 2) (unused : next m.mem q i = none) :
    Moves m.heap m3.heap (cells owned m root) (cells owned m3 root) ∧
    follow (next m3.mem) (table ++ [i]) root = some fresh ∧ ∀ a, mapped m3 root a = mapped m root a := by
  have short : table.length < 3 := by omega
  have gained : Moves m.heap m2.heap 0 {fresh} :=
    (kalloc_moves taken).trans (fill_moves filled (Multiset.mem_singleton_self fresh))
  have alone : ((m.freelist : Multiset Page) + (0 + cells owned m root)).Nodup := by simpa using nodup
  have first : Moves m.heap m2.heap (cells owned m root) (cells owned m2 root + {fresh}) := by
    rw [cells_kept gained alone]
    simpa [add_comm] using gained.add (cells owned m root)
  have apart : ((m2.freelist : Multiset Page) + (cells owned m2 root + {fresh})).Nodup := first.nodup nodup
  have reach2 : follow (next m2.mem) table root = some q := (follow_kept gained alone short.le).trans reach
  have cell : m2.mem q = m.mem q := gained.kept alone (mem_span_of_follow short reach)
  have nodup2 : (cells owned m2 root).Nodup := (Multiset.nodup_add.mp (Multiset.nodup_add.mp apart).2.1).1
  have other : fresh ≠ q := by
    rintro rfl
    exact Multiset.disjoint_left.mp (Multiset.nodup_add.mp (Multiset.nodup_add.mp apart).2.1).2.2
      (mem_span_of_follow short reach2) (Multiset.mem_singleton_self _)
  have unused2 : next m2.mem q i = none := by
    rw [next, cell]
    exact unused
  have second := moves_link nodup2 reach2 deep unused2 ⟨true, perm, fresh⟩
  have link : next (m2.setPte q i ⟨true, perm, fresh⟩).mem q i = some fresh := next_setPte _ _ _ _
  have bare : (m2.setPte q i ⟨true, perm, fresh⟩).mem fresh = memset 0 := by
    funext j
    rw [setPte_other _ _ (.inl other), fill_eq filled]
    exact congrFun (Function.update_self fresh _ _) j
  rw [link, below, Option.elim_some, span_bare fun j => next_zero (congrFun bare j)] at second
  rw [setPte_eq linked]
  refine ⟨first.trans second, ?_, fun a => ?_⟩
  · rw [follow_append, follow_setPte nodup2 short reach2, Option.bind_some, follow, link]
    rfl
  · rw [mapped_setPte_bare nodup2 short reach2 (by omega) unused2 bare]
    exact mapped_kept gained alone

theorem walkFrom_moves {level : ℕ} {table : List (Fin 512)} (action : walkFrom va alloc level p m = some (r, m'))
    (reach : follow (next m.mem) table root = some p) (here : table ++ pathFrom level va = path va)
    (deep : table.length + level = 2) :
    Moves m.heap m'.heap (cells owned m root) (cells owned m' root) ∧
    (∀ a, mapped m' root a = mapped m root a) ∧ ∀ q i, r = some (q, i) → Leaf m' root va q i := by
  induction level generalizing m p table with
  | zero =>
    obtain ⟨rfl, rfl⟩ := pure_eq_some.mp action
    refine ⟨.refl _ _, fun _ => rfl, fun q i same => ?_⟩
    obtain ⟨rfl, rfl⟩ := Prod.mk.inj (Option.some.inj same)
    exact ⟨table, here, reach⟩
  | succ level ih =>
    have here' : (table ++ [px (level + 1) va]) ++ pathFrom level va = path va := by
      rw [List.append_assoc]
      exact here
    have deep' : (table ++ [px (level + 1) va]).length + level = 2 := by
      rw [List.length_append, List.length_singleton]
      omega
    simp only [walkFrom, bind_eq_some, get_eq_some] at action
    obtain ⟨_, _, ⟨rfl, rfl⟩, action⟩ := action
    split at action
    · rename_i valid
      refine ih nodup action ?_ here' deep'
      rw [follow_append, reach]
      simp [follow, next, valid]
    · rename_i invalid
      split at action
      · obtain ⟨answer, m1, taken, action⟩ := bind_eq_some.mp action
        cases answer with
        | none =>
          obtain ⟨rfl, rfl⟩ := pure_eq_some.mp action
          rw [kalloc_none taken]
          exact ⟨.refl _ _, fun _ => rfl, fun q i absurd => by cases absurd⟩
        | some fresh =>
          simp only [bind_eq_some] at action
          obtain ⟨_, m2, filled, _, m3, linked, action⟩ := action
          obtain ⟨moves, reach, same⟩ :=
            moves_table nodup taken filled linked reach (by omega) (by simp [next, invalid])
          obtain ⟨moves', same', leaf⟩ := ih (moves.nodup nodup) action reach here' deep'
          exact ⟨moves.trans moves', fun a => (same' a).trans (same a), leaf⟩
      · obtain ⟨rfl, rfl⟩ := pure_eq_some.mp action
        exact ⟨.refl _ _, fun _ => rfl, fun q i absurd => by cases absurd⟩

theorem walk_moves (action : walk root va alloc m = some (r, m')) :
    va < MAXVA ∧ Moves m.heap m'.heap (cells owned m root) (cells owned m' root) ∧
    (∀ a, mapped m' root a = mapped m root a) ∧ ∀ q i, r = some (q, i) → Leaf m' root va q i := by
  unfold walk at action
  split at action
  · exact (failure_eq_some.mp action).elim
  · rename_i small
    have start : follow (next m.mem) [] root = some root := rfl
    exact ⟨not_le.mp small, walkFrom_moves nodup action start rfl rfl⟩

end walk

theorem walk_false (m : Mem) (root : Page) (small : va < MAXVA) :
    walk root va false m = some ((follow (next m.mem) (tablePath va) root).map fun q => (q, px 0 va), m) := by
  rw [walk, if_neg (not_le.mpr small)]
  cases first : (m.mem root (px 2 va)).v with
  | false => simp [walkFrom, tablePath, follow, next, first]
  | true =>
    cases second : (m.mem (m.mem root (px 2 va)).ppn (px 1 va)).v with
    | false => simp [walkFrom, tablePath, follow, next, first, second]
    | true => simp [walkFrom, tablePath, follow, next, first, second]

theorem kalloc_total (m : Mem) : ∃ r m', kalloc m = some (r, m') := by
  unfold kalloc
  split <;> exact ⟨_, _, rfl⟩

theorem walkFrom_total (va : ℕ) (alloc : Bool) (level : ℕ) (p : Page) (m : Mem) : ∃ r m', walkFrom va alloc level p m = some (r, m') := by
  induction level generalizing p m with
  | zero => exact ⟨_, _, rfl⟩
  | succ level ih =>
    by_cases valid : (m.mem p (px (level + 1) va)).v
    · obtain ⟨r, m', ran⟩ := ih (m.mem p (px (level + 1) va)).ppn m
      exact ⟨r, m', by simp [walkFrom, valid, ran]⟩
    · cases alloc with
      | false => exact ⟨none, m, by simp [walkFrom, valid]⟩
      | true =>
        obtain ⟨answer, m₁, taken⟩ := kalloc_total m
        cases answer with
        | none => exact ⟨none, m₁, by simp [walkFrom, valid, taken]⟩
        | some fresh =>
          obtain ⟨r, m', ran⟩ := ih fresh
            (({ m₁ with mem := Function.update m₁.mem fresh (memset 0) } : Mem).setPte p (px (level + 1) va) ⟨true, .none, fresh⟩)
          exact ⟨r, m', by simpa [walkFrom, valid, taken, fill, setPte, Mem.setPte] using ran⟩

/-! ## Addresses of one page -/

theorem px_congr (level : ℕ) (same : a / PGSIZE = b / PGSIZE) : px level a = px level b := by
  have split (x : ℕ) : x / 2 ^ (12 + 9 * level) = x / PGSIZE / 2 ^ (9 * level) := by
    rw [pow_add, ← Nat.div_div_eq_div_mul]
    rfl
  rw [px, px, split, split, same]

theorem mapped_congr (m : Mem) (root : Page) (same : a / PGSIZE = b / PGSIZE) : mapped m root a = mapped m root b := by
  rw [mapped, mapped, tablePath, tablePath, px_congr 0 same, px_congr 1 same, px_congr 2 same]

theorem page_of_path (small : a < MAXVA) (small' : b < MAXVA) (same : path a = path b) : a / PGSIZE = b / PGSIZE := by
  simp only [MAXVA] at small small'
  rw [← vpn_path (by omega : a < 2 ^ 39), same, vpn_path (by omega)]

theorem apart_of_page (small : a < MAXVA) (small' : b < MAXVA) (other : a / PGSIZE ≠ b / PGSIZE) : ¬ path a <+: path b :=
  fun before => other (page_of_path small small' (before.eq_of_length rfl))

theorem leaf_table (leaf : Leaf m root va q i) : i = px 0 va ∧ follow (next m.mem) (tablePath va) root = some q := by
  obtain ⟨table, split, reach⟩ := leaf
  have both : table ++ [i] = tablePath va ++ [px 0 va] := split
  obtain ⟨rfl, same⟩ := List.append_inj' both rfl
  exact ⟨List.head_eq_of_cons_eq same, reach⟩

theorem mapped_leaf (leaf : Leaf m root va q i) : mapped m root va = if (m.mem q i).v then some (m.mem q i) else none := by
  obtain ⟨rfl, reach⟩ := leaf_table leaf
  rw [mapped, reach]
  rfl

end OsProjects.Paging
