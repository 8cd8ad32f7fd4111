import Mathlib.Algebra.BigOperators.Group.Finset.Piecewise
import Mathlib.Algebra.Order.Group.Multiset
import Mathlib.Data.Multiset.UnionInter
import Mathlib.Tactic.Abel

namespace OsProjects.Ownership

variable {Addr Index : Type*}

/-! ## Trees of cells -/

/-- The cell at the end of a path of links. -/
def follow (next : Addr → Index → Option Addr) : List Index → Addr → Option Addr
  | [], a => some a
  | i :: rest, a => (next a i).bind (follow next rest)

variable {next next' : Addr → Index → Option Addr} {a : Addr}

theorem follow_append (next : Addr → Index → Option Addr) (first second : List Index) (a : Addr) :
    follow next (first ++ second) a = (follow next first a).bind (follow next second) := by
  induction first generalizing a with
  | nil => rfl
  | cons i rest ih => cases link : next a i <;> simp [follow, link, ih]

theorem follow_congr {path : List Index}
    (same : ∀ init i rest b, path = init ++ i :: rest → follow next init a = some b → next' b i = next b i) :
    follow next' path a = follow next path a := by
  induction path generalizing a with
  | nil => rfl
  | cons i rest ih =>
    simp only [follow, same [] i rest a rfl rfl]
    cases link : next a i with
    | none => rfl
    | some c =>
      refine ih fun init j tail b split reach => same (i :: init) j tail b (by simp [split]) ?_
      simp [follow, link, reach]

variable [Fintype Index]

/-- The cells of a tree of this depth, those at its full depth only where they belong to it. -/
def span (next : Addr → Index → Option Addr) : ℕ → (List Index → Bool) → Addr → Multiset Addr
  | 0, owned, a => if owned [] then {a} else 0
  | depth + 1, owned, a => {a} + ∑ i, (next a i).elim 0 (span next depth fun rest => owned (i :: rest))

/-- What hangs from a link. -/
abbrev below (next : Addr → Index → Option Addr) (depth : ℕ) (owned : List Index → Bool) (link : Option Addr) :
    Multiset Addr :=
  link.elim 0 (span next depth owned)

variable {depth : ℕ} {owned : List Index → Bool} {x : Addr}

theorem mem_span_root (next : Addr → Index → Option Addr) (depth : ℕ) (owned : List Index → Bool) (a : Addr) :
    a ∈ span next (depth + 1) owned a := by
  simp [span]

theorem mem_span_succ : x ∈ span next (depth + 1) owned a ↔
    x = a ∨ ∃ i c, next a i = some c ∧ x ∈ span next depth (fun rest => owned (i :: rest)) c := by
  simp only [span, Multiset.mem_add, Multiset.mem_singleton, Multiset.mem_sum, Finset.mem_univ, true_and]
  refine or_congr_right (exists_congr fun i => ?_)
  cases next a i <;> simp

theorem mem_span : x ∈ span next depth owned a ↔
    ∃ path, path.length ≤ depth ∧ follow next path a = some x ∧ (path.length = depth → owned path = true) := by
  induction depth generalizing owned a with
  | zero =>
    constructor
    · intro member
      by_cases mine : owned [] = true
      · refine ⟨[], le_rfl, ?_, fun _ => mine⟩
        have equal : x = a := by simpa [span, mine] using member
        rw [equal, follow]
      · simp [span, mine] at member
    · rintro ⟨path, short, reach, mine⟩
      obtain rfl := List.length_eq_zero_iff.mp (Nat.le_zero.mp short)
      have equal : a = x := Option.some.inj reach
      simp [span, mine rfl, equal]
  | succ depth ih =>
    rw [mem_span_succ]
    constructor
    · rintro (rfl | ⟨i, c, link, member⟩)
      · exact ⟨[], Nat.zero_le _, rfl, fun full => by simp at full⟩
      · obtain ⟨path, short, reach, mine⟩ := ih.mp member
        exact ⟨i :: path, Nat.succ_le_succ short, by simp [follow, link, reach], fun full => mine (Nat.succ.inj full)⟩
    · rintro ⟨path, short, reach, mine⟩
      cases path with
      | nil => exact .inl (Option.some.inj reach).symm
      | cons i rest =>
        obtain ⟨c, link, reach⟩ := Option.bind_eq_some_iff.mp reach
        exact .inr ⟨i, c, link, ih.mpr ⟨rest, Nat.le_of_succ_le_succ short, reach, fun full => mine (by simp [full])⟩⟩

theorem span_congr (same : ∀ path x, path.length < depth → follow next path a = some x → next' x = next x) :
    span next' depth owned a = span next depth owned a := by
  induction depth generalizing owned a with
  | zero => rfl
  | succ depth ih =>
    have root : next' a = next a := same [] a (Nat.succ_pos depth) rfl
    simp only [span, root]
    congr 1
    refine Finset.sum_congr rfl fun i _ => ?_
    cases link : next a i with
    | none => rfl
    | some c =>
      refine ih fun path x short reach => same (i :: path) x (Nat.succ_lt_succ short) ?_
      simp [follow, link, reach]

theorem mem_span_of_follow {path : List Index} (short : path.length < depth) (reach : follow next path a = some x) :
    x ∈ span next depth owned a :=
  mem_span.mpr ⟨path, short.le, reach, fun full => absurd full short.ne⟩

theorem span_congr_of_mem (same : ∀ x ∈ span next depth owned a, next' x = next x) :
    span next' depth owned a = span next depth owned a :=
  span_congr fun _ x short reach => same x (mem_span_of_follow short reach)

/-! ## Every cell at one place -/

theorem span_split [DecidableEq Index] (next : Addr → Index → Option Addr) (depth : ℕ) (owned : List Index → Bool)
    (a : Addr) (i : Index) :
    span next (depth + 1) owned a = {a} + (below next depth (fun rest => owned (i :: rest)) (next a i) +
      ∑ j ∈ Finset.univ.erase i, below next depth (fun rest => owned (j :: rest)) (next a j)) := by
  rw [span]
  congr 1
  exact (Finset.add_sum_erase _ (fun j => below next depth (fun rest => owned (j :: rest)) (next a j))
    (Finset.mem_univ i)).symm

theorem span_bare (bare : ∀ i, next a i = none) : span next (depth + 1) owned a = {a} := by
  simp [span, bare]

section nodup
variable (nodup : (span next (depth + 1) owned a).Nodup) {i j : Index} {c d : Addr}
include nodup

theorem nodup_child (link : next a i = some c) : (span next depth (fun rest => owned (i :: rest)) c).Nodup := by
  classical
  rw [span_split next depth owned a i, link] at nodup
  exact (Multiset.nodup_add.mp (Multiset.nodup_add.mp nodup).2.1).1

theorem root_not_below (link : next a i = some c) : a ∉ span next depth (fun rest => owned (i :: rest)) c := by
  classical
  rw [span_split next depth owned a i, link] at nodup
  intro member
  refine Multiset.disjoint_left.mp (Multiset.nodup_add.mp nodup).2.2 (Multiset.mem_singleton_self a) ?_
  exact Multiset.mem_add.mpr (.inl member)

theorem children_apart (other : j ≠ i) (first : next a i = some c) (second : next a j = some d)
    (here : x ∈ span next depth (fun rest => owned (i :: rest)) c) :
    x ∉ span next depth (fun rest => owned (j :: rest)) d := by
  classical
  rw [span_split next depth owned a i, first] at nodup
  intro there
  refine Multiset.disjoint_left.mp (Multiset.nodup_add.mp (Multiset.nodup_add.mp nodup).2.1).2.2 here ?_
  refine Multiset.mem_sum.mpr ⟨j, Finset.mem_erase.mpr ⟨other, Finset.mem_univ j⟩, ?_⟩
  rwa [second]

end nodup

theorem follow_unique (nodup : (span next depth owned a).Nodup) {first second : List Index}
    (short : first.length ≤ depth) (short' : second.length ≤ depth)
    (mine : first.length = depth → owned first = true) (mine' : second.length = depth → owned second = true)
    (here : follow next first a = some x) (there : follow next second a = some x) : first = second := by
  induction depth generalizing owned a first second with
  | zero =>
    rw [List.length_eq_zero_iff.mp (Nat.le_zero.mp short), List.length_eq_zero_iff.mp (Nat.le_zero.mp short')]
  | succ depth ih =>
    have inner : ∀ {i rest c}, (i :: rest).length ≤ depth + 1 → ((i :: rest).length = depth + 1 → owned (i :: rest) = true) →
        follow next rest c = some x → x ∈ span next depth (fun rest => owned (i :: rest)) c :=
      fun short mine reach => mem_span.mpr ⟨_, Nat.le_of_succ_le_succ short, reach, fun full => mine (by simp [full])⟩
    cases first with
    | nil =>
      obtain rfl : a = x := Option.some.inj here
      cases second with
      | nil => rfl
      | cons j rest =>
        obtain ⟨d, link, reach⟩ := Option.bind_eq_some_iff.mp there
        exact absurd (inner short' mine' reach) (root_not_below nodup link)
    | cons i rest =>
      obtain ⟨c, link, reach⟩ := Option.bind_eq_some_iff.mp here
      cases second with
      | nil =>
        obtain rfl : a = x := Option.some.inj there
        exact absurd (inner short mine reach) (root_not_below nodup link)
      | cons j rest' =>
        obtain ⟨d, link', reach'⟩ := Option.bind_eq_some_iff.mp there
        by_cases same : j = i
        · subst same
          obtain rfl : c = d := Option.some.inj (link.symm.trans link')
          rw [ih (nodup_child nodup link) (Nat.le_of_succ_le_succ short) (Nat.le_of_succ_le_succ short')
            (fun full => mine (by simp [full])) (fun full => mine' (by simp [full])) reach reach']
        · exact absurd (inner short' mine' reach') (children_apart nodup same link link' (inner short mine reach))

theorem follow_unique_of_lt (nodup : (span next depth owned a).Nodup) {first second : List Index}
    (short : first.length < depth) (short' : second.length < depth)
    (here : follow next first a = some x) (there : follow next second a = some x) : first = second :=
  follow_unique nodup short.le short'.le (fun full => absurd full short.ne) (fun full => absurd full short'.ne) here there

/-! ## A new link -/

section store
variable {path : List Index} {q : Addr} {i : Index} {d : ℕ} (same : ∀ b j, b ≠ q ∨ j ≠ i → next' b j = next b j)
include same

/-- A link of the cell at the end of a path changes what hangs from it and nothing else of the tree. -/
theorem span_store (nodup : (span next depth owned a).Nodup) (deep : depth = path.length + (d + 1))
    (reach : follow next path a = some q) :
    span next' depth owned a + below next d (fun rest => owned (path ++ i :: rest)) (next q i) =
      span next depth owned a + below next' d (fun rest => owned (path ++ i :: rest)) (next' q i) := by
  classical
  have untouched : ∀ {x}, x ≠ q → next' x = next x := fun other => funext fun j => same _ j (.inl other)
  induction path generalizing depth owned a with
  | nil =>
    obtain rfl : a = q := Option.some.inj reach
    obtain rfl : depth = d + 1 := by simpa using deep
    have rest : ∀ j ∈ Finset.univ.erase i, below next' d (fun rest => owned (j :: rest)) (next' a j) =
        below next d (fun rest => owned (j :: rest)) (next a j) := by
      intro j member
      rw [same a j (.inr (Finset.ne_of_mem_erase member))]
      cases link : next a j with
      | none => rfl
      | some c =>
        refine span_congr_of_mem fun x inside => untouched ?_
        rintro rfl
        exact root_not_below nodup link inside
    rw [span_split next' d owned a i, span_split next d owned a i, Finset.sum_congr rfl rest]
    simp only [List.nil_append]
    abel
  | cons j path ih =>
    obtain ⟨c, link, reach⟩ := Option.bind_eq_some_iff.mp reach
    obtain ⟨depth, rfl⟩ : ∃ n, depth = n + 1 := ⟨path.length + (d + 1), by simp at deep; omega⟩
    have deep : depth = path.length + (d + 1) := by simp at deep; omega
    have inside : q ∈ span next depth (fun rest => owned (j :: rest)) c :=
      mem_span.mpr ⟨path, by omega, reach, fun full => by omega⟩
    have root : next' a = next a := untouched fun equal => root_not_below nodup link (equal ▸ inside)
    have rest : ∀ k ∈ Finset.univ.erase j, below next' depth (fun rest => owned (k :: rest)) (next' a k) =
        below next depth (fun rest => owned (k :: rest)) (next a k) := by
      intro k member
      rw [root]
      cases other : next a k with
      | none => rfl
      | some c' =>
        refine span_congr_of_mem fun x there => untouched ?_
        rintro rfl
        exact children_apart nodup (Finset.ne_of_mem_erase member) link other inside there
    have child := ih (nodup_child nodup link) deep reach
    rw [span_split next' depth owned a j, span_split next depth owned a j, Finset.sum_congr rfl rest, root, link]
    generalize ∑ k ∈ Finset.univ.erase j, below next depth (fun rest => owned (k :: rest)) (next a k) = others
    simp only [below, Option.elim_some, List.cons_append] at child ⊢
    calc _ = {a} + others + (span next' depth (fun rest => owned (j :: rest)) c +
          (next q i).elim 0 (span next d fun rest => owned (j :: (path ++ i :: rest)))) := by abel
      _ = _ := by
        rw [child]
        abel

end store

attribute [irreducible] span

end OsProjects.Ownership
