import OsProjects.Paging.Rollback

namespace OsProjects.Paging
open Ownership Kernel

variable {L : Layout} {m' : Mem} {root : Page}

theorem vm_eq {α : Type} {code : Vm α} {r : α} {s : State} (ran : code s.mem = some (r, m')) :
    vm code s = some (r, { s with mem := m' }) := by
  rw [vm, ran]
  rfl

/-- The answer is right: the memory is that of the new size, or there was no page and it is as before. -/
def Meant (p : Slot) (n : ℤ) (root : Page) (s : State) (ret : Ret) (s' : State) : Prop :=
  (ret = .done ∧ ((s'.proc p).sz : ℤ) = (s.proc p).sz + n ∧
    ∀ v < TRAPFRAME / PGSIZE, (pageMap s'.mem root v).isSome ↔ v < pagesOf (s'.proc p).sz) ∨
  ret = .failed ∧ Exhausted s.mem s'.mem ∧ (s'.proc p).sz = (s.proc p).sz ∧ pageMap s'.mem root = pageMap s.mem root

section call
variable {p : Slot} {n : ℤ} {s : State} (table : (s.proc p).pagetable = some root) (space : UserTable L s.mem root (s.proc p).sz)
include table space

theorem growproc_grows (positive : 0 < n) (fits : n < 2 ^ 31) : ∃ ret s', growproc L p n s = some (ret, s') ∧
    (s'.proc p).pagetable = some root ∧ UserTable L s'.mem root (s'.proc p).sz ∧ Meant p n root s ret s' := by
  obtain ⟨sz, size⟩ : ∃ sz, (s.proc p).sz = sz := ⟨_, rfl⟩
  have bound := space.size
  obtain ⟨newsz, sum⟩ : ∃ newsz : ℕ, (sz : ℤ) + n = newsz := Int.eq_ofNat_of_zero_le (by omega)
  rw [size] at space bound
  have wrapped : (((sz : ℤ) + n) % 2 ^ 64).toNat = newsz := by
    simp only [pagesOf, PHYSTOP, PGSIZE] at bound
    omega
  obtain ⟨r, m', sz', ran, outcome, _, user, _⟩ := space.alloc (by omega : sz ≤ newsz) ⟨false, true, false, false, 0#5⟩
  have start (answer : Ret × State) (rest : (if r = 0 then pure Ret.failed else do
      setProc p { s.proc p with sz := r }
      pure Ret.done : Sys Ret) { s with mem := m' } = some answer) : growproc L p n s = some answer := by
    refine bind_eq_some.mpr ⟨s, s, rfl, ?_⟩
    simp only [table] at rest
    simp only [table, size, wrapped, if_pos positive, gt_iff_lt]
    exact bind_eq_some.mpr ⟨r, _, vm_eq ran, rest⟩
  rcases outcome with ⟨done, sized⟩ | ⟨_, zero, sized, spent, map⟩
  · rw [sized] at user
    refine ⟨.done, { s with mem := m', proc := Function.update s.proc p { s.proc p with sz := newsz } }, start _ ?_, by simpa using table,
      by simpa using user, .inl ⟨rfl, by simp [size, sum], by simpa using user.user⟩⟩
    rw [done, if_neg (by omega)]
    rfl
  · rw [sized, ← size] at user
    exact ⟨.failed, { s with mem := m' }, start _ (by rw [if_pos zero]; rfl), table, user, .inr ⟨rfl, spent, rfl, map⟩⟩

theorem growproc_shrinks (negative : n < 0) (least : -2 ^ 31 ≤ n) : ∃ s', growproc L p n s = some (.done, s') ∧
    (s'.proc p).pagetable = some root ∧ UserTable L s'.mem root (s'.proc p).sz ∧
    ((s'.proc p).sz : ℤ) = if 0 ≤ (s.proc p).sz + n then (s.proc p).sz + n else (s.proc p).sz := by
  obtain ⟨sz, size⟩ : ∃ sz, (s.proc p).sz = sz := ⟨_, rfl⟩
  have bound := space.size
  rw [size] at space bound ⊢
  have start {r : ℕ} {m' : Mem} (ran : uvmdealloc L root sz (((sz : ℤ) + n) % 2 ^ 64).toNat s.mem = some (r, m')) :
      growproc L p n s = some (.done, { s with mem := m', proc := Function.update s.proc p { s.proc p with sz := r } }) := by
    refine bind_eq_some.mpr ⟨s, s, rfl, ?_⟩
    simp only [table, size, if_neg negative.le.not_gt, if_pos negative]
    exact bind_eq_some.mpr ⟨r, _, vm_eq ran, bind_eq_some.mpr ⟨(), _, rfl, rfl⟩⟩
  by_cases fits : 0 ≤ (sz : ℤ) + n
  · obtain ⟨newsz, sum⟩ : ∃ newsz : ℕ, (sz : ℤ) + n = newsz := Int.eq_ofNat_of_zero_le fits
    have wrapped : (((sz : ℤ) + n) % 2 ^ 64).toNat = newsz := by
      simp only [pagesOf, PHYSTOP, PGSIZE] at bound
      omega
    obtain ⟨m', ran, user⟩ := space.dealloc (by omega : newsz ≤ sz)
    refine ⟨_, start (by rw [wrapped]; exact ran), by simpa using table, by simpa using user, ?_⟩
    rw [if_pos fits, sum]
    simp
  · -- the sum wraps to a size above the old one, and nothing is released
    have large : (((sz : ℤ) + n) % 2 ^ 64).toNat ≥ sz := by
      simp only [pagesOf, PHYSTOP, PGSIZE] at bound
      omega
    have kept : uvmdealloc L root sz (((sz : ℤ) + n) % 2 ^ 64).toNat s.mem = some (sz, s.mem) := by
      rw [uvmdealloc, if_pos large]
      rfl
    refine ⟨_, start kept, by simpa using table, by simpa using space, ?_⟩
    rw [if_neg fits]
    simp

end call

/-- The answer of `growproc` is right exactly if the new size is not negative. -/
theorem growproc_means (L : Layout) (p : Slot) (n : ℤ) (s : State) (root : Page) (table : (s.proc p).pagetable = some root)
    (space : UserTable L s.mem root (s.proc p).sz) (least : -2 ^ 31 ≤ n) (most : n < 2 ^ 31) :
    ∃ ret s', growproc L p n s = some (ret, s') ∧ (s'.proc p).pagetable = some root ∧ UserTable L s'.mem root (s'.proc p).sz ∧
      (Meant p n root s ret s' ↔ 0 ≤ (s.proc p).sz + n) := by
  rcases lt_trichotomy n 0 with negative | rfl | positive
  · obtain ⟨s', ran, kept, user, size⟩ := growproc_shrinks table space negative least
    refine ⟨.done, s', ran, kept, user, fun meant => ?_, fun fits => ?_⟩
    · rcases meant with ⟨_, right, _⟩ | ⟨absurd, _⟩
      · omega
      · cases absurd
    · rw [if_pos fits] at size
      exact .inl ⟨rfl, size, user.user⟩
  · have ran : growproc L p 0 s = some (.done, s) := by
      refine bind_eq_some.mpr ⟨s, s, rfl, ?_⟩
      simp only [table, if_neg (lt_irrefl (0 : ℤ)), gt_iff_lt]
      rfl
    exact ⟨.done, s, ran, table, space, iff_of_true (.inl ⟨rfl, by omega, space.user⟩) (by omega)⟩
  · obtain ⟨ret, s', ran, kept, user, meant⟩ := growproc_grows table space positive most
    exact ⟨ret, s', ran, kept, user, iff_of_true meant (by omega)⟩

/-! ## A process without memory -/

def empty (pages : ℕ) : State where
  mem := pool pages
  proc _ := ⟨.running, none, 0, some 20, none, fun _ => none⟩
  initproc := 0
  file _ := ⟨.none, 0, false, 0⟩
  pipe _ := ⟨false, false⟩
  kernel := []

/-- A first page with enough memory, and without. -/
theorem growproc_means_firstPage :
    (∃ s', growproc anyRam 0 4096 (empty 3) = some (.done, s') ∧ (s'.proc 0).sz = 4096 ∧
      ∀ v < TRAPFRAME / PGSIZE, (pageMap s'.mem 20 v).isSome ↔ v < 1) ∧
    ∃ s', growproc anyRam 0 4096 (empty 2) = some (.failed, s') ∧ Exhausted (empty 2).mem s'.mem ∧ (s'.proc 0).sz = 0 ∧
      pageMap s'.mem 20 = pageMap (empty 2).mem 20 := by
  constructor
  · have done : (growproc anyRam 0 4096 (empty 3)).map Prod.fst = some .done := by decide +kernel
    obtain ⟨⟨_, s'⟩, ran, rfl⟩ := Option.map_eq_some_iff.mp done
    obtain ⟨ret, s'', ran', _, _, right⟩ :=
      growproc_means anyRam 0 4096 (empty 3) 20 rfl (pool_user (by decide)) (by decide) (by decide)
    obtain ⟨rfl, rfl⟩ := Prod.mk.inj (Option.some.inj (ran.symm.trans ran'))
    rcases right.mpr (by decide) with ⟨_, size, pages⟩ | ⟨absurd, _⟩
    · have grown : (s'.proc 0).sz = 4096 := by exact_mod_cast size
      rw [grown] at pages
      exact ⟨s', ran, grown, pages⟩
    · cases absurd
  · have failed : (growproc anyRam 0 4096 (empty 2)).map Prod.fst = some .failed := by decide +kernel
    obtain ⟨⟨_, s'⟩, ran, rfl⟩ := Option.map_eq_some_iff.mp failed
    obtain ⟨ret, s'', ran', _, _, right⟩ :=
      growproc_means anyRam 0 4096 (empty 2) 20 rfl (pool_user (by decide)) (by decide) (by decide)
    obtain ⟨rfl, rfl⟩ := Prod.mk.inj (Option.some.inj (ran.symm.trans ran'))
    rcases right.mpr (by decide) with ⟨absurd, _⟩ | ⟨_, same⟩
    · cases absurd
    · exact ⟨s', ran, same⟩

theorem shrink_below_zero_succeeds : ∃ s', growproc anyRam 0 (-1) (empty 3) = some (.done, s') ∧ UserTable anyRam (empty 3).mem 20 0 ∧
    (s'.proc 0).sz = 0 := ⟨_, rfl, pool_user (by decide), rfl⟩

end OsProjects.Paging
