import Mathlib.Algebra.BigOperators.Group.Finset.Piecewise
import Mathlib.Algebra.Order.Group.Multiset
import Mathlib.Data.Multiset.UnionInter

namespace OsProjects.Ownership

variable {Addr Cell : Type*}

/-- A memory whose free cells are kept in a list. -/
structure Heap (Addr Cell : Type*) where
  free : List Addr
  cell : Addr → Cell

/-- A program that owned `A` and then owns `B`: what it gained was free and what it lost is, and nothing else has
changed. -/
structure Moves (h h' : Heap Addr Cell) (A B : Multiset Addr) : Prop where
  total : (h'.free : Multiset Addr) + B = h.free + A
  frame : ∀ a, a ∉ h.free → a ∉ A → h'.cell a = h.cell a

namespace Moves

variable {h h' h'' : Heap Addr Cell} {A B C G : Multiset Addr} {a : Addr} {x : Cell}

theorem refl (h : Heap Addr Cell) (A : Multiset Addr) : Moves h h A A := ⟨rfl, fun _ _ _ => rfl⟩

theorem nodup (moves : Moves h h' A B) (nodup : ((h.free : Multiset Addr) + A).Nodup) :
    ((h'.free : Multiset Addr) + B).Nodup := by
  rwa [moves.total]

theorem mem_iff (moves : Moves h h' A B) (a : Addr) : a ∈ h'.free ∨ a ∈ B ↔ a ∈ h.free ∨ a ∈ A := by
  have total := congrArg (a ∈ ·) moves.total
  simpa using total

theorem trans (first : Moves h h' A B) (second : Moves h' h'' B C) : Moves h h'' A C where
  total := second.total.trans first.total
  frame a unfree unowned := by
    have outside := not_congr (first.mem_iff a)
    push Not at outside
    obtain ⟨still, other⟩ := outside.mpr ⟨unfree, unowned⟩
    rw [second.frame a still other, first.frame a unfree unowned]

theorem add (moves : Moves h h' A B) (G : Multiset Addr) : Moves h h' (A + G) (B + G) where
  total := by rw [← add_assoc, moves.total, add_assoc]
  frame a unfree unowned := moves.frame a unfree fun member => unowned (Multiset.mem_add.mpr (.inl member))

theorem kept (moves : Moves h h' A B) (nodup : ((h.free : Multiset Addr) + (A + G)).Nodup) (other : a ∈ G) :
    h'.cell a = h.cell a := by
  rw [← add_assoc] at nodup
  have apart := (Multiset.nodup_add.mp nodup).2.2
  refine moves.frame a (fun free => ?_) fun owned => ?_
  · exact Multiset.disjoint_left.mp apart (Multiset.mem_add.mpr (.inl (Multiset.mem_coe.mpr free))) other
  · exact Multiset.disjoint_left.mp apart (Multiset.mem_add.mpr (.inr owned)) other

variable [DecidableEq Addr]

theorem alloc {rest : List Addr} (free : h.free = a :: rest) (x : Cell) :
    Moves h ⟨rest, Function.update h.cell a x⟩ 0 {a} where
  total := by
    rw [free, add_zero, add_comm]
    exact (Multiset.singleton_add a _).trans (Multiset.cons_coe a rest)
  frame b unfree _ := by
    have other : b ≠ a := fun same => unfree (by simp [free, same])
    exact Function.update_of_ne other _ _

theorem release (h : Heap Addr Cell) (a : Addr) (x : Cell) :
    Moves h ⟨a :: h.free, Function.update h.cell a x⟩ {a} 0 where
  total := by
    rw [add_zero, add_comm]
    exact ((Multiset.singleton_add a _).trans (Multiset.cons_coe a h.free)).symm
  frame b _ unowned := Function.update_of_ne (fun same => unowned (by simp [same])) _ _

theorem store (owned : a ∈ A) (x : Cell) : Moves h { h with cell := Function.update h.cell a x } A A where
  total := rfl
  frame b _ unowned := by
    have other : b ≠ a := by
      rintro rfl
      exact unowned owned
    exact Function.update_of_ne other _ _

end Moves

end OsProjects.Ownership
