import OsProjects.Copying.User

namespace OsProjects.Copying
open Bytes
open Paging hiding Proc

variable {m m' : Mem} {pagetable : Page}

/-! ## Permissions of the pages written -/

def Writable (m : Mem) (pagetable : Page) (a : BitVec 64) : Prop :=
  a.toNat < MAXVA ∧ ∃ pte, mapped m pagetable a.toNat = some pte ∧ pte.perm.u = true ∧ pte.perm.w = true

/-- Only bytes of writable pages are changed, and a page that is not writable is reported. -/
def Respects (m : Mem) (pagetable : Page) (dstva len : BitVec 64) (r : ℤ) (m' : Mem) : Prop :=
  (∀ a, m'.byte a ≠ m.byte a → ∃ k < len.toNat, physAfter m pagetable dstva.toNat k = some a ∧
    Writable m pagetable (dstva + BitVec.ofNat 64 k)) ∧
  ((∃ k < len.toNat, ¬ Writable m pagetable (dstva + BitVec.ofNat 64 k)) → r = -1)

/-- What the copy reaches can also be written through the range, and all of the range can if the copy gets to its end. -/
def Permitted (m : Mem) (pagetable : Page) (dstva len : BitVec 64) : Prop :=
  (∀ k < len.toNat, Reached m pagetable dstva.toNat k → ∃ j < len.toNat,
    physAfter m pagetable dstva.toNat j = physAfter m pagetable dstva.toNat k ∧ Writable m pagetable (dstva + BitVec.ofNat 64 j)) ∧
  ((∀ k < len.toNat, Reached m pagetable dstva.toNat k) → ∀ k < len.toNat, Writable m pagetable (dstva + BitVec.ofNat 64 k))

theorem all_reached {va len : ℕ} :
    (∀ k < len, (physAfter m pagetable va k).isSome) ↔ ∀ k < len, Reached m pagetable va k :=
  ⟨fun all _ less j before => all j (before.trans_lt less), fun all k less => all k less k le_rfl⟩

theorem permitted_of_writable {dstva len : BitVec 64}
    (writable : ∀ k < len.toNat, Reached m pagetable dstva.toNat k → Writable m pagetable (dstva + BitVec.ofNat 64 k)) :
    Permitted m pagetable dstva len :=
  ⟨fun k less reached => ⟨k, less, rfl, writable k less reached⟩, fun all k less => writable k less (all k less)⟩

theorem copyout_permitted {dstva len : BitVec 64} (foreign : Foreign m pagetable dstva.toNat len.toNat)
    (permitted : Permitted m pagetable dstva len) {src : ℕ → UInt8} {r : ℤ} {m' : Mem}
    (ran : copyout pagetable dstva.toNat src len.toNat m = some (r, m')) : Respects m pagetable dstva len r m' := by
  obtain ⟨r, m', ran', code, mapped, sent⟩ := copyoutLoop_spec src dstva.isLt (le_refl len.toNat) foreign
  obtain ⟨rfl, rfl⟩ := Prod.mk.inj (Option.some.inj (ran.symm.trans ran'))
  refine ⟨fun a changed => ?_, ?_⟩
  · obtain ⟨k, less, reached, address⟩ : ∃ k < len.toNat, Reached m pagetable dstva.toNat k ∧
        physAfter m pagetable dstva.toNat k = some a := by
      by_contra never
      push Not at never
      exact changed (sent.others a never)
    obtain ⟨j, inside, same, writable⟩ := permitted.1 k less reached
    exact ⟨j, inside, same.trans address, writable⟩
  · rintro ⟨k, less, missing⟩
    exact code.resolve_left fun zero => missing (permitted.2 (all_reached.mp (mapped.mp zero)) k less)

theorem writable_leadingTo {a : BitVec 64} (small : a.toNat < MAXVA) : Writable (leadingTo 5) 7 a :=
  ⟨small, _, mapped_leadingTo 5 _, rfl, rfl⟩

/-- A text page as `exec` maps it. -/
def textPage : Mem where
  freelist := []
  mem p i := if p = 7 then ⟨true, .none, 8⟩ else if p = 8 then ⟨true, .none, 9⟩
    else if p = 9 ∧ i = 0 then ⟨true, ⟨true, false, true, true, 0#5⟩, 5⟩ else memset 0 i
  quota := 0

end OsProjects.Copying
