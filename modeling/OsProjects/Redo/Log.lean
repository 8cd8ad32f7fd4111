import Mathlib.Data.List.Induction
import Mathlib.Logic.Function.Basic

namespace OsProjects.Redo

variable {Addr Value : Type*}

/-! ## Writes in order -/

section overlay
variable [DecidableEq Addr]

def overlay (base : Addr → Value) (writes : List (Addr × Value)) : Addr → Value :=
  writes.foldl (fun contents write => Function.update contents write.1 write.2) base

theorem overlay_append (base : Addr → Value) (first second : List (Addr × Value)) :
    overlay base (first ++ second) = overlay (overlay base first) second :=
  List.foldl_append

end overlay

/-! ## A redo log on a disk -/

/-- Where the header of the log and its slots are, and which addresses a header names. -/
structure Layout (Addr Value : Type*) where
  head : Addr
  slot : ℕ → Addr
  capacity : ℕ
  entries : Value → List Addr
  reserved : Addr → Prop
  head_reserved : reserved head
  slot_reserved : ∀ i < capacity, reserved (slot i)
  slot_ne_head : ∀ i < capacity, slot i ≠ head

namespace Layout

variable {L : Layout Addr Value} {disk base base' : Addr → Value} {a : Addr} {v : Value}

def logged (L : Layout Addr Value) (disk : Addr → Value) : List Addr := L.entries (disk L.head)

/-- The disk holds `base` or its log does: what the header names is in the slots, the rest in its place. -/
structure Durable (L : Layout Addr Value) (disk base : Addr → Value) : Prop where
  room : (L.logged disk).length ≤ L.capacity
  outside : ∀ a ∈ L.logged disk, ¬ L.reserved a
  copied : ∀ (i : ℕ) a, (L.logged disk)[i]? = some a → disk (L.slot i) = base a
  home : ∀ a, ¬ L.reserved a → a ∉ L.logged disk → disk a = base a

theorem ne_head (outside : ¬ L.reserved a) : a ≠ L.head := by
  rintro rfl
  exact outside L.head_reserved

theorem ne_slot (outside : ¬ L.reserved a) {i : ℕ} (room : i < L.capacity) : a ≠ L.slot i := by
  rintro rfl
  exact outside (L.slot_reserved i room)

theorem lt_capacity {as : List Addr} (room : as.length ≤ L.capacity) {i : ℕ} (entry : as[i]? = some a) :
    i < L.capacity :=
  Nat.lt_of_lt_of_le (List.getElem?_eq_some_iff.mp entry).1 room

namespace Durable

theorem clean (durable : L.Durable disk base) (empty : L.logged disk = []) (outside : ¬ L.reserved a) :
    disk a = base a :=
  durable.home a outside (by simp [empty])

theorem installed (durable : L.Durable disk base)
    (copied : ∀ (i : ℕ) a, (L.logged disk)[i]? = some a → disk a = base a) (outside : ¬ L.reserved a) :
    disk a = base a := by
  by_cases logged : a ∈ L.logged disk
  · obtain ⟨i, entry⟩ := List.mem_iff_getElem?.mp logged
    exact copied i a entry
  · exact durable.home a outside logged

end Durable

variable [DecidableEq Addr]

theorem logged_of_ne (other : a ≠ L.head) : L.logged (Function.update disk a v) = L.logged disk := by
  rw [logged, logged, Function.update_of_ne (Ne.symm other)]

@[simp]
theorem logged_head : L.logged (Function.update disk L.head v) = L.entries v := by
  rw [logged, Function.update_self]

namespace Durable

theorem write_slot (durable : L.Durable disk base) (empty : L.logged disk = []) {i : ℕ} (room : i < L.capacity) :
    L.Durable (Function.update disk (L.slot i) v) base := by
  have same : L.logged (Function.update disk (L.slot i) v) = [] := by
    rw [logged_of_ne (L.slot_ne_head i room), empty]
  refine ⟨by simp [same], by simp [same], by simp [same], fun a outside _ => ?_⟩
  rw [Function.update_of_ne (L.ne_slot outside room), durable.clean empty outside]

theorem commit (durable : L.Durable disk base) (empty : L.logged disk = [])
    (room : (L.entries v).length ≤ L.capacity) (outside : ∀ a ∈ L.entries v, ¬ L.reserved a)
    (copied : ∀ (i : ℕ) a, (L.entries v)[i]? = some a → disk (L.slot i) = base' a)
    (rest : ∀ a, ¬ L.reserved a → a ∉ L.entries v → base' a = base a) :
    L.Durable (Function.update disk L.head v) base' := by
  refine ⟨by simpa using room, by simpa using outside, ?_, ?_⟩
  · intro i a entry
    rw [logged_head] at entry
    rw [Function.update_of_ne (L.slot_ne_head i (L.lt_capacity room entry)), copied i a entry]
  · intro a home missing
    rw [logged_head] at missing
    rw [Function.update_of_ne (L.ne_head home), durable.clean empty home, rest a home missing]

theorem install (durable : L.Durable disk base) (logged : a ∈ L.logged disk) :
    L.Durable (Function.update disk a v) base := by
  have outside := durable.outside a logged
  have same : L.logged (Function.update disk a v) = L.logged disk := logged_of_ne (L.ne_head outside)
  refine ⟨by rw [same]; exact durable.room, by rw [same]; exact durable.outside, ?_, ?_⟩
  · intro i a' entry
    rw [same] at entry
    have room := L.lt_capacity durable.room entry
    rw [Function.update_of_ne (Ne.symm (L.ne_slot outside room)), durable.copied i a' entry]
  · intro a' home missing
    rw [same] at missing
    have other : a' ≠ a := fun equal => missing (equal ▸ logged)
    rw [Function.update_of_ne other, durable.home a' home missing]

theorem erase (installed : ∀ a, ¬ L.reserved a → disk a = base a) (nothing : L.entries v = []) :
    L.Durable (Function.update disk L.head v) base := by
  refine ⟨by simp [nothing], by simp [nothing], by simp [nothing], fun a outside _ => ?_⟩
  rw [Function.update_of_ne (L.ne_head outside), installed a outside]

end Durable

end Layout

end OsProjects.Redo
