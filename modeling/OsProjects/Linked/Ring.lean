import Mathlib.Data.List.Nodup
import Mathlib.Logic.Function.Basic

namespace OsProjects.Linked

/-! Doubly linked lists that go around through a head, which is `none`. -/

variable {α : Type*}

structure Links (α : Type*) where
  next : Option α → Option α
  prev : Option α → Option α

namespace Links

def swap (k : Links α) : Links α := ⟨k.prev, k.next⟩

variable [DecidableEq α]

def remove (k : Links α) (b : α) : Links α :=
  let prev := Function.update k.prev (k.next (some b)) (k.prev (some b))
  let next := Function.update k.next (prev (some b)) (k.next (some b))
  ⟨next, prev⟩

def pushFront (k : Links α) (b : α) : Links α :=
  let next := Function.update k.next (some b) (k.next none)
  let prev := Function.update k.prev (some b) none
  let prev := Function.update prev (next none) (some b)
  ⟨Function.update next none (some b), prev⟩

end Links

/-- From a node through the list and back to the head, with the links back. -/
def Chain (k : Links α) : Option α → List α → Prop
  | x, [] => k.next x = none ∧ k.prev none = x
  | x, y :: l => k.next x = some y ∧ k.prev (some y) = x ∧ Chain k (some y) l

structure Ring (k : Links α) (l : List α) : Prop where
  nodup : l.Nodup
  chain : Chain k none l

/-- The first node with a property, from some node on; there is no answer before the head is reached again. -/
def scan (next : Option α → Option α) (p : α → Bool) : ℕ → Option α → Option (Option α)
  | 0, _ => none
  | _ + 1, none => some none
  | fuel + 1, some y => if p y then some (some y) else scan next p fuel (next (some y))

variable {k k' : Links α} {x : Option α} {l : List α} {b : α}

theorem Chain.congr (chain : Chain k x l) (next : k'.next x = k.next x) (nexts : ∀ y ∈ l, k'.next (some y) = k.next (some y))
    (prevs : ∀ y ∈ l, k'.prev (some y) = k.prev (some y)) (prev : k'.prev none = k.prev none) : Chain k' x l := by
  induction l generalizing x with
  | nil => exact ⟨next.trans chain.1, prev.trans chain.2⟩
  | cons y l ih =>
    obtain ⟨first, back, rest⟩ := chain
    refine ⟨next.trans first, (prevs y List.mem_cons_self).trans back, ih rest (nexts y List.mem_cons_self) ?_ ?_⟩
    · exact fun z member => nexts z (List.mem_cons_of_mem _ member)
    · exact fun z member => prevs z (List.mem_cons_of_mem _ member)

theorem scan_chain {p : α → Bool} (chain : Chain k x l) : scan k.next p (l.length + 1) (k.next x) = some (l.find? p) := by
  induction l generalizing x with
  | nil => rw [chain.1]; rfl
  | cons y l ih =>
    obtain ⟨first, _, rest⟩ := chain
    rw [first, List.length_cons, scan, List.find?_cons]
    cases p y with
    | true => rfl
    | false => exact ih rest

theorem Chain.swap {y : α} {r : List α} (chain : Chain k (some y) l) (back : Chain k.swap (some y) r) :
    Chain k.swap none (l.reverse ++ y :: r) := by
  induction l generalizing y r with
  | nil => exact ⟨chain.2, chain.1, back⟩
  | cons z l ih =>
    obtain ⟨first, before, rest⟩ := chain
    have longer := ih rest (r := y :: r) ⟨before, first, back⟩
    rwa [List.reverse_cons, List.append_assoc, List.singleton_append]

theorem Ring.swap (ring : Ring k l) : Ring k.swap l.reverse := by
  refine ⟨List.nodup_reverse.mpr ring.nodup, ?_⟩
  cases l with
  | nil => exact ⟨ring.chain.2, ring.chain.1⟩
  | cons y l =>
    obtain ⟨first, before, rest⟩ := ring.chain
    rw [List.reverse_cons]
    exact rest.swap ⟨before, first⟩

theorem Chain.next_mem {l₁ l₂ : List α} (chain : Chain k x (l₁ ++ b :: l₂)) :
    k.next (some b) = none ∨ ∃ y ∈ l₂, k.next (some b) = some y := by
  induction l₁ generalizing x with
  | nil =>
    cases l₂ with
    | nil => exact .inl chain.2.2.1
    | cons y l₂ => exact .inr ⟨y, List.mem_cons_self, chain.2.2.1⟩
  | cons y l₁ ih => exact ih chain.2.2

theorem Chain.prev_mem {l₁ l₂ : List α} (chain : Chain k x (l₁ ++ b :: l₂)) :
    k.prev (some b) = x ∨ ∃ y ∈ l₁, k.prev (some b) = some y := by
  induction l₁ generalizing x with
  | nil => exact .inl chain.2.1
  | cons y l₁ ih =>
    refine .inr ((ih chain.2.2).elim (fun same => ⟨y, List.mem_cons_self, same⟩) fun ⟨z, member, equal⟩ => ?_)
    exact ⟨z, List.mem_cons_of_mem _ member, equal⟩

variable [DecidableEq α]

theorem Ring.pushFront (ring : Ring k l) (new : b ∉ l) : Ring (k.pushFront b) (b :: l) := by
  refine ⟨List.nodup_cons.mpr ⟨new, ring.nodup⟩, ?_⟩
  have chain := ring.chain
  cases l with
  | nil =>
    obtain ⟨next, prev⟩ := chain
    simp [Chain, Links.pushFront, next]
  | cons y l =>
    obtain ⟨first, back, rest⟩ := chain
    obtain ⟨apart, _⟩ := List.nodup_cons.mp ring.nodup
    rw [List.mem_cons, not_or] at new
    refine ⟨?_, ?_, ?_, ?_, rest.congr ?_ ?_ ?_ ?_⟩
    · simp [Links.pushFront]
    · simp [Links.pushFront, first, new.1]
    · simp [Links.pushFront, first]
    · simp [Links.pushFront, first]
    · simp [Links.pushFront, Ne.symm new.1]
    · intro z member
      have other : z ≠ b := by
        rintro rfl
        exact new.2 member
      simp [Links.pushFront, other]
    · intro z member
      have other : z ≠ b := by
        rintro rfl
        exact new.2 member
      have other' : z ≠ y := by
        rintro rfl
        exact apart member
      simp [Links.pushFront, first, other, other']
    · simp [Links.pushFront, first]

theorem Chain.remove {l₁ l₂ : List α} (chain : Chain k x (l₁ ++ b :: l₂)) (nodup : (l₁ ++ b :: l₂).Nodup)
    (outside : ∀ y ∈ l₁ ++ b :: l₂, x ≠ some y) : Chain (k.remove b) x (l₁ ++ l₂) := by
  have apart : k.next (some b) ≠ some b := by
    intro same
    rcases chain.next_mem with none | ⟨y, member, equal⟩
    · cases none.symm.trans same
    · obtain rfl := Option.some.inj (equal.symm.trans same)
      exact (List.nodup_cons.mp (List.nodup_append.mp nodup).2.1).1 member
  have removed : k.remove b = ⟨Function.update k.next (k.prev (some b)) (k.next (some b)),
      Function.update k.prev (k.next (some b)) (k.prev (some b))⟩ := by
    simp [Links.remove, Ne.symm apart]
  rw [removed]
  clear removed
  induction l₁ generalizing x with
  | nil =>
    obtain ⟨_, back, rest⟩ := chain
    rw [back]
    simp only [List.nil_append] at nodup outside ⊢
    cases l₂ with
    | nil =>
      rw [rest.1]
      simp [Chain]
    | cons z l₂ =>
      obtain ⟨next, _, rest⟩ := rest
      rw [next]
      obtain ⟨_, nodup⟩ := List.nodup_cons.mp nodup
      obtain ⟨fresh, _⟩ := List.nodup_cons.mp nodup
      refine ⟨by simp, by simp, rest.congr ?_ ?_ ?_ ?_⟩
      · exact Function.update_of_ne (Ne.symm (outside z (by simp))) _ _
      · exact fun y member => Function.update_of_ne (Ne.symm (outside y (by simp [member]))) _ _
      · intro y member
        refine Function.update_of_ne (fun same => fresh ?_) _ _
        rwa [← Option.some.inj same]
      · simp
  | cons y l₁ ih =>
    obtain ⟨first, back, rest⟩ := chain
    obtain ⟨fresh, nodup'⟩ := List.nodup_cons.mp nodup
    refine ⟨?_, ?_, ih rest nodup' fun z member same => fresh (Option.some.inj same ▸ member)⟩
    · refine (Function.update_of_ne ?_ _ _).trans first
      rcases rest.prev_mem with same | ⟨z, member, same⟩
      · rw [same]
        exact outside y (by simp)
      · rw [same]
        exact outside z (by simp [member])
    · refine (Function.update_of_ne ?_ _ _).trans back
      rcases rest.next_mem with same | ⟨z, member, same⟩
      · rw [same]
        simp
      · rw [same]
        intro equal
        obtain rfl := Option.some.inj equal
        exact fresh (by simp [member])

theorem Ring.remove (ring : Ring k l) (member : b ∈ l) : Ring (k.remove b) (l.erase b) := by
  refine ⟨ring.nodup.erase b, ?_⟩
  obtain ⟨l₁, l₂, fresh, rfl, erased⟩ := List.exists_erase_eq member
  rw [erased]
  exact ring.chain.remove ring.nodup (by simp)

end OsProjects.Linked
