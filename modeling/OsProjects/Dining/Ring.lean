import OsProjects.Slots.Sizes
import OsProjects.Threads.Zemaphore
import Mathlib.Data.Fintype.EquivFin

namespace OsProjects.Dining
open Threads

variable {n : ℕ} {p : Fin n}

def left (p : Fin n) : Fin n := p

def right (p : Fin n) : Fin n := ⟨(p + 1) % n, Nat.mod_lt _ p.pos⟩

theorem right_val (p : Fin n) : (right p).val = if p.val + 1 = n then 0 else p.val + 1 := by
  have bound := p.isLt
  unfold right
  split
  · next last => simp [last]
  · exact Nat.mod_eq_of_lt (by omega)

theorem right_injective : Function.Injective (right (n := n)) := by
  intro p q equal
  have values := congrArg Fin.val equal
  rw [right_val, right_val] at values
  apply Fin.ext
  split at values <;> split at values <;> omega

@[simp] theorem right_inj {q : Fin n} : right p = right q ↔ p = q := right_injective.eq_iff

theorem right_ne (two : 2 ≤ n) (p : Fin n) : right p ≠ p := by
  intro equal
  have values := congrArg Fin.val equal
  rw [right_val] at values
  split at values <;> omega

theorem ring_induction {motive : Fin n → Prop} (passes : ∀ p, motive (right p) → motive p)
    {start : Fin n} (holds : motive start) (p : Fin n) : motive p := by
  have downward (k : ℕ) (q : Fin n) (above : q.val + k < n) (top : motive ⟨q.val + k, above⟩) :
      motive q := by
    induction k generalizing q with
    | zero => exact top
    | succ k ih =>
      apply ih q (by omega)
      apply passes
      convert top using 1
      apply Fin.ext
      rw [right_val]
      simp only
      split <;> omega
  have size := start.isLt
  have atZero : motive ⟨0, by omega⟩ := by
    apply downward start.val ⟨0, by omega⟩ (by simp)
    simpa using holds
  have atLast : motive ⟨n - 1, by omega⟩ := by
    apply passes
    convert atZero using 1
    apply Fin.ext
    rw [right_val]
    simp only
    split <;> omega
  have bound := p.isLt
  apply downward (n - 1 - p.val) p (by omega)
  convert atLast using 2
  omega

/-- The forks, and where the philosophers stand in their code. -/
structure Seats (n : ℕ) (Pc : Type) where
  forks : Fin n → Zem
  pc : Fin n → Pc

section
variable {Pc : Type}

def Seats.goto (s : Seats n Pc) (p : Fin n) (pc : Pc) : Seats n Pc := { s with pc := Function.update s.pc p pc }

def Seats.waitFork (s : Seats n Pc) (f : Fin n) : Option (Seats n Pc) :=
  (zemWait (s.forks f)).map fun z => { s with forks := Function.update s.forks f z }

def Seats.postFork (s : Seats n Pc) (f : Fin n) : Seats n Pc :=
  { s with forks := Function.update s.forks f (zemPost (s.forks f)) }

end

/-! ## Forks shared by two neighbours -/

section Accounting

variable {Place : Type*} {holdsRight holdsLeft : Place → ℕ} {free : Fin n → ℤ} {pc : Fin n → Place} {next : Place}
  {forks : Fin n → Zem}

/-- Every fork is free or with one of its two users: `p`, on whose right it is, or `right p`. -/
def Accounted (holdsRight holdsLeft : Place → ℕ) (free : Fin n → ℤ) (pc : Fin n → Place) : Prop :=
  ∀ p, 0 ≤ free (right p) ∧ free (right p) + holdsRight (pc p) + holdsLeft (pc (right p)) = 1

section
variable (accounted : Accounted holdsRight holdsLeft free pc)
include accounted

theorem Accounted.nonneg (f : Fin n) : 0 ≤ free f := by
  obtain ⟨p, rfl⟩ := Finite.surjective_of_injective right_injective f
  exact (accounted p).1

theorem Accounted.right_step (two : 2 ≤ n) {free' : Fin n → ℤ} (elsewhere : ∀ f, f ≠ right p → free' f = free f)
    (nonneg : 0 ≤ free' (right p))
    (moved : free' (right p) + holdsRight next = free (right p) + holdsRight (pc p))
    (kept : holdsLeft next = holdsLeft (pc p)) :
    Accounted holdsRight holdsLeft free' (Function.update pc p next) := by
  intro q
  have before := accounted q
  by_cases same : q = p
  · subst same
    rw [Function.update_self, Function.update_of_ne (right_ne two q)]
    omega
  · rw [elsewhere _ (by simpa using same), Function.update_of_ne same]
    by_cases neighbour : right q = p
    · subst neighbour
      rw [Function.update_self, kept]
      exact before
    · rwa [Function.update_of_ne neighbour]

theorem Accounted.left_step (two : 2 ≤ n) {free' : Fin n → ℤ} (elsewhere : ∀ f, f ≠ left p → free' f = free f)
    (nonneg : 0 ≤ free' (left p))
    (moved : free' (left p) + holdsLeft next = free (left p) + holdsLeft (pc p))
    (kept : holdsRight next = holdsRight (pc p)) :
    Accounted holdsRight holdsLeft free' (Function.update pc p next) := by
  intro q
  have before := accounted q
  simp only [left] at elsewhere nonneg moved
  by_cases neighbour : right q = p
  · subst neighbour
    rw [Function.update_self, Function.update_of_ne (right_ne two q).symm]
    omega
  · rw [elsewhere _ neighbour, Function.update_of_ne neighbour]
    by_cases same : q = p
    · subst same
      rw [Function.update_self, kept]
      exact before
    · rwa [Function.update_of_ne same]

theorem Accounted.kept_step (two : 2 ≤ n) (keptRight : holdsRight next = holdsRight (pc p))
    (keptLeft : holdsLeft next = holdsLeft (pc p)) :
    Accounted holdsRight holdsLeft free (Function.update pc p next) :=
  accounted.right_step two (fun _ _ => rfl) (accounted p).1 (by rw [keptRight]) keptLeft

end

abbrev ForksAccounted (holdsRight holdsLeft : Place → ℕ) (forks : Fin n → Zem) (pc : Fin n → Place) : Prop :=
  Accounted holdsRight holdsLeft (fun f => (forks f).value) pc

theorem ForksAccounted.fork (accounted : ForksAccounted holdsRight holdsLeft forks pc)
    (p : Fin n) : 0 ≤ (forks (right p)).value ∧
      (forks (right p)).value + holdsRight (pc p) + holdsLeft (pc (right p)) = 1 := accounted p

theorem ForksAccounted.right_step (two : 2 ≤ n) {z : Zem}
    (accounted : ForksAccounted holdsRight holdsLeft forks pc) (nonneg : 0 ≤ z.value)
    (moved : z.value + holdsRight next = (forks (right p)).value + holdsRight (pc p))
    (kept : holdsLeft next = holdsLeft (pc p)) :
    ForksAccounted holdsRight holdsLeft (Function.update forks (right p) z) (Function.update pc p next) :=
  Accounted.right_step accounted two (fun f other => by rw [Function.update_of_ne other])
    (by rwa [Function.update_self]) (by rwa [Function.update_self]) kept

theorem ForksAccounted.left_step (two : 2 ≤ n) {z : Zem}
    (accounted : ForksAccounted holdsRight holdsLeft forks pc) (nonneg : 0 ≤ z.value)
    (moved : z.value + holdsLeft next = (forks (left p)).value + holdsLeft (pc p))
    (kept : holdsRight next = holdsRight (pc p)) :
    ForksAccounted holdsRight holdsLeft (Function.update forks (left p) z) (Function.update pc p next) :=
  Accounted.left_step accounted two (fun f other => by rw [Function.update_of_ne other])
    (by rwa [Function.update_self]) (by rwa [Function.update_self]) kept

theorem Accounted.not_both (accounted : Accounted holdsRight holdsLeft free pc)
    (mine : holdsRight (pc p) = 1) : holdsLeft (pc (right p)) = 0 := by
  have fork := accounted p
  omega

end Accounting

end OsProjects.Dining
