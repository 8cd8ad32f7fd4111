import Mathlib.Logic.Function.Basic

namespace OsProjects.Transition

/-- What one step of a thread does to the locks. -/
inductive LockOp (Lock : Type*)
  | keep | acquire (l : Lock) | release (l : Lock)

variable {Lock Thread : Type*}

/-- A lock that is held cannot be acquired, and only its holder can release it. -/
def LockOp.apply [DecidableEq Lock] [DecidableEq Thread] (t : Thread) (lock : Lock → Option Thread) :
    LockOp Lock → Option (Lock → Option Thread)
  | .keep => some lock
  | .acquire l => if lock l = none then some (Function.update lock l (some t)) else none
  | .release l => if lock l = some t then some (Function.update lock l none) else none

/-- The locks a thread has before and after an operation. -/
def LockOp.Moves (held held' : Lock → Prop) : LockOp Lock → Prop
  | .keep => ∀ l, held' l ↔ held l
  | .acquire a => ∀ l, held' l ↔ l = a ∨ held l
  | .release a => ∀ l, held' l ↔ held l ∧ l ≠ a

theorem LockOp.free_of_acquire [DecidableEq Lock] [DecidableEq Thread] {t : Thread} {lock lock' : Lock → Option Thread} {l : Lock}
    (applied : (LockOp.acquire l).apply t lock = some lock') : lock l = none :=
  (Option.ite_none_right_eq_some.mp applied).1

/-- Each lock is held by the thread whose program counter says so. -/
def Accounted (holds : Thread → Lock → Prop) (lock : Lock → Option Thread) : Prop :=
  ∀ l t, lock l = some t ↔ holds t l

namespace Accounted

variable {holds holds' : Thread → Lock → Prop} {lock lock' : Lock → Option Thread} {l : Lock} {t u : Thread}

theorem unique (accounted : Accounted holds lock) (mine : holds t l) (other : holds u l) : t = u :=
  Option.some.inj (((accounted l t).mpr mine).symm.trans ((accounted l u).mpr other))

theorem free (accounted : Accounted holds lock) (unheld : lock l = none) (t : Thread) : ¬ holds t l := by
  intro held
  rw [(accounted l t).mpr held] at unheld
  cases unheld

variable [DecidableEq Lock] [DecidableEq Thread]

theorem apply {op : LockOp Lock} (accounted : Accounted holds lock) (action : op.apply t lock = some lock')
    (moves : op.Moves (holds t) (holds' t)) (others : ∀ u l, u ≠ t → (holds' u l ↔ holds u l)) :
    Accounted holds' lock' := by
  intro l u
  cases op with
  | keep =>
    obtain rfl : lock = lock' := Option.some.inj action
    by_cases same : u = t
    · subst same
      exact (accounted l u).trans (moves l).symm
    · exact (accounted l u).trans (others u l same).symm
  | acquire a =>
    obtain ⟨free, equal⟩ := Option.ite_none_right_eq_some.mp action
    obtain rfl := Option.some.inj equal
    by_cases here : l = a
    · subst here
      simp only [Function.update_self, Option.some.injEq]
      by_cases same : u = t
      · subst same
        simp [moves l]
      · rw [others u l same]
        exact ⟨fun equal => absurd equal.symm same, fun held => absurd held (accounted.free free u)⟩
    · rw [Function.update_of_ne here, accounted l u]
      by_cases same : u = t
      · subst same
        simp [moves l, here]
      · exact (others u l same).symm
  | release a =>
    obtain ⟨mine, equal⟩ := Option.ite_none_right_eq_some.mp action
    obtain rfl := Option.some.inj equal
    by_cases here : l = a
    · subst here
      simp only [Function.update_self, reduceCtorEq, false_iff]
      by_cases same : u = t
      · subst same
        simp [moves l]
      · rw [others u l same]
        exact fun held => same (accounted.unique held ((accounted l t).mp mine))
    · rw [Function.update_of_ne here, accounted l u]
      by_cases same : u = t
      · subst same
        simp [moves l, here]
      · exact (others u l same).symm

end Accounted

end OsProjects.Transition
