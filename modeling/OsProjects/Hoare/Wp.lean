import Mathlib.Logic.Basic

namespace OsProjects.Hoare

/-! Weakest preconditions of programs on a state that may stop with an error. -/

variable {σ ε α β : Type}

/-- A run from `s` ends in a value and a state with `Q`, or in an error with `E`. -/
def wp (E : ε → Prop) (x : StateT σ (Except ε) α) (Q : α → σ → Prop) (s : σ) : Prop :=
  match x s with
  | .ok (a, t) => Q a t
  | .error e => E e

variable {E : ε → Prop} {x : StateT σ (Except ε) α} {f : α → StateT σ (Except ε) β} {Q Q' : α → σ → Prop}
  {R : β → σ → Prop} {s t : σ} {a : α} {e : ε}

theorem wp.imp {E' : ε → Prop} (run : wp E x Q s) (errors : ∀ e, E e → E' e) (weaker : ∀ a t, Q a t → Q' a t) :
    wp E' x Q' s := by
  unfold wp at *
  cases result : x s with
  | error e =>
    rw [result] at run
    exact errors e run
  | ok out =>
    rw [result] at run
    exact weaker _ _ run

theorem wp.mono (run : wp E x Q s) (weaker : ∀ a t, Q a t → Q' a t) : wp E x Q' s :=
  run.imp (fun _ => id) weaker

theorem wp.and (first : wp E x Q s) (second : wp E x Q' s) : wp E x (fun a t => Q a t ∧ Q' a t) s := by
  unfold wp at *
  cases result : x s with
  | error e =>
    rw [result] at first
    exact first
  | ok out =>
    rw [result] at first second
    exact ⟨first, second⟩

theorem wp.of_ok (run : wp E x Q s) (result : x s = .ok (a, t)) : Q a t := by
  rw [wp, result] at run
  exact run

theorem wp.of_error (run : wp E x Q s) (result : x s = .error e) : E e := by
  rw [wp, result] at run
  exact run

theorem wp.exists_ok (run : wp (fun _ => False) x Q s) : ∃ a t, x s = .ok (a, t) ∧ Q a t := by
  cases result : x s with
  | error e => exact (run.of_error result).elim
  | ok out => exact ⟨out.1, out.2, rfl, run.of_ok result⟩

@[simp]
theorem wp_pure : wp E (pure a) Q s ↔ Q a s := Iff.rfl

@[simp]
theorem wp_bind : wp E (x >>= f) R s ↔ wp E x (fun a t => wp E (f a) R t) s := by
  simp only [wp, bind, StateT.bind]
  cases x s <;> rfl

@[simp]
theorem wp_get {Q : σ → σ → Prop} : wp E get Q s ↔ Q s s := Iff.rfl

@[simp]
theorem wp_modify {g : σ → σ} {Q : PUnit → σ → Prop} : wp E (modify g) Q s ↔ Q ⟨⟩ (g s) := Iff.rfl

@[simp]
theorem wp_set {Q : PUnit → σ → Prop} : wp E (set t) Q s ↔ Q ⟨⟩ t := Iff.rfl

@[simp]
theorem wp_throw : wp E (throw e) Q s ↔ E e := Iff.rfl

theorem wp_ite {c : Prop} [Decidable c] {y : StateT σ (Except ε) α} :
    wp E (if c then x else y) Q s ↔ (c → wp E x Q s) ∧ (¬ c → wp E y Q s) := by
  by_cases h : c <;> simp [h]

theorem wp_forM {l : List α} {g : α → StateT σ (Except ε) PUnit} (inv : List α → σ → Prop) (base : inv [] s)
    (body : ∀ (done : List α) a rest t, l = done ++ a :: rest → inv done t → wp E (g a) (fun _ t' => inv (done ++ [a]) t') t) :
    wp E (l.forM g) (fun _ => inv l) s := by
  have go : ∀ (rest done : List α) t, l = done ++ rest → inv done t → wp E (rest.forM g) (fun _ => inv l) t := by
    intro rest
    induction rest with
    | nil =>
      intro done t split held
      rw [List.append_nil] at split
      simpa [split] using held
    | cons a rest ih =>
      intro done t split held
      rw [List.forM, wp_bind]
      refine (body done a rest t split held).mono fun _ t' after => ih (done ++ [a]) t' ?_ after
      simp [split]
  exact go l [] s rfl base

end OsProjects.Hoare
