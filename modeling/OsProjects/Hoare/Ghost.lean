import OsProjects.Hoare.Wp

namespace OsProjects.Hoare

/-! Programs that keep a record of what they do, next to a state that does not depend on it. -/

variable {σ γ ε α β : Type}

/-- A program that leaves the record alone. -/
def onState (x : StateT σ (Except ε) α) : StateT (σ × γ) (Except ε) α := fun p =>
  match x p.1 with
  | .ok (a, t) => .ok (a, (t, p.2))
  | .error e => .error e

/-- Something is put on record. -/
def note (f : γ → γ) : StateT (σ × γ) (Except ε) PUnit := modify fun p => (p.1, f p.2)

/-- A result without the record. -/
def forget : Except ε (α × (σ × γ)) → Except ε (α × σ)
  | .ok (a, p) => .ok (a, p.1)
  | .error e => .error e

/-- Without its record, a program is `x`. -/
def Erases (x' : StateT (σ × γ) (Except ε) α) (x : StateT σ (Except ε) α) : Prop := ∀ s g, forget (x' (s, g)) = x s

variable {E : ε → Prop} {x : StateT σ (Except ε) α} {x' : StateT (σ × γ) (Except ε) α} {f : α → StateT σ (Except ε) β}
  {f' : α → StateT (σ × γ) (Except ε) β} {s : σ} {g : γ}

@[simp]
theorem wp_onState {Q : α → σ × γ → Prop} : wp E (onState x) Q (s, g) ↔ wp E x (fun a t => Q a (t, g)) s := by
  simp only [wp, onState]
  cases x s <;> rfl

@[simp]
theorem wp_note {h : γ → γ} {Q : PUnit → σ × γ → Prop} : wp E (note h) Q (s, g) ↔ Q ⟨⟩ (s, h g) := Iff.rfl

namespace Erases

theorem pure (a : α) : Erases (Pure.pure a : StateT (σ × γ) (Except ε) α) (Pure.pure a) := fun _ _ => rfl

theorem throw (e : ε) : Erases (MonadExcept.throw e : StateT (σ × γ) (Except ε) α) (MonadExcept.throw e) := fun _ _ => rfl

theorem onState (x : StateT σ (Except ε) α) : Erases (Hoare.onState x : StateT (σ × γ) (Except ε) α) x := by
  intro s g
  simp only [Hoare.onState]
  cases x s <;> rfl

theorem bind (first : Erases x' x) (rest : ∀ a, Erases (f' a) (f a)) : Erases (x' >>= f') (x >>= f) := by
  intro s g
  have here := first s g
  simp only [Bind.bind, StateT.bind]
  cases result : x' (s, g) with
  | error e =>
    rw [result] at here
    rw [← here]
    rfl
  | ok out =>
    obtain ⟨a, t, g'⟩ := out
    rw [result] at here
    rw [← here]
    exact rest a t g'

theorem note {h : γ → γ} {y' : StateT (σ × γ) (Except ε) α} (rest : Erases y' x) :
    Erases (Hoare.note h >>= fun _ => y') x := fun s g => rest s (h g)

theorem ite {c : Prop} [Decidable c] {y : StateT σ (Except ε) α} {y' : StateT (σ × γ) (Except ε) α} (first : Erases x' x)
    (second : Erases y' y) : Erases (if c then x' else y') (if c then x else y) := by
  split
  · exact first
  · exact second

end Erases

end OsProjects.Hoare
