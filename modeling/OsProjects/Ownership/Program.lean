import Mathlib.Logic.Basic
import Mathlib.Data.Option.Basic

namespace OsProjects.Ownership

/-! Programs on a state that may stop without a result. -/

variable {σ α β : Type} {s s' : σ}

@[simp]
theorem bind_eq_some {x : StateT σ Option α} {f : α → StateT σ Option β} {r : β × σ} :
    (x >>= f) s = some r ↔ ∃ a s', x s = some (a, s') ∧ f a s' = some r := by
  simp [bind, StateT.bind, Option.bind_eq_some_iff]

@[simp]
theorem pure_eq_some {a b : α} : (pure a : StateT σ Option α) s = some (b, s') ↔ a = b ∧ s = s' := by
  change some (a, s) = some (b, s') ↔ _
  simp

@[simp]
theorem get_eq_some {t : σ} : (get : StateT σ Option σ) s = some (t, s') ↔ s = t ∧ s = s' := by
  simp [get, getThe, MonadStateOf.get, StateT.get, pure]

@[simp]
theorem modify_eq_some {g : σ → σ} {u : PUnit} :
    (modify g : StateT σ Option PUnit) s = some (u, s') ↔ g s = s' := by
  simp [modify, modifyGet, MonadStateOf.modifyGet, StateT.modifyGet, pure]

@[simp]
theorem failure_eq_some {r : α × σ} : (failure : StateT σ Option α) s = some r ↔ False := by
  simp [failure, StateT.failure]

/-- A run from `s` ends, in a value and a state with `Q`. -/
abbrev Returns (x : StateT σ Option α) (s : σ) (Q : α → σ → Prop) : Prop := ∃ a s', x s = some (a, s') ∧ Q a s'

section returns
variable {x y : StateT σ Option α} {f : α → StateT σ Option β} {Q Q' : α → σ → Prop} {R : β → σ → Prop} {a : α}

theorem Returns.mono (run : Returns x s Q) (weaker : ∀ a t, Q a t → Q' a t) : Returns x s Q' := by
  obtain ⟨a, t, ran, holds⟩ := run
  exact ⟨a, t, ran, weaker a t holds⟩

theorem returns_bind : Returns (x >>= f) s R ↔ Returns x s fun a t => Returns (f a) t R := by
  constructor
  · rintro ⟨b, t, ran, holds⟩
    obtain ⟨a, t', first, second⟩ := bind_eq_some.mp ran
    exact ⟨a, t', first, b, t, second, holds⟩
  · rintro ⟨a, t', first, b, t, second, holds⟩
    exact ⟨b, t, bind_eq_some.mpr ⟨a, t', first, second⟩, holds⟩

theorem returns_of_eq (ran : x s = some (a, s')) : Returns x s Q ↔ Q a s' := by
  constructor
  · rintro ⟨b, t, ran', holds⟩
    obtain ⟨rfl, rfl⟩ := Prod.mk.inj (Option.some.inj (ran.symm.trans ran'))
    exact holds
  · exact fun holds => ⟨a, s', ran, holds⟩

@[simp]
theorem returns_pure : Returns (pure a) s Q ↔ Q a s := returns_of_eq rfl

@[simp]
theorem returns_get {Q : σ → σ → Prop} : Returns get s Q ↔ Q s s := returns_of_eq rfl

@[simp]
theorem returns_modify {g : σ → σ} {Q : PUnit → σ → Prop} : Returns (modify g) s Q ↔ Q ⟨⟩ (g s) := returns_of_eq rfl

end returns

end OsProjects.Ownership
