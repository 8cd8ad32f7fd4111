import Mathlib.Data.List.Basic

namespace OsProjects.Transition

variable {Event : Type*} {concerns : Event → Prop} {log : List Event} {x y : Event}

def LastIs (concerns : Event → Prop) (x : Event) (log : List Event) : Prop :=
  ∃ before after, log = before ++ x :: after ∧ ∀ event ∈ after, ¬ concerns event

def AtEach (holds : List Event → Event → Prop) (log : List Event) : Prop :=
  ∀ before event after, log = before ++ event :: after → holds before event

theorem LastIs.self : LastIs concerns x (log ++ [x]) :=
  ⟨log, [], rfl, by simp⟩

theorem LastIs.append (last : LastIs concerns x log) (other : ¬ concerns y) : LastIs concerns x (log ++ [y]) := by
  obtain ⟨before, after, rfl, silent⟩ := last
  refine ⟨before, after ++ [y], by simp, fun event member => ?_⟩
  rcases List.mem_append.mp member with earlier | added
  · exact silent event earlier
  · rw [List.mem_singleton.mp added]
    exact other

theorem LastIs.mem_of_concerns {before after : List Event} (last : LastIs concerns x (before ++ y :: after))
    (about : concerns y) (distinct : x ≠ y) : x ∈ after := by
  obtain ⟨first, rest, split, silent⟩ := last
  rcases List.append_eq_append_iff.mp split with ⟨middle, rfl, tail⟩ | ⟨middle, rfl, tail⟩
  · cases middle with
    | nil =>
      simp only [List.nil_append, List.cons.injEq] at tail
      exact absurd tail.1.symm distinct
    | cons z middle =>
      simp only [List.cons_append, List.cons.injEq] at tail
      rw [tail.2]
      simp
  · cases middle with
    | nil =>
      simp only [List.nil_append, List.cons.injEq] at tail
      exact absurd tail.1 distinct
    | cons z middle =>
      simp only [List.cons_append, List.cons.injEq] at tail
      exact absurd about (silent y (by rw [tail.2]; simp))

theorem AtEach.append {holds : List Event → Event → Prop} (each : AtEach holds log) (added : holds log y) :
    AtEach holds (log ++ [y]) := by
  intro before event after split
  rcases List.append_eq_append_iff.mp split with ⟨middle, rfl, tail⟩ | ⟨middle, rfl, tail⟩
  · cases middle with
    | nil =>
      simp only [List.nil_append, List.cons.injEq] at tail
      simpa [← tail.1] using added
    | cons z middle => simp at tail
  · cases middle with
    | nil =>
      simp only [List.nil_append, List.cons.injEq] at tail
      simpa [tail.1] using added
    | cons z middle =>
      simp only [List.cons_append, List.cons.injEq] at tail
      rw [tail.1]
      exact each before z middle rfl

end OsProjects.Transition
