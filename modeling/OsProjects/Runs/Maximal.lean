import Mathlib.Data.List.Chain

namespace OsProjects.Runs

variable {α : Type*} {p : α → Bool} {a : α} {l u v : List α}

/-- The maximal runs of elements that are no delimiters, in order. -/
def runs (p : α → Bool) (l : List α) : List (List α) := (l.splitOnP p).filter fun run => !run.isEmpty

/-- A run goes on from one list into the next. -/
def Joined (p : α → Bool) (u v : List α) : Prop :=
  ∃ a b, u.getLast? = some a ∧ v.head? = some b ∧ p a = false ∧ p b = false

@[simp]
theorem runs_nil : runs p [] = [] := rfl

theorem runs_cons_of_pos (delim : p a = true) (l : List α) : runs p (a :: l) = runs p l := by
  simp [runs, List.splitOnP_cons_eq_if_modifyHead, delim]

theorem splitOnP_eq_cons (l : List α) :
    ∃ first rest, l.splitOnP p = first :: rest ∧ (first = [] ↔ ∀ b, l.head? = some b → p b = true) := by
  cases l with
  | nil => exact ⟨[], [], rfl, by simp⟩
  | cons b l =>
    cases delim : p b with
    | true => exact ⟨[], l.splitOnP p, by simp [List.splitOnP_cons_eq_if_modifyHead, delim], by simp [delim]⟩
    | false =>
      obtain ⟨first, rest, pieces⟩ := List.exists_cons_of_ne_nil (List.splitOnP_ne_nil p l)
      exact ⟨b :: first, rest, by simp [List.splitOnP_cons_eq_if_modifyHead, delim, pieces], by simp [delim]⟩

theorem runs_cons_of_last (word : p a = false) (last : ∀ b, l.head? = some b → p b = true) :
    runs p (a :: l) = [a] :: runs p l := by
  obtain ⟨first, rest, pieces, empty⟩ := splitOnP_eq_cons (p := p) l
  obtain rfl := empty.mpr last
  simp [runs, List.splitOnP_cons_eq_if_modifyHead, word, pieces]

theorem runs_cons_of_more {b : α} (word : p a = false) (more : l.head? = some b) (word' : p b = false) :
    runs p (a :: l) = (runs p l).modifyHead (a :: ·) ∧ runs p l ≠ [] := by
  obtain ⟨first, rest, pieces, empty⟩ := splitOnP_eq_cons (p := p) l
  have some : first ≠ [] := fun none => by simpa [word'] using empty.mp none b more
  have here : first.isEmpty = false := by simpa using some
  simp [runs, List.splitOnP_cons_eq_if_modifyHead, word, pieces, here]

theorem runs_dropWhile (l : List α) : runs p (l.dropWhile p) = runs p l := by
  induction l with
  | nil => rfl
  | cons a l ih =>
    cases delim : p a with
    | true => rw [List.dropWhile_cons_of_pos delim, runs_cons_of_pos delim, ih]
    | false => rw [List.dropWhile_cons_of_neg (by simp [delim])]

theorem runs_eq_cons {w : List α} (nonempty : w ≠ []) (word : ∀ a ∈ w, p a = false)
    (ends : ∀ b, l.head? = some b → p b = true) : runs p (w ++ l) = w :: runs p l.tail := by
  cases l with
  | nil =>
    rw [List.append_nil, runs, List.splitOnP_eq_singleton word]
    simp [nonempty]
  | cons b l =>
    rw [runs, List.splitOnP_append_cons_of_forall_mem word b (ends b rfl), List.tail_cons]
    simp [runs, nonempty]

/-! ## Lists put together -/

theorem joined_cons {b : α} : Joined p (a :: b :: u) v ↔ Joined p (b :: u) v := by
  simp [Joined, List.getLast?_cons_cons]

theorem not_joined_singleton (word : p a = false) : ¬ Joined p [a] v ↔ ∀ b, v.head? = some b → p b = true := by
  simp [Joined, word]

theorem runs_append_of_apart (apart : ¬ Joined p u v) : runs p (u ++ v) = runs p u ++ runs p v := by
  induction u with
  | nil => rfl
  | cons a u ih =>
    cases u with
    | nil =>
      cases delim : p a with
      | true =>
        rw [runs_cons_of_pos delim, List.singleton_append, runs_cons_of_pos delim]
        rfl
      | false =>
        rw [List.singleton_append, runs_cons_of_last delim ((not_joined_singleton delim).mp apart),
          runs_cons_of_last delim (by simp)]
        rfl
    | cons b u =>
      rw [joined_cons] at apart
      have rest := ih apart
      cases delim : p a with
      | true => rw [List.cons_append, runs_cons_of_pos delim, rest, runs_cons_of_pos delim]
      | false =>
        cases next : p b with
        | true =>
          rw [List.cons_append, runs_cons_of_last delim (by simp [next]), rest, runs_cons_of_last delim (by simp [next])]
          rfl
        | false =>
          obtain ⟨longer, some⟩ := runs_cons_of_more delim (l := b :: u) rfl next
          obtain ⟨first, others, split⟩ := List.exists_cons_of_ne_nil some
          rw [List.cons_append, (runs_cons_of_more delim (l := b :: u ++ v) rfl next).1, rest, longer, split]
          rfl

theorem length_runs_append_of_joined (joined : Joined p u v) :
    (runs p (u ++ v)).length + 1 = (runs p u).length + (runs p v).length := by
  induction u with
  | nil =>
    obtain ⟨a, b, none, _⟩ := joined
    cases none
  | cons a u ih =>
    cases u with
    | nil =>
      obtain ⟨a', b, last, more, word, word'⟩ := joined
      obtain rfl : a = a' := by simpa using last
      rw [List.singleton_append, (runs_cons_of_more word more word').1, runs_cons_of_last word (by simp),
        List.length_modifyHead]
      simp [Nat.add_comm]
    | cons b u =>
      rw [joined_cons] at joined
      have rest := ih joined
      cases delim : p a with
      | true => rwa [List.cons_append, runs_cons_of_pos delim, runs_cons_of_pos delim]
      | false =>
        cases next : p b with
        | true =>
          rw [List.cons_append, runs_cons_of_last delim (by simp [next]), runs_cons_of_last delim (by simp [next]),
            List.length_cons, List.length_cons]
          omega
        | false =>
          rw [List.cons_append, (runs_cons_of_more delim (l := b :: u ++ v) rfl next).1,
            (runs_cons_of_more delim (l := b :: u) rfl next).1, List.length_modifyHead, List.length_modifyHead]
          exact rest

/-- The runs of pieces are those of the whole if no run goes on from one piece into the next, and there are more of them
otherwise. -/
theorem runs_flatten {pieces : List (List α)} (nonempty : ∀ piece ∈ pieces, piece ≠ []) :
    (runs p pieces.flatten).length ≤ (pieces.flatMap (runs p)).length ∧
      (pieces.flatMap (runs p) = runs p pieces.flatten ↔ pieces.IsChain fun u v => ¬ Joined p u v) := by
  induction pieces with
  | nil => simp
  | cons u pieces ih =>
    obtain ⟨fewer, same⟩ := ih fun piece mem => nonempty piece (by simp [mem])
    rw [List.flatten_cons, List.flatMap_cons]
    cases pieces with
    | nil => simp
    | cons v pieces =>
      have head : (v :: pieces).flatten.head? = v.head? := by
        obtain ⟨b, v', rfl⟩ := List.exists_cons_of_ne_nil (nonempty v (by simp))
        rfl
      have boundary : Joined p u (v :: pieces).flatten ↔ Joined p u v := by rw [Joined, Joined, head]
      rw [List.isChain_cons_cons, ← boundary]
      by_cases joined : Joined p u (v :: pieces).flatten
      · have more := length_runs_append_of_joined joined
        rw [List.length_append]
        refine ⟨by omega, fun equal => ?_, fun chain => absurd joined chain.1⟩
        have lengths := congrArg List.length equal
        rw [List.length_append] at lengths
        omega
      · rw [runs_append_of_apart joined, List.length_append, List.length_append, List.append_cancel_left_eq, same]
        exact ⟨by omega, fun chain => ⟨joined, chain⟩, fun chain => chain.2⟩

end OsProjects.Runs
