import OsProjects.Inodes.Model
import OsProjects.Transition.Count

namespace OsProjects.Inodes
open Transition

/-! ## Locks and references -/

def Stage.holds : Stage → Prop
  | .test | .sleep | .drop => True
  | _ => False

def Stage.locked : Stage → Prop
  | .load | .trunc | .retype | .unlock => True
  | _ => False

def Stage.puts (stage : Stage) : Prop := stage ≠ .ilock ∧ stage ≠ .load

instance (stage : Stage) : Decidable stage.puts := inferInstanceAs (Decidable (_ ∧ _))

def Pc.holds : Pc → Prop
  | .on stage _ => stage.holds
  | _ => False

variable {Thread : Type} [Fintype Thread] {s s' : State Thread} {t u : Thread} {ip : Entry} {current : Stage}

def held (ip : Entry) (refs : Entry → ℕ) : ℕ := refs ip

structure Held (s : State Thread) : Prop where
  lock : ∀ t, s.lock = some t ↔ (s.pc t).holds
  sum : ∀ ip, (s.table ip).ref = weigh (held ip) s.refs
  owner : ∀ t ip, (s.table ip).lock = some t → 1 ≤ s.refs t ip
  stage : ∀ t stage ip, s.pc t = .on stage ip → 1 ≤ s.refs t ip ∧ ((s.table ip).lock = some t ↔ stage.locked)

namespace Held

variable (inv : Held s)
include inv

theorem le_ref (t : Thread) (ip : Entry) : s.refs t ip ≤ (s.table ip).ref := by
  rw [inv.sum ip]
  exact le_weigh (held ip) s.refs t

/-- Why `ref`, an `int` in the source, does not overflow: a process has its working directory, an open file for each of
its `NOFILE` descriptors and the locals of one call, and there are `NPROC` of them. -/
theorem ref_le {pointers : ℕ} (few : ∀ t, s.refs t ip ≤ pointers) :
    (s.table ip).ref ≤ Fintype.card Thread * pointers := by
  rw [inv.sum ip]
  exact Finset.sum_le_card_nsmul _ _ _ fun t _ => few t

theorem ref_pos (mine : 1 ≤ s.refs t ip) : 0 < (s.table ip).ref := by
  have bound := inv.le_ref t ip
  omega

theorem alone (mine : (s.pc t).holds) (other : (s.pc u).holds) : t = u :=
  Option.some.inj (((inv.lock t).mpr mine).symm.trans ((inv.lock u).mpr other))

theorem unheld (free : s.lock = none) (t : Thread) : ¬ (s.pc t).holds := by
  intro holds
  cases free.symm.trans ((inv.lock t).mpr holds)

theorem only [DecidableEq Thread] (one : (s.table ip).ref = 1) (mine : 1 ≤ s.refs t ip)
    (theirs : 1 ≤ s.refs u ip) : u = t := by
  by_contra other
  have both := pair_le_weigh (held ip) s.refs other
  rw [← inv.sum ip] at both
  simp only [held] at both
  omega

theorem none_left (zero : (s.table ip).ref = 0) (t : Thread) : s.refs t ip = 0 := by
  have bound := inv.le_ref t ip
  omega

theorem move (others : ∀ u, u ≠ t → s'.pc u = s.pc u)
    (lock : (s'.pc t).holds ∧ s'.lock = some t ∧ (s.lock = none ∨ s.lock = some t) ∨
      ¬ (s'.pc t).holds ∧ s'.lock = none ∧ s.lock = some t ∨ ¬ (s'.pc t).holds ∧ s'.lock = s.lock ∧ ¬ (s.pc t).holds)
    (sum : ∀ ip, (s'.table ip).ref = weigh (held ip) s'.refs)
    (kept : ∀ u ip, u ≠ t → s.refs u ip ≤ s'.refs u ip ∧ ((s'.table ip).lock = some u ↔ (s.table ip).lock = some u))
    (owner : ∀ ip, (s'.table ip).lock = some t → 1 ≤ s'.refs t ip)
    (stage : ∀ stage ip, s'.pc t = .on stage ip → 1 ≤ s'.refs t ip ∧ ((s'.table ip).lock = some t ↔ stage.locked)) :
    Held s' := by
  constructor
  · intro u
    by_cases same : u = t
    · subst same
      rcases lock with ⟨holds, here, _⟩ | ⟨free, here, _⟩ | ⟨free, here, before⟩
      · simp [holds, here]
      · simp [free, here]
      · rw [here, inv.lock u]
        simp [free, before]
    · rw [others u same]
      rcases lock with ⟨_, here, before⟩ | ⟨_, here, before⟩ | ⟨_, here, _⟩
      · rw [here, ← inv.lock u]
        rcases before with before | before <;> simp [before, Ne.symm same]
      · rw [here, ← inv.lock u, before]
        simp [Ne.symm same]
      · rw [here, inv.lock u]
  · exact sum
  · intro u ip locked
    by_cases same : u = t
    · subst same
      exact owner ip locked
    · obtain ⟨more, iff⟩ := kept u ip same
      exact (inv.owner u ip (iff.mp locked)).trans more
  · intro u current ip here
    by_cases same : u = t
    · subst same
      exact stage current ip here
    · obtain ⟨more, iff⟩ := kept u ip same
      rw [others u same] at here
      obtain ⟨mine, locked⟩ := inv.stage u current ip here
      exact ⟨mine.trans more, iff.trans locked⟩

theorem keep [DecidableEq Thread] (pc : ∀ u, u ≠ t → s'.pc u = s.pc u)
    (lock : (s'.pc t).holds ∧ s'.lock = some t ∧ (s.lock = none ∨ s.lock = some t) ∨
      ¬ (s'.pc t).holds ∧ s'.lock = none ∧ s.lock = some t ∨ ¬ (s'.pc t).holds ∧ s'.lock = s.lock ∧ ¬ (s.pc t).holds)
    (refs : s'.refs = s.refs) (ref : ∀ ip, (s'.table ip).ref = (s.table ip).ref)
    (kept : ∀ u ip, u ≠ t → ((s'.table ip).lock = some u ↔ (s.table ip).lock = some u))
    (owner : ∀ ip, (s'.table ip).lock = some t → 1 ≤ s.refs t ip)
    (stage : ∀ stage ip, s'.pc t = .on stage ip → 1 ≤ s.refs t ip ∧ ((s'.table ip).lock = some t ↔ stage.locked)) :
    Held s' := by
  refine inv.move pc lock (fun ip => ?_) (fun u ip other => ⟨by rw [refs], kept u ip other⟩) (fun ip => ?_) fun current ip => ?_
  · rw [ref, refs]
    exact inv.sum ip
  · rw [refs]
    exact owner ip
  · rw [refs]
    exact stage current ip

end Held

theorem weigh_setRefs [DecidableEq Thread] (s : State Thread) (t : Thread) (ip : Entry) (count : ℕ) (jp : Entry) :
    weigh (held jp) (s.setRefs t ip count).refs + (if jp = ip then s.refs t ip else 0) =
      weigh (held jp) s.refs + if jp = ip then count else 0 := by
  have moved := weigh_update (held jp) s.refs t (Function.update (s.refs t) ip count)
  by_cases same : jp = ip
  · subst same
    simpa [held, State.setRefs] using moved
  · simpa [held, same, State.setRefs] using moved

theorem Held.recount [DecidableEq Thread] (inv : Held s) {count : ℕ}
    (refs : s'.refs = Function.update s.refs t (Function.update (s.refs t) ip count))
    (entries : ∀ jp, jp ≠ ip → s'.table jp = s.table jp)
    (balance : (s'.table ip).ref + s.refs t ip = (s.table ip).ref + count)
    (same : (s'.table ip).lock = (s.table ip).lock) (owner : (s.table ip).lock = some t → 1 ≤ count)
    (others : ∀ u, u ≠ t → s'.pc u = s.pc u) (idle : s'.pc t = .idle)
    (lock : s'.lock = none ∧ s.lock = some t ∨ s'.lock = s.lock ∧ ¬ (s.pc t).holds) : Held s' := by
  have locks : ∀ jp, (s'.table jp).lock = (s.table jp).lock := by
    intro jp
    by_cases this : jp = ip
    · rw [this, same]
    · rw [entries jp this]
  have free : ¬ (s'.pc t).holds := by
    rw [idle]
    exact id
  refine inv.move others ?_ (fun jp => ?_) (fun u jp other => ⟨?_, by rw [locks]⟩) (fun jp has => ?_) fun stage jp there => ?_
  · exact lock.elim (fun now => .inr (.inl ⟨free, now⟩)) fun now => .inr (.inr ⟨free, now⟩)
  · have moved := weigh_setRefs s t ip count jp
    have sum := inv.sum jp
    rw [refs]
    simp only [State.setRefs] at moved
    by_cases this : jp = ip
    · subst this
      simp only [if_true] at moved
      omega
    · simp only [this, if_false, add_zero] at moved
      rw [entries jp this]
      omega
  · rw [refs, Function.update_of_ne other]
  · rw [locks] at has
    rw [refs, Function.update_self]
    by_cases this : jp = ip
    · subst this
      rw [Function.update_self]
      exact owner has
    · rw [Function.update_of_ne this]
      exact inv.owner t jp has
  · rw [idle] at there
    cases there

end OsProjects.Inodes
