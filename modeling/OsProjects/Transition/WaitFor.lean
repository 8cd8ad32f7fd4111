import Mathlib.Logic.Relation
import Mathlib.Order.Basic

namespace OsProjects.Transition

variable {Agent Lock : Type*}

def WaitsFor (blockedOn holds : Agent → Lock → Prop) (waiter holder : Agent) : Prop :=
  ∃ lock, blockedOn waiter lock ∧ holds holder lock

def CircularWait (blockedOn holds : Agent → Lock → Prop) : Prop :=
  ∃ agent, Relation.TransGen (WaitsFor blockedOn holds) agent agent

section Ranked

variable {Rank : Type*} [Preorder Rank] {blockedOn holds : Agent → Lock → Prop} (rank : Lock → Rank)

theorem transGen_rank_le
    (ascending : ∀ agent wanted held, blockedOn agent wanted → holds agent held → rank held < rank wanted)
    {waiter holder : Agent} (chain : Relation.TransGen (WaitsFor blockedOn holds) waiter holder) :
    ∃ wanted held, blockedOn waiter wanted ∧ holds holder held ∧ rank wanted ≤ rank held := by
  induction chain with
  | single edge =>
    obtain ⟨lock, blocked, held⟩ := edge
    exact ⟨lock, lock, blocked, held, le_rfl⟩
  | tail _ edge ih =>
    obtain ⟨wanted, held, blocked, holding, le⟩ := ih
    obtain ⟨lock, blockedNext, heldNext⟩ := edge
    exact ⟨wanted, lock, blocked, heldNext,
      le.trans (ascending _ lock held blockedNext holding).le⟩

theorem not_circularWait_of_rank
    (ascending : ∀ agent wanted held, blockedOn agent wanted → holds agent held →
      rank held < rank wanted) : ¬ CircularWait blockedOn holds := by
  rintro ⟨agent, chain⟩
  obtain ⟨wanted, held, blocked, holding, le⟩ := transGen_rank_le rank ascending chain
  exact (lt_of_lt_of_le (ascending agent wanted held blocked holding) le).false

end Ranked

end OsProjects.Transition
