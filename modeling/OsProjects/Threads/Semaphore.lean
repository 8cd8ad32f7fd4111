import OsProjects.Slots.Sizes
import OsProjects.Threads.Zemaphore
import OsProjects.Transition.System
import OsProjects.Transition.Count
import Mathlib.Tactic

namespace OsProjects.Threads.Semaphore
open Transition

/-- The next operation of a thread in `Zem_wait` or `Zem_post`. In `Cond_wait` it is `blocked` until it has been
woken and then wants the lock back; `again` marks the tests of the loop after the first. -/
inductive Pc
  | idle
  | waitLock | waitTest (again : Bool) | condWait | blocked | woken | waitTake | waitUnlock
  | postLock | postAdd | postSignal | postUnlock
  deriving DecidableEq, Repr

/-- `posts` and `waits` count the calls that have returned; no step reads them. -/
structure State (Thread : Type) where
  value : BitVec 32
  lock : Option Thread
  pc : Thread → Pc
  posts : ℕ
  waits : ℕ

/-- What a thread does next: a call, its next operation, `Cond_signal` with the threads it wakes, or a wakeup
out of nowhere. -/
inductive Move (Thread : Type)
  | zemWait | zemPost | run | condSignal (woken : Finset Thread) | wakeup
  deriving DecidableEq

variable {Thread : Type} [Fintype Thread] [DecidableEq Thread] {s after : State Thread} {t : Thread} {pc : Pc}
  {u : Thread} {value : BitVec 32} {woken : Finset Thread}

def State.goto (s : State Thread) (t : Thread) (pc : Pc) : State Thread :=
  { s with pc := Function.update s.pc t pc }

def mutexLock (s : State Thread) (t : Thread) (pc : Pc) : Option (State Thread) :=
  if s.lock = none then some ({ s with lock := some t }.goto t pc) else none

def sleepers (s : State Thread) : Finset Thread := Finset.univ.filter fun t => s.pc t = .blocked

/-- `Cond_signal` wakes at least one of the threads blocked on the condition, if there is one. -/
def condSignal (s : State Thread) (woken : Finset Thread) : Option (State Thread) :=
  if woken ⊆ sleepers s ∧ (woken = ∅ → sleepers s = ∅)
  then some { s with pc := fun t => if t ∈ woken then .woken else s.pc t } else none

def step (s : State Thread) : Thread × Move Thread → Option (State Thread)
  | (t, move) => match s.pc t, move with
    | .idle, .zemWait => some (s.goto t .waitLock)
    | .idle, .zemPost => some (s.goto t .postLock)
    | .waitLock, .run => mutexLock s t (.waitTest false)
    | .waitTest _, .run => some (s.goto t (if s.value.toInt ≤ 0 then .condWait else .waitTake))
    | .condWait, .run => some ({ s with lock := none }.goto t .blocked)
    | .blocked, .wakeup => some (s.goto t .woken)
    | .woken, .run => mutexLock s t (.waitTest true)
    | .waitTake, .run => some ({ s with value := s.value - 1 }.goto t .waitUnlock)
    | .waitUnlock, .run => some ({ s with lock := none, waits := s.waits + 1 }.goto t .idle)
    | .postLock, .run => mutexLock s t .postAdd
    | .postAdd, .run => some ({ s with value := s.value + 1 }.goto t .postSignal)
    | .postSignal, .condSignal woken => (condSignal s woken).map (·.goto t .postUnlock)
    | .postUnlock, .run => some ({ s with lock := none, posts := s.posts + 1 }.goto t .idle)
    | _, _ => none

def zemInit (Thread : Type) (value : BitVec 32) : State Thread := ⟨value, none, fun _ => .idle, 0, 0⟩

def system (Thread : Type) [Fintype Thread] [DecidableEq Thread] (value : BitVec 32) :
    System (State Thread) (Thread × Move Thread) := ⟨zemInit Thread value, step⟩

def NoOverflow (s : State Thread) (label : Thread × Move Thread) : Prop :=
  s.pc label.1 = .postAdd → s.value.toInt < 2 ^ 31 - 1

/-! ## What one step does -/

inductive Step (s : State Thread) (t : Thread) : State Thread → Prop
  | call {pc : Pc} (here : s.pc t = .idle) (begins : pc = .waitLock ∨ pc = .postLock) : Step s t (s.goto t pc)
  | lock {pc : Pc} (free : s.lock = none) (wants : (s.pc t = .waitLock ∧ pc = .waitTest false) ∨
      (s.pc t = .woken ∧ pc = .waitTest true) ∨ (s.pc t = .postLock ∧ pc = .postAdd)) :
      Step s t ({ s with lock := some t }.goto t pc)
  | test {again : Bool} (here : s.pc t = .waitTest again) :
      Step s t (s.goto t (if s.value.toInt ≤ 0 then .condWait else .waitTake))
  | sleep (here : s.pc t = .condWait) : Step s t ({ s with lock := none }.goto t .blocked)
  | wakeup (here : s.pc t = .blocked) : Step s t (s.goto t .woken)
  | take (here : s.pc t = .waitTake) : Step s t ({ s with value := s.value - 1 }.goto t .waitUnlock)
  | waited (here : s.pc t = .waitUnlock) : Step s t ({ s with lock := none, waits := s.waits + 1 }.goto t .idle)
  | add (here : s.pc t = .postAdd) : Step s t ({ s with value := s.value + 1 }.goto t .postSignal)
  | signal {woken : Finset Thread} (here : s.pc t = .postSignal) (asleep : woken ⊆ sleepers s)
      (wakes : woken = ∅ → sleepers s = ∅) :
      Step s t ({ s with pc := fun u => if u ∈ woken then .woken else s.pc u }.goto t .postUnlock)
  | posted (here : s.pc t = .postUnlock) : Step s t ({ s with lock := none, posts := s.posts + 1 }.goto t .idle)

theorem step_inv {move : Move Thread} (action : step s (t, move) = some after) : Step s t after := by
  cases here : s.pc t <;> cases move <;> simp only [step, here, mutexLock, condSignal, reduceCtorEq,
    Option.some.injEq, Option.map_eq_some_iff, Option.ite_none_right_eq_some] at action
  case idle.zemWait => exact action ▸ .call here (.inl rfl)
  case idle.zemPost => exact action ▸ .call here (.inr rfl)
  case waitLock.run =>
    obtain ⟨free, rfl⟩ := action
    exact .lock free (.inl ⟨here, rfl⟩)
  case waitTest.run => exact action ▸ .test here
  case condWait.run => exact action ▸ .sleep here
  case blocked.wakeup => exact action ▸ .wakeup here
  case woken.run =>
    obtain ⟨free, rfl⟩ := action
    exact .lock free (.inr (.inl ⟨here, rfl⟩))
  case waitTake.run => exact action ▸ .take here
  case waitUnlock.run => exact action ▸ .waited here
  case postLock.run =>
    obtain ⟨free, rfl⟩ := action
    exact .lock free (.inr (.inr ⟨here, rfl⟩))
  case postAdd.run => exact action ▸ .add here
  case postSignal.condSignal woken =>
    obtain ⟨_, ⟨⟨asleep, wakes⟩, rfl⟩, rfl⟩ := action
    exact .signal here asleep wakes
  case postUnlock.run => exact action ▸ .posted here

/-! ## The lock -/

def Pc.inLock : Pc → Bool
  | .waitTest _ | .condWait | .waitTake | .waitUnlock | .postAdd | .postSignal | .postUnlock => true
  | .idle | .waitLock | .blocked | .woken | .postLock => false

def LockHeld (s : State Thread) : Prop := ∀ t, s.lock = some t ↔ (s.pc t).inLock = true

omit [Fintype Thread] [DecidableEq Thread] in
theorem LockHeld.unique (held : LockHeld s) (mine : (s.pc t).inLock = true)
    (theirs : (s.pc u).inLock = true) : t = u := by
  have first := (held t).mpr mine
  have second := (held u).mpr theirs
  simpa [first] using second

omit [Fintype Thread] [DecidableEq Thread] in
theorem LockHeld.outside (held : LockHeld s) (free : s.lock = none) (t : Thread) : (s.pc t).inLock = false := by
  have mine := held t
  simpa [free] using mine

omit [Fintype Thread] in
theorem LockHeld.keep (held : LockHeld s) (same : pc.inLock = (s.pc t).inLock) (u : Thread) :
    s.lock = some u ↔ (Function.update s.pc t pc u).inLock = true := by
  rw [Function.update_apply, held u]
  split
  · subst u
    rw [same]
  · rfl

omit [Fintype Thread] in
theorem LockHeld.acquire (held : LockHeld s) (free : s.lock = none) (inside : pc.inLock = true) (u : Thread) :
    some t = some u ↔ (Function.update s.pc t pc u).inLock = true := by
  rw [Function.update_apply]
  split
  · subst u
    simp [inside]
  · next other => simp [held.outside free, Ne.symm other]

omit [Fintype Thread] in
theorem LockHeld.release (held : LockHeld s)
    (mine : (s.pc t).inLock = true) (outside : pc.inLock = false) (u : Thread) :
    none = some u ↔ (Function.update s.pc t pc u).inLock = true := by
  rw [Function.update_apply]
  split
  · simp [outside]
  · next other => simpa using fun theirs => other (held.unique theirs mine)

theorem step_lockHeld (held : LockHeld s) (action : Step s t after) : LockHeld after := by
  cases action with
  | call here begins => exact held.keep (by rcases begins with rfl | rfl <;> simp [here, Pc.inLock])
  | lock free wants => exact held.acquire free (by rcases wants with ⟨_, rfl⟩ | ⟨_, rfl⟩ | ⟨_, rfl⟩ <;> rfl)
  | test here => exact held.keep (by split <;> simp [here, Pc.inLock])
  | wakeup here | take here | add here => exact held.keep (by simp [here, Pc.inLock])
  | sleep here | waited here | posted here => exact held.release (by simp [here, Pc.inLock]) rfl
  | signal here asleep wakes =>
    rename_i woken
    have signalled : LockHeld { s with pc := fun u => if u ∈ woken then .woken else s.pc u } := by
      intro u
      simp only [held u]
      split
      · have blocked := asleep ‹_›
        simp only [sleepers, Finset.mem_filter, Finset.mem_univ, true_and] at blocked
        simp [blocked, Pc.inLock]
      · rfl
    refine signalled.keep ?_
    have awake : t ∉ woken := fun member => by simpa [sleepers, here] using asleep member
    simp [awake, here, Pc.inLock]

/-! ## Tokens, and the threads on their way to one -/

def Pc.added : Pc → ℕ
  | .postSignal | .postUnlock => 1
  | _ => 0

def Pc.taken : Pc → ℕ
  | .waitUnlock => 1
  | _ => 0

/-- Woken and not back at the test, or between the test and the token, or about to wake a sleeper. -/
def Pc.claims : Pc → ℕ
  | .woken | .waitTest true | .waitTake | .postSignal => 1
  | _ => 0

structure Inv (v : BitVec 32) (s : State Thread) : Prop where
  held : LockHeld s
  balance : s.value.toInt + s.waits + weigh Pc.taken s.pc = v.toInt + s.posts + weigh Pc.added s.pc
  floor : min v.toInt 0 ≤ s.value.toInt
  taking : ∀ t, s.pc t = .waitTake → 0 < s.value.toInt
  empty : ∀ t, s.pc t = .condWait → s.value.toInt ≤ 0
  claimed : (∃ t, s.pc t = .blocked) → s.value.toInt ≤ weigh Pc.claims s.pc

omit [DecidableEq Thread] in
theorem zemInit_inv (v : BitVec 32) : Inv v (zemInit Thread v) where
  held t := by simp [zemInit, Pc.inLock]
  balance := by simp [zemInit, weigh, Pc.taken, Pc.added]
  floor := by simp [zemInit]
  taking t := by simp [zemInit]
  empty t := by simp [zemInit]
  claimed := by simp [zemInit]

theorem toInt_add_one (below : value.toInt < 2 ^ 31 - 1) : (value + 1).toInt = value.toInt + 1 := by
  have low := BitVec.le_toInt value
  rw [BitVec.toInt_add, Int.bmod_eq_of_le] <;> simp at * <;> omega

theorem toInt_sub_one (positive : 0 < value.toInt) : (value - 1).toInt = value.toInt - 1 := by
  have high := BitVec.toInt_lt (x := value)
  rw [BitVec.toInt_sub, Int.bmod_eq_of_le] <;> simp at * <;> omega

theorem weigh_signal {weight : Pc → ℕ} (asleep : woken ⊆ sleepers s) (blocked : weight .blocked = 0) :
    weigh weight (fun u => if u ∈ woken then .woken else s.pc u) = weigh weight s.pc + woken.card * weight .woken := by
  have each : ∀ u, weight (if u ∈ woken then .woken else s.pc u) =
      weight (s.pc u) + if u ∈ woken then weight .woken else 0 := by
    intro u
    split
    · have here := asleep ‹_›
      simp only [sleepers, Finset.mem_filter, Finset.mem_univ, true_and] at here
      rw [here, blocked, zero_add]
    · rfl
  simp only [weigh, each, Finset.sum_add_distrib, Finset.sum_ite_mem, Finset.univ_inter, Finset.sum_const, smul_eq_mul]

omit [DecidableEq Thread] in
theorem signal_awake (here : s.pc t = .postSignal) (asleep : woken ⊆ sleepers s) : t ∉ woken := by
  intro member
  have blocked := asleep member
  simp [sleepers, here] at blocked

theorem weigh_step (action : Step s t after) (weight : Pc → ℕ) (blocked : weight .blocked = 0) :
    ∃ woken : Finset Thread, weigh weight after.pc + weight (s.pc t) =
        weigh weight s.pc + weight (after.pc t) + woken.card * weight .woken ∧
      (s.pc t = .postSignal → woken = ∅ → sleepers s = ∅) := by
  cases action with
  | @signal woken here asleep wakes =>
    have awake := signal_awake here asleep
    have moved := weigh_update weight (fun u => if u ∈ woken then .woken else s.pc u) t .postUnlock
    rw [weigh_signal asleep blocked] at moved
    refine ⟨woken, ?_, fun _ => wakes⟩
    simp only [awake, if_false, State.goto, Function.update_self] at moved ⊢
    omega
  | lock free wants =>
    refine ⟨∅, by simpa [State.goto] using weigh_update weight s.pc t _, fun here => ?_⟩
    rcases wants with ⟨there, _⟩ | ⟨there, _⟩ | ⟨there, _⟩ <;> cases here.symm.trans there
  | call here | test here | sleep here | wakeup here | take here | waited here | add here | posted here =>
    exact ⟨∅, by simpa [State.goto] using weigh_update weight s.pc t _, fun there => by cases here.symm.trans there⟩

theorem step_other (action : Step s t after) (other : u ≠ t) :
    after.pc u = s.pc u ∨ (s.pc u = .blocked ∧ after.pc u = .woken) := by
  cases action with
  | signal here asleep wakes =>
    simp only [State.goto, Function.update_of_ne other]
    split
    · have blocked := asleep ‹_›
      simp only [sleepers, Finset.mem_filter, Finset.mem_univ, true_and] at blocked
      exact .inr ⟨blocked, rfl⟩
    · exact .inl rfl
  | _ => exact .inl (Function.update_of_ne other _ _)

theorem step_value (action : Step s t after) :
    after.value = s.value ∨ ((s.pc t).inLock = true ∧ (after.pc t = .waitUnlock ∨ after.pc t = .postSignal)) := by
  cases action with
  | take here => exact .inr ⟨by simp [here, Pc.inLock], .inl (by simp [State.goto])⟩
  | add here => exact .inr ⟨by simp [here, Pc.inLock], .inr (by simp [State.goto])⟩
  | _ => exact .inl rfl

-- A thread between its test and what follows from it holds the lock, so nobody else changes the value.
theorem step_tested {P : ℤ → Prop} (held : LockHeld s)
    (action : Step s t after) (inside : pc.inLock = true) (kept : ∀ u, s.pc u = pc → P s.value.toInt)
    (tested : after.pc t = pc → P after.value.toInt) (u : Thread) (there : after.pc u = pc) :
    P after.value.toInt := by
  by_cases same : u = t
  · exact tested (same ▸ there)
  · have before : s.pc u = pc := by
      rcases step_other action same with unmoved | ⟨_, woken⟩
      · rw [← unmoved, there]
      · rw [← there, woken] at inside
        cases inside
    rcases step_value action with unchanged | ⟨mine, _⟩
    · rw [unchanged]
      exact kept u before
    · exact absurd (held.unique (before ▸ inside) mine) same

section
variable {v : BitVec 32} (inv : Inv v s) (action : Step s t after)
include inv action

theorem step_taking (u : Thread) (there : after.pc u = .waitTake) : 0 < after.value.toInt := by
  refine step_tested (P := (0 < ·)) inv.held action rfl inv.taking ?_ u there
  intro here
  cases action <;> simp only [State.goto, Function.update_self, reduceCtorEq] at here
  case call begins => rcases begins with rfl | rfl <;> cases here
  case lock wants => rcases wants with ⟨_, rfl⟩ | ⟨_, rfl⟩ | ⟨_, rfl⟩ <;> cases here
  case test =>
    split at here
    · cases here
    · exact not_le.mp ‹_›

theorem step_empty (u : Thread) (there : after.pc u = .condWait) : after.value.toInt ≤ 0 := by
  refine step_tested (P := (· ≤ 0)) inv.held action rfl inv.empty ?_ u there
  intro here
  cases action <;> simp only [State.goto, Function.update_self, reduceCtorEq] at here
  case call begins => rcases begins with rfl | rfl <;> cases here
  case lock wants => rcases wants with ⟨_, rfl⟩ | ⟨_, rfl⟩ | ⟨_, rfl⟩ <;> cases here
  case test =>
    split at here
    · assumption
    · cases here

theorem step_blocked (u : Thread) (there : after.pc u = .blocked) :
    (∃ w, s.pc w = .blocked) ∨ s.value.toInt ≤ 0 ∧ after.value = s.value := by
  by_cases same : u = t
  · subst u
    cases action <;> simp only [State.goto, Function.update_self, reduceCtorEq] at there
    case call begins => rcases begins with rfl | rfl <;> cases there
    case lock wants => rcases wants with ⟨_, rfl⟩ | ⟨_, rfl⟩ | ⟨_, rfl⟩ <;> cases there
    case test => split at there <;> cases there
    case sleep here => exact .inr ⟨inv.empty t here, rfl⟩
  · rcases step_other action same with unmoved | ⟨blocked, _⟩
    · exact .inl ⟨u, unmoved ▸ there⟩
    · exact .inl ⟨u, blocked⟩

theorem step_balance (small : s.pc t = .postAdd → s.value.toInt < 2 ^ 31 - 1) :
    after.value.toInt + after.waits + (after.pc t).taken + s.posts + (s.pc t).added =
        s.value.toInt + s.waits + (s.pc t).taken + after.posts + (after.pc t).added ∧
      min v.toInt 0 ≤ after.value.toInt := by
  have floor := inv.floor
  cases action with
  | take here =>
    have positive := inv.taking t here
    have less := toInt_sub_one positive
    simp only [State.goto, Function.update_self, here, Pc.taken, Pc.added]
    omega
  | add here =>
    have more := toInt_add_one (small here)
    simp only [State.goto, Function.update_self, here, Pc.taken, Pc.added]
    omega
  | call here begins =>
    rcases begins with rfl | rfl <;> simp [State.goto, here, Pc.taken, Pc.added, floor]
  | lock free wants =>
    rcases wants with ⟨here, rfl⟩ | ⟨here, rfl⟩ | ⟨here, rfl⟩ <;>
      simp [State.goto, here, Pc.taken, Pc.added, floor]
  | test here =>
    split <;> simp [State.goto, here, Pc.taken, Pc.added, floor]
  | waited here | posted here =>
    simp only [State.goto, Function.update_self, here, Pc.taken, Pc.added]
    omega
  | sleep here | wakeup here | signal here => simp [State.goto, here, Pc.taken, Pc.added, floor]

theorem step_claimed (small : s.pc t = .postAdd → s.value.toInt < 2 ^ 31 - 1)
    (asleep : ∃ u, after.pc u = .blocked) : after.value.toInt ≤ weigh Pc.claims after.pc := by
  obtain ⟨u, there⟩ := asleep
  obtain ⟨woken, recount, wakes⟩ := weigh_step action Pc.claims rfl
  rcases step_blocked inv action u there with before | ⟨empty, unchanged⟩
  · have claimed := inv.claimed before
    have positive := inv.taking t
    obtain ⟨w, blocked⟩ := before
    have someone : sleepers s ≠ ∅ := Finset.ne_empty_of_mem (a := w) (by simp [sleepers, blocked])
    cases action with
    | take here =>
      have less := toInt_sub_one (positive here)
      simp only [State.goto, Function.update_self, here, Pc.claims] at recount ⊢
      omega
    | add here =>
      have more := toInt_add_one (small here)
      simp only [State.goto, Function.update_self, here, Pc.claims] at recount ⊢
      omega
    | signal here =>
      have wakesOne : 0 < woken.card := Finset.card_pos.mpr
        (Finset.nonempty_iff_ne_empty.mpr fun none => someone (wakes here none))
      simp only [State.goto, Function.update_self, here, Pc.claims] at recount ⊢
      omega
    | test here =>
      by_cases empty : s.value.toInt ≤ 0
      · exact empty.trans (by simp)
      · simp only [State.goto, Function.update_self, here, if_neg empty] at recount ⊢
        have bound : Pc.claims (.waitTest ‹Bool›) ≤ 1 := by cases ‹Bool› <;> decide
        have next : Pc.claims .waitTake = 1 := rfl
        omega
    | call here begins =>
      rcases begins with rfl | rfl <;>
        simp only [State.goto, Function.update_self, here, Pc.claims] at recount ⊢ <;> omega
    | lock free wants =>
      rcases wants with ⟨here, rfl⟩ | ⟨here, rfl⟩ | ⟨here, rfl⟩ <;>
        simp only [State.goto, Function.update_self, here, Pc.claims] at recount ⊢ <;> omega
    | sleep here | wakeup here | waited here | posted here =>
      simp only [State.goto, Function.update_self, here, Pc.claims] at recount ⊢
      omega
  · rw [unchanged]
    omega

theorem step_keeps (small : s.pc t = .postAdd → s.value.toInt < 2 ^ 31 - 1) : Inv v after := by
  obtain ⟨balance, floor⟩ := step_balance inv action small
  refine ⟨step_lockHeld inv.held action, ?_, floor, step_taking inv action, step_empty inv action,
    step_claimed inv action small⟩
  obtain ⟨_, taken, _⟩ := weigh_step action Pc.taken rfl
  obtain ⟨_, added, _⟩ := weigh_step action Pc.added rfl
  have before := inv.balance
  simp only [Pc.taken, Pc.added, mul_zero, add_zero] at taken added
  simp only [Pc.taken, Pc.added] at balance ⊢
  omega

end

theorem reached_inv {v : BitVec 32} (reached : (system Thread v).ReachedBy NoOverflow s) : Inv v s :=
  reached.invariant (Inv v) (zemInit_inv v) fun _ _ _ _ inv small action =>
    step_keeps inv (step_inv action) small

instance (s : State Thread) (label : Thread × Move Thread) : Decidable (NoOverflow s label) :=
  inferInstanceAs (Decidable (_ → _))

/-! ## Completed calls and sleeping threads -/

def wokenThreads (s : State Thread) : Finset Thread := Finset.univ.filter fun t => s.pc t = .woken

/-- The value is accounted for by the calls that have returned, and while a thread sleeps every token has a woken
thread on its way to it. -/
def Counts (v : BitVec 32) (s : State Thread) : Prop :=
  s.value.toInt = v.toInt + s.posts - s.waits ∧ min v.toInt 0 ≤ s.value.toInt ∧
    ((∃ t, s.pc t = .blocked) → s.value.toInt ≤ (wokenThreads s).card)

omit [DecidableEq Thread] in
theorem Inv.counts {v : BitVec 32} (inv : Inv v s) (free : s.lock = none) : Counts v s := by
  have outside := inv.held.outside free
  have balance := inv.balance
  rw [weigh_const_zero fun t => ?taken, weigh_const_zero fun t => ?added] at balance
  case taken | added =>
    have mine := outside t
    revert mine
    cases s.pc t <;> simp [Pc.inLock, Pc.taken, Pc.added]
  refine ⟨by omega, inv.floor, fun asleep => ?_⟩
  have claims : weigh Pc.claims s.pc = (wokenThreads s).card := by
    rw [wokenThreads, Finset.card_filter]
    refine Finset.sum_congr rfl fun t _ => ?_
    have mine := outside t
    revert mine
    cases s.pc t <;> simp [Pc.inLock, Pc.claims]
  rw [← claims]
  exact inv.claimed asleep

theorem zem_counts {v : BitVec 32} {s : State Thread} (reached : (system Thread v).ReachedBy NoOverflow s)
    (free : s.lock = none) : Counts v s :=
  (reached_inv reached).counts free

def oneWoken : List (Fin 3 × Move (Fin 3)) :=
  [(0, .zemWait), (0, .run), (0, .run), (0, .run), (2, .zemWait), (2, .run), (2, .run), (2, .run),
    (1, .zemPost), (1, .run), (1, .run), (1, .condSignal {0}), (1, .run)]

theorem zem_counts_oneWoken :
    ∃ s, (system (Fin 3) 0).runBy NoOverflow (zemInit (Fin 3) 0) oneWoken = some s ∧ s.lock = none ∧
      s.value.toInt = 1 ∧ s.pc 2 = .blocked ∧ Counts 0 s := by
  obtain ⟨s, result⟩ : ∃ s, (system (Fin 3) 0).runBy NoOverflow (zemInit (Fin 3) 0) oneWoken = some s := ⟨_, rfl⟩
  have facts : s.lock = none ∧ s.value.toInt = 1 ∧ s.pc 2 = .blocked := by
    cases result
    exact ⟨rfl, rfl, rfl⟩
  exact ⟨s, result, facts.1, facts.2.1, facts.2.2, zem_counts (System.ReachedBy.initial.runBy result) facts.1⟩

theorem zemPost_overflows :
    ∃ s, (system (Fin 1) 0x7fffffff).Reachable s ∧ s.lock = none ∧ s.posts = 1 ∧ ¬ Counts 0x7fffffff s := by
  obtain ⟨s, result⟩ : ∃ s, (system (Fin 1) 0x7fffffff).run (zemInit (Fin 1) 0x7fffffff)
      [(0, .zemPost), (0, .run), (0, .run), (0, .condSignal ∅), (0, .run)] = some s := ⟨_, rfl⟩
  refine ⟨s, System.Reachable.run .initial result, ?_⟩
  cases result
  refine ⟨rfl, rfl, fun counts => ?_⟩
  have wrong := counts.1
  revert wrong
  decide

end OsProjects.Threads.Semaphore
