import OsProjects.Logging.Model
import OsProjects.Transition.Count
import OsProjects.Transition.Recorded

namespace OsProjects.Logging.Admission
open Transition

/-! ## `begin_op`, `log_write` and `end_op`

One step is one critical section of `log.lock`, or what a commit does between two of them to `log.lh.n`. -/

inductive Panic
  | logCommitting | tooBig | outsideTrans
  deriving DecidableEq

/-- Where a thread stands: outside, asleep in `begin_op`, in an operation, in `commit` before the test of `lh.n`,
before and after `lh.n = 0`, or back in `end_op`. -/
inductive Pc
  | idle | waiting | op | commit | install | erase | finish
  deriving DecidableEq

structure State (Thread : Type) where
  outstanding : ℤ
  committing : Bool
  lh : List BlockNo
  panicked : Option Panic
  pc : Thread → Pc

inductive Action
  | beginOp | logWrite (blockno : BlockNo) | endOp | run
  deriving DecidableEq

variable {Thread : Type} [DecidableEq Thread]

namespace State

def goto (s : State Thread) (t : Thread) (pc : Pc) : State Thread := { s with pc := Function.update s.pc t pc }

def beginOp (s : State Thread) (t : Thread) : State Thread :=
  if s.committing then s.goto t .waiting
  else if s.lh.length + (s.outstanding + 1) * MAXOPBLOCKS > LOGSIZE then s.goto t .waiting
  else { s with outstanding := s.outstanding + 1 }.goto t .op

omit [DecidableEq Thread] in
def logWrite (s : State Thread) (size : ℤ) (blockno : BlockNo) : State Thread :=
  if s.lh.length ≥ LOGSIZE ∨ s.lh.length ≥ size - 1 then { s with panicked := some .tooBig }
  else if s.outstanding < 1 then { s with panicked := some .outsideTrans }
  else if blockno ∈ s.lh then s
  else { s with lh := s.lh ++ [blockno] }

def endOp (s : State Thread) (t : Thread) : State Thread :=
  let s := { s with outstanding := s.outstanding - 1 }
  if s.committing then { s with panicked := some .logCommitting }
  else if s.outstanding = 0 then { s with committing := true }.goto t .commit
  else s.goto t .idle

end State

def step (size : ℤ) (s : State Thread) (label : Thread × Action) : Option (State Thread) :=
  if s.panicked ≠ none then none
  else match s.pc label.1, label.2 with
    | .idle, .beginOp | .waiting, .run => some (s.beginOp label.1)
    | .op, .logWrite blockno => some (s.logWrite size blockno)
    | .op, .endOp => some (s.endOp label.1)
    | .commit, .run => some (s.goto label.1 (if s.lh.length > 0 then .install else .finish))
    | .install, .run => some ({ s with lh := [] }.goto label.1 .erase)
    | .erase, .run => some (s.goto label.1 .finish)
    | .finish, .run => some ({ s with committing := false }.goto label.1 .idle)
    | _, _ => none

def system (size : ℤ) : System (State Thread) (Thread × Action) where
  initial := ⟨0, false, [], none, fun _ => .idle⟩
  step := step size

inductive Moved (size : ℤ) (s : State Thread) (t : Thread) : Action → State Thread → Prop
  | beginOp (here : s.pc t = .idle) : Moved size s t .beginOp (s.beginOp t)
  | wake (here : s.pc t = .waiting) : Moved size s t .run (s.beginOp t)
  | logWrite {blockno : BlockNo} (here : s.pc t = .op) : Moved size s t (.logWrite blockno) (s.logWrite size blockno)
  | endOp (here : s.pc t = .op) : Moved size s t .endOp (s.endOp t)
  | commit (here : s.pc t = .commit) (some : s.lh.length > 0) : Moved size s t .run (s.goto t .install)
  | nothing (here : s.pc t = .commit) (none : ¬ s.lh.length > 0) : Moved size s t .run (s.goto t .finish)
  | install (here : s.pc t = .install) : Moved size s t .run ({ s with lh := [] }.goto t .erase)
  | erase (here : s.pc t = .erase) : Moved size s t .run (s.goto t .finish)
  | finish (here : s.pc t = .finish) : Moved size s t .run ({ s with committing := false }.goto t .idle)

theorem step_moved {size : ℤ} {s after : State Thread} {t : Thread} {act : Action}
    (action : step size s (t, act) = some after) : Moved size s t act after := by
  unfold step at action
  split at action
  · cases action
  cases act <;> cases here : s.pc t <;> simp only [here, Option.some.injEq, reduceCtorEq] at action
  case run.commit =>
    subst action
    split
    · exact .commit here ‹_›
    · exact .nothing here ‹_›
  case run.erase =>
    subst action
    exact .erase here
  all_goals
    subst action
    constructor
    exact here

/-! ## What an operation logs -/

def Action.block : Action → Option BlockNo
  | .logWrite blockno => some blockno
  | _ => none

def note (_ : State Thread) (label : Thread × Action) (logged : Thread → List BlockNo) : Thread → List BlockNo :=
  match label.2 with
  | .logWrite blockno => Function.update logged label.1 (blockno :: logged label.1)
  | .endOp => Function.update logged label.1 []
  | _ => logged

def operations (size : ℤ) : System (State Thread × (Thread → List BlockNo)) (Thread × Action) :=
  (system size).recorded (fun _ => []) note

def Small (x : State Thread × (Thread → List BlockNo)) (label : Thread × Action) : Prop :=
  ∀ b ∈ label.2.block, (b :: x.2 label.1).toFinset.card ≤ MAXOPBLOCKS

def Room (x : State Thread × (Thread → List BlockNo)) (label : Thread × Action) : Prop :=
  ∀ b ∈ label.2.block, x.1.lh.length = LOGSIZE → b ∉ x.1.lh

omit [DecidableEq Thread] in
instance (x : State Thread × (Thread → List BlockNo)) (label : Thread × Action) : Decidable (Small x label) :=
  inferInstanceAs (Decidable (∀ _ ∈ _, _))

omit [DecidableEq Thread] in
instance (x : State Thread × (Thread → List BlockNo)) (label : Thread × Action) : Decidable (Room x label) :=
  inferInstanceAs (Decidable (∀ _ ∈ _, _))

/-! ## Reserved space -/

def Pc.ops : Pc → ℕ
  | .op => 1
  | _ => 0

def Pc.commits : Pc → Bool
  | .commit | .install | .erase | .finish => true
  | _ => false

def reserve (place : Pc × List BlockNo) : ℕ := if place.1 = .op then MAXOPBLOCKS - place.2.toFinset.card else 0

variable [Fintype Thread]

structure Inv (x : State Thread × (Thread → List BlockNo)) : Prop where
  running : x.1.panicked = none
  distinct : x.1.lh.Nodup
  ops : x.1.outstanding = weigh Pc.ops x.1.pc
  room : x.1.lh.length + weigh reserve (fun t => (x.1.pc t, x.2 t)) ≤ LOGSIZE
  logged : ∀ t, x.2 t ⊆ x.1.lh
  outside : ∀ t, x.1.pc t ≠ .op → x.2 t = []
  commits : ∀ t, (x.1.pc t).commits = true → x.1.committing = true
  single : ∀ t u, (x.1.pc t).commits = true → (x.1.pc u).commits = true → t = u
  quiet : x.1.committing = true → x.1.outstanding = 0

variable {s after : State Thread} {logged : Thread → List BlockNo} {t : Thread}

omit [Fintype Thread] in
theorem places_update (pcs : Thread → Pc) (logged : Thread → List BlockNo) (t : Thread) (pc : Pc) (set : List BlockNo) :
    (fun u => (Function.update pcs t pc u, Function.update logged t set u)) =
      Function.update (fun u => (pcs u, logged u)) t (pc, set) := by
  funext u
  by_cases same : u = t
  · subst same
    simp
  · simp [same]

omit [Fintype Thread] in
theorem update_logged_self (logged : Thread → List BlockNo) (t : Thread) : Function.update logged t (logged t) = logged :=
  Function.update_eq_self t logged

omit [DecidableEq Thread] in
theorem weigh_reserve_le (pcs : Thread → Pc) (logged : Thread → List BlockNo) :
    weigh reserve (fun t => (pcs t, logged t)) ≤ weigh Pc.ops pcs * MAXOPBLOCKS := by
  unfold weigh
  rw [Finset.sum_mul]
  refine Finset.sum_le_sum fun t _ => ?_
  cases here : pcs t <;> simp [reserve, Pc.ops, here]

namespace Inv

variable (inv : Inv (s, logged))
include inv

theorem goto {pc : Pc} (before : s.pc t ≠ .op) (next : pc ≠ .op)
    (commits : pc.commits = true → (s.pc t).commits = true) : Inv (s.goto t pc, logged) where
  running := inv.running
  distinct := inv.distinct
  ops := by
    have total := weigh_update Pc.ops s.pc t pc
    have zero : ∀ {pc : Pc}, pc ≠ .op → pc.ops = 0 := by
      intro pc other
      cases pc <;> first | rfl | exact absurd rfl other
    rw [zero before, zero next] at total
    have ops := inv.ops
    simp only [State.goto] at ops ⊢
    omega
  room := by
    have total := weigh_update reserve (fun u => (s.pc u, logged u)) t (pc, logged t)
    have zero : ∀ {pc : Pc}, pc ≠ .op → reserve (pc, logged t) = 0 := fun other => if_neg other
    rw [zero before, zero next, ← places_update, update_logged_self] at total
    have room := inv.room
    simp only [State.goto] at room ⊢
    omega
  logged := inv.logged
  outside u other := by
    by_cases same : u = t
    · subst same
      exact inv.outside u before
    · exact inv.outside u (by simpa [State.goto, same] using other)
  commits u busy := by
    by_cases same : u = t
    · subst same
      exact inv.commits u (commits (by simpa [State.goto] using busy))
    · exact inv.commits u (by simpa [State.goto, same] using busy)
  single u v busy busy' := by
    have back : ∀ {w}, ((s.goto t pc).pc w).commits = true → (s.pc w).commits = true := by
      intro w busy
      by_cases same : w = t
      · subst same
        exact commits (by simpa [State.goto] using busy)
      · simpa [State.goto, same] using busy
    exact inv.single u v (back busy) (back busy')
  quiet := inv.quiet

theorem beginOp (here : s.pc t = .idle ∨ s.pc t = .waiting) : Inv (s.beginOp t, logged) := by
  have before : s.pc t ≠ .op := by rcases here with here | here <;> simp [here]
  have unlogged : logged t = [] := inv.outside t before
  unfold State.beginOp
  split
  · exact inv.goto before (by decide) (by simp [Pc.commits])
  split
  · exact inv.goto before (by decide) (by simp [Pc.commits])
  rename_i resting admitted
  have total := weigh_update Pc.ops s.pc t .op
  have zero : (s.pc t).ops = 0 := by rcases here with here | here <;> simp [here, Pc.ops]
  have ops := inv.ops
  refine ⟨inv.running, inv.distinct, ?_, ?_, inv.logged, ?_, ?_, ?_, ?_⟩
  · simp only [State.goto, Pc.ops] at ops total ⊢
    omega
  · have reserved := weigh_update reserve (fun u => (s.pc u, logged u)) t (.op, logged t)
    rw [← places_update, update_logged_self] at reserved
    have bound := weigh_reserve_le s.pc logged
    have share : reserve (Pc.op, logged t) ≤ MAXOPBLOCKS := by simp [reserve]
    simp only [State.goto, MAXOPBLOCKS, LOGSIZE] at *
    omega
  · intro u other
    by_cases same : u = t
    · subst same
      exact unlogged
    · exact inv.outside u (by simpa [State.goto, same] using other)
  · intro u busy
    by_cases same : u = t
    · subst same
      simp [State.goto, Pc.commits] at busy
    · exact inv.commits u (by simpa [State.goto, same] using busy)
  · intro u v busy busy'
    have back : ∀ {w}, (Function.update s.pc t .op w).commits = true → (s.pc w).commits = true := by
      intro w busy
      by_cases same : w = t
      · subst same
        simp [Pc.commits] at busy
      · simpa [same] using busy
    exact inv.single u v (back busy) (back busy')
  · intro committing
    exact absurd committing resting

omit [DecidableEq Thread] in
theorem none_commits (resting : s.committing ≠ true) (t : Thread) : (s.pc t).commits = false :=
  Bool.eq_false_iff.mpr fun busy => resting (inv.commits t busy)

omit [DecidableEq Thread] in
theorem resting_of_op (here : s.pc t = .op) : s.committing ≠ true := by
  intro committing
  have ops := inv.ops
  have one := le_weigh Pc.ops s.pc t
  rw [here] at one
  have zero := inv.quiet committing
  simp only [Pc.ops] at ops one zero
  omega

omit [DecidableEq Thread] in
theorem nothing_logged (committing : s.committing = true) (t : Thread) : logged t = [] :=
  inv.outside t fun here => inv.resting_of_op here committing

theorem logWrite {size : ℤ} (large : (LOGSIZE : ℤ) + 1 ≤ size) (here : s.pc t = .op)
    {b : BlockNo} (small : (b :: logged t).toFinset.card ≤ MAXOPBLOCKS) (full : s.lh.length = LOGSIZE → b ∉ s.lh) :
    Inv (s.logWrite size b, Function.update logged t (b :: logged t)) := by
  have reserved := weigh_update reserve (fun u => (s.pc u, logged u)) t (.op, b :: logged t)
  have same : Function.update s.pc t .op = s.pc := by rw [← here, Function.update_eq_self]
  rw [← places_update, same] at reserved
  have room := inv.room
  have own := le_weigh reserve (fun u => (s.pc u, logged u)) t
  simp only [reserve, here, if_true] at reserved own
  have subset : ∀ lh : List BlockNo, b ∈ lh → s.lh ⊆ lh → ∀ u, Function.update logged t (b :: logged t) u ⊆ lh := by
    intro lh member more u
    have before : logged u ⊆ lh := List.Subset.trans (inv.logged u) more
    by_cases same : u = t
    · subst same
      rw [Function.update_self]
      exact List.cons_subset.mpr ⟨member, before⟩
    · rwa [Function.update_of_ne same]
  have outside : ∀ u, s.pc u ≠ .op → Function.update logged t (b :: logged t) u = [] := by
    intro u other
    have apart : u ≠ t := by
      rintro rfl
      exact other here
    rw [Function.update_of_ne apart]
    exact inv.outside u other
  have open_ops : 1 ≤ s.outstanding := by
    have ops := inv.ops
    have one := le_weigh Pc.ops s.pc t
    rw [here] at one
    simp only [Pc.ops] at ops one
    omega
  unfold State.logWrite
  by_cases member : b ∈ s.lh
  · have more := Finset.card_le_card (Finset.subset_insert b (logged t).toFinset)
    rw [List.toFinset_cons] at reserved
    have short : s.lh.length < LOGSIZE := lt_of_le_of_ne (by simp only at room; omega) fun equal => full equal member
    rw [if_neg (by omega), if_neg (by omega), if_pos member]
    refine ⟨inv.running, inv.distinct, inv.ops, ?_, subset s.lh member (List.Subset.refl _), outside, inv.commits, inv.single,
      inv.quiet⟩
    simp only at room ⊢
    omega
  · have fresh : b ∉ (logged t).toFinset := fun inside => member (inv.logged t (List.mem_toFinset.mp inside))
    rw [List.toFinset_cons, Finset.card_insert_of_notMem fresh] at small reserved
    have short : s.lh.length < LOGSIZE := by
      simp only at room
      omega
    rw [if_neg (by omega), if_neg (by omega), if_neg member]
    refine ⟨inv.running, ?_, inv.ops, ?_, subset _ (by simp) (by simp), outside, inv.commits, inv.single, inv.quiet⟩
    · refine List.nodup_append.mpr ⟨inv.distinct, List.nodup_singleton b, fun x inside y single equal => ?_⟩
      rw [equal, List.mem_singleton.mp single] at inside
      exact member inside
    · simp only [List.length_append, List.length_singleton] at room ⊢
      omega

theorem endOp (here : s.pc t = .op) : Inv (s.endOp t, Function.update logged t []) := by
  have resting := inv.resting_of_op here
  have ops := inv.ops
  have counted : ∀ {pc : Pc}, pc ≠ .op → s.outstanding - 1 = (weigh Pc.ops (Function.update s.pc t pc) : ℤ) := by
    intro pc other
    have total := weigh_update Pc.ops s.pc t pc
    simp only [here, Pc.ops] at ops total
    omega
  have roomy : ∀ {pc : Pc}, pc ≠ .op →
      s.lh.length + weigh reserve (fun u => (Function.update s.pc t pc u, Function.update logged t [] u)) ≤ LOGSIZE := by
    intro pc other
    have total := weigh_update reserve (fun u => (s.pc u, logged u)) t (pc, [])
    have room := inv.room
    have zero : reserve (pc, []) = 0 := if_neg other
    rw [← places_update, zero] at total
    simp only at room
    omega
  have subset : ∀ u, Function.update logged t [] u ⊆ s.lh := by
    intro u
    by_cases same : u = t
    · subst same
      simp
    · rw [Function.update_of_ne same]
      exact inv.logged u
  have outside : ∀ {pc : Pc} u, Function.update s.pc t pc u ≠ .op → Function.update logged t [] u = [] := by
    intro pc u other
    by_cases same : u = t
    · subst same
      simp
    · rw [Function.update_of_ne same] at other ⊢
      exact inv.outside u other
  unfold State.endOp
  rw [if_neg resting]
  split
  · rename_i last
    have only : ∀ {u}, (Function.update s.pc t .commit u).commits = true → u = t := by
      intro u busy
      by_contra other
      rw [Function.update_of_ne other, inv.none_commits resting u] at busy
      cases busy
    exact ⟨inv.running, inv.distinct, counted (by decide), roomy (by decide), subset, outside, fun _ _ => rfl,
      fun u v busy busy' => (only busy).trans (only busy').symm, fun _ => last⟩
  · have none : ∀ {u}, (Function.update s.pc t .idle u).commits = true → (s.pc u).commits = true := by
      intro u busy
      by_cases same : u = t
      · subst same
        simp [Pc.commits] at busy
      · rwa [Function.update_of_ne same] at busy
    exact ⟨inv.running, inv.distinct, counted (by decide), roomy (by decide), subset, outside,
      fun u busy => inv.commits u (none busy), fun u v busy busy' => inv.single u v (none busy) (none busy'),
      fun committing => absurd committing resting⟩

omit [DecidableEq Thread] in
theorem clear (here : (s.pc t).commits = true) : Inv ({ s with lh := [] }, logged) := by
  have nothing := inv.nothing_logged (inv.commits t here)
  refine ⟨inv.running, List.nodup_nil, inv.ops, ?_, fun u => by simp [nothing u], inv.outside, inv.commits, inv.single,
    inv.quiet⟩
  have room := inv.room
  simp only [List.length_nil] at room ⊢
  omega

theorem finish (here : s.pc t = .finish) :
    Inv (({ s with committing := false } : State Thread).goto t .idle, logged) := by
  have moved : Inv (s.goto t .idle, logged) := inv.goto (by simp [here]) (by decide) (by simp [Pc.commits])
  have none : ∀ u, (Function.update s.pc t .idle u).commits = false := by
    intro u
    by_cases same : u = t
    · subst same
      simp [Pc.commits]
    · rw [Function.update_of_ne same]
      exact Bool.eq_false_iff.mpr fun busy => same (inv.single u t busy (by simp [here, Pc.commits]))
  refine ⟨moved.running, moved.distinct, moved.ops, moved.room, moved.logged, moved.outside, fun u busy => ?_, fun u v busy => ?_,
    fun absurd => by cases absurd⟩
  · cases (none u).symm.trans busy
  · cases (none u).symm.trans busy

theorem moved {size : ℤ} (large : (LOGSIZE : ℤ) + 1 ≤ size) {action : Action}
    (small : Small (s, logged) (t, action)) (room : Room (s, logged) (t, action))
    (moved : Moved size s t action after) : Inv (after, note s (t, action) logged) := by
  cases moved with
  | beginOp here => exact inv.beginOp (.inl here)
  | wake here => exact inv.beginOp (.inr here)
  | logWrite here => exact inv.logWrite large here (small _ rfl) (room _ rfl)
  | endOp here => exact inv.endOp here
  | commit here => exact inv.goto (by simp [here]) (by decide) (by simp [here, Pc.commits])
  | nothing here => exact inv.goto (by simp [here]) (by decide) (by simp [here, Pc.commits])
  | install here =>
    have busy : (s.pc t).commits = true := by simp [here, Pc.commits]
    exact (inv.clear busy).goto (by simp [here]) (by decide) fun _ => busy
  | erase here => exact inv.goto (by simp [here]) (by decide) (by simp [here, Pc.commits])
  | finish here => exact inv.finish here

end Inv

theorem inv_initial (size : ℤ) : Inv (operations size : System (State Thread × _) _).initial where
  running := rfl
  distinct := List.nodup_nil
  ops := congrArg Nat.cast (weigh_const_zero fun _ => rfl).symm
  room := by
    have zero : weigh reserve (fun _ : Thread => (Pc.idle, ([] : List BlockNo))) = 0 := weigh_const_zero fun _ => rfl
    change 0 + weigh reserve (fun _ : Thread => (Pc.idle, ([] : List BlockNo))) ≤ LOGSIZE
    omega
  logged t := List.nil_subset _
  outside t _ := rfl
  commits t busy := by cases busy
  single t u busy := by cases busy
  quiet committing := by cases committing

/-- Admission control suffices for operations of at most `MAXOPBLOCKS` different blocks, as long as no block of a full
log is logged again. -/
theorem admission_suffices {size : ℤ} (large : (LOGSIZE : ℤ) + 1 ≤ size)
    (reached : (operations size).ReachedBy (fun x label => Small x label ∧ Room x label) (s, logged)) :
    s.panicked = none ∧ s.lh.length ≤ LOGSIZE ∧ s.lh.Nodup ∧ ∀ t, s.pc t = .op → s.committing = false := by
  have inv : Inv (s, logged) := by
    refine System.ReachedBy.invariant Inv (inv_initial size) ?_ reached
    rintro ⟨before, record⟩ ⟨t, act⟩ ⟨after, record'⟩ _ inv ⟨small, room⟩ action
    obtain ⟨moved, noted⟩ := System.recorded_step action
    rw [show record' = _ from noted]
    exact inv.moved large small room (step_moved moved)
  refine ⟨inv.running, ?_, inv.distinct, fun t here => Bool.eq_false_iff.mpr (inv.resting_of_op here)⟩
  have room := inv.room
  simp only at room
  omega

/-! ## A full log -/

omit [Fintype Thread] in
theorem reached_logWrites {size : ℤ} (large : (LOGSIZE : ℤ) + 1 ≤ size) (t : Thread) (bs : List BlockNo)
    (reached : (operations size).ReachedBy (fun x label => Small x label ∧ Room x label) (s, logged))
    (running : s.panicked = none) (here : s.pc t = .op) (outstanding : 1 ≤ s.outstanding)
    (room : s.lh.length + bs.length ≤ LOGSIZE) (small : (logged t).length + bs.length ≤ MAXOPBLOCKS)
    (fresh : (s.lh ++ bs).Nodup) :
    (operations size).ReachedBy (fun x label => Small x label ∧ Room x label)
      ({ s with lh := s.lh ++ bs }, Function.update logged t (bs.reverse ++ logged t)) := by
  induction bs generalizing s logged with
  | nil => simpa using reached
  | cons b rest ih =>
    simp only [List.length_cons] at room small
    have absent : b ∉ s.lh := by
      intro member
      exact (List.nodup_append.mp fresh).2.2 b member b List.mem_cons_self rfl
    have wrote : s.logWrite size b = { s with lh := s.lh ++ [b] } := by
      unfold State.logWrite
      rw [if_neg (by omega), if_neg (by omega), if_neg absent]
    have action : (operations size).step (s, logged) (t, .logWrite b) =
        some ({ s with lh := s.lh ++ [b] }, Function.update logged t (b :: logged t)) := by
      refine System.recorded_step_of ?_ logged
      simp [system, step, running, here, wrote]
    have permitted : Small (s, logged) (t, .logWrite b) ∧ Room (s, logged) (t, .logWrite b) := by
      constructor
      · intro c same
        obtain rfl : b = c := Option.some.inj same
        have bound := List.toFinset_card_le (b :: logged t)
        simp only [List.length_cons] at bound
        exact bound.trans (by omega)
      · intro c same _
        obtain rfl : b = c := Option.some.inj same
        exact absent
    have later := ih (.next reached permitted action) running here outstanding
      (by simpa [add_assoc, add_comm 1] using room) (by simpa [add_assoc, add_comm 1] using small) (by simpa using fresh)
    simpa using later

def begun : State (Fin 3) := ((State.beginOp ⟨0, false, [], none, fun _ => .idle⟩ 0).beginOp 1).beginOp 2

theorem reached_begun {size : ℤ} :
    (operations size).ReachedBy (fun x label => Small x label ∧ Room x label) (begun, fun _ => []) := by
  have permitted : ∀ (x : State (Fin 3) × (Fin 3 → List BlockNo)) t, Small x (t, .beginOp) ∧ Room x (t, .beginOp) :=
    fun x t => ⟨fun b none => (by cases none), fun b none => (by cases none)⟩
  have begins : ∀ {s : State (Fin 3)} {t}, (operations size).ReachedBy (fun x label => Small x label ∧ Room x label)
      (s, fun _ => []) → s.panicked = none → s.pc t = .idle →
      (operations size).ReachedBy (fun x label => Small x label ∧ Room x label) (s.beginOp t, fun _ => []) := by
    intro s t reached running here
    refine .next reached (permitted _ t) (System.recorded_step_of ?_ _)
    simp [system, step, running, here]
  exact begins (begins (begins .initial rfl rfl) rfl (by decide)) rfl (by decide)

def ownBlocks (t : ℕ) : List BlockNo := (List.range MAXOPBLOCKS).map fun k => BitVec.ofNat 32 (MAXOPBLOCKS * t + k)

def full : State (Fin 3) := { begun with lh := [] ++ ownBlocks 0 ++ ownBlocks 1 ++ ownBlocks 2 }

theorem reached_full : ∃ logged, (operations (LOGSIZE + 1)).ReachedBy (fun x label => Small x label ∧ Room x label) (full, logged) ∧
    logged 0 = (ownBlocks 0).reverse := by
  have first := reached_logWrites le_rfl 0 (ownBlocks 0) reached_begun rfl (by decide) (by decide) (by decide)
    (by decide) (by decide)
  have second := reached_logWrites le_rfl 1 (ownBlocks 1) first rfl (by decide) (by decide) (by decide)
    (by decide) (by decide)
  have third := reached_logWrites le_rfl 2 (ownBlocks 2) second rfl (by decide) (by decide) (by decide)
    (by decide) (by decide)
  exact ⟨_, third, by decide⟩

theorem admission_suffices_full :
    ∃ (s : State (Fin 3)) (logged : Fin 3 → List BlockNo),
      (operations (LOGSIZE + 1)).ReachedBy (fun x label => Small x label ∧ Room x label) (s, logged) ∧ s.lh.length = LOGSIZE ∧
        s.panicked = none ∧ s.lh.length ≤ LOGSIZE ∧ s.lh.Nodup ∧ ∀ t, s.pc t = .op → s.committing = false := by
  obtain ⟨logged, reached, _⟩ := reached_full
  exact ⟨full, logged, reached, by decide, admission_suffices le_rfl reached⟩

/-- One of the operations logs its first block again: `log_write` tests `lh.n` before it looks for the block. -/
theorem full_log_absorbs_nothing :
    ∃ (s : State (Fin 3)) (logged : Fin 3 → List BlockNo),
      (operations (LOGSIZE + 1)).ReachedBy Small (s, logged) ∧ s.panicked = some .tooBig := by
  obtain ⟨logged, reached, own⟩ := reached_full
  have permitted : Small (full, logged) (0, .logWrite 0) := by
    intro b same
    obtain rfl : 0 = b := Option.some.inj same
    simp only [own]
    decide
  have action : (system (LOGSIZE + 1)).step full (0, .logWrite 0) = some { full with panicked := some .tooBig } := by
    have filled : full.lh.length ≥ LOGSIZE := by decide
    have here : full.pc 0 = .op := by decide
    have running : full.panicked = none := rfl
    simp [system, step, here, running, State.logWrite, filled]
  exact ⟨_, _, .next (reached.mono fun _ _ both => both.1) permitted (System.recorded_step_of action logged), rfl⟩

end OsProjects.Logging.Admission
