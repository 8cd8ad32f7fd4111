import OsProjects.Dining.Ring
import OsProjects.Threads.Zemaphore
import OsProjects.Transition.System
import OsProjects.Transition.Count
import Mathlib.Tactic

namespace OsProjects.Dining.Bitmap
open Threads Transition

inductive Pc
  | waitMutex | test | markRight | markLeft | statistics | postMarked
  | getRight | getLeft | eat | waitDone
  | putRight | putLeft | clearRight | clearLeft | postMutex | think
  deriving DecidableEq, Repr

structure State (n : ℕ) extends Seats n Pc where
  mutex : Zem
  forkBitmap : BitVec 32
  bitmapUpdatedCounter : BitVec 32
  eatingDistribution : Fin n → BitVec 32

variable {n : ℕ} {bitmap : BitVec 32} {f p : Fin n} {s after : State n}

def bit (f : Fin n) : BitVec 32 := 1#32 <<< f.val

def available (bitmap : BitVec 32) (f : Fin n) : Bool := bitmap &&& bit f == 0

def ate (distribution : Fin n → BitVec 32) (f : Fin n) : Fin n → BitVec 32 :=
  Function.update distribution f (distribution f + 1)

def philosopher (s : State n) (p : Fin n) : Option (State n) :=
  match s.pc p with
  | .waitMutex => (zemWait s.mutex).map fun z => { s with mutex := z, toSeats := s.goto p .test }
  | .test =>
    if available s.forkBitmap (right p) && available s.forkBitmap (left p)
    then some { s with toSeats := s.goto p .markRight } else some { s with toSeats := s.goto p .postMutex }
  | .markRight => some { s with forkBitmap := s.forkBitmap ||| bit (right p), toSeats := s.goto p .markLeft }
  | .markLeft => some { s with forkBitmap := s.forkBitmap ||| bit (left p), toSeats := s.goto p .statistics }
  | .statistics => some { s with
      bitmapUpdatedCounter := s.bitmapUpdatedCounter + 2
      eatingDistribution := ate (ate s.eatingDistribution (right p)) (left p)
      toSeats := s.goto p .postMarked }
  | .postMarked => some { s with mutex := zemPost s.mutex, toSeats := s.goto p .getRight }
  | .getRight => (s.waitFork (right p)).map fun t => { s with toSeats := t.goto p .getLeft }
  | .getLeft => (s.waitFork (left p)).map fun t => { s with toSeats := t.goto p .eat }
  | .eat => some { s with toSeats := s.goto p .waitDone }
  | .waitDone => (zemWait s.mutex).map fun z => { s with mutex := z, toSeats := s.goto p .putRight }
  | .putRight => some { s with toSeats := (s.postFork (right p)).goto p .putLeft }
  | .putLeft => some { s with toSeats := (s.postFork (left p)).goto p .clearRight }
  | .clearRight => some { s with forkBitmap := s.forkBitmap ^^^ bit (right p), toSeats := s.goto p .clearLeft }
  | .clearLeft => some { s with forkBitmap := s.forkBitmap ^^^ bit (left p), toSeats := s.goto p .postMutex }
  | .postMutex => some { s with mutex := zemPost s.mutex, toSeats := s.goto p .think }
  | .think => some { s with toSeats := s.goto p .waitMutex }

def main (n : ℕ) (malloc : Fin n → BitVec 32) : State n where
  mutex := zemInit 1
  forks _ := zemInit 1
  forkBitmap := 0
  bitmapUpdatedCounter := 0
  eatingDistribution := malloc
  pc _ := .waitMutex

def system (n : ℕ) (malloc : Fin n → BitVec 32) : System (State n) (Fin n) := ⟨main n malloc, philosopher⟩

/-! ## The bits of the bitmap -/

theorem getLsbD_bit (max : n ≤ 32) (f : Fin n) (i : ℕ) : (bit f).getLsbD i = decide (i = f.val) := by
  have bound := f.isLt
  simp only [bit, BitVec.getLsbD_shiftLeft, BitVec.getLsbD_one]
  by_cases same : i = f.val
  · subst same
    simp; omega
  · by_cases small : i < f.val
    · simp [small, same]
    · simp [small, same]; omega

theorem available_iff (max : n ≤ 32) (bitmap : BitVec 32) (f : Fin n) :
    available bitmap f = true ↔ bitmap.getLsbD f = false := by
  simp only [available, beq_iff_eq]
  constructor
  · intro zero
    have atBit := congrArg (BitVec.getLsbD · f.val) zero
    simpa [getLsbD_bit max] using atBit
  · intro clear
    apply BitVec.eq_of_getLsbD_eq
    intro i _
    rw [BitVec.getLsbD_and, getLsbD_bit max]
    by_cases same : i = f.val
    · simp [same, clear]
    · simp [same]

theorem getLsbD_or_bit (max : n ≤ 32) (bitmap : BitVec 32) (f : Fin n) (i : ℕ) :
    (bitmap ||| bit f).getLsbD i = (bitmap.getLsbD i || decide (i = f.val)) := by
  rw [BitVec.getLsbD_or, getLsbD_bit max]

theorem getLsbD_xor_bit (max : n ≤ 32) (set : bitmap.getLsbD f = true)
    (i : ℕ) : (bitmap ^^^ bit f).getLsbD i = (bitmap.getLsbD i && decide (i ≠ f.val)) := by
  rw [BitVec.getLsbD_xor, getLsbD_bit max]
  by_cases same : i = f.val
  · simp [same, set]
  · simp [same]

/-! ## The invariant -/

def Pc.inMutex : Pc → ℕ
  | .test | .markRight | .markLeft | .statistics | .postMarked => 1
  | .putRight | .putLeft | .clearRight | .clearLeft | .postMutex => 1
  | _ => 0

def Pc.setsRight : Pc → ℕ
  | .markLeft | .statistics | .postMarked | .getRight | .getLeft | .eat | .waitDone => 1
  | .putRight | .putLeft | .clearRight => 1
  | _ => 0

def Pc.setsLeft : Pc → ℕ
  | .statistics | .postMarked | .getRight | .getLeft | .eat | .waitDone => 1
  | .putRight | .putLeft | .clearRight | .clearLeft => 1
  | _ => 0

def freeBit (bitmap : BitVec 32) (f : Fin n) : ℤ := if bitmap.getLsbD f then 0 else 1

theorem freeBit_nonneg (bitmap : BitVec 32) (f : Fin n) : 0 ≤ freeBit bitmap f := by
  unfold freeBit
  split <;> decide

def MarkingClear (bitmap : BitVec 32) (p : Fin n) : Pc → Prop
  | .markRight => bitmap.getLsbD (right p) = false ∧ bitmap.getLsbD (left p) = false
  | .markLeft => bitmap.getLsbD (left p) = false
  | _ => True

structure Inv (s : State n) : Prop where
  mutex : s.mutex.value + weigh Pc.inMutex s.pc = 1
  mutex_nonneg : 0 ≤ s.mutex.value
  bits : Accounted Pc.setsRight Pc.setsLeft (freeBit s.forkBitmap) s.pc
  high : ∀ i, n ≤ i → s.forkBitmap.getLsbD i = false
  marking : ∀ p, MarkingClear s.forkBitmap p (s.pc p)

theorem main_inv (n : ℕ) (malloc : Fin n → BitVec 32) : Inv (main n malloc) where
  mutex := by simp [main, weigh, Pc.inMutex]
  mutex_nonneg := by simp [main]
  bits p := by simp [main, freeBit, Pc.setsRight, Pc.setsLeft]
  high i _ := by simp [main]
  marking p := by simp [main, MarkingClear]

theorem Inv.exclusive (inv : Inv s) {q : Fin n} (mine : (s.pc p).inMutex = 1)
    (theirs : (s.pc q).inMutex = 1) : p = q := by
  by_contra distinct
  have both := pair_le_weigh Pc.inMutex s.pc distinct
  have mutex := inv.mutex
  have nonneg := inv.mutex_nonneg
  omega

theorem philosopher_pc (action : philosopher s p = some after) : after.pc = Function.update s.pc p (after.pc p) := by
  cases pc : s.pc p <;>
    simp only [philosopher, pc, Seats.waitFork, Seats.postFork, Seats.goto, Option.map_map, Option.map_eq_some_iff,
      Option.some.injEq, zemWait_eq_some, Function.comp_apply] at action
  case test => split at action <;> cases action <;> simp
  case waitMutex | waitDone | getRight | getLeft =>
    obtain ⟨z, _, rfl⟩ := action
    simp
  all_goals
    subst action
    simp

theorem philosopher_bitmap (action : philosopher s p = some after)
    (outside : (s.pc p).inMutex = 0) : after.forkBitmap = s.forkBitmap := by
  cases pc : s.pc p <;> simp only [pc, Pc.inMutex, one_ne_zero] at outside <;>
    simp only [philosopher, pc, Seats.waitFork, Seats.goto, Option.map_map, Option.map_eq_some_iff,
      Option.some.injEq, zemWait_eq_some, Function.comp_apply] at action
  case waitMutex | waitDone | getRight | getLeft =>
    obtain ⟨z, _, rfl⟩ := action
    rfl
  all_goals
    subst action
    rfl

theorem philosopher_mutex (action : philosopher s p = some after) (nonneg : 0 ≤ s.mutex.value) :
    after.mutex.value + (after.pc p).inMutex = s.mutex.value + (s.pc p).inMutex ∧
      0 ≤ after.mutex.value := by
  cases pc : s.pc p <;>
    simp only [philosopher, pc, Seats.waitFork, Seats.postFork, Seats.goto, Option.map_map, Option.map_eq_some_iff,
      Option.some.injEq, zemWait_eq_some, Function.comp_apply] at action
  case test => split at action <;> cases action <;> simp [Pc.inMutex, nonneg]
  case waitMutex | waitDone =>
    obtain ⟨z, ⟨positive, value⟩, rfl⟩ := action
    simp only [Function.update_self, Pc.inMutex]
    omega
  case getRight | getLeft =>
    obtain ⟨z, _, rfl⟩ := action
    simp [Pc.inMutex, nonneg]
  all_goals
    subst action
    simp only [Function.update_self, Pc.inMutex, zemPost_value, true_and]
    omega

theorem freeBit_or (max : n ≤ 32) (bitmap : BitVec 32) (f g : Fin n) :
    freeBit (bitmap ||| bit f) g = if g = f then 0 else freeBit bitmap g := by
  unfold freeBit
  rw [getLsbD_or_bit max]
  by_cases same : g = f
  · simp [same]
  · simp [same, Fin.val_inj]

theorem freeBit_xor (max : n ≤ 32) (set : bitmap.getLsbD f = true)
    (g : Fin n) : freeBit (bitmap ^^^ bit f) g = if g = f then 1 else freeBit bitmap g := by
  unfold freeBit
  rw [getLsbD_xor_bit max set]
  by_cases same : g = f
  · simp [same]
  · simp [same, Fin.val_inj]

theorem freeBit_eq_zero : freeBit bitmap f = 0 ↔ bitmap.getLsbD f = true := by
  unfold freeBit
  split <;> simp_all

theorem freeBit_eq_one : freeBit bitmap f = 1 ↔ bitmap.getLsbD f = false := by
  unfold freeBit
  split <;> simp_all

theorem Inv.right_set (inv : Inv s) (sets : (s.pc p).setsRight = 1) : s.forkBitmap.getLsbD (right p) = true := by
  have fork := inv.bits p
  exact freeBit_eq_zero.mp (by omega)

theorem Inv.left_set (inv : Inv s) (sets : (s.pc p).setsLeft = 1) : s.forkBitmap.getLsbD (left p) = true := by
  obtain ⟨q, rfl⟩ := Finite.surjective_of_injective right_injective p
  have fork := inv.bits q
  exact freeBit_eq_zero.mp (by simp only [left]; omega)

theorem philosopher_bits (two : 2 ≤ n) (max : n ≤ 32) (inv : Inv s) (action : philosopher s p = some after) :
    Accounted Pc.setsRight Pc.setsLeft (freeBit after.forkBitmap) after.pc := by
  have clear := inv.marking p
  cases pc : s.pc p <;> rw [pc] at clear <;>
    simp only [philosopher, pc, Seats.waitFork, Seats.postFork, Seats.goto, Option.map_map, Option.map_eq_some_iff,
      Option.some.injEq, zemWait_eq_some, Function.comp_apply] at action
  case test =>
    split at action <;> cases action <;>
      exact inv.bits.kept_step two (by simp [pc, Pc.setsRight]) (by simp [pc, Pc.setsLeft])
  case markRight =>
    subst action
    refine inv.bits.right_step two (fun f other => ?_) (freeBit_nonneg _ _) ?_ (by simp [pc, Pc.setsLeft])
    · simp [freeBit_or max, other]
    · have free : freeBit s.forkBitmap (right p) = 1 := freeBit_eq_one.mpr clear.1
      simp [freeBit_or max, free, pc, Pc.setsRight]
  case markLeft =>
    subst action
    have free : freeBit s.forkBitmap (left p) = 1 := freeBit_eq_one.mpr clear
    refine inv.bits.left_step two (fun f other => ?_) (freeBit_nonneg _ _) ?_ (by simp [pc, Pc.setsRight])
    · simp [freeBit_or max, other]
    · simp [freeBit_or max, free, pc, Pc.setsLeft]
  case clearRight =>
    subst action
    have set := inv.right_set (p := p) (by simp [pc, Pc.setsRight])
    refine inv.bits.right_step two (fun f other => ?_) (freeBit_nonneg _ _) ?_ (by simp [pc, Pc.setsLeft])
    · simp [freeBit_xor max set, other]
    · simp [freeBit_xor max set, freeBit_eq_zero.mpr set, pc, Pc.setsRight]
  case clearLeft =>
    subst action
    have set := inv.left_set (p := p) (by simp [pc, Pc.setsLeft])
    refine inv.bits.left_step two (fun f other => ?_) (freeBit_nonneg _ _) ?_ (by simp [pc, Pc.setsRight])
    · simp [freeBit_xor max set, other]
    · simp [freeBit_xor max set, freeBit_eq_zero.mpr set, pc, Pc.setsLeft]
  case waitMutex | waitDone | getRight | getLeft =>
    obtain ⟨z, _, rfl⟩ := action
    exact inv.bits.kept_step two (by simp [pc, Pc.setsRight]) (by simp [pc, Pc.setsLeft])
  all_goals
    subst action
    exact inv.bits.kept_step two (by simp [pc, Pc.setsRight]) (by simp [pc, Pc.setsLeft])

theorem philosopher_other_bits (max : n ≤ 32)
    (action : philosopher s p = some after) {i : ℕ} (notRight : i ≠ right p) (notLeft : i ≠ left p) :
    after.forkBitmap.getLsbD i = s.forkBitmap.getLsbD i := by
  cases pc : s.pc p <;>
    simp only [philosopher, pc, Seats.waitFork, Seats.postFork, Seats.goto, Option.map_map, Option.map_eq_some_iff,
      Option.some.injEq, zemWait_eq_some, Function.comp_apply] at action
  case test => split at action <;> cases action <;> rfl
  case waitMutex | waitDone | getRight | getLeft =>
    obtain ⟨z, _, rfl⟩ := action
    rfl
  all_goals
    subst action
    simp [getLsbD_bit max, notRight, notLeft]

theorem philosopher_marking (two : 2 ≤ n) (max : n ≤ 32) (inv : Inv s)
    (action : philosopher s p = some after) : MarkingClear after.forkBitmap p (after.pc p) := by
  have clear := inv.marking p
  cases pc : s.pc p <;> rw [pc] at clear <;>
    simp only [philosopher, pc, Seats.waitFork, Seats.postFork, Seats.goto, Option.map_map, Option.map_eq_some_iff,
      Option.some.injEq, zemWait_eq_some, Function.comp_apply] at action
  case test =>
    split at action
    · next free =>
      cases action
      simpa [MarkingClear, available_iff max] using free
    · cases action
      simp [MarkingClear]
  case markRight =>
    subst action
    have distinct : (left p).val ≠ (right p).val := fun equal => right_ne two p (Fin.ext equal.symm)
    simpa [MarkingClear, getLsbD_bit max, distinct] using clear.2
  case waitMutex | waitDone | getRight | getLeft =>
    obtain ⟨z, _, rfl⟩ := action
    simp [MarkingClear]
  all_goals
    subst action
    simp [MarkingClear]

theorem philosopher_inv (two : 2 ≤ n) (max : n ≤ 32) (inv : Inv s)
    (action : philosopher s p = some after) : Inv after := by
  have moved := philosopher_pc action
  obtain ⟨balance, nonneg⟩ := philosopher_mutex action inv.mutex_nonneg
  refine ⟨?_, nonneg, philosopher_bits two max inv action, ?_, ?_⟩
  · have recount := weigh_update Pc.inMutex s.pc p (after.pc p)
    have mutex := inv.mutex
    rw [moved]
    omega
  · intro i high
    rw [philosopher_other_bits max action (by omega) (by omega)]
    exact inv.high i high
  · intro q
    by_cases same : q = p
    · subst same
      exact philosopher_marking two max inv action
    · have clear := inv.marking q
      have unmoved : after.pc q = s.pc q := by rw [moved, Function.update_of_ne same]
      rw [unmoved]
      by_cases outside : (s.pc p).inMutex = 0
      · rwa [philosopher_bitmap action outside]
      · -- The mover is inside `mutex`, so `q` is not about to mark anything.
        have inside : (s.pc p).inMutex = 1 := by
          revert outside
          cases s.pc p <;> simp [Pc.inMutex]
        cases pc : s.pc q <;> try exact trivial
        all_goals exact absurd (inv.exclusive (by rw [pc]; rfl) inside) same

theorem reachable_inv (two : 2 ≤ n) (max : n ≤ 32) {malloc : Fin n → BitVec 32}
    (reachable : (system n malloc).Reachable s) : Inv s :=
  reachable.invariant Inv (main_inv n malloc) fun _ _ _ _ inv action =>
    philosopher_inv two max inv action

/-! ## Agreement and exclusion -/

def Marked (s : State n) (p : Fin n) : Prop :=
  s.pc p ∈ [.statistics, .postMarked, .getRight, .getLeft, .eat, .waitDone, .putRight, .putLeft, .clearRight]

/-- Both fork semaphores are held: from the return of `get_forks` to the first post of `put_forks`. -/
def Eating (s : State n) (p : Fin n) : Prop := s.pc p ∈ [.eat, .waitDone, .putRight]

def MutexFree (s : State n) : Prop := s.mutex.value = 1

def Uses (p : Fin n) (f : ℕ) : Prop := f = left p ∨ f = right p

instance (p : Fin n) (f : ℕ) : Decidable (Uses p f) := inferInstanceAs (Decidable (_ ∨ _))

def OthersStep (p : Fin n) (s after : State n) : Prop := ∃ q, q ≠ p ∧ philosopher s q = some after

theorem marked_iff : Marked s p ↔ (s.pc p).setsRight = 1 ∧ (s.pc p).setsLeft = 1 := by
  unfold Marked
  cases s.pc p <;> simp [Pc.setsRight, Pc.setsLeft]

theorem Eating.marked (eating : Eating s p) : Marked s p := by
  unfold Eating at eating
  unfold Marked
  cases pc : s.pc p <;> simp_all

theorem Inv.outside_of_free (inv : Inv s) (free : MutexFree s) (p : Fin n) : (s.pc p).inMutex = 0 := by
  have mine := le_weigh Pc.inMutex s.pc p
  have mutex := inv.mutex
  unfold MutexFree at free
  omega

theorem marked_of_sets (outside : (s.pc p).inMutex = 0)
    (sets : (s.pc p).setsRight ≠ 0 ∨ (s.pc p).setsLeft ≠ 0) : Marked s p := by
  unfold Marked
  cases pc : s.pc p <;> simp_all [Pc.inMutex, Pc.setsRight, Pc.setsLeft]

theorem Inv.marked_unique (inv : Inv s) {q : Fin n} {f : ℕ} (mine : Marked s p)
    (theirs : Marked s q) (usesP : Uses p f) (usesQ : Uses q f) : p = q := by
  obtain ⟨mineRight, mineLeft⟩ := marked_iff.mp mine
  obtain ⟨theirsRight, theirsLeft⟩ := marked_iff.mp theirs
  rcases usesP with usesP | usesP <;> rcases usesQ with usesQ | usesQ <;>
    have equal := Fin.ext (usesP.symm.trans usesQ)
  · exact equal
  · have empty := inv.bits.not_both theirsRight
    rw [← equal, left] at empty
    omega
  · have empty := inv.bits.not_both mineRight
    rw [equal, left] at empty
    omega
  · exact right_injective equal

theorem Inv.exists_marked (inv : Inv s) (free : MutexFree s) {f : ℕ}
    (set : s.forkBitmap.getLsbD f = true) : ∃ p, Uses p f ∧ Marked s p := by
  have small : f < n := by
    by_contra high
    rw [inv.high f (by omega)] at set
    cases set
  obtain ⟨p, rfl⟩ : ∃ p : Fin n, f = right p := by
    obtain ⟨p, equal⟩ := Finite.surjective_of_injective right_injective (⟨f, small⟩ : Fin n)
    exact ⟨p, by rw [equal]⟩
  have fork := (inv.bits p).2
  rw [freeBit_eq_zero.mpr set] at fork
  by_cases mine : (s.pc p).setsRight = 0
  · exact ⟨right p, .inl rfl, marked_of_sets (inv.outside_of_free free _) (.inr (by omega))⟩
  · exact ⟨p, .inr rfl, marked_of_sets (inv.outside_of_free free _) (.inl mine)⟩

theorem Inv.bit_of_marked (inv : Inv s) {f : ℕ} (uses : Uses p f)
    (marked : Marked s p) : s.forkBitmap.getLsbD f = true := by
  obtain ⟨setsRight, setsLeft⟩ := marked_iff.mp marked
  rcases uses with rfl | rfl
  · exact inv.left_set setsLeft
  · exact inv.right_set setsRight

theorem Inv.bit_iff (inv : Inv s) (free : MutexFree s) (f : ℕ) :
    s.forkBitmap.getLsbD f = true ↔ ∃! p, Uses p f ∧ Marked s p := by
  constructor
  · intro set
    obtain ⟨p, uses, marked⟩ := inv.exists_marked free set
    exact ⟨p, ⟨uses, marked⟩, fun q other => inv.marked_unique other.2 marked other.1 uses⟩
  · rintro ⟨p, ⟨uses, marked⟩, _⟩
    exact inv.bit_of_marked uses marked

theorem Inv.clear_iff (inv : Inv s) (free : MutexFree s) (f : ℕ) :
    s.forkBitmap.getLsbD f = false ↔ ∀ p, ¬ (Uses p f ∧ Marked s p) := by
  constructor
  · rintro clear p ⟨uses, marked⟩
    rw [inv.bit_of_marked uses marked] at clear
    cases clear
  · intro nobody
    by_contra set
    obtain ⟨p, held⟩ := inv.exists_marked free (by simpa using set)
    exact nobody p held

theorem Inv.neighbours_not_eating (two : 2 ≤ n) (inv : Inv s) (p : Fin n) : ¬ (Eating s p ∧ Eating s (right p)) := by
  rintro ⟨mine, theirs⟩
  exact right_ne two p (inv.marked_unique theirs.marked mine.marked (.inl rfl) (.inr rfl))

theorem others_run_frame (two : 2 ≤ n) (max : n ≤ 32) {t : State n} (inv : Inv s)
    (inside : (s.pc p).inMutex = 1) (others : Relation.ReflTransGen (OthersStep p) s t) :
    Inv t ∧ t.pc p = s.pc p ∧ t.forkBitmap = s.forkBitmap := by
  induction others with
  | refl => exact ⟨inv, rfl, rfl⟩
  | @tail before after _ step ih =>
    obtain ⟨held, pc, bitmap⟩ := ih
    obtain ⟨q, distinct, action⟩ := step
    refine ⟨philosopher_inv two max held action, ?_, ?_⟩
    · rw [philosopher_pc action, Function.update_of_ne distinct.symm, pc]
    · rw [← bitmap]
      apply philosopher_bitmap action
      by_contra busy
      apply distinct
      apply held.exclusive _ (by rw [pc]; exact inside)
      revert busy
      cases before.pc q <;> simp [Pc.inMutex]

theorem meal_end_clears (two : 2 ≤ n) (max : n ≤ 32) {middle t : State n} (inv : Inv s)
    (finished : s.pc p = .clearRight) (first : philosopher s p = some middle)
    (others : Relation.ReflTransGen (OthersStep p) middle t) (second : philosopher t p = some after) :
    s.forkBitmap.getLsbD (left p) = true ∧ s.forkBitmap.getLsbD (right p) = true ∧
      ∀ f, after.forkBitmap.getLsbD f = (s.forkBitmap.getLsbD f && decide (¬ Uses p f)) := by
  have setRight := inv.right_set (p := p) (by simp [finished, Pc.setsRight])
  have setLeft := inv.left_set (p := p) (by simp [finished, Pc.setsLeft])
  have middleInv := philosopher_inv two max inv first
  simp only [philosopher, finished, Seats.goto, Option.some.injEq] at first
  have pc : middle.pc p = .clearLeft := by simp [← first]
  obtain ⟨tInv, tPc, tBitmap⟩ := others_run_frame two max middleInv (by simp [pc, Pc.inMutex]) others
  have stillSet := tInv.left_set (p := p) (by simp [tPc, pc, Pc.setsLeft])
  simp only [philosopher, tPc, pc, Seats.goto, Option.some.injEq] at second
  refine ⟨setLeft, setRight, fun f => ?_⟩
  rw [← second]
  simp only
  rw [getLsbD_xor_bit max stillSet, tBitmap, ← first]
  simp only
  rw [getLsbD_xor_bit max setRight, Bool.and_assoc]
  congr 1
  by_cases atLeft : f = left p <;> by_cases atRight : f = right p <;> simp [Uses, atLeft, atRight]

theorem bitmap_exclusion (two : 2 ≤ n) (max : n ≤ 32) (malloc : Fin n → BitVec 32) (s : State n)
    (reachable : (system n malloc).Reachable s) :
    (MutexFree s → ∀ f < 32,
      (s.forkBitmap.getLsbD f = true ↔ ∃! p, Uses p f ∧ Marked s p) ∧
      (s.forkBitmap.getLsbD f = false ↔ ∀ p, ¬ (Uses p f ∧ Marked s p))) ∧
    (∀ p middle t after, s.pc p = .clearRight → philosopher s p = some middle →
      Relation.ReflTransGen (OthersStep p) middle t → philosopher t p = some after →
      s.forkBitmap.getLsbD (left p) = true ∧ s.forkBitmap.getLsbD (right p) = true ∧
        ∀ f, after.forkBitmap.getLsbD f = (s.forkBitmap.getLsbD f && decide (¬ Uses p f))) ∧
    ∀ p, ¬ (Eating s p ∧ Eating s (right p)) := by
  have inv := reachable_inv two max reachable
  refine ⟨fun free f _ => ⟨inv.bit_iff free f, inv.clear_iff free f⟩, ?_, inv.neighbours_not_eating two⟩
  intro p middle t after finished first others second
  exact meal_end_clears two max inv finished first others second

def lastMarks : List (Fin 32) := List.replicate 6 31

theorem bitmap_exclusion_lastMarks :
    ∃ s, (system 32 fun _ => 0).run (main 32 fun _ => 0) lastMarks = some s ∧ MutexFree s ∧
      s.forkBitmap.getLsbD 31 = true ∧ (∃! p, Uses p 31 ∧ Marked s p) ∧
      ∀ p, ¬ (Eating s p ∧ Eating s (right p)) := by
  obtain ⟨s, result⟩ : ∃ s, (system 32 fun _ => 0).run (main 32 fun _ => 0) lastMarks = some s := ⟨_, rfl⟩
  have facts : MutexFree s ∧ s.forkBitmap.getLsbD 31 = true := by
    cases result
    exact ⟨rfl, rfl⟩
  have exclusion := bitmap_exclusion (by decide) (by decide) (fun _ => 0) s
    (System.Reachable.run .initial result)
  exact ⟨s, result, facts.1, facts.2, ((exclusion.1 facts.1 31 (by decide)).1).mp facts.2, exclusion.2.2⟩

end OsProjects.Dining.Bitmap
