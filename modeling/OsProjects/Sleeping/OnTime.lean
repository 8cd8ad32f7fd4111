import Mathlib.Algebra.Group.Nat.Defs
import Mathlib.Algebra.Order.Group.Int
import Mathlib.Data.Int.Notation
import Mathlib.Order.Lattice
import OsProjects.Transition.Monitor

namespace OsProjects.Sleeping
open Transition

/-! ## Processes in `sys_sleep` and the clock -/

/-- A call `sys_sleep(n)` and the value of `ticks` it has read; `n` is an int. -/
structure Call where
  n : BitVec 32
  ticks0 : BitVec 32
  deriving DecidableEq

/-- Outside, with the argument and the value of the last call; in `sys_sleep` before it reads `ticks`, at the test of its
loop and in the body; or the clock, before `clockintr` and at its end. -/
inductive Place
  | user (last : Option (BitVec 32 × ℤ))
  | enter (n : BitVec 32) | test (c : Call) | body (c : Call)
  | clock | ticked
  deriving DecidableEq

/-- What `tickslock` protects, and `p->killed`. Of the history of a run, `elapsed` are the increments of `ticks` since a
process has read it in its last call, and `seen` those before each test of the condition in that call. -/
structure Shared (P : Type) where
  ticks : BitVec 32
  killed : P → Bool
  elapsed : P → ℕ
  seen : P → List ℕ

variable {P : Type} [DecidableEq P]

/-- The condition of the loop: the int is converted to unsigned. -/
def Call.waits (c : Call) (ticks : BitVec 32) : Bool := ticks - c.ticks0 < c.n

def Shared.read (s : Shared P) (p : P) : Shared P :=
  { s with elapsed := Function.update s.elapsed p 0, seen := Function.update s.seen p [] }

def Shared.look (s : Shared P) (p : P) : Shared P := { s with seen := Function.update s.seen p (s.seen p ++ [s.elapsed p]) }

def Shared.tick (s : Shared P) : Shared P := { s with ticks := s.ticks + 1, elapsed := fun p => s.elapsed p + 1 }

def sysSleep (p : P) (s : Shared P) : Place → Turn (Shared P) Unit Place
  | .enter n => .stay (s.read p) (.test ⟨n, s.ticks⟩)
  | .test c => if c.waits s.ticks then .stay (s.look p) (.body c) else .leave (s.look p) (.user (some (c.n, 0)))
  | .body c => if s.killed p then .leave s (.user (some (c.n, -1))) else .wait ()
  | l => .leave s l

/-- `tickslock` is the shared lock. The test comes again when `sleep` has returned, and a `kill` may come at any time. -/
def code : Monitor P (Shared P) Unit Place (BitVec 32) P where
  enter
    | .user _, n => .enter n
    | .body c, _ => .test c
    | l, _ => l
  turn p l s := match l with
    | .clock => .wake s.tick () .ticked
    | .ticked => .leave s .clock
    | l => sysSleep p s l
  device q s := some { s with killed := Function.update s.killed q true }

def system (procs : List P) (clock : P → Bool) (ticks : BitVec 32) :=
  (code (P := P)).system procs ⟨ticks, fun _ => false, fun _ => 0, fun _ => []⟩ fun p => if clock p then .clock else .user none

/-! ## The condition of the loop -/

def Early (n : BitVec 32) (seen : List ℕ) : Prop := ∀ k ∈ seen, (k : ℤ) < max n.toInt 0

def OnTime (n : BitVec 32) (seen : List ℕ) : Prop :=
  ∃ (earlier : List ℕ) (k : ℕ), seen = earlier ++ [k] ∧ max n.toInt 0 ≤ (k : ℤ) ∧ Early n earlier

theorem waits_iff {c : Call} {ticks : BitVec 32} {k : ℕ} (nonneg : 0 ≤ c.n.toInt) (counted : ticks = c.ticks0 + BitVec.ofNat 32 k)
    (less : k < 2 ^ 32) : c.waits ticks = true ↔ (k : ℤ) < max c.n.toInt 0 := by
  have elapsed : ticks - c.ticks0 = BitVec.ofNat 32 k := by rw [counted, BitVec.add_comm, BitVec.add_sub_cancel]
  have value : c.n.toInt = c.n.toNat := by
    rw [BitVec.toInt_eq_toNat_cond] at nonneg ⊢
    have bound := c.n.isLt
    split at nonneg
    · simp_all
    · omega
  rw [Call.waits, elapsed, decide_eq_true_iff, BitVec.lt_def, BitVec.toNat_ofNat, Nat.mod_eq_of_lt less, max_eq_left nonneg, value,
    Int.ofNat_lt]

/-! ## What a process in a call has seen -/

/-- The argument is not negative, and no test came after `ticks` had gone round since the call read it. -/
def Prompt (n : BitVec 32) (seen : List ℕ) : Prop := 0 ≤ n.toInt ∧ ∀ k ∈ seen, k < 2 ^ 32

def Timed (s : Shared P) (p : P) : Place → Prop
  | .user (some (n, ret)) => Prompt n (s.seen p) → ret = 0 ∧ OnTime n (s.seen p) ∨ s.killed p = true
  | .test c => s.ticks = c.ticks0 + BitVec.ofNat 32 (s.elapsed p) ∧ (Prompt c.n (s.seen p) → Early c.n (s.seen p))
  | .body c => s.ticks = c.ticks0 + BitVec.ofNat 32 (s.elapsed p) ∧ s.seen p ≠ [] ∧ (Prompt c.n (s.seen p) → Early c.n (s.seen p))
  | _ => True

variable {s s' : Shared P} {p q : P} {l : Place} {c : Call}

omit [DecidableEq P] in
theorem Timed.congr (timed : Timed s p l) (ticks : s'.ticks = s.ticks) (elapsed : s'.elapsed p = s.elapsed p)
    (seen : s'.seen p = s.seen p) (killed : s.killed p = true → s'.killed p = true) : Timed s' p l := by
  cases l with
  | user last =>
    cases last with
    | none => trivial
    | some result =>
      intro prompt
      rw [seen] at prompt ⊢
      exact (timed prompt).imp id killed
  | test c => rwa [Timed, ticks, elapsed, seen]
  | body c => rwa [Timed, ticks, elapsed, seen]
  | _ => trivial

omit [DecidableEq P] in
theorem Timed.tick (timed : Timed s p l) : Timed s.tick p l := by
  have next {c : Call} (counted : s.ticks = c.ticks0 + BitVec.ofNat 32 (s.elapsed p)) :
      s.tick.ticks = c.ticks0 + BitVec.ofNat 32 (s.tick.elapsed p) := by
    change s.ticks + 1 = c.ticks0 + BitVec.ofNat 32 (s.elapsed p + 1)
    rw [counted, BitVec.ofNat_add, BitVec.add_assoc]
    rfl
  cases l with
  | test c => exact ⟨next timed.1, timed.2⟩
  | body c => exact ⟨next timed.1, timed.2⟩
  | user last => cases last <;> exact timed
  | _ => trivial

/-- A test sees the increments so far, and goes on waiting as long as they are too few. -/
theorem Timed.look (timed : Timed s p (.test c)) (prompt : Prompt c.n ((s.look p).seen p)) :
    (c.waits s.ticks = true → Early c.n ((s.look p).seen p)) ∧ (c.waits s.ticks ≠ true → OnTime c.n ((s.look p).seen p)) := by
  have seen : (s.look p).seen p = s.seen p ++ [s.elapsed p] := Function.update_self _ _ _
  rw [seen] at prompt ⊢
  obtain ⟨nonneg, fresh⟩ := prompt
  have outcome := waits_iff nonneg timed.1 (fresh _ (by simp))
  have early := timed.2 ⟨nonneg, fun k member => fresh k (List.mem_append.mpr (.inl member))⟩
  refine ⟨fun waits k member => ?_, fun returns => ⟨_, _, rfl, not_lt.mp (mt outcome.mpr returns), early⟩⟩
  rcases List.mem_append.mp member with before | now
  · exact early k before
  · rw [List.mem_singleton.mp now]
    exact outcome.mp waits

theorem sysSleep_timed {next : Place} (timed : Timed s p l) (turn : (sysSleep p s l).result = some (s', next)) :
    Timed s' p next ∧ (s' = s ∨ s' = s.read p ∨ s' = s.look p) := by
  cases l with
  | enter n =>
    obtain ⟨rfl, rfl⟩ := Prod.mk.inj (Option.some.inj turn)
    refine ⟨⟨?_, fun _ k member => ?_⟩, .inr (.inl rfl)⟩
    · simp [Shared.read]
    · simp [Shared.read] at member
  | test c =>
    by_cases waits : c.waits s.ticks = true
    · simp only [sysSleep, if_pos waits] at turn
      obtain ⟨rfl, rfl⟩ := Prod.mk.inj (Option.some.inj turn)
      exact ⟨⟨timed.1, by simp [Shared.look], fun prompt => (timed.look prompt).1 waits⟩, .inr (.inr rfl)⟩
    · simp only [sysSleep, if_neg waits] at turn
      obtain ⟨rfl, rfl⟩ := Prod.mk.inj (Option.some.inj turn)
      exact ⟨fun prompt => .inl ⟨rfl, (timed.look prompt).2 waits⟩, .inr (.inr rfl)⟩
  | body c =>
    by_cases killed : s.killed p = true
    · simp only [sysSleep, if_pos killed] at turn
      obtain ⟨rfl, rfl⟩ := Prod.mk.inj (Option.some.inj turn)
      exact ⟨fun _ => .inr killed, .inl rfl⟩
    · simp [sysSleep, killed, Turn.result] at turn
  | _ =>
    obtain ⟨rfl, rfl⟩ := Prod.mk.inj (Option.some.inj turn)
    exact ⟨timed, .inl rfl⟩

theorem turn_timed {next : Place} {loc : P → Place} (timed : ∀ p, Timed s p (loc p))
    (turn : (code.turn p (loc p) s).result = some (s', next)) (q : P) : Timed s' q (Function.update loc p next q) := by
  have others (moved : Timed s' p next) (kept : q ≠ p → Timed s' q (loc q)) : Timed s' q (Function.update loc p next q) := by
    by_cases same : q = p
    · subst same
      rwa [Function.update_self]
    · rw [Function.update_of_ne same]
      exact kept same
  by_cases clock : loc p = .clock ∨ loc p = .ticked
  · rcases clock with here | here <;> simp [code, here, Turn.result] at turn <;> obtain ⟨rfl, rfl⟩ := turn
    · exact others trivial fun _ => (timed q).tick
    · exact others trivial fun _ => timed q
  · have sleeps : code.turn p (loc p) s = sysSleep p s (loc p) := by
      rw [not_or] at clock
      cases here : loc p <;> simp_all [code]
    rw [sleeps] at turn
    obtain ⟨moved, kept⟩ := sysSleep_timed (timed p) turn
    refine others moved fun other => ?_
    rcases kept with rfl | rfl | rfl
    · exact timed q
    · exact (timed q).congr rfl (Function.update_of_ne other _ _) (Function.update_of_ne other _ _) id
    · exact (timed q).congr rfl rfl (Function.update_of_ne other _ _) id

theorem code_obeys : (code (P := P)).Obeys (fun _ _ => True) fun _ => False where
  waits _ := ⟨trivial, id⟩
  stays _ _ _ := trivial
  wakes _ _ _ _ := trivial
  leaves _ := ⟨fun _ _ => trivial, id⟩
  moves _ _ _ := trivial

variable {procs : List P} {clock : P → Bool} {ticks : BitVec 32} {t : Monitor.State P (Shared P) Unit Place}

theorem reachable_timed (complete : ∀ q, q ∈ procs) (reachable : (system procs clock ticks).Reachable t) (p : P) :
    Timed t.shared p (t.pc p).loc := by
  refine Monitor.reachable_shared code_obeys complete (fun s loc => ∀ p, Timed s p (loc p)) (fun _ => id) (fun p => ?_) ?_
    (fun timed _ turn q => turn_timed timed turn q) ?_ reachable p
  · split <;> trivial
  · intro s loc p input timed q
    by_cases same : q = p
    · subst same
      rw [Function.update_self]
      have before := timed q
      cases here : loc q with
      | body c =>
        rw [here] at before
        exact ⟨before.1, before.2.2⟩
      | user last => trivial
      | _ => rwa [here] at before
    · rw [Function.update_of_ne same]
      exact timed q
  · intro s loc d s' timed killed q
    obtain rfl := Option.some.inj killed
    refine (timed q).congr rfl rfl rfl fun before => ?_
    by_cases same : q = d
    · rw [same]
      exact Function.update_self ..
    · exact (Function.update_of_ne same ..).trans before

/-- A process that has not been killed, whose argument is not negative and whose tests come before `ticks` has gone round,
returns 0 at its first test after the time it has asked for and not before. One that waits with a negative argument has
missed its time. -/
theorem sleep_returns_on_time (procs : List P) (complete : ∀ q, q ∈ procs) (clock : P → Bool) (ticks : BitVec 32)
    {t : Monitor.State P (Shared P) Unit Place} (reachable : (system procs clock ticks).Reachable t) (p : P)
    (unkilled : t.shared.killed p = false) (fresh : ∀ k ∈ t.shared.seen p, k < 2 ^ 32) :
    (∀ c, (t.pc p).loc = .body c → (Early c.n (t.shared.seen p) ↔ 0 ≤ c.n.toInt)) ∧
      (∀ c input, t.pc p = .inside (.test c) → 0 ≤ c.n.toInt → t.shared.elapsed p < 2 ^ 32 → max c.n.toInt 0 ≤ t.shared.elapsed p →
        ∃ t', (system procs clock ticks).step t (.thread p input) = some t' ∧ t'.pc p = .out (.user (some (c.n, 0)))) ∧
      ∀ n ret, (t.pc p).loc = .user (some (n, ret)) → 0 ≤ n.toInt → ret = 0 ∧ OnTime n (t.shared.seen p) := by
  have timed := reachable_timed complete reachable p
  refine ⟨fun c here => ?_, fun c input here nonneg less enough => ?_, fun n ret here nonneg => ?_⟩
  · rw [here] at timed
    refine ⟨fun early => ?_, fun nonneg => timed.2.2 ⟨nonneg, fresh⟩⟩
    obtain ⟨k, member⟩ := List.exists_mem_of_ne_nil _ timed.2.1
    have less := early k member
    by_contra negative
    omega
  · have held := (Monitor.reachable_inv code_obeys complete (fun _ => id) reachable).locks
    have mine : t.lock .shared = some p := (held .shared p).mpr (show (t.pc p).held p .shared by rw [here]; rfl)
    rw [here] at timed
    have expired : c.waits t.shared.ticks ≠ true := mt (waits_iff nonneg timed.1 less).mp (not_lt.mpr enough)
    have runs : Monitor.code code procs t p input = some ⟨.release .shared, t.shared.look p, t.sleeping, .out (.user (some (c.n, 0)))⟩ := by
      simp [Monitor.code, here, code, sysSleep, expired]
    refine ⟨⟨Function.update t.lock .shared none, t.shared.look p, t.sleeping, Function.update t.pc p (.out (.user (some (c.n, 0))))⟩, ?_,
      Function.update_self ..⟩
    simp [system, Monitor.system, Monitor.step, runs, LockOp.apply, mine]
  · rw [here] at timed
    exact (timed ⟨nonneg, fresh⟩).resolve_right (by simp [unkilled])

/-- The clock is `true` and the process `false`. -/
def sleepsOneTick : List (Monitor.Label Bool (BitVec 32) Bool) :=
  List.replicate 8 (.thread false 1) ++ List.replicate 5 (.thread true 0) ++ List.replicate 4 (.thread false 0)

theorem sleep_returns_on_time_oneTick : ∃ t, (system [false, true] id 0xffffffff).Reachable t ∧
    (t.pc false).loc = .user (some (1, 0)) ∧ t.shared.seen false = [0, 1] ∧ OnTime 1 (t.shared.seen false) := by
  have checked : ((system [false, true] id 0xffffffff).run (system [false, true] id 0xffffffff).initial sleepsOneTick).map
      (fun t => ((t.pc false).loc, t.shared.seen false, t.shared.killed false)) = some (.user (some (1, 0)), [0, 1], false) := by decide +kernel
  obtain ⟨t, ran, values⟩ := Option.map_eq_some_iff.mp checked
  obtain ⟨pc, rest⟩ := Prod.mk.inj values
  obtain ⟨seen, unkilled⟩ := Prod.mk.inj rest
  have reachable := System.Reachable.run .initial ran
  refine ⟨t, reachable, pc, seen, ?_⟩
  have right := sleep_returns_on_time [false, true] (by decide) id 0xffffffff reachable false unkilled (by rw [seen]; decide)
  exact (right.2.2 1 0 pc (by decide)).2

/-- A call with a negative argument goes to sleep, though the time asked for is over at its first test. -/
theorem negative_sleep_waits : ∃ t, (system [()] (fun _ => false) 0).Reachable t ∧ t.sleeping () = some () ∧
    (t.pc ()).loc = .body ⟨-1, 0⟩ ∧ t.shared.seen () = [0] ∧ t.shared.killed () = false ∧ ¬ Early (-1) (t.shared.seen ()) := by
  have checked : ((system [()] (fun _ => false) 0).run (system [()] (fun _ => false) 0).initial
      (List.replicate 8 (.thread () (-1)))).map (fun t => (t.sleeping (), (t.pc ()).loc, t.shared.seen (), t.shared.killed ())) =
        some (some (), .body ⟨-1, 0⟩, [0], false) := by decide +kernel
  obtain ⟨t, ran, values⟩ := Option.map_eq_some_iff.mp checked
  obtain ⟨sleeps, rest⟩ := Prod.mk.inj values
  obtain ⟨pc, rest⟩ := Prod.mk.inj rest
  obtain ⟨seen, unkilled⟩ := Prod.mk.inj rest
  refine ⟨t, System.Reachable.run .initial ran, sleeps, pc, seen, unkilled, fun early => ?_⟩
  exact absurd (early 0 (by simp [seen])) (by decide)

end OsProjects.Sleeping
