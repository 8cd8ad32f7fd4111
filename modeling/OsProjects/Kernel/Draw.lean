import OsProjects.Kernel.Model

namespace OsProjects.Kernel
open Transition

variable {ncpu : ℕ} {i : Slot} {pc : SchedPc}

/-! ## Loops over the table -/

theorem slots_induction {motive : Slot → Prop} (last : ∀ i : Slot, nextSlot i = none → motive i)
    (next : ∀ i j : Slot, nextSlot i = some j → motive j → motive i) (i : Slot) : motive i := by
  cases more : nextSlot i with
  | none => exact last i more
  | some j =>
    have above : i.val < j.val := by
      unfold nextSlot at more
      split at more <;> cases more
      simp
    exact next i j more (slots_induction last next j)
termination_by NPROC - i.val
decreasing_by have := j.isLt; omega

theorem nextSlot_eq_some {j : Slot} (more : nextSlot i = some j) : j.val = i.val + 1 := by
  unfold nextSlot at more
  split at more <;> cases more
  rfl

theorem nextSlot_eq_none (ended : nextSlot i = none) : i.val + 1 = NPROC := by
  unfold nextSlot at ended
  split at ended
  · cases ended
  · have := i.isLt
    omega

def slotsFrom (t : Slot → Proc) (i : ℕ) : List Proc := (List.ofFn t).drop i

theorem slotsFrom_cons (t : Slot → Proc) (i : Slot) : slotsFrom t i = t i :: slotsFrom t (i + 1) := by
  unfold slotsFrom
  rw [List.drop_eq_getElem_cons (by simp), List.getElem_ofFn]

theorem slotsFrom_end (t : Slot → Proc) : slotsFrom t NPROC = [] := by
  simp [slotsFrom]

/-! ## The scheduler alone -/

-- The count after a slot that does not win.
def countSlot (winningTicket countedTickets : ℤ) (p : Proc) : Option ℤ :=
  if p.state = .runnable then
    if int (countedTickets + p.tickets) ≥ winningTicket then none else some (int (countedTickets + p.tickets))
  else some countedTickets

theorem scan_cons (winningTicket countedTickets : ℤ) (p : Proc) (rest : List Proc) :
    scan winningTicket countedTickets (p :: rest) = match countSlot winningTicket countedTickets p with
      | none => some 0
      | some counted => (scan winningTicket counted rest).map (· + 1) := by
  simp only [scan, countSlot]
  split
  · split <;> rfl
  · rfl

def State.withScheduler (s : State ncpu) (c : Fin ncpu) (pc : SchedPc) : State ncpu :=
  { s with scheduler := Function.update s.scheduler c pc }

def State.dispatch (s : State ncpu) (c : Fin ncpu) (p : Slot) : State ncpu :=
  { s with
    proc := Function.update s.proc p
      { s.proc p with ticks := int ((s.proc p).ticks + 1), state := .running }
    lock := Function.update s.lock (.proc p) (some c)
    cpuProc := Function.update s.cpuProc c (some p)
    stack := Function.update s.stack c (some p)
    scheduler := Function.update s.scheduler c (.swtched p)
    log := s.log ++ [.dispatched p (s.proc p).pid] }

def turns (c : Fin ncpu) (o : Oracle) (n : ℕ) : List (Fin ncpu × Input) := List.replicate n (c, .run o)

section
variable {s : State ncpu} {c : Fin ncpu} (o : Oracle) (idle : s.stack c = none)
  (free : ∀ p, s.lock (.proc p) = none) {countedTickets winningTicket : ℤ}
include idle free

-- A slot that is looked at and left behind costs two steps and changes nothing but the scheduler's place.
theorem run_pass {held rest : SchedPc} (n : ℕ)
    (looks : scheduler s.proc o pc = { op := .acquire (.proc i), next := .goto held })
    (leaves : scheduler s.proc o held = { op := .release (.proc i), next := .goto rest }) :
    (system ncpu).run (s.withScheduler c pc) (turns c o (n + 2)) =
      (system ncpu).run (s.withScheduler c rest) (turns c o n) := by
  have unlocked : Function.update s.lock (.proc i) none = s.lock := by
    rw [← free i, Function.update_eq_self]
  simp [turns, List.replicate_succ, System.run, system, step, State.withScheduler, idle, schedulerStep, looks, leaves,
    LockOp.apply, free, State.commit, Effect.table, unlocked]

theorem run_total (i : Slot) (total : ℤ) (n : ℕ) :
    (system ncpu).run (s.withScheduler c (.totalAcquire i total)) (turns c o (n + 2 * (NPROC - i.val))) =
      (system ncpu).run (s.withScheduler c (.scanAcquire 0 0
        (scaledRandom 1 ((slotsFrom s.proc i).foldl addTickets total) o.nextRand))) (turns c o n) := by
  induction i using slots_induction generalizing total with
  | last i ended =>
    have length := nextSlot_eq_none ended
    rw [slotsFrom_cons, length, slotsFrom_end, show n + 2 * (NPROC - i.val) = n + 2 by omega,
      run_pass o idle free n rfl rfl]
    simp [forNext, ended]
  | next i j more ih =>
    have length := nextSlot_eq_some more
    rw [slotsFrom_cons, ← length, show n + 2 * (NPROC - i.val) = n + 2 * (NPROC - j.val) + 2 by omega,
      run_pass o idle free _ rfl rfl]
    simp only [forNext, more, List.foldl_cons]
    exact ih _

theorem run_passed {counted : ℤ} (n : ℕ) (passed : countSlot winningTicket countedTickets (s.proc i) = some counted) :
    (system ncpu).run (s.withScheduler c (.scanAcquire i countedTickets winningTicket)) (turns c o (n + 2)) =
      (system ncpu).run (s.withScheduler c (forNext i (.scanAcquire · counted winningTicket) (.totalAcquire 0 0)))
        (turns c o n) := by
  have looks : scheduler s.proc o (.scanAcquire i countedTickets winningTicket) =
      { op := .acquire (.proc i), next := .goto (.scanRelease i counted winningTicket) } := by
    unfold countSlot at passed
    split at passed
    · split at passed <;> cases passed
      exact (if_pos ‹_›).trans (if_neg ‹_›)
    · cases passed
      exact if_neg ‹_›
  exact run_pass o idle free n looks rfl

theorem run_won (won : countSlot winningTicket countedTickets (s.proc i) = none) :
    (system ncpu).run (s.withScheduler c (.scanAcquire i countedTickets winningTicket)) (turns c o 1) =
      some (s.dispatch c i) := by
  unfold countSlot at won
  split at won
  · split at won <;> cases won
    simp [turns, System.run, system, step, State.withScheduler, schedulerStep, scheduler, *,
      LockOp.apply, State.commit, Effect.table, State.dispatch]
  · cases won

theorem run_scan_some (i : Slot) (countedTickets winningTicket : ℤ) {k : ℕ}
    (won : scan winningTicket countedTickets (slotsFrom s.proc i) = some k) :
    ∃ p : Slot, p.val = i.val + k ∧
      (system ncpu).run (s.withScheduler c (.scanAcquire i countedTickets winningTicket))
        (turns c o (2 * k + 1)) = some (s.dispatch c p) := by
  induction i using slots_induction generalizing countedTickets k with
  | last i ended =>
    rw [slotsFrom_cons, nextSlot_eq_none ended, slotsFrom_end, scan_cons] at won
    cases count : countSlot winningTicket countedTickets (s.proc i) with
    | none =>
      obtain rfl : 0 = k := by simpa [count] using won
      exact ⟨i, rfl, run_won o idle free count⟩
    | some counted => simp [count, scan] at won
  | next i j more ih =>
    have length := nextSlot_eq_some more
    rw [slotsFrom_cons, ← length, scan_cons] at won
    cases count : countSlot winningTicket countedTickets (s.proc i) with
    | none =>
      obtain rfl : 0 = k := by simpa [count] using won
      exact ⟨i, rfl, run_won o idle free count⟩
    | some counted =>
      obtain ⟨k, later, rfl⟩ : ∃ k', scan winningTicket counted (slotsFrom s.proc j) = some k' ∧ k' + 1 = k := by
        simpa [count, Option.map_eq_some_iff] using won
      obtain ⟨p, place, dispatched⟩ := ih counted later
      refine ⟨p, by omega, ?_⟩
      rw [show 2 * (k + 1) + 1 = 2 * k + 1 + 2 by omega, run_passed o idle free _ count]
      simpa only [forNext, more] using dispatched

end

/-! ## The lottery it performs -/

theorem scaledRandom_one {total val : ℤ} (positive : 1 ≤ total) (bound : total ≤ 2 ^ 31 - 1) (nonneg : 0 ≤ val) :
    scaledRandom 1 total val = val % total + 1 := by
  have low := Int.emod_nonneg val (by omega : total ≠ 0)
  have high := Int.emod_lt_of_pos val (by omega : 0 < total)
  have range : int (int (total - 1) + 1) = total := by
    rw [int_eq_self (x := total - 1) (by omega) (by omega), sub_add_cancel, int_eq_self (by omega) bound]
  simp only [scaledRandom, range, Int.tmod_eq_emod_of_nonneg nonneg]
  exact int_eq_self (by omega) (by omega)

section
variable {s : State ncpu} {c : Fin ncpu} (o : Oracle) (idle : s.stack c = none)
  (free : ∀ p, s.lock (.proc p) = none) (start : s.scheduler c = .totalAcquire 0 0)

theorem withScheduler_eq_self (here : s.scheduler c = pc) : s.withScheduler c pc = s := by
  rw [State.withScheduler, ← here, Function.update_eq_self]

include idle free start

theorem scheduler_draws (nonneg : ∀ p, (s.proc p).state = .runnable → 0 ≤ (s.proc p).tickets)
    (random : 0 ≤ o.nextRand) {T : ℤ} (total : (shares (List.ofFn s.proc)).sum = T) (positive : 1 ≤ T) (bound : T ≤ 2 ^ 31 - 1) :
    ∃ p : Slot, Wins (List.ofFn s.proc) (o.nextRand % T + 1) p ∧
      (system ncpu).run s (turns c o (2 * p.val + 1 + 2 * NPROC)) = some (s.dispatch c p) := by
  subst total
  have listed : ∀ p ∈ List.ofFn s.proc, p.state = .runnable → 0 ≤ p.tickets := by
    intro p member
    obtain ⟨i, rfl⟩ := List.mem_ofFn.mp member
    exact nonneg i
  have low := Int.emod_nonneg o.nextRand (by omega : (shares (List.ofFn s.proc)).sum ≠ 0)
  have high := Int.emod_lt_of_pos o.nextRand (by omega : 0 < (shares (List.ofFn s.proc)).sum)
  have within : o.nextRand % (shares (List.ofFn s.proc)).sum + 1 ≤ (shares (List.ofFn s.proc)).sum := by omega
  obtain ⟨k, drawn⟩ := exists_scan listed (by omega) within bound
  have counting := run_total o idle free 0 0
  have ticket := scaledRandom_one positive bound random
  rw [← getTotalTickets_eq listed bound] at ticket drawn ⊢
  obtain ⟨p, place, dispatched⟩ := run_scan_some o idle free 0 0 _ drawn
  obtain rfl : p.val = k := place.trans (zero_add k)
  refine ⟨p, ?_, ?_⟩
  · rw [getTotalTickets_eq listed bound] at drawn ⊢
    exact (scan_eq_some_iff listed (by omega) bound).mp drawn
  · rw [← withScheduler_eq_self start]
    refine (counting (2 * p.val + 1)).trans ?_
    rw [withScheduler_eq_self start, ← dispatched, ← ticket]
    rfl

end

/-- The first process forks, takes three tickets and is put back by the timer. -/
def twoProcesses : List (Fin 1 × Input) :=
  let run (trap : Trap) : ℕ → List (Fin 1 × Input) := turns 0 ⟨trap, true, true, true, true, 0, .done⟩
  run .fork 147 ++ run (.settickets 3) 12 ++ run .timer 8

def fourthTicket : Oracle := ⟨.timer, true, true, true, true, 7, .done⟩

set_option maxRecDepth 10000 in
theorem scheduler_draws_twoProcesses : ∃ s, (system 1).run (userinit 1) twoProcesses = some s ∧
    (shares (List.ofFn s.proc)).sum = 4 ∧ Wins (List.ofFn s.proc) 4 1 ∧
    (system 1).run s (turns 0 fourthTicket (2 * 1 + 1 + 2 * NPROC)) = some (s.dispatch 0 1) := by
  have checked : ((system 1).run (userinit 1) twoProcesses).map (fun s => decide ((s.stack 0 = none ∧
      (∀ p, s.lock (.proc p) = none) ∧ s.scheduler 0 = .totalAcquire 0 0) ∧
      (∀ p, (s.proc p).state = .runnable → 0 ≤ (s.proc p).tickets) ∧
      (shares (List.ofFn s.proc)).sum = 4 ∧ scan 4 0 (List.ofFn s.proc) = some 1)) = some true := by
    decide +kernel
  obtain ⟨s, result, shown⟩ := Option.map_eq_some_iff.mp checked
  obtain ⟨⟨idle, free, start⟩, nonneg, total, drawn⟩ := of_decide_eq_true shown
  obtain ⟨p, wins, ran⟩ := scheduler_draws fourthTicket idle free start nonneg (by decide) total (by decide) (by decide)
  have listed : ∀ q ∈ List.ofFn s.proc, q.state = .runnable → 0 ≤ q.tickets := by
    intro q member
    obtain ⟨i, rfl⟩ := List.mem_ofFn.mp member
    exact nonneg i
  have first := (scan_eq_some_iff listed (by decide) (total.trans_le (by decide))).mpr wins
  obtain rfl : p = 1 := Fin.ext (Option.some.inj (first.symm.trans drawn))
  exact ⟨s, result, total, wins, ran⟩

end OsProjects.Kernel
