import OsProjects.Kernel.Writes

namespace OsProjects.Kernel
open Transition Selection

variable {ncpu : ℕ} {s after : State ncpu}

def maxTickets : ℤ := (2 ^ 31 - 1) / NPROC

abbrev Allotted (tickets : ℤ) : Prop := 1 ≤ tickets ∧ tickets ≤ maxTickets

def settingTickets (s : State ncpu) : Fin ncpu × Input → Option ℤ
  | (c, .run o) => match s.stack c with
      | some p => match s.kthread p, o.trap with
          | .user _, .settickets number => some (argint number)
          | _, _ => none
      | none => none
  | (_, .interrupt _) => none

def SetsAllotted (s : State ncpu) (move : Fin ncpu × Input) : Prop :=
  ∀ number ∈ settingTickets s move, Allotted number

instance (s : State ncpu) (move : Fin ncpu × Input) : Decidable (SetsAllotted s move) :=
  inferInstanceAs (Decidable (∀ number ∈ settingTickets s move, Allotted number))

/-! ## Calls of sys_settickets in progress -/

def Pc.settickets (pc : Pc) : Option ℤ := match pc.base with
  | .setticketsAcquire number => some number
  | _ => none

theorem kernel_settickets {t : Slot → Proc} {nextpid : ℤ} {p : Slot} {o : Oracle} {pc pc' : Pc}
    {e : Effect Next} (code : kernel t nextpid p o pc = some e) (next : e.next = .goto pc') :
    pc'.settickets = none ∨ pc'.settickets = pc.settickets ∨
      ∃ a0 number, pc = .user a0 ∧ o.trap = .settickets number ∧ pc'.settickets = some (argint number) := by
  have leads := leads_kernel code next
  unfold Pc.settickets
  generalize pc'.base = base at leads ⊢
  rcases leads with idle | ⟨rfl, _⟩ | flow
  · cases idle <;> exact .inl rfl
  · exact .inr (.inl rfl)
  · cases flow <;> simp [*]

/-! ## The tickets of the slots -/

structure Allotment (s : State ncpu) : Prop where
  tickets : ∀ q, (s.proc q).state ≠ .unused → Allotted (s.proc q).tickets
  pending : ∀ p number, (s.kthread p).settickets = some number → Allotted number

theorem allotted_default : Allotted DEFAULT_TICKETS := by decide

theorem userinit_allotment (ncpu : ℕ) : Allotment (userinit ncpu) where
  tickets q inUse := by
    by_cases init : q = initproc
    · subst init
      exact allotted_default
    · simp [userinit, init, noProc] at inUse
  pending p number := by
    by_cases init : p = initproc <;> simp [userinit, init, Pc.settickets]

section advance
variable {c : Fin ncpu} {p : Slot} {o : Oracle} {e : Effect Next} {lock : Lock → Option (Fin ncpu)} {pc : Pc}
  (cores : Cores s) (held : Allotment s) (on : s.stack c = some p)
  (code : kernel s.proc s.nextpid p o (s.kthread p) = some e)
include cores held on code

theorem advance_tickets {q : Slot} (inUse : (e.table s.proc q).state ≠ .unused) :
    Allotted (e.table s.proc q).tickets := by
  rcases kernel_slot code q with same | write
  · rw [same] at inUse ⊢
    exact held.tickets q inUse
  have own := held.tickets p (cores.live_of_stack on).1
  have pending := held.pending p
  have forking := cores.fork p
  -- the slot was in use before, except where allocproc and fork write tickets of their own
  generalize e.table s.proc q = v, s.kthread p = pc, e.event = event at write inUse pending forking ⊢
  cases write with
  | alloc => exact allotted_default
  | allocFail => exact absurd rfl inUse
  | reap => exact absurd rfl inUse
  | forkTickets => exact own
  | forkRunnable => exact held.tickets q (by rw [forking q rfl]; decide)
  | settickets => exact pending _ rfl
  | exit | sleep | yield => exact own
  | wakeup _ sleeps => exact held.tickets q (by rw [sleeps]; decide)
  | kill =>
    refine held.tickets q fun unused => inUse ?_
    simp [unused]
  | forkParent | reparent | tidy | setkilled | growproc => exact held.tickets _ inUse

theorem advance_allotment (allowed : SetsAllotted s (c, .run o)) (next : e.next = .goto pc) :
    Allotment (s.advance p e lock pc) where
  tickets q inUse := advance_tickets cores held on code inUse
  pending q number pending := by
    by_cases self : q = p
    · subst self
      rw [advance_kthread_self] at pending
      rcases kernel_settickets code next with none | same | ⟨a0, raw, user, call, sets⟩
      · simp [none] at pending
      · exact held.pending q number (same ▸ pending)
      · obtain rfl : argint raw = number := by simpa [sets] using pending
        exact allowed _ (by simp [settingTickets, on, user, call])
    · exact held.pending q number (advance_other rfl self pending)

end advance

theorem Quiet.allotment (quiet : Quiet s after) (held : Allotment s) : Allotment after where
  tickets q inUse := by
    obtain ⟨state, ticks, changed, states⟩ := quiet.proc q
    rw [changed] at inUse ⊢
    refine held.tickets q fun unused => ?_
    simp_all
  pending p number pending := by
    have kept := quiet.kept Pc.settickets (fun _ => rfl) (fun _ => rfl) (fun _ _ _ => rfl) p
    exact held.pending p number (kept ▸ pending)

theorem reachedBy_allotment (reached : (system ncpu).ReachedBy SetsAllotted s) : Allotment s := by
  refine reached.invariant Allotment (userinit_allotment ncpu) ?_
  intro before move after previous held allowed action
  have cores := reachable_cores previous.reachable
  obtain ⟨c, p, o, e, lock, pc, rfl, on, code, _, next, rfl⟩ | quiet := moved_cases cores (step_moved action)
  · exact advance_allotment cores held on code allowed next
  · exact quiet.allotment held

theorem shares_le {table : List Proc} (allotted : ∀ p ∈ table, p.state = .runnable → Allotted p.tickets)
    (slots : table.length = NPROC) : (shares table).sum ≤ 2 ^ 31 - 1 := by
  have each : ∀ weight ∈ shares table, weight ≤ maxTickets := by
    intro weight member
    obtain ⟨p, inTable, rfl⟩ := List.mem_map.mp member
    unfold share
    split
    · exact (allotted p inTable ‹_›).2
    · decide
  calc (shares table).sum ≤ (shares table).length • maxTickets := List.sum_le_card_nsmul _ _ each
    _ = NPROC • maxTickets := by rw [shares, List.length_map, slots]
    _ ≤ 2 ^ 31 - 1 := by decide

theorem tickets_invariant (ncpu : ℕ) (s : State ncpu) (reached : (system ncpu).ReachedBy SetsAllotted s) :
    (∀ p, (s.proc p).state = .runnable → 1 ≤ (s.proc p).tickets) ∧
    (shares (List.ofFn s.proc)).sum ≤ 2 ^ 31 - 1 ∧
    getTotalTickets (List.ofFn s.proc) = (shares (List.ofFn s.proc)).sum ∧
    ∀ p, (s.proc p).state = .runnable → ∃ w, 1 ≤ w ∧ w ≤ getTotalTickets (List.ofFn s.proc) ∧
      scan w 0 (List.ofFn s.proc) = some p.val := by
  have runnable : ∀ p, (s.proc p).state = .runnable → Allotted (s.proc p).tickets :=
    fun p state => (reachedBy_allotment reached).tickets p (by simp [state])
  have allotted : ∀ q ∈ List.ofFn s.proc, q.state = .runnable → Allotted q.tickets := by
    intro q member
    obtain ⟨p, rfl⟩ := List.mem_ofFn.mp member
    exact runnable p
  have nonneg : ∀ q ∈ List.ofFn s.proc, q.state = .runnable → 0 ≤ q.tickets :=
    fun q member state => by linarith [(allotted q member state).1]
  have bound := shares_le allotted List.length_ofFn
  have total := getTotalTickets_eq nonneg bound
  refine ⟨fun p state => (runnable p state).1, bound, total, fun p state => ?_⟩
  -- the last ticket of the slot
  have inTable : (List.ofFn s.proc)[p.val]? = some (s.proc p) := by rw [List.getElem?_ofFn, dif_pos p.isLt]
  have positive := (runnable p state).1
  have low := before_nonneg (shares_nonneg nonneg) p.val
  have high : before (shares (List.ofFn s.proc)) p.val + (s.proc p).tickets ≤ (shares (List.ofFn s.proc)).sum :=
    before_add_le_sum (shares_nonneg nonneg) (by simp only [shares, List.getElem?_map, inTable]; simp [share, state])
  refine ⟨before (shares (List.ofFn s.proc)) p.val + (s.proc p).tickets, by linarith, by linarith, ?_⟩
  exact (scan_eq_some_iff nonneg (by linarith) bound).mpr ⟨s.proc p, inTable, state, by linarith, le_rfl⟩

def setThenYield (number : BitVec 64) : List (Fin 1 × Input) :=
  List.replicate 137 (0, .run ⟨.settickets number, true, true, true, true, 0, .done⟩) ++
    List.replicate 4 (0, .run ⟨.timer, true, true, true, true, 0, .done⟩)

set_option maxRecDepth 10000 in
theorem tickets_invariant_thirty :
    ∃ s, (system 1).runBy SetsAllotted (userinit 1) (setThenYield 30) = some s ∧
      (s.proc initproc).state = .runnable ∧ (s.proc initproc).tickets = 30 ∧
      ∃ w, 1 ≤ w ∧ w ≤ getTotalTickets (List.ofFn s.proc) ∧ scan w 0 (List.ofFn s.proc) = some 0 := by
  have checked : ((system 1).runBy SetsAllotted (userinit 1) (setThenYield 30)).map
      (fun s => ((s.proc initproc).state, (s.proc initproc).tickets)) = some (.runnable, 30) := by decide +kernel
  obtain ⟨s, result, facts⟩ := Option.map_eq_some_iff.mp checked
  simp only [Prod.mk.injEq] at facts
  obtain ⟨runnable, tickets⟩ := facts
  have reached : (system 1).ReachedBy SetsAllotted s := System.ReachedBy.runBy .initial result
  exact ⟨s, result, runnable, tickets, (tickets_invariant 1 s reached).2.2.2 initproc runnable⟩

set_option maxRecDepth 10000 in
theorem settickets_zero_starves :
    ∃ s, (system 1).Reachable s ∧ (s.proc initproc).state = .runnable ∧ (s.proc initproc).tickets = 0 ∧
      getTotalTickets (List.ofFn s.proc) = 0 := by
  have checked : ((system 1).run (userinit 1) (setThenYield 0)).map
      (fun s => ((s.proc initproc).state, (s.proc initproc).tickets, getTotalTickets (List.ofFn s.proc))) =
        some (.runnable, 0, 0) := by decide +kernel
  obtain ⟨s, result, facts⟩ := Option.map_eq_some_iff.mp checked
  simp only [Prod.mk.injEq] at facts
  exact ⟨s, System.Reachable.run .initial result, facts⟩

end OsProjects.Kernel
