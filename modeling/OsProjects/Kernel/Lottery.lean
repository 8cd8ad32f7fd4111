import OsProjects.Kernel.Proc
import OsProjects.Selection.Weighted

namespace OsProjects.Kernel
open Selection

def addTickets (total : ℤ) (p : Proc) : ℤ :=
  if p.state = .runnable then int (total + p.tickets) else total

def getTotalTickets (table : List Proc) : ℤ := table.foldl addTickets 0

def scaledRandom (low high val : ℤ) : ℤ :=
  let range := int (int (high - low) + 1)
  int (val.tmod range + low)

def scan (winningTicket : ℤ) : ℤ → List Proc → Option ℕ
  | _, [] => none
  | countedTickets, p :: rest =>
    if p.state = .runnable then
      if int (countedTickets + p.tickets) ≥ winningTicket then some 0
      else (scan winningTicket (int (countedTickets + p.tickets)) rest).map (· + 1)
    else (scan winningTicket countedTickets rest).map (· + 1)

def share (p : Proc) : ℤ := if p.state = .runnable then p.tickets else 0

def shares (table : List Proc) : List ℤ := table.map share

def Wins (table : List Proc) (ticket : ℤ) (i : ℕ) : Prop :=
  ∃ p, table[i]? = some p ∧ p.state = .runnable ∧
    before (shares table) i < ticket ∧ ticket ≤ before (shares table) i + p.tickets

section
variable {table : List Proc} (nonneg : ∀ p ∈ table, p.state = .runnable → 0 ≤ p.tickets) {winningTicket : ℤ}
  {i : ℕ}
include nonneg

theorem shares_nonneg : ∀ weight ∈ shares table, 0 ≤ weight := by
  intro weight member
  obtain ⟨p, inTable, rfl⟩ := List.mem_map.mp member
  unfold share
  split
  · exact nonneg p inTable ‹_›
  · exact le_rfl

theorem foldl_addTickets {total : ℤ} (start : 0 ≤ total)
    (bound : total + (shares table).sum ≤ 2 ^ 31 - 1) :
    table.foldl addTickets total = total + (shares table).sum := by
  induction table generalizing total with
  | nil => simp [shares]
  | cons p rest ih =>
    have restNonneg : ∀ q ∈ rest, q.state = .runnable → 0 ≤ q.tickets :=
      fun q member => nonneg q (by simp [member])
    have remaining := List.sum_nonneg (shares_nonneg restNonneg)
    have own : 0 ≤ share p := shares_nonneg nonneg _ (by simp [shares])
    simp only [shares, List.map_cons, List.sum_cons] at bound remaining ⊢
    have added : addTickets total p = total + share p := by
      unfold addTickets share at *
      split
      · rw [int_eq_self] <;> grind
      · simp
    rw [List.foldl_cons, added, ih restNonneg (by omega) (by simp only [shares]; omega)]
    simp only [shares]
    omega

theorem getTotalTickets_eq (bound : (shares table).sum ≤ 2 ^ 31 - 1) :
    getTotalTickets table = (shares table).sum := by
  have := foldl_addTickets nonneg le_rfl (by simpa using bound)
  simpa [getTotalTickets] using this

theorem scan_eq_pick {countedTickets : ℤ} (start : 0 ≤ countedTickets)
    (below : countedTickets < winningTicket) (bound : countedTickets + (shares table).sum ≤ 2 ^ 31 - 1) :
    scan winningTicket countedTickets table = pick (shares table) (winningTicket - countedTickets) := by
  induction table generalizing countedTickets with
  | nil => rfl
  | cons p rest ih =>
    have restNonneg : ∀ q ∈ rest, q.state = .runnable → 0 ≤ q.tickets :=
      fun q member => nonneg q (by simp [member])
    have remaining := List.sum_nonneg (shares_nonneg restNonneg)
    simp only [shares, List.map_cons, List.sum_cons] at bound remaining ⊢
    by_cases runnable : p.state = .runnable
    · have own := nonneg p (by simp) runnable
      simp only [share, runnable, if_true] at bound
      have counted : int (countedTickets + p.tickets) = countedTickets + p.tickets :=
        int_eq_self (by omega) (by omega)
      simp only [scan, pick, share, runnable, if_true, counted]
      by_cases won : countedTickets + p.tickets ≥ winningTicket
      · rw [if_pos won, if_pos (by omega)]
      · rw [if_neg won, if_neg (by omega), ih restNonneg (by omega) (by omega) (by simp only [shares]; omega),
          show winningTicket - (countedTickets + p.tickets) = winningTicket - countedTickets - p.tickets by ring]
        rfl
    · simp only [share, runnable, if_false, zero_add] at bound
      simp only [scan, pick, share, runnable, if_false, sub_zero]
      rw [if_neg (by omega), ih restNonneg start below (by simpa only [shares] using bound)]
      rfl

theorem scan_zero (positive : 0 < winningTicket) (bound : (shares table).sum ≤ 2 ^ 31 - 1) :
    scan winningTicket 0 table = pick (shares table) winningTicket := by
  have := scan_eq_pick nonneg le_rfl positive (by simpa using bound)
  simpa using this

theorem scan_eq_some_iff (positive : 0 < winningTicket) (bound : (shares table).sum ≤ 2 ^ 31 - 1) :
    scan winningTicket 0 table = some i ↔ Wins table winningTicket i := by
  rw [scan_zero nonneg positive bound, pick_eq_some_iff (shares_nonneg nonneg) positive]
  constructor
  · rintro ⟨weight, here, low, high⟩
    obtain ⟨p, inTable, rfl⟩ : ∃ p, table[i]? = some p ∧ share p = weight := by
      simpa [shares, Option.map_eq_some_iff] using here
    by_cases runnable : p.state = .runnable
    · exact ⟨p, inTable, runnable, low, by simpa [share, runnable] using high⟩
    · simp only [share, runnable, if_false] at high
      omega
  · rintro ⟨p, inTable, runnable, low, high⟩
    exact ⟨p.tickets, by simp [shares, inTable, share, runnable], low, high⟩

theorem exists_scan (positive : 0 < winningTicket)
    (within : winningTicket ≤ (shares table).sum) (bound : (shares table).sum ≤ 2 ^ 31 - 1) :
    ∃ i, scan winningTicket 0 table = some i := by
  rw [scan_zero nonneg positive bound]
  exact exists_pick within positive

theorem card_scan (bound : (shares table).sum ≤ 2 ^ 31 - 1) {p : Proc} (inTable : table[i]? = some p)
    (runnable : p.state = .runnable) :
    (((Finset.Icc 1 (shares table).sum).filter fun w => scan w 0 table = some i).card : ℤ) = p.tickets := by
  have here : (shares table)[i]? = some p.tickets := by simp [shares, inTable, share, runnable]
  rw [← card_pick (shares_nonneg nonneg) here]
  congr 2
  refine Finset.filter_congr fun w member => ?_
  rw [scan_zero nonneg (by have := Finset.mem_Icc.mp member; omega) bound]

end

theorem lottery_proportional (table : List Proc)
    (nonneg : ∀ p ∈ table, p.state = .runnable → 0 ≤ p.tickets) (T : ℤ) (total : (shares table).sum = T)
    (positive : 1 ≤ T) (bound : T ≤ 2 ^ 31 - 1) :
    getTotalTickets table = T ∧
    (∀ w, 1 ≤ w → w ≤ T → ∃ i, scan w 0 table = some i ∧ ∀ j, Wins table w j ↔ j = i) ∧
    (∀ i p, table[i]? = some p → p.state = .runnable →
      (((Finset.Icc 1 T).filter fun w => scan w 0 table = some i).card : ℤ) = p.tickets) ∧
    (∀ i p, table[i]? = some p → p.state = .runnable → p.tickets = 0 →
      ∀ w, 1 ≤ w → w ≤ T → scan w 0 table ≠ some i) := by
  subst total
  refine ⟨getTotalTickets_eq nonneg bound, ?_, fun i p => card_scan nonneg bound, ?_⟩
  · intro w low high
    obtain ⟨i, dispatched⟩ := exists_scan nonneg (by omega) high bound
    refine ⟨i, dispatched, fun j => ?_⟩
    rw [← scan_eq_some_iff nonneg (by omega) bound, dispatched, Option.some.injEq, eq_comm]
  · intro i p inTable runnable zero w low high dispatched
    obtain ⟨q, there, _, above, below⟩ := (scan_eq_some_iff nonneg (by omega) bound).mp dispatched
    obtain rfl : p = q := by simpa [inTable] using there
    omega

def fourSlots : List Proc :=
  [(.sleeping, 7), (.runnable, 3), (.runnable, 0), (.runnable, 2)].map fun (state, tickets) =>
    ⟨state, none, false, 0, 1, tickets, 0, none, 0⟩

theorem lottery_proportional_fourSlots :
    (shares fourSlots).sum = 5 ∧ getTotalTickets fourSlots = 5 ∧
    (((Finset.Icc 1 5).filter fun w => scan w 0 fourSlots = some 1).card : ℤ) = 3 ∧
    ∀ w, 1 ≤ w → w ≤ 5 → scan w 0 fourSlots ≠ some 2 := by
  obtain ⟨total, _, count, never⟩ :=
    lottery_proportional fourSlots (by decide) 5 (by decide) (by decide) (by decide)
  exact ⟨by decide, total, count 1 _ rfl rfl, never 2 _ rfl rfl rfl⟩

end OsProjects.Kernel
