import OsProjects.Slots.Sizes
import OsProjects.Transition.Monitor
import OsProjects.Wrapping.Queue
import Mathlib.Data.List.FinRange

namespace OsProjects.Serial
open Transition Wrapping

abbrev UART_TX_BUF_SIZE : ℕ := 32

instance : NeZero UART_TX_BUF_SIZE := ⟨by decide⟩

abbrev Byte := BitVec 8

/-- The transmit buffer, whether the holding register `THR` is full, and whether the UART has asked for more. `syncs` are
the characters of the calls of `uartputc_sync` that have seen the register empty and not yet written to it. `accepted` are
the characters put into the buffer and `written` those written to the register out of it. -/
structure Uart where
  buf : Fin UART_TX_BUF_SIZE → Byte
  w : BitVec 64
  r : BitVec 64
  full : Bool
  interrupt : Bool
  syncs : List Byte
  accepted : List Byte
  written : List Byte

def Uart.waiting (u : Uart) : List Byte := contents u.buf u.r u.w

def Uart.put (u : Uart) (c : Byte) : Uart :=
  { u with buf := Function.update u.buf (position UART_TX_BUF_SIZE u.w) c, w := u.w + 1, accepted := u.accepted ++ [c] }

inductive Call
  | uartputc (c : Byte) | uartintr

/-- Outside, in one of the calls before its first test, or in the loop of `uartstart`: at its head, or about to write a
character to the register. -/
inductive Place
  | outside | uartputc (c : Byte) | uartintr | uartstart | write (c : Byte)

def uartputc (c : Byte) (u : Uart) : Turn Uart Unit Place :=
  if u.w = u.r + BitVec.ofNat 64 UART_TX_BUF_SIZE then .wait () else .stay (u.put c) .uartstart

def uartstart (u : Uart) : Turn Uart Unit Place :=
  if u.w = u.r then .leave u .outside
  else if u.full then .leave u .outside
  else .wake { u with r := u.r + 1 } () (.write (u.buf (position UART_TX_BUF_SIZE u.r)))

/-- What happens without the lock: the register gets empty, and the two steps of `uartputc_sync`, the test that ends its
loop and the write, which may find the register full again. -/
inductive Event
  | thrEmpty | syncIdle (c : Byte) | syncWrite (c : Byte)

def device : Event → Uart → Option Uart
  | .thrEmpty, u => if u.full then some { u with full := false, interrupt := true } else none
  | .syncIdle c, u => if u.full then none else some { u with syncs := c :: u.syncs }
  | .syncWrite c, u => if c ∈ u.syncs then some { u with syncs := u.syncs.erase c, full := true } else none

variable {P : Type}

def code : Monitor P Uart Unit Place Call Event where
  enter
    | .outside, .uartputc c => .uartputc c
    | .outside, .uartintr => .uartintr
    | l, _ => l
  turn _
    | .outside, u => .leave u .outside
    | .uartputc c, u => uartputc c u
    | .uartintr, u => .stay { u with interrupt := false } .uartstart
    | .uartstart, u => uartstart u
    | .write c, u => .stay { u with full := true, written := u.written ++ [c] } .uartstart
  device := device

def system [DecidableEq P] (procs : List P) (buf : Fin UART_TX_BUF_SIZE → Byte) :=
  (code (P := P)).system procs ⟨buf, 0, 0, false, false, [], [], []⟩ fun _ => .outside

def Place.inner : Place → Prop
  | .uartstart | .write _ => True
  | _ => False

theorem code_obeys : (code (P := P)).Obeys (fun _ u => u.w = u.r + BitVec.ofNat 64 UART_TX_BUF_SIZE) Place.inner where
  waits {_ l _ _} turn := by cases l <;> grind [code, uartputc, uartstart, Place.inner]
  stays {_ l _ _ _} turn := by cases l <;> grind [code, uartputc, uartstart]
  wakes _ c' other := absurd rfl other
  leaves {_ l _ _ _} turn := by cases l <;> grind [code, uartputc, uartstart, Place.inner]
  moves {d _ _} moved := by
    cases d <;> simp only [code, device] at moved <;> split at moved <;> cases moved <;> exact fun _ => id

/-- The characters are written in order, and when nobody is at it, the UART is at work on one or has asked for more. -/
structure Writes (u : Uart) (loc : P → Place) : Prop where
  room : (u.w - u.r).toNat ≤ UART_TX_BUF_SIZE
  order : (∀ p c, loc p ≠ .write c) → u.written ++ u.waiting = u.accepted
  taken : ∀ p c, loc p = .write c → u.written ++ c :: u.waiting = u.accepted
  busy : (∀ p, ¬ (loc p).inner) → u.w ≠ u.r → u.full = true ∨ u.interrupt = true

variable [DecidableEq P] {procs : List P} {buf : Fin UART_TX_BUF_SIZE → Byte} {s : Monitor.State P Uart Unit Place}

theorem Writes.turn {u : Uart} {loc : P → Place} {p : P} {next : Place} (alone : ∀ q, q ≠ p → ¬ (loc q).inner)
    (room : (u.w - u.r).toNat ≤ UART_TX_BUF_SIZE) (order : (∀ c, next ≠ .write c) → u.written ++ u.waiting = u.accepted)
    (taken : ∀ c, next = .write c → u.written ++ c :: u.waiting = u.accepted)
    (busy : ¬ next.inner → u.w ≠ u.r → u.full = true ∨ u.interrupt = true) : Writes u (Function.update loc p next) := by
  have own : Function.update loc p next p = next := Function.update_self _ _ _
  refine ⟨room, fun none => order fun c => own ▸ none p c, fun q c here => ?_, fun none => busy (own ▸ none p)⟩
  by_cases same : q = p
  · subst same
    exact taken c (own.symm.trans here)
  · rw [Function.update_of_ne same] at here
    exact absurd (by rw [here]; trivial) (alone q same)

theorem Uart.put_waiting {u : Uart} (room : (u.w - u.r).toNat ≤ UART_TX_BUF_SIZE)
    (space : u.w ≠ u.r + BitVec.ofNat 64 UART_TX_BUF_SIZE) (c : Byte) :
    (u.put c).waiting = u.waiting ++ [c] ∧ ((u.put c).w - (u.put c).r).toNat ≤ UART_TX_BUF_SIZE := by
  have less : (u.w - u.r).toNat < UART_TX_BUF_SIZE := by
    refine lt_of_le_of_ne room fun same => space ?_
    rw [← same, add_sub_toNat]
  refine ⟨contents_put (by decide) less (by decide) c, ?_⟩
  change (u.w + 1 - u.r).toNat ≤ _
  rw [toNat_succ_sub (lt_of_le_of_lt less (by decide))]
  exact less

theorem Writes.enter {u : Uart} {loc : P → Place} (kept : Writes u loc) (p : P) (call : Call) :
    Writes u (Function.update loc p ((code (P := P)).enter (loc p) call)) := by
  have same : ∀ q, (∀ c, Function.update loc p ((code (P := P)).enter (loc p) call) q = .write c ↔ loc q = .write c) ∧
      ((Function.update loc p ((code (P := P)).enter (loc p) call) q).inner ↔ (loc q).inner) := by
    intro q
    by_cases same : q = p
    · subst same
      cases place : loc q <;> cases call <;> simp [code, Place.inner]
    · simp [Function.update_of_ne same]
  exact ⟨kept.room, fun none => kept.order fun q c => ((same q).1 c).not.mp (none q c),
    fun q c here => kept.taken q c (((same q).1 c).mp here), fun none => kept.busy fun q => (same q).2.not.mp (none q)⟩

theorem turn_writes {u u' : Uart} {loc : P → Place} {p : P} {next : Place} (kept : Writes u loc) (alone : ∀ q, q ≠ p → ¬ (loc q).inner)
    (turn : (code.turn p (loc p) u).result = some (u', next)) : Writes u' (Function.update loc p next) := by
  have quiet : (∀ c, loc p ≠ .write c) → u.written ++ u.waiting = u.accepted := by
    refine fun mine => kept.order fun q c here => ?_
    by_cases same : q = p
    · exact mine c (same ▸ here)
    · exact alone q same (by rw [here]; trivial)
  have still : ¬ (loc p).inner → u.w ≠ u.r → u.full = true ∨ u.interrupt = true := by
    refine fun mine => kept.busy fun q => ?_
    by_cases same : q = p
    · exact same ▸ mine
    · exact alone q same
  cases place : loc p with
  | outside =>
    obtain ⟨rfl, rfl⟩ : u = u' ∧ .outside = next := by simpa [code, place, Turn.result] using turn
    rw [place] at quiet still
    exact .turn alone kept.room (fun _ => quiet (by simp)) (by simp) fun _ => still id
  | uartputc c =>
    simp only [code, place, uartputc] at turn
    split at turn <;> rename_i space <;> simp [Turn.result] at turn
    obtain ⟨rfl, rfl⟩ := turn
    obtain ⟨waiting, room⟩ := Uart.put_waiting kept.room space c
    refine .turn alone room (fun _ => ?_) (by simp) fun outer => absurd trivial outer
    rw [waiting, ← List.append_assoc]
    exact congrArg (· ++ [c]) (quiet (by simp [place]))
  | uartintr =>
    obtain ⟨rfl, rfl⟩ : { u with interrupt := false } = u' ∧ .uartstart = next := by simpa [code, place, Turn.result] using turn
    exact .turn alone kept.room (fun _ => quiet (by simp [place])) (by simp) fun outer => absurd trivial outer
  | uartstart =>
    have order := quiet (by simp [place])
    simp only [code, place, uartstart] at turn
    split at turn <;> rename_i empty
    · obtain ⟨rfl, rfl⟩ : u = u' ∧ .outside = next := by simpa [Turn.result] using turn
      exact .turn alone kept.room (fun _ => order) (by simp) fun _ more => absurd empty more
    · split at turn <;> rename_i full <;> simp [Turn.result] at turn
      · obtain ⟨rfl, rfl⟩ := turn
        exact .turn alone kept.room (fun _ => order) (by simp) fun _ _ => .inl full
      · obtain ⟨rfl, rfl⟩ := turn
        have split : u.waiting = u.buf (position UART_TX_BUF_SIZE u.r) :: contents u.buf (u.r + 1) u.w :=
          contents_take u.buf (Ne.symm empty)
        have lengths := congrArg List.length split
        rw [Uart.waiting, length_contents, List.length_cons, length_contents] at lengths
        have room := kept.room
        refine .turn alone (show (u.w - (u.r + 1)).toNat ≤ _ by omega) (by simp) (fun c same => ?_) fun outer => absurd trivial outer
        obtain rfl := Place.write.inj same
        exact (congrArg (u.written ++ ·) split.symm).trans order
  | write c =>
    obtain ⟨rfl, rfl⟩ : { u with full := true, written := u.written ++ [c] } = u' ∧ .uartstart = next := by
      simpa [code, place, Turn.result] using turn
    refine .turn alone kept.room (fun _ => ?_) (by simp) fun outer => absurd trivial outer
    have taken := kept.taken p c place
    rwa [List.append_cons] at taken

theorem reachable_writes (complete : ∀ p, p ∈ procs) (reachable : (system procs buf).Reachable s) :
    Writes s.shared fun p => (s.pc p).loc := by
  refine Monitor.reachable_shared code_obeys complete Writes (fun _ => id) ⟨?_, ?_, ?_, ?_⟩ (fun kept => kept.enter _ _) turn_writes ?_
    reachable
  · simp
  · simp [Uart.waiting]
  · simp
  · simp
  · intro u loc d u' kept moved
    cases d <;> simp only [code, device] at moved <;> split at moved <;> cases moved
    · exact ⟨kept.room, kept.order, kept.taken, fun _ _ => .inr rfl⟩
    · exact ⟨kept.room, kept.order, kept.taken, kept.busy⟩
    · exact ⟨kept.room, kept.order, kept.taken, fun _ _ => .inl rfl⟩

/-- While the lock is free: what was accepted has been written to the holding register or is in the buffer, in order;
nobody sleeps for room when there is room; and with characters in the buffer the register is full or the UART has asked for
more. Writes of `uartputc_sync` come in between, so that a character may be written to a register that is full. -/
theorem uart_writes_everything (complete : ∀ p, p ∈ procs) (reachable : (system procs buf).Reachable s)
    (free : s.lock .shared = none) :
    s.shared.written ++ s.shared.waiting = s.shared.accepted ∧ s.shared.waiting.length ≤ UART_TX_BUF_SIZE ∧
      (∀ p, s.sleeping p = some () → s.shared.waiting.length = UART_TX_BUF_SIZE) ∧
      (s.shared.waiting ≠ [] → s.shared.full = true ∨ s.shared.interrupt = true) := by
  obtain ⟨calm, outer⟩ := Monitor.sleepers_blocked code_obeys complete (fun _ => id) reachable free
  have kept := reachable_writes complete reachable
  refine ⟨kept.order fun p c here => outer p ?_, ?_, fun p sleeps => ?_, fun some => kept.busy outer fun same => some ?_⟩
  · rw [here]
    trivial
  · rw [Uart.waiting, length_contents]
    exact kept.room
  · rw [Uart.waiting, length_contents, calm p () sleeps, BitVec.add_comm, BitVec.add_sub_cancel]
    rfl
  · rw [Uart.waiting, same, contents_self]

/-- Between the test and the write of a call of `uartputc_sync`, a character out of the buffer fills the register. -/
def twoCharacters : List (Monitor.Label Bool Call Event) :=
  .device (.syncIdle 33) :: List.replicate 7 (.thread true (.uartputc 65)) ++
    .device (.syncWrite 33) :: List.replicate 3 (.thread true (.uartputc 66))

theorem uart_writes_everything_twoCharacters : ∃ s, (system [true, false] fun _ => 0).Reachable s ∧ s.lock .shared = none ∧
    s.shared.accepted = [65, 66] ∧ s.shared.written = [65] ∧ (s.shared.full = true ∨ s.shared.interrupt = true) := by
  have checked : ((system [true, false] fun _ => 0).run (system [true, false] fun _ => 0).initial twoCharacters).map
      (fun s => (s.lock .shared, s.shared.accepted, s.shared.written)) = some (none, [65, 66], [65]) := by decide +kernel
  obtain ⟨s, result, shown⟩ := Option.map_eq_some_iff.mp checked
  obtain ⟨free, accepted, written⟩ : s.lock .shared = none ∧ s.shared.accepted = [65, 66] ∧ s.shared.written = [65] := by simpa using shown
  have reachable := System.Reachable.run .initial result
  obtain ⟨order, _, _, busy⟩ := uart_writes_everything (by simp) reachable free
  refine ⟨s, reachable, free, accepted, written, busy fun empty => ?_⟩
  rw [written, accepted, empty] at order
  simp at order

end OsProjects.Serial
