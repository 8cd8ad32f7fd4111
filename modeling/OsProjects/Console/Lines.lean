import OsProjects.Console.Model

namespace OsProjects.Console
open Transition Wrapping

/-! ## What the terminal is for -/

/-- The input by what the user meant: what was committed since boot, how much of it readers have taken, and the line
that can still be edited. -/
structure Terminal where
  committed : List UInt8
  taken : ℕ
  line : List UInt8

namespace Terminal

def queue (t : Terminal) : List UInt8 := t.committed.drop t.taken

def size (t : Terminal) : ℕ := t.queue.length + t.line.length

def commit (t : Terminal) : Terminal := { t with committed := t.committed ++ t.line, line := [] }

/-- A character is typed: control-p and NUL are not input, a full terminal drops what comes, and the end of a line, of a
file or of the space commits the line. -/
def type (t : Terminal) (c : UInt8) : Terminal :=
  if c = ctrl 'P' then t
  else if c = ctrl 'U' then { t with line := [] }
  else if c = ctrl 'H' ∨ c = 0x7f then { t with line := t.line.dropLast }
  else if c ≠ 0 ∧ t.size < INPUT_BUF_SIZE then
    let c := if c = 13 then newline else c
    let t := { t with line := t.line ++ [c] }
    if c = newline ∨ c = ctrl 'D' ∨ t.size = INPUT_BUF_SIZE then t.commit else t
  else t

end Terminal

/-- A reader takes from the queue: its status, the bytes it gets and how many entries are gone. -/
def takeLine (target : ℕ) (killed : Bool) : ℕ → List UInt8 → Status × List UInt8 × ℕ
  | 0, _ => (.stopped .count, [], 0)
  | n + 1, [] => (if killed then .stopped .killed else .waits (n + 1), [], 0)
  | n + 1, c :: queue =>
    if c = ctrl 'D' then if n + 1 < target then (.stopped .mark, [], 0) else (.stopped .eof, [], 1)
    else if c = newline then (.stopped .line, [c], 1)
    else
      let (status, rest, k) := takeLine target killed n queue
      (status, c :: rest, k + 1)

variable {P : Type} [DecidableEq P] {status : Status} {bytes : List UInt8} {k : ℕ}

/-- The terminal with its readers, and how many calls have returned 0 at an end-of-file mark. -/
structure Session (P : Type) where
  terminal : Terminal
  call : P → Option Call
  eofs : ℕ

def Session.read (s : Session P) (p : P) (target n : ℕ) (got : List UInt8) (killed : Bool) : Session P :=
  let (status, bytes, k) := takeLine target killed n s.terminal.queue
  { terminal := { s.terminal with taken := s.terminal.taken + k }
    call := Function.update s.call p (some ⟨target, got ++ bytes, status⟩)
    eofs := if status = .stopped .eof then s.eofs + 1 else s.eofs }

def session (P : Type) [DecidableEq P] : System (Session P) (Event P) where
  initial := ⟨⟨[], 0, []⟩, fun _ => none, 0⟩
  step s
    | .intr c => some { s with terminal := s.terminal.type c }
    | .read p n killed => if (waiting s.call p).isSome then none else some (s.read p n.toNat n.toNat [] killed)
    | .resume p killed => (waiting s.call p).map fun (c, n) => s.read p c.target n c.got killed

/-! ## The ring is the terminal -/

structure Holds (s : Cons) (t : Terminal) : Prop where
  ring : contents s.buf s.r s.e = t.queue ++ t.line
  queue : (s.w - s.r).toNat = t.queue.length
  room : t.size ≤ INPUT_BUF_SIZE
  taken : t.taken ≤ t.committed.length

variable {s : Cons} {t : Terminal}

section
variable (holds : Holds s t)
include holds

theorem Holds.size : (s.e - s.r).toNat = t.size := by
  have length := congrArg List.length holds.ring
  rwa [length_contents, List.length_append] at length

theorem Holds.line : s.e = s.w ↔ t.line = [] := by
  have size := holds.size
  have queue := holds.queue
  rw [Terminal.size] at size
  constructor
  · intro same
    rw [same, queue] at size
    exact List.length_eq_zero_iff.mp (by omega)
  · intro none
    rw [none, List.length_nil, Nat.add_zero, ← queue] at size
    have equal := BitVec.eq_of_toNat_eq size
    rw [← add_sub_toNat s.r s.e, ← add_sub_toNat s.r s.w, equal]

theorem Holds.empty : s.r = s.w ↔ t.queue = [] := by
  have queue := holds.queue
  constructor
  · intro same
    rw [same, BitVec.sub_self] at queue
    exact List.length_eq_zero_iff.mp queue.symm
  · intro none
    rw [none, List.length_nil] at queue
    rw [← add_sub_toNat s.r s.w, queue]
    exact (BitVec.add_zero s.r).symm

/-! ## `consoleintr` -/

theorem Holds.erase (some : t.line ≠ []) :
    Holds { s with e := s.e - 1 } { t with line := t.line.dropLast } ∧
      s.buf (position INPUT_BUF_SIZE (s.e - 1)) ∈ t.line := by
  have size := holds.size
  have positive : 0 < t.line.length := List.length_pos_iff.mpr some
  have bound := holds.room
  rw [Terminal.size] at size bound
  have before : (s.e - 1 - s.r).toNat = t.queue.length + t.line.length - 1 := by bv_omega
  have back : s.e - 1 + 1 = s.e := BitVec.sub_add_cancel s.e 1
  have split : contents s.buf s.r (s.e - 1 + 1) = contents s.buf s.r (s.e - 1) ++ [s.buf (position INPUT_BUF_SIZE (s.e - 1))] :=
    contents_snoc (by omega)
  rw [back, holds.ring, ← List.dropLast_append_getLast some, ← List.append_assoc] at split
  obtain ⟨rest, last⟩ := List.append_inj' split rfl
  refine ⟨⟨rest.symm, holds.queue, ?_, holds.taken⟩, ?_⟩
  · rw [Terminal.size, List.length_dropLast]
    change t.queue.length + (t.line.length - 1) ≤ _
    omega
  · rw [← List.head_eq_of_cons_eq last]
    exact List.getLast_mem some

theorem killLine_holds {fuel : ℕ} (unfinished : newline ∉ t.line) (enough : t.line.length ≤ fuel) :
    Holds (killLine fuel s) { t with line := [] } := by
  induction fuel generalizing s t with
  | zero =>
    have none := List.length_eq_zero_iff.mp (Nat.le_zero.mp enough)
    rw [← none]
    exact holds
  | succ fuel ih =>
    rw [killLine]
    by_cases none : t.line = []
    · rw [if_neg fun more => more.1 (holds.line.mpr none), ← none]
      exact holds
    · obtain ⟨erased, member⟩ := holds.erase none
      have other : s.buf (position INPUT_BUF_SIZE (s.e - 1)) ≠ newline := fun same => unfinished (same ▸ member)
      rw [if_pos ⟨mt holds.line.mp none, other⟩]
      have shorter : t.line.dropLast.length ≤ fuel := by
        rw [List.length_dropLast]
        omega
      have rest := ih (t := { t with line := t.line.dropLast }) erased
        (fun member => unfinished (List.mem_of_mem_dropLast member)) shorter
      exact rest

theorem Holds.append (room : t.size < INPUT_BUF_SIZE) (c : UInt8) :
    Holds { s with buf := Function.update s.buf (position INPUT_BUF_SIZE s.e) c, e := s.e + 1 } { t with line := t.line ++ [c] } where
  ring := by
    have free : (s.e - s.r).toNat < INPUT_BUF_SIZE := by rwa [holds.size]
    have put : contents (Function.update s.buf (position INPUT_BUF_SIZE s.e) c) s.r (s.e + 1) = contents s.buf s.r s.e ++ [c] :=
      contents_put (by norm_num) free (by norm_num) c
    rw [put, holds.ring, List.append_assoc]
    rfl
  queue := holds.queue
  room := by
    rw [Terminal.size, List.length_append, List.length_singleton]
    exact room
  taken := holds.taken

theorem Holds.commit : Holds { s with w := s.e } t.commit := by
  have queue : t.commit.queue = t.queue ++ t.line := by
    rw [Terminal.commit, Terminal.queue, List.drop_append_of_le_length holds.taken, Terminal.queue]
  refine ⟨?_, ?_, ?_, ?_⟩
  · rw [queue, holds.ring]
    exact (List.append_nil _).symm
  · rw [queue, List.length_append]
    exact holds.size
  · rw [Terminal.size, queue, List.length_append]
    exact holds.room
  · rw [Terminal.commit, List.length_append]
    exact Nat.le_add_right_of_le holds.taken

theorem consoleintr_holds (unfinished : newline ∉ t.line) (c : UInt8) :
    Holds (consoleintr s c) (t.type c) ∧ newline ∉ (t.type c).line := by
  unfold consoleintr Terminal.type
  split
  · exact ⟨holds, unfinished⟩
  split
  · have count : (s.e - s.w).toNat = t.line.length := by
      have size := holds.size
      have queue := holds.queue
      rw [Terminal.size] at size
      bv_omega
    exact ⟨killLine_holds holds unfinished count.ge, List.not_mem_nil⟩
  split
  · split
    · rename_i more
      exact ⟨(holds.erase (mt holds.line.mpr more)).1, fun member => unfinished (List.mem_of_mem_dropLast member)⟩
    · rename_i none
      rw [holds.line.mp (not_not.mp none)]
      exact ⟨by rw [List.dropLast_nil, ← holds.line.mp (not_not.mp none)]; exact holds, List.not_mem_nil⟩
  rw [holds.size]
  split
  · rename_i room
    obtain ⟨cooked, same⟩ : ∃ cooked, (if c = 13 then newline else c) = cooked := ⟨_, rfl⟩
    have added := holds.append room.2 cooked
    simp only [same]
    rw [added.size]
    split
    · exact ⟨added.commit, List.not_mem_nil⟩
    · rename_i stays
      refine ⟨added, fun member => ?_⟩
      rcases List.mem_append.mp member with old | new
      · exact unfinished old
      · exact stays (.inl (List.mem_singleton.mp new).symm)
  · exact ⟨holds, unfinished⟩

/-! ## `consoleread` -/

theorem Holds.take {c : UInt8} {rest : List UInt8} (queue : t.queue = c :: rest) :
    s.buf (position INPUT_BUF_SIZE s.r) = c ∧ Holds { s with r := s.r + 1 } { t with taken := t.taken + 1 } ∧
      ({ t with taken := t.taken + 1 } : Terminal).queue = rest := by
  have after : ({ t with taken := t.taken + 1 } : Terminal).queue = rest := by
    change t.committed.drop (t.taken + 1) = rest
    rw [← List.tail_drop]
    change t.queue.tail = rest
    rw [queue, List.tail_cons]
  have size := holds.size
  rw [Terminal.size, queue, List.length_cons] at size
  have more : s.r ≠ s.e := by
    intro same
    rw [same, BitVec.sub_self] at size
    have zero : (0#32).toNat = 0 := rfl
    omega
  have ring := holds.ring
  rw [contents_take s.buf more, queue, List.cons_append] at ring
  have head := holds.queue
  rw [queue, List.length_cons] at head
  refine ⟨List.head_eq_of_cons_eq ring, ⟨?_, ?_, ?_, ?_⟩, after⟩
  · rw [after]
    exact List.tail_eq_of_cons_eq ring
  · rw [after]
    have less : (s.w - (s.r + 1)).toNat + 1 = (s.w - s.r).toNat := toNat_sub_succ (by omega)
    exact Nat.succ.inj (less.trans head)
  · have bound := holds.room
    rw [Terminal.size, queue, List.length_cons] at bound
    rw [Terminal.size, after]
    change rest.length + t.line.length ≤ INPUT_BUF_SIZE
    omega
  · have length := congrArg List.length queue
    rw [Terminal.queue, List.length_drop, List.length_cons] at length
    change t.taken + 1 ≤ t.committed.length
    omega

theorem readLoop_holds (target : ℕ) (killed : Bool) (n : ℕ) (took : takeLine target killed n t.queue = (status, bytes, k)) :
    readLoop target killed n s = (status, bytes, { s with r := s.r + BitVec.ofNat 32 k }) ∧
      Holds { s with r := s.r + BitVec.ofNat 32 k } { t with taken := t.taken + k } := by
  have still : s.r + BitVec.ofNat 32 0 = s.r := BitVec.add_zero s.r
  induction n generalizing s t status bytes k with
  | zero =>
    obtain ⟨rfl, rfl, rfl⟩ : Status.stopped .count = status ∧ [] = bytes ∧ 0 = k := by simpa [takeLine] using took
    rw [still]
    exact ⟨rfl, holds⟩
  | succ n ih =>
    rw [readLoop]
    cases queue : t.queue with
    | nil =>
      rw [queue, takeLine] at took
      obtain ⟨rfl, rfl, rfl⟩ : (if killed then Status.stopped .killed else .waits (n + 1)) = status ∧ [] = bytes ∧ 0 = k := by
        simpa using took
      rw [if_pos (holds.empty.mpr queue), still]
      exact ⟨rfl, holds⟩
    | cons c rest =>
      have more : s.r ≠ s.w := mt holds.empty.mp (by simp [queue])
      obtain ⟨first, taken, after⟩ := holds.take queue
      rw [queue, takeLine] at took
      rw [if_neg more, first]
      split at took
      · rename_i mark
        simp only [if_pos mark]
        split at took
        · obtain ⟨rfl, rfl, rfl⟩ : Status.stopped .mark = status ∧ [] = bytes ∧ 0 = k := by simpa using took
          rename_i some
          rw [if_pos some, still, BitVec.add_sub_cancel]
          exact ⟨rfl, holds⟩
        · obtain ⟨rfl, rfl, rfl⟩ : Status.stopped .eof = status ∧ [] = bytes ∧ 1 = k := by simpa using took
          rename_i none
          rw [if_neg none]
          exact ⟨rfl, taken⟩
      · rename_i byte
        simp only [if_neg byte]
        split at took
        · obtain ⟨rfl, rfl, rfl⟩ : Status.stopped .line = status ∧ [c] = bytes ∧ 1 = k := by simpa using took
          rename_i last
          rw [if_pos last]
          exact ⟨rfl, taken⟩
        · rename_i inner
          obtain ⟨⟨status', bytes', k'⟩, inside⟩ : ∃ out, takeLine target killed n rest = out := ⟨_, rfl⟩
          simp only [inside, Prod.mk.injEq] at took
          obtain ⟨rfl, rfl, rfl⟩ := took
          rw [← after] at inside
          obtain ⟨ran, later⟩ := ih taken inside (BitVec.add_zero _)
          have sum : s.r + 1 + BitVec.ofNat 32 k' = s.r + BitVec.ofNat 32 (k' + 1) := by
            rw [BitVec.ofNat_add, BitVec.add_comm (BitVec.ofNat 32 k'), ← BitVec.add_assoc]
            rfl
          simp only [sum] at ran later
          rw [if_neg inner, ran]
          refine ⟨rfl, ?_⟩
          rw [show t.taken + (k' + 1) = t.taken + 1 + k' by omega]
          exact later

end

/-! ## What one call gets -/

structure Call.Sound (c : Call) : Prop where
  most : c.got.length ≤ c.target
  marks : ctrl 'D' ∉ c.got
  lines : newline ∉ c.got.dropLast
  status : match c.status with
    | .waits n => 0 < n ∧ c.got.length + n = c.target ∧ newline ∉ c.got
    | .stopped .count => c.got.length = c.target
    | .stopped .line => c.got.getLast? = some newline
    | .stopped .mark => c.got ≠ []
    | .stopped .eof => c.got = []
    | .stopped .killed => True

theorem takeLine_taken (target : ℕ) (killed : Bool) (n : ℕ) (queue : List UInt8)
    (took : takeLine target killed n queue = (status, bytes, k)) :
    bytes = (queue.take k).filter (· ≠ ctrl 'D') ∧ (queue.take k).count (ctrl 'D') = if status = .stopped .eof then 1 else 0 := by
  fun_induction takeLine target killed n queue generalizing status bytes k with
  | case1 | case3 =>
    cases took
    simp
  | case2 =>
    cases took
    cases killed <;> simp
  | case4 =>
    cases took
    simp
  | case5 n queue byte =>
    cases took
    simp [byte]
  | case6 n c queue byte inner status' rest k' inside ih =>
    cases took
    obtain ⟨same, count⟩ := ih inside
    rw [List.take_succ_cons, List.filter_cons_of_pos (by simpa using byte), List.count_cons_of_ne byte, ← same]
    exact ⟨rfl, count⟩

theorem takeLine_sound (target : ℕ) (killed : Bool) (n : ℕ) (queue got : List UInt8)
    (took : takeLine target killed n queue = (status, bytes, k)) (left : got.length + n = target) (marks : ctrl 'D' ∉ got)
    (lines : newline ∉ got) : Call.Sound ⟨target, got ++ bytes, status⟩ := by
  have got' : newline ∉ got.dropLast := fun member => lines (List.mem_of_mem_dropLast member)
  fun_induction takeLine target killed n queue generalizing got status bytes k with
  | case1 =>
    cases took
    rw [List.append_nil]
    exact ⟨left.le, marks, got', left⟩
  | case2 n =>
    cases took
    rw [List.append_nil]
    refine ⟨by simp; omega, marks, got', ?_⟩
    cases killed with
    | false => exact ⟨Nat.succ_pos n, left, lines⟩
    | true => trivial
  | case3 n queue some =>
    cases took
    rw [List.append_nil]
    refine ⟨by simp; omega, marks, got', ?_⟩
    rintro rfl
    rw [List.length_nil] at left
    omega
  | case4 n queue none =>
    cases took
    rw [List.append_nil]
    exact ⟨by simp; omega, marks, got', (List.length_eq_zero_iff.mp (by omega) : got = [])⟩
  | case5 n queue byte =>
    cases took
    exact ⟨by simp; omega, by simp [marks, Ne.symm byte], by simpa using lines, by simp⟩
  | case6 n c queue byte inner status' rest k' inside ih =>
    cases took
    have sound := ih (got ++ [c]) inside (by simp; omega) (by simp [marks, Ne.symm byte])
      (by simp [lines, Ne.symm inner]) (by simpa using lines)
    rwa [List.append_assoc] at sound

/-! ## Every run -/

structure Shows (s : State P) (t : Session P) : Prop where
  holds : Holds s.cons t.terminal
  unfinished : newline ∉ t.terminal.line
  call : s.call = t.call
  delivered : s.delivered = (t.terminal.committed.take t.terminal.taken).filter (· ≠ ctrl 'D')
  eofs : (t.terminal.committed.take t.terminal.taken).count (ctrl 'D') = t.eofs
  calls : ∀ p c, s.call p = some c → c.Sound

theorem Shows.start : Shows (console P).initial (session P).initial where
  holds := ⟨contents_self _ _, (by decide : ((0 : BitVec 32) - 0).toNat = 0), Nat.zero_le _, le_rfl⟩
  unfinished := List.not_mem_nil
  call := rfl
  delivered := rfl
  eofs := rfl
  calls p c none := by cases none

theorem type_committed (t : Terminal) (c : UInt8) : (t.type c).taken = t.taken ∧ t.committed <+: (t.type c).committed := by
  have still : t.taken = t.taken ∧ t.committed <+: t.committed := ⟨rfl, List.prefix_refl _⟩
  unfold Terminal.type
  split
  · exact still
  split
  · exact still
  split
  · exact still
  split
  · generalize (if c = 13 then newline else c) = cooked
    simp only
    split
    · exact ⟨rfl, List.prefix_append _ _⟩
    · exact still
  · exact still

variable {state : State P} {t : Session P}

omit [DecidableEq P] in
theorem Shows.intr (shows : Shows state t) (c : UInt8) :
    Shows { state with cons := consoleintr state.cons c } { t with terminal := t.terminal.type c } := by
  obtain ⟨holds, unfinished⟩ := consoleintr_holds shows.holds shows.unfinished c
  obtain ⟨taken, rest, grown⟩ := type_committed t.terminal c
  have same : (t.terminal.type c).committed.take (t.terminal.type c).taken = t.terminal.committed.take t.terminal.taken := by
    rw [taken, ← grown, List.take_append_of_le_length shows.holds.taken]
  refine ⟨holds, unfinished, shows.call, ?_, ?_, shows.calls⟩
  · rw [same]
    exact shows.delivered
  · rw [same]
    exact shows.eofs

theorem Shows.read (shows : Shows state t) (p : P) {target n : ℕ} {got : List UInt8} (killed : Bool) (left : got.length + n = target)
    (marks : ctrl 'D' ∉ got) (lines : newline ∉ got) :
    Shows (state.consoleread p target n got killed) (t.read p target n got killed) := by
  obtain ⟨⟨status, bytes, k⟩, took⟩ : ∃ out, takeLine target killed n t.terminal.queue = out := ⟨_, rfl⟩
  obtain ⟨ran, holds⟩ := readLoop_holds shows.holds target killed n took
  obtain ⟨bytesTaken, count⟩ := takeLine_taken target killed n _ took
  have split : t.terminal.committed.take (t.terminal.taken + k) =
      t.terminal.committed.take t.terminal.taken ++ t.terminal.queue.take k := List.take_add
  rw [State.consoleread, Session.read]
  simp only [ran, took]
  refine ⟨holds, shows.unfinished, by rw [shows.call], ?_, ?_, fun q c here => ?_⟩
  · rw [split, List.filter_append, ← bytesTaken, shows.delivered]
  · rw [split, List.count_append, shows.eofs, count]
    split_ifs <;> rfl
  · by_cases same : q = p
    · subst same
      simp only [Function.update_self] at here
      obtain rfl := Option.some.inj here
      exact takeLine_sound target killed n _ got took left marks lines
    · simp only [Function.update_of_ne same] at here
      exact shows.calls q c here

omit [DecidableEq P] in
theorem waiting_eq {call : P → Option Call} {p : P} {c : Call} {n : ℕ} (waits : waiting call p = some (c, n)) :
    call p = some c ∧ c.status = .waits n := by
  obtain ⟨c', here, left⟩ := Option.bind_eq_some_iff.mp waits
  obtain ⟨n', wait, equal⟩ := Option.map_eq_some_iff.mp left
  obtain ⟨rfl, rfl⟩ := Prod.mk.inj equal
  refine ⟨here, ?_⟩
  unfold Call.left at wait
  split at wait
  · rename_i status
    rw [status, Option.some.inj wait]
  · cases wait

theorem Shows.step {after : State P} {event : Event P} (shows : Shows state t) (action : (console P).step state event = some after) :
    ∃ t', (session P).step t event = some t' ∧ Shows after t' := by
  cases event with
  | intr c =>
    obtain rfl := Option.some.inj action
    exact ⟨_, rfl, shows.intr c⟩
  | read p n killed =>
    obtain ⟨idle, equal⟩ := Option.ite_none_left_eq_some.mp action
    obtain rfl := Option.some.inj equal
    refine ⟨_, if_neg (shows.call ▸ idle), shows.read p killed ?_ List.not_mem_nil List.not_mem_nil⟩
    rw [List.length_nil, Nat.zero_add]
  | resume p killed =>
    obtain ⟨⟨c, n⟩, waits, equal⟩ := Option.map_eq_some_iff.mp action
    obtain rfl := equal
    obtain ⟨here, status⟩ := waiting_eq waits
    have sound := shows.calls p c here
    have progress := sound.status
    rw [status] at progress
    refine ⟨_, ?_, shows.read p killed progress.2.1 sound.marks progress.2.2⟩
    rw [shows.call] at waits
    exact Option.map_eq_some_iff.mpr ⟨_, waits, rfl⟩

theorem Shows.run {after : State P} {events : List (Event P)} (shows : Shows state t) (ran : (console P).run state events = some after) :
    ∃ t', (session P).run t events = some t' ∧ Shows after t' := by
  induction events generalizing state t with
  | nil =>
    obtain rfl := Option.some.inj ran
    exact ⟨t, rfl, shows⟩
  | cons event events ih =>
    obtain ⟨middle, action, rest⟩ := Option.bind_eq_some_iff.mp ran
    obtain ⟨t₁, stepped, shows⟩ := shows.step action
    obtain ⟨t', finished, shows⟩ := ih shows rest
    exact ⟨t', Option.bind_eq_some_iff.mpr ⟨t₁, stepped, finished⟩, shows⟩

/-- The indices stay in order and within the buffer; what readers get is the committed input without the marks, from its
start; a call that has bytes also stops at a mark and leaves it, and each mark is taken by one call, which returns 0; and
no call goes on after its count, a newline or a mark. -/
theorem console_line_discipline {s : State P} {events : List (Event P)} (ran : (console P).run (console P).initial events = some s) :
    (s.cons.w - s.cons.r).toNat ≤ (s.cons.e - s.cons.r).toNat ∧ (s.cons.e - s.cons.r).toNat ≤ INPUT_BUF_SIZE ∧
    (∃ t, (session P).run (session P).initial events = some t ∧ s.call = t.call ∧
      s.delivered = (t.terminal.committed.take t.terminal.taken).filter (· ≠ ctrl 'D') ∧
      s.delivered <+: t.terminal.committed.filter (· ≠ ctrl 'D') ∧
      (t.terminal.committed.take t.terminal.taken).count (ctrl 'D') = t.eofs) ∧
    ∀ p c, s.call p = some c → c.Sound := by
  obtain ⟨t, meant, shows⟩ := Shows.start.run ran
  have size := shows.holds.size
  have queue := shows.holds.queue
  rw [Terminal.size] at size
  refine ⟨by omega, ?_, ⟨t, meant, shows.call, shows.delivered, ?_, shows.eofs⟩, shows.calls⟩
  · rw [size]
    exact shows.holds.room
  · rw [shows.delivered]
    exact (List.take_prefix _ _).filter _

/-- A line with a correction is typed while its reader waits, and an end of file after it. -/
def corrected : List (Event Unit) :=
  [.read () 10 false, .intr 104, .intr 105, .intr 0x7f, .intr 111, .intr 13, .intr 4, .resume () false, .read () 10 false]

theorem console_line_discipline_corrected : ∃ s, (console Unit).run (console Unit).initial corrected = some s ∧
    s.delivered = [104, 111, 10] ∧ ∃ t, (session Unit).run (session Unit).initial corrected = some t ∧ t.eofs = 1 ∧
      s.delivered <+: t.terminal.committed.filter (· ≠ ctrl 'D') := by
  have bytes : ((console Unit).run (console Unit).initial corrected).map State.delivered = some [104, 111, 10] := by decide +kernel
  have eofs : ((session Unit).run (session Unit).initial corrected).map Session.eofs = some 1 := by decide +kernel
  obtain ⟨s, ran, delivered⟩ := Option.map_eq_some_iff.mp bytes
  obtain ⟨_, _, ⟨t, meant, _, _, start, _⟩, _⟩ := console_line_discipline ran
  rw [meant] at eofs
  exact ⟨s, ran, delivered, t, meant, Option.some.inj eofs, start⟩

end OsProjects.Console
