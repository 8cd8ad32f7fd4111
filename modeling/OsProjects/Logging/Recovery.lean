import OsProjects.Logging.Steps

namespace OsProjects.Logging
open Transition

variable {Thread : Type} [DecidableEq Thread] {sb : Superblock} {s after : State Thread} {t : Thread}
  {logs : Option (BlockNo × Block)} {i : BufNo} {b : BlockNo}

/-! ## How far the recovery has come -/

def Use.rank (n : ℕ) : Use → ℕ
  | .readHead => 501
  | .installFrom _ tail => 17 + 16 * (n - (tail + 1))
  | .installTo _ tail _ => 14 + 16 * (n - (tail + 1))
  | .erase _ => 5
  | _ => 0

def Pc.rank (n : ℕ) : Pc → ℕ
  | .bget _ use => use.rank n + 2
  | .acquiresleep _ _ use => use.rank n + 1
  | .bread _ _ use => use.rank n
  | .brelse _ next => next.rank n + 2
  | .brelseRef _ next => next.rank n + 1
  | .readHead _ => 500
  | .installTrans _ tail => 8 + 16 * (n - tail)
  | .installBlock _ tail _ _ => 13 + 16 * (n - (tail + 1))
  | .eraseHead _ _ => 4
  | .finish _ => 1
  | _ => 0

theorem resume_rank (lh : List BlockNo) (b : BufNo) {use : Use} (recovering : use.stage.recovering = true) (n : ℕ) :
    (resume lh b use).rank n < use.rank n := by
  cases use <;> simp_all [Use.stage, Stage.recovering, resume, Pc.rank, Use.rank]
  omega

theorem moved_rank (moved : Moved sb s t logs after) (recovering : (s.pc t).stage.recovering = true)
    (room : after.lh.length ≤ LOGSIZE) :
    (after.booted = true → s.booted = true ∨ after.pc t = .idle) ∧
      (after.pc t).rank after.lh.length < (s.pc t).rank s.lh.length := by
  have bound : after.lh.length ≤ 30 := room
  cases moved with
  | goto goes =>
    refine ⟨.inl, ?_⟩
    simp only [State.goto, Function.update_self]
    generalize s.pc t = old at goes recovering
    cases goes <;> simp_all [Pc.stage, Stage.recovering, Pc.rank, Use.rank]
    omega
  | hit here | recycle here | acquire here =>
    refine ⟨.inl, ?_⟩
    simp [State.goto, State.setBuf, here, Pc.rank]
  | cached here | fill here =>
    rw [here] at recovering ⊢
    refine ⟨.inl, ?_⟩
    simp only [State.goto, State.setBuf, Function.update_self]
    exact resume_rank _ _ recovering _
  | release holds here =>
    refine ⟨.inl, ?_⟩
    rcases here with inner | ⟨outer, _, rfl | ⟨m, rfl⟩⟩
    · simp [State.goto, State.setBuf, inner, Pc.rank]
    · simp [outer, Pc.stage, Stage.recovering] at recovering
    · simp [outer, Pc.stage, Stage.recovering] at recovering
  | unref here =>
    refine ⟨.inl, ?_⟩
    simp [State.goto, State.setBuf, State.unref, here, Pc.rank]
  | @installBlock recovers tail _ _ here _ write =>
    rw [here] at recovering ⊢
    obtain rfl : recovers = true := recovering
    obtain ⟨_, _, _, rfl⟩ := bwrite_eq_some write
    refine ⟨.inl, ?_⟩
    simp [State.goto, State.setBuf, Pc.rank]
    omega
  | installed here done =>
    refine ⟨.inl, ?_⟩
    simp [State.goto, here, Pc.rank, Use.rank]
    omega
  | eraseHead here write =>
    obtain ⟨_, _, _, rfl⟩ := bwrite_eq_some write
    refine ⟨.inl, ?_⟩
    simp [State.goto, State.setBuf, here, Pc.rank]
  | readHead here =>
    refine ⟨.inl, ?_⟩
    simp only [State.goto, Function.update_self, here, Pc.rank] at bound ⊢
    omega
  | booted here =>
    refine ⟨fun _ => .inr (by simp [State.goto]), ?_⟩
    simp [State.goto, here, Pc.rank]
  | beginOp here | modify here | absorb here | append here | endLast here | endOp here | committed here
  | writeLogBlock here | writeHead here | bunpin here => simp [here, Pc.stage, Stage.recovering] at recovering

/-! ## It can always go on -/

theorem Stage.pins_recovering {stage : Stage} (recovering : stage.recovering = true) (lh : List BlockNo) :
    stage.pins lh = [] := by
  cases stage <;> simp_all [Stage.recovering, Stage.pins]

theorem bwrite_of_holds (block : (s.buf i).blockno = some b)
    (holds : (s.buf i).lock = some t) (d : Block) : ∃ wrote, s.bwrite t i d = some wrote := by
  unfold State.bwrite
  split
  · rw [if_pos holds]
    exact ⟨_, rfl⟩
  · next none => simp [block] at none

theorem Use.exists_not_lock (use : Use) : ∃ i, i ∉ use.locks := by
  have two : ∀ j : BufNo, ∃ i : BufNo, i ≠ j := by
    intro j
    by_cases zero : j = 0
    · exact ⟨1, by rw [zero]; decide⟩
    · exact ⟨0, Ne.symm zero⟩
  cases use <;> simp [Use.locks, two]

omit [DecidableEq Thread] in
theorem bget_of_unused (listed : i ∈ s.order) (unused : (s.buf i).refcnt = 0) (b : BlockNo) :
    ∃ found, s.bget b = some found := by
  unfold State.bget
  split
  · exact ⟨_, rfl⟩
  · cases search : s.order.reverse.find? fun j => (s.buf j).refcnt = 0 with
    | some j => exact ⟨_, rfl⟩
    | none => exact absurd unused (by simpa using List.find?_eq_none.mp search i (by simpa using listed))

section run
variable [Fintype Thread] {c : Option Thread} {mem base view : BlockNo → Block}

structure Alone (t : Thread) (s : State Thread) : Prop where
  others : ∀ t' ≠ t, s.pc t' = .idle
  done : s.booted = true → s.pc t = .idle

section
variable (held : Held sb c mem base view s)
include held

theorem Held.recovering (alone : Alone t s) (off : s.booted = false) :
    (s.pc t).stage.recovering = true ∧ s.stage c = (s.pc t).stage := by
  have committer : c = some t := by
    cases nobody : c with
    | none => simp [(held.control.rest nobody).1] at off
    | some t' =>
      by_contra other
      have idle := alone.others t' fun same => other (by rw [same])
      exact (held.control.here t' nobody).1 (by rw [idle]; rfl)
  have here := held.control.here t committer
  rw [off] at here
  exact ⟨by simpa using here.2.1.symm, held.control.stage here.1⟩

theorem Held.lock_alone (alone : Alone t s) (off : s.booted = false)
    (free : i ∉ (s.pc t).locks) : (s.buf i).lock = none := by
  by_contra locked
  obtain ⟨t', holds⟩ := Option.ne_none_iff_exists'.mp locked
  have member := (held.owned t').held off i holds
  by_cases same : t' = t
  · exact free (same ▸ member)
  · simp [alone.others t' same, Pc.locks] at member

theorem Held.unused_alone (alone : Alone t s) (off : s.booted = false)
    (free : i ∉ (s.pc t).locks) (refs : (s.pc t).refs i = 0) : (s.buf i).refcnt = 0 := by
  obtain ⟨recovering, stage⟩ := held.recovering alone off
  have none : s.refs i = 0 := by
    refine weigh_const_zero fun t' => ?_
    by_cases same : t' = t
    · rw [same, refs]
    · rw [alone.others t' same]
      rfl
  have pinned : (s.buf i).pinned ((s.stage c).pins s.lh) = 0 := by
    rw [stage, Stage.pins_recovering recovering, Buf.pinned]
    split <;> simp
  rw [held.cached.counted i, none, pinned, Buf.held, held.lock_alone alone off free]
  rfl

omit [DecidableEq Thread] in
theorem Held.apart {use : Use} (here : s.pc t = .acquiresleep b i use) : i ∉ use.locks := by
  have owns := held.owned t
  have tail := held.inRange t
  rw [here] at owns tail
  intro locked
  have block := owns.block b i use (.inl rfl)
  have differ : ∀ k ∈ use.tail, (s.buf i).blockno = some (sb.logBlock k) → ¬ b = s.lh[k]?.getD 0 := by
    intro k entry slot same
    have bound : k < s.lh.length := tail k entry
    have equal : sb.logBlock k = s.lh[k] := by
      rw [block, same, List.getElem?_eq_getElem bound] at slot
      exact (Option.some.inj slot).symm
    refine held.logged.home s.lh[k] (List.getElem_mem bound) ?_
    rw [← equal]
    exact sb.layout.slot_reserved k (bound.trans_le held.logged.room)
  cases use with
  | logFrom k toBuf | installTo _ k toBuf =>
    obtain rfl : i = toBuf := by simpa [Use.locks] using locked
    exact differ k rfl (owns.reads (i, sb.logBlock k) (by simp [Pc.reads, Use.reads])).1
      (owns.target b i _ (.inr (.inl rfl)) _ rfl)
  | _ => simp [Use.locks] at locked

theorem Held.run_enabled (alone : Alone t s) (off : s.booted = false) : ∃ after, act sb s t .run = some after := by
  obtain ⟨recovering, stage⟩ := held.recovering alone off
  have owns := held.owned t
  have free := fun {i} => held.lock_alone alone off (i := i)
  have unused := fun {i} => held.unused_alone alone off (i := i)
  simp only [act]
  cases here : s.pc t with
  | bget b use =>
    rw [here] at unused
    obtain ⟨i, apart⟩ := use.exists_not_lock
    obtain ⟨found, search⟩ := bget_of_unused (held.cached.listed i) (unused apart rfl) b
    simp [run, search]
  | acquiresleep b i use =>
    rw [here] at owns free
    simp [run, free (held.apart here)]
  | bread b i use => simp [run]
  | brelse i next =>
    rw [here] at owns
    simp [run, owns.locks i (by simp [Pc.locks])]
  | brelseRef i next => simp [run]
  | installTrans recovers tail =>
    simp only [run]
    split <;> exact ⟨_, rfl⟩
  | installBlock recovers tail lbuf dbuf =>
    rw [here] at owns
    obtain ⟨wrote, write⟩ := bwrite_of_holds (owns.reads (dbuf, s.lh[tail]?.getD 0) (by simp [Pc.reads])).1
      (owns.locks dbuf (by simp [Pc.locks])) (s.buf lbuf).data
    simp [run, write]
  | eraseHead recovers i =>
    rw [here] at owns
    obtain ⟨wrote, write⟩ := bwrite_of_holds (owns.reads (i, sb.logstart) (by simp [Pc.reads])).1
      (owns.locks i (by simp [Pc.locks])) (Logging.writeHead s.lh (s.buf i).data)
    simp [run, write]
  | readHead i => simp [run]
  | finish recovers => cases recovers <;> simp [run]
  | _ => simp [here, Pc.stage, Stage.recovering] at recovering

end

def Recovering (sb : Superblock) (base : BlockNo → Block) (t : Thread) (s : State Thread) : Prop :=
  (∃ c mem, Held sb c mem base base s) ∧ Alone t s

theorem Recovering.step (recovering : Recovering sb base t s) (off : s.booted = false) :
    ∃ after, act sb s t .run = some after ∧ Recovering sb base t after ∧
      (after.pc t).rank after.lh.length < (s.pc t).rank s.lh.length := by
  obtain ⟨⟨c, mem, held⟩, alone⟩ := recovering
  obtain ⟨after, action⟩ := held.run_enabled alone off
  have moved : Moved sb s t none after := run_moved action
  obtain ⟨c', mem', kept⟩ := held.moved moved (by simp)
  rw [ite_self] at kept
  obtain ⟨last, lower⟩ := moved_rank moved (held.recovering alone off).1 (kept.logged.room.trans sb.capacity_le)
  refine ⟨after, action, ⟨⟨c', mem', kept⟩, ?_, ?_⟩, lower⟩
  · intro t' other
    obtain ⟨pc, pcs⟩ := moved_pc moved
    rw [pcs, Function.update_of_ne other]
    exact alone.others t' other
  · exact fun up => (last up).resolve_left (by simp [off])

theorem Recovering.clean (recovering : Recovering sb base t s) (up : s.booted = true)
    (home : ¬ sb.inLog b) : s.disk b = base b := by
  obtain ⟨⟨c, mem, held⟩, alone⟩ := recovering
  have nobody : c = none := by
    cases committer : c with
    | none => rfl
    | some t' =>
      refine absurd ?_ (held.control.here t' committer).1
      by_cases same : t' = t
      · rw [same, alone.done up]
        rfl
      · rw [alone.others t' same]
        rfl
  subst nobody
  have empty : sb.layout.logged s.disk = [] := held.logged.holds.empty
  exact held.logged.durable.clean empty home

theorem recovers {disk : BlockNo → Block} (durable : sb.layout.Durable disk base) (disk₀ : BlockNo → Block)
    (t₀ t : Thread) :
    ∃ count after, (system sb disk₀ t₀).run (boot sb disk t) (List.replicate count (.act t .run)) = some after ∧
      after.booted = true ∧ ∀ b, ¬ sb.inLog b → after.disk b = base b := by
  have start : Recovering sb base t (boot sb disk t) :=
    ⟨⟨_, _, held_boot durable t⟩, fun t' other => by simp [boot, other], by simp [boot]⟩
  obtain ⟨count, after, steps, recovering, booted⟩ :=
    System.run_until (Recovering sb base t) (fun s => s.booted = true) (fun s => (s.pc t).rank s.lh.length)
      (.act t .run) (S := system sb disk₀ t₀) (fun s recovering off => recovering.step (by simpa using off)) start
  exact ⟨count, after, steps, booted, fun b home => recovering.clean booted home⟩

end run

end OsProjects.Logging
