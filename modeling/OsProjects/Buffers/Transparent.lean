import OsProjects.Buffers.Cache

namespace OsProjects.Buffers
open Transition Linked

variable {Thread Data : Type} [Fintype Thread] [DecidableEq Thread] {s s' : State Thread Data} {stored : Stored Data} {t : Thread}
  {disk : Key → Data} {data : Index → Data} {label : Thread × Act Data} {b : Index}

def Counts (s : State Thread Data) (label : Thread × Act Data) : Prop :=
  match label.2, s.pc label.1 with
  | .go, .bget key => ∀ b, (s.buf b).key = key → (s.buf b).refcnt.toNat + 1 < 2 ^ 32
  | .bpin b, _ => (s.buf b).refcnt.toNat + 1 < 2 ^ 32
  | _, _ => True

/-- What an act that does not panic does. -/
inductive Moved (s : State Thread Data) (t : Thread) : Act Data → State Thread Data → Prop
  | bread {key : Key} (here : s.pc t = .idle) (dev : key.1 ≠ 0) : Moved s t (.bread key) (s.at t (.bget key))
  | store {b : Index} {data : Data} (here : s.pc t = .idle) (lock : (s.buf b).lock = some t) :
      Moved s t (.store b data) (s.set b { s.buf b with data := data })
  | bwrite {b : Index} (here : s.pc t = .idle) (lock : (s.buf b).lock = some t) :
      Moved s t (.bwrite b) { s with disk := Function.update s.disk (s.buf b).key (s.buf b).data }
  | brelse {b : Index} (here : s.pc t = .idle) (lock : (s.buf b).lock = some t) :
      Moved s t (.brelse b) ((s.set b { s.buf b with lock := none }).at t (.release b))
  | bpin {b : Index} (here : s.pc t = .idle) (lock : (s.buf b).lock = some t) :
      Moved s t (.bpin b) { s.set b { s.buf b with refcnt := (s.buf b).refcnt + 1 } with
        pins := Function.update s.pins b (s.pins b + 1) }
  | bunpin {b : Index} (here : s.pc t = .idle) (lock : (s.buf b).lock = some t) (pinned : 0 < s.pins b) :
      Moved s t (.bunpin b) { s.set b { s.buf b with refcnt := (s.buf b).refcnt - 1 } with
        pins := Function.update s.pins b (s.pins b - 1) }
  | bget {key : Key} {b : Index} {buf : Buf Thread Data} (here : s.pc t = .bget key) (found : bget s key = .ok (b, buf)) :
      Moved s t .go ((s.set b buf).at t (.wait key b))
  | wait {key : Key} {b : Index} (here : s.pc t = .wait key b) (free : (s.buf b).lock = none) :
      Moved s t .go ((s.set b { s.buf b with lock := some t }).at t (.fill key b))
  | cached {key : Key} {b : Index} (here : s.pc t = .fill key b) (valid : (s.buf b).valid = true) :
      Moved s t .go (s.at t (.got key b))
  | fill {key : Key} {b : Index} (here : s.pc t = .fill key b) (invalid : (s.buf b).valid = false) :
      Moved s t .go ((s.set b { s.buf b with data := s.disk (s.buf b).key, valid := true }).at t (.got key b))
  | got {key : Key} {b : Index} (here : s.pc t = .got key b) : Moved s t .go (s.at t .idle)
  | release {b : Index} (here : s.pc t = .release b) : Moved s t .go ((release s b).at t .idle)

omit [Fintype Thread] in
theorem step_moved {act : Act Data} (action : (system disk data).step s (t, act) = some s') : Moved s t act s' := by
  obtain ⟨outcome, moved, ok⟩ := Option.bind_eq_some_iff.mp action
  cases outcome with
  | error panic => cases ok
  | ok after =>
    obtain rfl := Option.some.inj ok
    cases here : s.pc t <;> cases act <;> simp only [result, go, here, pure, Except.pure, reduceCtorEq,
      Option.ite_none_right_eq_some, Option.some.injEq, Except.ok.injEq] at moved
    case idle.bread => exact moved.2 ▸ .bread here moved.1
    case idle.store => exact moved.2 ▸ .store here moved.1
    case idle.bpin => exact moved.2 ▸ .bpin here moved.1
    case idle.bunpin => exact moved.2 ▸ .bunpin here moved.1.1 moved.1.2
    case idle.bwrite | idle.brelse =>
      split at moved <;> rename_i lock <;> cases moved
      first | exact .bwrite here lock | exact .brelse here lock
    case bget.go key =>
      cases found : bget s key <;> rw [found] at moved <;> cases moved
      exact .bget here found
    case wait.go => exact moved.2 ▸ .wait here moved.1
    case fill.go =>
      split at moved <;> rename_i valid <;> cases moved
      · exact .cached here valid
      · exact .fill here (by simpa using valid)
    case got.go => exact moved ▸ .got here
    case release.go => exact moved ▸ .release here

theorem Inv.step (inv : Inv s stored) (counts : Counts s label)
    (action : (system disk data).step s label = some s') : Inv s' (note s label stored) := by
  obtain ⟨t, act⟩ := label
  have moved := step_moved action
  cases moved with
  | bread here dev =>
    refine inv.quiet (t := t) (fun b => by simp [here, Pc.waits]) (by simp) (by simp [Pc.reads]) ?_ (by simp [here])
    rintro _ ⟨⟩
    exact dev
  | store here lock => exact inv.store here lock _ rfl
  | bwrite => exact inv.write _
  | brelse here lock => exact inv.unlock here lock
  | @bpin b here lock =>
    refine inv.pin here lock ?_
    simp only [Counts] at counts
    have more : ((s.buf b).refcnt + 1).toNat = (s.buf b).refcnt.toNat + 1 := by bv_omega
    omega
  | @bunpin b here lock pinned =>
    refine inv.pin here lock ?_
    have positive := inv.held.refcnt_ne_zero (Held.users_pos lock)
    have less : ((s.buf b).refcnt - 1).toNat + 1 = (s.buf b).refcnt.toNat := by bv_omega
    omega
  | @bget key b buf here found =>
    simp only [Counts, here] at counts
    rcases inv.bget_cases found with ⟨cached, rfl⟩ | ⟨missing, unused, rfl⟩
    · have kept : evicted s key = none := by simp [evicted, found]
      simp only [note, here, kept]
      exact inv.bgetFound here cached (counts b cached)
    · have old : evicted s key = some (s.buf b).key := by simp [evicted, found, Ne.symm (missing b)]
      simp only [note, here, old]
      exact inv.bgetNew here missing unused rfl
  | wait here free =>
    simp only [note, here]
    exact inv.wait here free
  | @cached key b here valid =>
    simp only [note, here]
    refine inv.quiet (t := t) (fun b' => by simp [here, Pc.waits]) ?_ ?_ (by simp) ?_
    · rintro _ _ (⟨⟨⟩⟩ | ⟨⟨⟩⟩)
      exact inv.held.locked t key b (.inl here)
    · rintro _ _ (⟨⟨⟩⟩ | ⟨⟨⟩⟩ | ⟨⟨⟩⟩)
      exact inv.held.named t key b (.inr (.inl here))
    · intro key' b' there
      obtain ⟨_, rfl⟩ : key = key' ∧ b = b' := by simpa using here.symm.trans there
      exact valid
  | fill here invalid =>
    simp only [note, here]
    exact inv.fill here invalid
  | got here =>
    simp only [note, here]
    exact inv.quiet (t := t) (fun b' => by simp [here, Pc.waits]) (by simp) (by simp [Pc.reads]) (by simp) (by simp [here])
  | release here =>
    have done := inv.release here
    have same : (note s (t, .go) stored).resident = stored.resident := by
      simp only [note, here]
      split <;> rfl
    exact ⟨done.held, done.sound.loaded, same ▸ done.sound.content, same ▸ done.sound.resident⟩

/-! ## Buffers in use -/

omit [Fintype Thread] [DecidableEq Thread] in
theorem used_of_set {b' : Index} {buf : Buf Thread Data} (bufs : s'.buf = Function.update s.buf b' buf)
    (here : (s.buf b').refcnt ≠ 0 → buf.key = (s.buf b').key ∧ buf.refcnt ≠ 0) (used : (s.buf b).refcnt ≠ 0) :
    (s'.buf b).key = (s.buf b).key ∧ (s'.buf b).refcnt ≠ 0 := by
  rw [bufs]
  by_cases this : b = b'
  · subst this
    rw [Function.update_self]
    exact here used
  · rw [Function.update_of_ne this]
    exact ⟨rfl, used⟩

theorem used_step (inv : Inv s stored)
    (counts : Counts s label) (action : (system disk data).step s label = some s') (used : (s.buf b).refcnt ≠ 0) :
    (s'.buf b).key = (s.buf b).key ∧
      ((s'.buf b).refcnt ≠ 0 ∨ label.2 = .go ∧ s.pc label.1 = .release b ∧ (s.buf b).refcnt = 1) := by
  have inv' := inv.step counts action
  obtain ⟨t, act⟩ := label
  have moved := step_moved action
  cases moved with
  | bread | bwrite | cached | got => exact ⟨rfl, .inl used⟩
  | store | brelse | wait | fill =>
    refine (used_of_set rfl (fun used' => ?_) used).imp id .inl
    exact ⟨rfl, used'⟩
  | bpin =>
    refine (used_of_set rfl (fun _ => ?_) used).imp id .inl
    refine ⟨rfl, ?_⟩
    simp only [Counts] at counts ⊢
    bv_omega
  | @bunpin b' here lock =>
    refine (used_of_set rfl (fun _ => ?_) used).imp id .inl
    have held := inv'.held.refcnt_ne_zero (b := b') (Held.users_pos (t := t) (by simpa [State.set] using lock))
    exact ⟨rfl, by simpa [State.set] using held⟩
  | @bget key b' buf here found =>
    simp only [Counts, here] at counts
    refine (used_of_set rfl (fun used' => ?_) used).imp id .inl
    rcases inv.bget_cases found with ⟨cached, rfl⟩ | ⟨missing, unused, rfl⟩
    · have room := counts b' cached
      refine ⟨rfl, ?_⟩
      simp only
      bv_omega
    · exact absurd unused used'
  | @release b' here =>
    by_cases last : b = b' ∧ (s.buf b').refcnt = 1
    · obtain ⟨rfl, last⟩ := last
      refine ⟨?_, .inr ⟨rfl, here, last⟩⟩
      simp [Buffers.release, State.at, State.set]
    · by_cases this : b = b'
      · subst this
        have more : (s.buf b).refcnt ≠ 1 := fun one => last ⟨rfl, one⟩
        refine (used_of_set rfl (fun used' => ?_) used).imp id .inl
        refine ⟨rfl, ?_⟩
        simp only
        bv_omega
      · refine ⟨?_, .inl ?_⟩ <;> simp only [Buffers.release, State.at, State.set, Function.update_of_ne this]
        exact used

def Kept (s : State Thread Data) (stored : Stored Data) : Prop :=
  ∀ key data, stored.referenced key = some data →
    stored.resident key = some data ∧ ∃ b, (s.buf b).key = key ∧ (s.buf b).refcnt ≠ 0

omit [DecidableEq Thread] in
theorem evicted_unused {key old : Key} (inv : Inv s stored) (gone : evicted s key = some old) :
    ∃ b, old = (s.buf b).key ∧ (s.buf b).refcnt = 0 := by
  unfold evicted at gone
  split at gone
  · rename_i b buf found
    obtain ⟨other, equal⟩ := Option.ite_none_left_eq_some.mp gone
    rcases inv.bget_cases found with ⟨cached, rfl⟩ | ⟨missing, unused, rfl⟩
    · exact absurd rfl other
    · exact ⟨b, (Option.some.inj equal).symm, unused⟩
  · cases gone

theorem Kept.step (kept : Kept s stored) (inv : Inv s stored)
    (counts : Counts s label) (action : (system disk data).step s label = some s') : Kept s' (note s label stored) := by
  have inv' := inv.step counts action
  intro key value now
  have still : ∀ b, (s.buf b).key = key → (s.buf b).refcnt ≠ 0 →
      ¬ (label.2 = .go ∧ s.pc label.1 = .release b ∧ (s.buf b).refcnt = 1) → ∃ b, (s'.buf b).key = key ∧ (s'.buf b).refcnt ≠ 0 := by
    intro b same used notLast
    obtain ⟨same', used'⟩ := used_step inv counts action used
    exact ⟨b, same'.trans same, used'.resolve_right notLast⟩
  -- Nothing is noted by the step.
  have quiet (same : note s label stored = stored) (notLast : label.2 ≠ .go ∨ ∀ b, s.pc label.1 ≠ .release b) :
      (note s label stored).resident key = some value ∧ ∃ b, (s'.buf b).key = key ∧ (s'.buf b).refcnt ≠ 0 := by
    rw [same] at now ⊢
    obtain ⟨there, b, name, used⟩ := kept key value now
    exact ⟨there, still b name used fun ⟨going, here, _⟩ => notLast.elim (· going) (· b here)⟩
  obtain ⟨t, act⟩ := label
  cases act with
  | store b data =>
    have lock : (s.buf b).lock = some t := by
      cases step_moved action
      assumption
    have used := inv.held.refcnt_ne_zero (Held.users_pos lock)
    simp only [note] at now ⊢
    by_cases this : key = (s.buf b).key
    · subst this
      rw [Function.update_self] at now ⊢
      exact ⟨now, still b rfl used (by simp)⟩
    · rw [Function.update_of_ne this] at now ⊢
      obtain ⟨there, b', name, used'⟩ := kept key value now
      exact ⟨there, still b' name used' (by simp)⟩
  | go =>
    cases here : s.pc t with
    | bget key' =>
      cases gone : evicted s key' with
      | none => exact quiet (by simp [note, here, gone]) (by simp [here])
      | some old =>
        simp only [note, here, gone] at now ⊢
        obtain ⟨there, b, rfl, used⟩ := kept key value now
        obtain ⟨b', rfl, unused⟩ := evicted_unused inv gone
        have apart : (s.buf b).key ≠ (s.buf b').key := by
          intro equal
          obtain rfl := inv.held.unique b b' equal (inv.held.lockedDevice b (inv.held.users_ne_zero used))
          exact used unused
        rw [Function.update_of_ne apart]
        exact ⟨there, still b rfl used (by simp [here])⟩
    | release b =>
      by_cases last : (s.buf b).refcnt = 1
      · simp only [note, here, if_pos last] at now ⊢
        have this : key ≠ (s.buf b).key := by
          rintro rfl
          simp at now
        rw [Function.update_of_ne this] at now
        obtain ⟨there, b', name, used⟩ := kept key value now
        refine ⟨there, still b' name used fun ⟨_, here', _⟩ => ?_⟩
        obtain rfl : b = b' := by simpa using here.symm.trans here'
        exact this name.symm
      · simp only [note, here, if_neg last] at now ⊢
        obtain ⟨there, b', name, used⟩ := kept key value now
        refine ⟨there, still b' name used fun ⟨_, here', one⟩ => ?_⟩
        obtain rfl : b = b' := by simpa using here.symm.trans here'
        exact last one
    | _ => exact quiet (by simp [note, here]) (by simp [here])
  | _ => exact quiet rfl (by simp)

/-! ## Any run -/

theorem ring_binit : Ring binit (List.finRange NBUF).reverse := by
  have steps : ∀ (l rest : List Index) (k : Links Index), Ring k l → (rest.reverse ++ l).Nodup →
      Ring (rest.foldl Links.pushFront k) (rest.reverse ++ l) := by
    intro l rest
    induction rest generalizing l with
    | nil => exact fun k ring _ => ring
    | cons b rest ih =>
      intro k ring nodup
      rw [List.reverse_cons, List.append_assoc, List.singleton_append] at nodup ⊢
      have fresh : b ∉ l := (List.nodup_cons.mp (List.nodup_append.mp nodup).2.1).1
      exact ih (b :: l) (k.pushFront b) (ring.pushFront fresh) nodup
  have done := steps [] (List.finRange NBUF) ⟨fun _ => none, fun _ => none⟩ ⟨List.nodup_nil, rfl, rfl⟩
    (by simpa using List.nodup_finRange NBUF)
  simpa [binit] using done

omit [DecidableEq Thread] in
theorem inv_start (disk : Key → Data) (data : Index → Data) : Inv (start disk data : State Thread Data) .none := by
  constructor
  · refine ⟨⟨_, ring_binit, by simp⟩, ?_, ?_, ?_, ?_, ?_, ?_⟩ <;> simp [start, users, weigh, owned, Pc.waits, Pc.reads]
  · constructor <;> simp [start, Stored.none]

/-- The list goes through every buffer once, in both directions; no block has two buffers; a buffer with a reference is not
given to another block; and `bread` gives the contents last stored for the block as long as its buffer was not given to
another one, so always while it was referenced, and else those on the disk. -/
theorem cache_is_transparent {disk : Key → Data} {data : Index → Data}
    (reached : ((system disk data).recorded .none note).ReachedBy (fun x label => Counts x.1 label) (s, stored)) :
    (∃ l, Ring s.links l ∧ l.length = NBUF ∧ ∀ b, b ∈ l) ∧
    (∀ b b', (s.buf b).key = (s.buf b').key → (s.buf b).key.1 ≠ 0 → b = b') ∧
    (∀ label s', Counts s label → (system disk data).step s label = some s' →
      ∀ b, (s.buf b).refcnt ≠ 0 → (s'.buf b).key = (s.buf b).key) ∧
    ∀ t key b, s.pc t = .got key b → (s.buf b).key = key ∧
      (s.buf b).data = (stored.resident key).getD (s.disk key) ∧
      ∀ value, stored.referenced key = some value → (s.buf b).data = value := by
  obtain ⟨inv, kept⟩ : Inv s stored ∧ Kept s stored := by
    refine System.ReachedBy.invariant (fun x => Inv x.1 x.2 ∧ Kept x.1 x.2) ⟨inv_start disk data, ?_⟩
      (fun x label x' _ before counts action => ?_) reached
    · intro key value known
      cases known
    · obtain ⟨moved, equal⟩ := System.recorded_step action
      rw [equal]
      exact ⟨before.1.step counts moved, before.2.step before.1 counts moved⟩
  obtain ⟨l, ring, all⟩ := inv.held.ring
  refine ⟨⟨l, ring, length_of_ring ring all, all⟩, inv.held.unique,
    fun label s' counts action b used => (used_step inv counts action used).1, fun t key b here => ?_⟩
  have lock := inv.held.locked t key b (.inr here)
  have same := inv.held.named t key b (.inr (.inr here))
  have dev := inv.held.lockedDevice b (Held.users_pos lock).ne'
  have valid := (inv.sound.loaded t b lock).resolve_left fun ⟨key', there⟩ => by cases here.symm.trans there
  have content := inv.sound.content b valid dev
  rw [same] at content
  refine ⟨same, content, fun value known => ?_⟩
  rw [content, (kept key value known).1]
  rfl

/-- A thread reads a block, stores into it, gives it back and reads it again, with some act in between. -/
def readTwice (between : List (Bool × Act ℕ)) : List (Bool × Act ℕ) :=
  let read : List (Bool × Act ℕ) := [(true, .bread (1, 5)), (true, .go), (true, .go), (true, .go)]
  read ++ [(true, .go), (true, .store 0 9)] ++ between ++ [(true, .brelse 0), (true, .go)] ++ read

instance (s : State Bool ℕ) (label : Bool × Act ℕ) : Decidable (Counts s label) := by
  unfold Counts
  split <;> infer_instance

theorem cache_is_transparent_pinned : ∃ (s : State Bool ℕ) (stored : Stored ℕ),
    ((system (fun _ => 0) fun _ => 0).recorded .none note).ReachedBy (fun x label => Counts x.1 label) (s, stored) ∧
    s.pc true = .got (1, 5) 0 ∧ stored.referenced (1, 5) = some 9 ∧ s.disk (1, 5) = 0 ∧ (s.buf 0).data = 9 := by
  have checked : (((system (fun _ => 0) fun _ => 0).recorded .none note).runBy (fun x label => Counts x.1 label)
      (start (fun _ => 0) fun _ => 0, .none) (readTwice [(true, .bpin 0)])).map (fun x => (x.1.pc true, x.1.disk (1, 5),
        x.2.referenced (1, 5))) = some (.got (1, 5) 0, 0, some 9) := by
    decide +kernel
  obtain ⟨⟨s, stored⟩, result, shown⟩ := Option.map_eq_some_iff.mp checked
  have reached := System.ReachedBy.runBy .initial result
  obtain ⟨here, disk, known⟩ : s.pc true = .got (1, 5) 0 ∧ s.disk (1, 5) = 0 ∧ stored.referenced (1, 5) = some 9 := by
    simpa using shown
  exact ⟨s, stored, reached, here, known, disk, ((cache_is_transparent reached).2.2.2 true (1, 5) 0 here).2.2 9 known⟩

/-- Not pinned, the buffer is without a reference for a while, and still has what was stored in it. -/
theorem unreferenced_buffer_not_reread : ∃ (s : State Bool ℕ) (stored : Stored ℕ),
    ((system (fun _ => 0) fun _ => 0).recorded .none note).Reachable (s, stored) ∧
    s.pc true = .got (1, 5) 0 ∧ stored.referenced (1, 5) = none ∧ (s.buf 0).data ≠ s.disk (1, 5) := by
  have checked : (((system (fun _ => 0) fun _ => 0).recorded .none note).run
      (start (fun _ => 0) fun _ => 0, .none) (readTwice [])).map (fun x => (x.1.pc true, x.1.disk (1, 5),
        x.2.referenced (1, 5), (x.1.buf 0).data)) = some (.got (1, 5) 0, 0, none, 9) := by
    decide +kernel
  obtain ⟨⟨s, stored⟩, result, shown⟩ := Option.map_eq_some_iff.mp checked
  obtain ⟨here, disk, unknown, data⟩ : s.pc true = .got (1, 5) 0 ∧ s.disk (1, 5) = 0 ∧ stored.referenced (1, 5) = none ∧
      (s.buf 0).data = 9 := by
    simpa using shown
  refine ⟨s, stored, System.Reachable.run .initial result, here, unknown, ?_⟩
  rw [disk, data]
  decide

/-! ## A count that wraps -/

def State.pinned (s : State Thread Data) (b : Index) (count : ℕ) : State Thread Data :=
  { s.set b { s.buf b with refcnt := (s.buf b).refcnt + .ofNat 32 count } with
    pins := Function.update s.pins b (s.pins b + count) }

omit [Fintype Thread] in
theorem reachable_pinned {t : Thread}
    (reachable : (system disk data).Reachable s) (idle : s.pc t = .idle) (lock : (s.buf b).lock = some t) (count : ℕ) :
    (system disk data).Reachable (s.pinned b count) := by
  induction count with
  | zero => simpa [State.pinned, State.set] using reachable
  | succ count ih =>
    have action : (system disk data).step (s.pinned b count) (t, .bpin b) = some (s.pinned b (count + 1)) := by
      simp [system, result, State.pinned, State.set, idle, lock, BitVec.ofNat_add, add_assoc]
      rfl
    exact .next ih trivial action

/-- With 2³² references the buffer of a thread that holds its lock is given to another block. -/
theorem wrapped_refcnt_recycled : ∃ s s' : State Bool ℕ, (system (fun _ => 0) fun _ => 0).Reachable s ∧
    (system (fun _ => 0) fun _ => 0).step s (false, .go) = some s' ∧
    (s.buf 0).lock = some true ∧ (s.buf 0).key = (1, 5) ∧ (s'.buf 0).lock = some true ∧ (s'.buf 0).key = (1, 6) := by
  let read : List (Bool × Act ℕ) := [(true, .bread (1, 5)), (true, .go), (true, .go), (true, .go), (true, .go)]
  have checked : ((system (fun _ => 0) fun _ => 0).run (start (fun _ => 0) fun _ => 0) (read ++ [(false, .bread (1, 6))])).map
      (fun s => (decide (s.pc true = .idle ∧ (s.buf 0).lock = some true ∧ (s.buf 0).key = (1, 5)), ((system (fun _ => 0) fun _ => 0).step (s.pinned 0 (2 ^ 32 - 1))
        (false, .go)).map fun s' => ((s'.buf 0).lock, (s'.buf 0).key))) =
      some (true, some (some true, (1, 6))) := by
    decide +kernel
  obtain ⟨s, result, shown⟩ := Option.map_eq_some_iff.mp checked
  simp only [Prod.mk.injEq, decide_eq_true_eq] at shown
  obtain ⟨⟨idle, lock, key⟩, recycled⟩ := shown
  obtain ⟨s', action, after⟩ := Option.map_eq_some_iff.mp recycled
  exact ⟨_, s', reachable_pinned (System.Reachable.run .initial result) idle lock _, action, by simpa [State.pinned, State.set],
    by simpa [State.pinned, State.set], congrArg Prod.fst after, congrArg Prod.snd after⟩

end OsProjects.Buffers
