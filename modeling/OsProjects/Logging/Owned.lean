import OsProjects.Logging.Cache
import OsProjects.Logging.Control

namespace OsProjects.Logging
open Transition

variable {Thread : Type} {sb : Superblock} {s after : State Thread} {t : Thread} {logs : Option (BlockNo × Block)}
  {t' : Thread} {pc pc' : Pc} {use : Use} {i : BufNo}

structure Owns (sb : Superblock) (s : State Thread) (t : Thread) (pc : Pc) : Prop where
  wf : pc.wf = true
  locks : ∀ i ∈ pc.locks, (s.buf i).lock = some t
  nodup : pc.locks.Nodup
  modified : ∀ i ∈ pc.modified, (s.buf i).lock = some t
  apart : ∀ i ∈ pc.locks, i ∉ pc.modified
  valid : ∀ i, (s.buf i).lock = some t → (s.buf i).valid = true ∨ ∃ b use, pc = .bread b i use
  block : ∀ b i use, pc = .acquiresleep b i use ∨ pc = .bread b i use → (s.buf i).blockno = some b
  reads : ∀ x ∈ pc.reads sb s.lh, (s.buf x.1).blockno = some x.2 ∧ (s.buf x.1).valid = true
  target : ∀ b i use, pc = .bget b use ∨ pc = .acquiresleep b i use ∨ pc = .bread b i use →
    ∀ b' ∈ use.target sb s.lh, b = b'
  held : s.booted = false → ∀ i, (s.buf i).lock = some t → i ∈ pc.locks

inductive Touched (t : Thread) (x x' : Buf Thread) : Prop
  | same (lock : x'.lock = x.lock) (blockno : x'.blockno = x.blockno) (valid : x'.valid = x.valid)
  | own (holds : x.lock = some t) (lock : x'.lock = some t ∨ x'.lock = none) (blockno : x'.blockno = x.blockno)
  | acquire (free : x.lock = none) (lock : x'.lock = some t) (blockno : x'.blockno = x.blockno)
  | recycle (unused : x.refcnt = 0) (lock : x'.lock = x.lock)

variable {x x' : Buf Thread}

theorem Touched.other (touched : Touched t x x') (used : x.refcnt = 0 → x.lock = none)
    (other : t' ≠ t) (holds : x.lock = some t') :
    x'.lock = some t' ∧ x'.blockno = x.blockno ∧ x'.valid = x.valid := by
  cases touched with
  | same lock blockno valid => exact ⟨lock.trans holds, blockno, valid⟩
  | own mine => exact absurd (Option.some.inj (holds.symm.trans mine)) other
  | acquire free => simp [free] at holds
  | recycle unused => simp [used unused] at holds

theorem Touched.lock_other (touched : Touched t x x') (other : t' ≠ t)
    (holds : x'.lock = some t') : x.lock = some t' := by
  cases touched with
  | same lock => exact lock ▸ holds
  | own _ lock => rcases lock with mine | free <;> simp_all
  | acquire _ lock => exact absurd (Option.some.inj (holds.symm.trans lock)) other
  | recycle _ lock => exact lock ▸ holds

theorem Touched.block (touched : Touched t x x') (used : x.refcnt ≠ 0) : x'.blockno = x.blockno := by
  cases touched with
  | same _ blockno | own _ _ blockno | acquire _ _ blockno => exact blockno
  | recycle unused => exact absurd unused used

theorem Pc.reads_locks {lh : List BlockNo} {x : BufNo × BlockNo} (read : x ∈ pc.reads sb lh) : x.1 ∈ pc.locks := by
  cases pc with
  | bget _ use | acquiresleep _ _ use => cases use <;> simp_all [Pc.reads, Use.reads, Pc.locks, Use.locks]
  | bread _ _ use => cases use <;> simp_all [Pc.reads, Use.reads, Pc.locks, Use.locks]
  | writeLogBlock | installBlock | bunpin => rcases List.mem_cons.mp read with rfl | last <;> simp_all [Pc.locks]
  | _ => simp_all [Pc.reads, Pc.locks]

theorem Owns.reads_lock (owns : Owns sb s t pc) {x : BufNo × BlockNo} (read : x ∈ pc.reads sb s.lh) :
    (s.buf x.1).lock = some t :=
  owns.locks x.1 (Pc.reads_locks read)

theorem Pc.reads_outside (outside : pc.stage = .outside) (lh : List BlockNo) : pc.reads sb lh = [] := by
  cases pc with
  | bget _ use | acquiresleep _ _ use | bread _ _ use =>
    cases use <;> first | rfl | simp [Pc.stage, Use.stage] at outside
  | _ => first | rfl | simp [Pc.stage] at outside

theorem Use.target_outside (outside : use.stage = .outside) (lh : List BlockNo) : use.target sb lh = none := by
  cases use <;> first | rfl | simp [Use.stage] at outside

theorem Owns.frame (owns : Owns sb s t' pc) (other : t' ≠ t)
    (touched : ∀ i, Touched t (s.buf i) (after.buf i)) (used : ∀ i, (s.buf i).refcnt = 0 → (s.buf i).lock = none)
    (waiting : ∀ b i use, pc = .acquiresleep b i use → (after.buf i).blockno = (s.buf i).blockno)
    (lh : after.lh = s.lh ∨ pc.stage = .outside) (down : after.booted = false → s.booted = false) :
    Owns sb after t' pc := by
  have mine : ∀ {i}, (s.buf i).lock = some t' → _ := fun {i} => (touched i).other (used i) other
  have before : ∀ {i}, (after.buf i).lock = some t' → _ := fun {i} => (touched i).lock_other other
  refine ⟨owns.wf, ?_, owns.nodup, ?_, owns.apart, ?_, ?_, ?_, ?_, ?_⟩
  · exact fun i member => (mine (owns.locks i member)).1
  · exact fun i member => (mine (owns.modified i member)).1
  · intro i holds
    rw [(mine (before holds)).2.2]
    exact owns.valid i (before holds)
  · intro b i use place
    rw [← owns.block b i use place]
    rcases place with waits | reading
    · exact waiting b i use waits
    · exact (mine (owns.locks i (by simp [reading, Pc.locks]))).2.1
  · intro x read
    have same : pc.reads sb after.lh = pc.reads sb s.lh := by
      rcases lh with same | outside
      · rw [same]
      · rw [Pc.reads_outside outside, Pc.reads_outside outside]
    rw [same] at read
    have kept := mine (owns.reads_lock read)
    rw [kept.2.1, kept.2.2]
    exact owns.reads x read
  · intro b i use place
    have same : use.target sb after.lh = use.target sb s.lh := by
      rcases lh with same | outside
      · rw [same]
      · have outside : use.stage = .outside := by rcases place with rfl | rfl | rfl <;> exact outside
        rw [Use.target_outside outside, Use.target_outside outside]
    rw [same]
    exact owns.target b i use place
  · exact fun off i holds => owns.held (down off) i (before holds)

def Buf.Keeps (x x' : Buf Thread) : Prop := x'.lock = x.lock ∧ x'.blockno = x.blockno ∧ x'.valid = x.valid

theorem update_keeps {buf : BufNo → Buf Thread} (keeps : (buf i).Keeps x) (j : BufNo) :
    (buf j).Keeps (Function.update buf i x j) := by
  by_cases here : j = i
  · subst here
    rwa [Function.update_self]
  · rw [Function.update_of_ne here]
    exact ⟨rfl, rfl, rfl⟩

theorem Owns.goto (owns : Owns sb s t pc) (kept : ∀ i, ((after.buf i).lock = some t ↔ (s.buf i).lock = some t) ∧
      ((s.buf i).lock = some t → (after.buf i).blockno = (s.buf i).blockno ∧ (after.buf i).valid = (s.buf i).valid))
    (awake : ∀ b i use, pc ≠ .bread b i use) (wf : pc'.wf = true) (locks : pc'.locks = pc.locks)
    (modified : ∀ i ∈ pc'.modified, (s.buf i).lock = some t ∧ i ∉ pc.locks)
    (block : ∀ b i use, pc' = .acquiresleep b i use ∨ pc' = .bread b i use → (after.buf i).blockno = some b)
    (reads : pc'.reads sb after.lh ⊆ pc.reads sb s.lh)
    (target : ∀ b i use, pc' = .bget b use ∨ pc' = .acquiresleep b i use ∨ pc' = .bread b i use →
      ∀ b' ∈ use.target sb after.lh, b = b')
    (down : after.booted = false → s.booted = false) : Owns sb after t pc' := by
  refine ⟨wf, ?_, locks ▸ owns.nodup, ?_, ?_, ?_, block, ?_, target, ?_⟩
  · exact fun i member => (kept i).1.mpr (owns.locks i (locks ▸ member))
  · exact fun i member => (kept i).1.mpr (modified i member).1
  · exact fun i member changed => (modified i changed).2 (locks ▸ member)
  · intro i holds
    have before := (kept i).1.mp holds
    rcases owns.valid i before with valid | ⟨b, use, reading⟩
    · exact .inl (((kept i).2 before).2.trans valid)
    · exact absurd reading (awake b i use)
  · intro x read
    have before := owns.reads_lock (reads read)
    rw [((kept x.1).2 before).1, ((kept x.1).2 before).2]
    exact owns.reads x (reads read)
  · exact fun off i holds => locks ▸ owns.held (down off) i ((kept i).1.mp holds)

theorem Owns.settled (owns : Owns sb s t pc) : ∀ i ∈ pc.modified, (s.buf i).lock = some t ∧ i ∉ pc.locks :=
  fun i member => ⟨owns.modified i member, fun locked => owns.apart i locked member⟩

theorem resume_locks (lh : List BlockNo) (b : BufNo) (stage : use.stage ≠ .outside) :
    (resume lh b use).locks.Perm (b :: use.locks) := by
  cases use <;> first | exact .refl _ | exact absurd rfl stage | exact .swap _ _ _

theorem resume_locks_outside (lh : List BlockNo) (b : BufNo) (stage : use.stage = .outside) :
    (resume lh b use).locks = [] := by
  cases use <;> first | rfl | simp [Use.stage] at stage

theorem resume_reads (lh : List BlockNo) {b : BufNo} {blockno : BlockNo}
    (target : ∀ b' ∈ use.target sb lh, blockno = b') {x : BufNo × BlockNo} (read : x ∈ (resume lh b use).reads sb lh) :
    x = (b, blockno) ∨ x ∈ use.reads sb := by
  cases use <;> simp_all [resume, Pc.reads, Use.reads, Use.target]
  all_goals exact read.symm

theorem Owns.resume {b : BlockNo} (owns : Owns sb s t (.bread b i use))
    (locks : ∀ j, (after.buf j).lock = (s.buf j).lock ∧ (after.buf j).blockno = (s.buf j).blockno)
    (valid : ∀ j, (after.buf j).valid = true ↔ (s.buf j).valid = true ∨ j = i)
    (lh : after.lh = s.lh) (down : after.booted = s.booted)
    (busy : s.booted = false → use.stage ≠ .outside) : Owns sb after t (resume s.lh i use) := by
  have here : i ∈ (Pc.bread b i use).locks := by simp [Pc.locks]
  refine ⟨?_, ?_, ?_, ?_, ?_, ?_, ?_, ?_, ?_, ?_⟩
  · cases use <;> rfl
  · intro j member
    rw [(locks j).1]
    by_cases stage : use.stage = .outside
    · simp [resume_locks_outside s.lh i stage] at member
    · exact owns.locks j ((resume_locks s.lh i stage).mem_iff.mp member)
  · by_cases stage : use.stage = .outside
    · simp [resume_locks_outside s.lh i stage]
    · exact (resume_locks s.lh i stage).nodup_iff.mpr owns.nodup
  · intro j member
    rw [resume_modified] at member
    rw [(locks j).1]
    exact owns.modified j member
  · intro j member changed
    rw [resume_modified] at changed
    by_cases stage : use.stage = .outside
    · simp [resume_locks_outside s.lh i stage] at member
    · exact owns.apart j ((resume_locks s.lh i stage).mem_iff.mp member)  changed
  · intro j holds
    rw [(locks j).1] at holds
    refine .inl ((valid j).mpr ?_)
    rcases owns.valid j holds with fresh | ⟨_, _, reading⟩
    · exact .inl fresh
    · exact .inr (by simp_all)
  · rintro b' j use' (place | place) <;> cases use <;> simp [Logging.resume] at place
  · intro x read
    rw [lh] at read
    rw [(locks x.1).2]
    rcases resume_reads s.lh (owns.target b i use (.inr (.inr rfl))) read with rfl | before
    · exact ⟨owns.block b i use (.inr rfl), (valid i).mpr (.inr rfl)⟩
    · have kept := owns.reads x before
      exact ⟨kept.1, (valid x.1).mpr (.inl kept.2)⟩
  · rw [lh]
    rintro b' j use' (place | place | place) <;> cases use <;> simp [Logging.resume] at place
    all_goals
      obtain ⟨rfl, rfl⟩ := place
      simp [Use.target]
  · intro off j holds
    rw [(locks j).1] at holds
    rw [down] at off
    exact (resume_locks s.lh i (busy off)).mem_iff.mpr (owns.held off j holds)

theorem Owns.keep (owns : Owns sb s t pc) (keeps : ∀ i, (s.buf i).Keeps (after.buf i))
    (awake : ∀ b i use, pc ≠ .bread b i use) (wf : pc'.wf = true) (locks : pc'.locks = pc.locks)
    (modified : ∀ i ∈ pc'.modified, (s.buf i).lock = some t ∧ i ∉ pc.locks)
    (block : ∀ b i use, pc' = .acquiresleep b i use ∨ pc' = .bread b i use → (s.buf i).blockno = some b)
    (reads : pc'.reads sb after.lh ⊆ pc.reads sb s.lh)
    (target : ∀ b i use, pc' = .bget b use ∨ pc' = .acquiresleep b i use ∨ pc' = .bread b i use →
      ∀ b' ∈ use.target sb after.lh, b = b')
    (down : after.booted = false → s.booted = false) : Owns sb after t pc' := by
  refine owns.goto (fun i => ⟨by rw [(keeps i).1], fun _ => (keeps i).2⟩) awake wf locks modified ?_ reads target down
  intro b i use place
  rw [(keeps i).2.1]
  exact block b i use place

theorem Owns.acquire {b : BlockNo} (owns : Owns sb s t (.acquiresleep b i use))
    (free : (s.buf i).lock = none) (lock : (after.buf i).lock = some t)
    (block : (after.buf i).blockno = (s.buf i).blockno) (rest : ∀ j ≠ i, after.buf j = s.buf j)
    (lh : after.lh = s.lh) (down : after.booted = s.booted) : Owns sb after t (.bread b i use) := by
  have other : ∀ j, (s.buf j).lock = some t → j ≠ i := by
    rintro j holds rfl
    simp [free] at holds
  refine ⟨rfl, ?_, ?_, ?_, ?_, ?_, ?_, ?_, ?_, ?_⟩
  · intro j member
    rcases List.mem_cons.mp member with rfl | inner
    · exact lock
    · have holds := owns.locks j inner
      rwa [rest j (other j holds)]
  · exact List.nodup_cons.mpr ⟨fun inner => other i (owns.locks i inner) rfl, owns.nodup⟩
  · intro j member
    have holds := owns.modified j member
    rwa [rest j (other j holds)]
  · intro j member changed
    rcases List.mem_cons.mp member with rfl | inner
    · exact other j (owns.modified j changed) rfl
    · exact owns.apart j inner changed
  · intro j holds
    by_cases this : j = i
    · exact .inr ⟨b, use, by rw [this]⟩
    · rw [rest j this] at holds ⊢
      exact .inl ((owns.valid j holds).resolve_right (by simp))
  · rintro b' j use' (place | place) <;> cases place
    rw [block]
    exact owns.block b i use (.inl rfl)
  · intro x read
    rw [rest x.1 (other x.1 (owns.reads_lock read))]
    exact owns.reads x read
  · rw [lh]
    rintro b' j use' (place | place | place) <;> cases place
    exact owns.target b i use (.inr (.inl rfl))
  · intro off j holds
    rw [down] at off
    by_cases this : j = i
    · simp [this, Pc.locks]
    · rw [rest j this] at holds
      exact List.mem_cons_of_mem _ (owns.held off j holds)

theorem Pc.plain_rest (plain : pc.plain = true) (sb : Superblock) (lh : List BlockNo) :
    pc.wf = true ∧ pc.reads sb lh = [] ∧ (∀ b use, pc ≠ .bget b use) ∧
      (∀ b i use, pc ≠ .acquiresleep b i use) ∧ ∀ b i use, pc ≠ .bread b i use := by
  cases pc <;> simp_all [Pc.plain, Pc.wf, Pc.reads]

theorem Owns.release {next : Pc} (owns : Owns sb s t pc) (holds : (s.buf i).lock = some t)
    (here : pc = .brelse i next ∨ pc = next ∧ i ∉ next.modified ∧ (next = .idle ∨ ∃ m, next = .op m))
    (lock : (after.buf i).lock = none) (rest : ∀ j ≠ i, after.buf j = s.buf j)
    (down : after.booted = s.booted) : Owns sb after t (.brelseRef i next) := by
  have plain : next.plain = true := by
    rcases here with rfl | ⟨_, _, rfl | ⟨m, rfl⟩⟩
    · exact owns.wf
    · rfl
    · rfl
  have awake : ∀ b j use, pc ≠ .bread b j use := by
    rcases here with rfl | ⟨rfl, _⟩
    · simp
    · exact (Pc.plain_rest plain sb []).2.2.2.2
  have locks : ∀ j ∈ next.locks, (s.buf j).lock = some t ∧ j ≠ i := by
    rcases here with rfl | ⟨_, _, rfl | ⟨m, rfl⟩⟩
    · intro j member
      refine ⟨owns.locks j (List.mem_cons_of_mem _ member), ?_⟩
      rintro rfl
      exact (List.nodup_cons.mp owns.nodup).1 member
    · simp [Pc.locks]
    · simp [Pc.locks]
  have modified : ∀ j ∈ next.modified, (s.buf j).lock = some t ∧ j ≠ i := by
    rcases here with rfl | ⟨rfl, kept, _⟩
    · intro j member
      refine ⟨owns.modified j member, ?_⟩
      rintro rfl
      exact owns.apart j (by simp [Pc.locks]) member
    · intro j member
      exact ⟨owns.modified j member, fun same => kept (same ▸ member)⟩
  refine ⟨plain, ?_, ?_, ?_, ?_, ?_, by simp, by simp [Pc.reads], by simp, ?_⟩
  · intro j member
    rw [rest j (locks j member).2]
    exact (locks j member).1
  · rcases here with rfl | ⟨_, _, rfl | ⟨m, rfl⟩⟩
    · exact (List.nodup_cons.mp owns.nodup).2
    · exact List.nodup_nil
    · exact List.nodup_nil
  · intro j member
    rw [rest j (modified j member).2]
    exact (modified j member).1
  · intro j member
    rcases here with rfl | ⟨rfl, _⟩
    · exact owns.apart j (List.mem_cons_of_mem _ member)
    · exact owns.apart j member
  · intro j mine
    have other : j ≠ i := by
      rintro rfl
      simp [lock] at mine
    rw [rest j other] at mine ⊢
    rcases owns.valid j mine with valid | ⟨b, use, reading⟩
    · exact .inl valid
    · exact absurd reading (awake b j use)
  · intro off j mine
    rw [down] at off
    have other : j ≠ i := by
      rintro rfl
      simp [lock] at mine
    rw [rest j other] at mine
    have member := owns.held off j mine
    rcases here with rfl | ⟨rfl, _⟩
    · exact (List.mem_cons.mp member).resolve_left other
    · exact member

theorem Owns.plain (owns : Owns sb s t pc) (plain : pc'.plain = true)
    (keeps : ∀ i, (s.buf i).Keeps (after.buf i)) (awake : ∀ b i use, pc ≠ .bread b i use) (locks : pc'.locks = pc.locks)
    (modified : ∀ i ∈ pc'.modified, (s.buf i).lock = some t ∧ i ∉ pc.locks)
    (down : after.booted = false → s.booted = false) : Owns sb after t pc' := by
  obtain ⟨wf, reads, bget, acquiresleep, bread⟩ := Pc.plain_rest plain sb after.lh
  refine owns.keep keeps awake wf locks modified ?_ (by simp [reads]) ?_ down
  · rintro b i use (place | place)
    · exact absurd place (acquiresleep b i use)
    · exact absurd place (bread b i use)
  · rintro b i use (place | place | place)
    · exact absurd place (bget b use)
    · exact absurd place (acquiresleep b i use)
    · exact absurd place (bread b i use)

/-! ## Along a run -/

def State.dirty (s : State Thread) (i : BufNo) : Prop := ∃ t, i ∈ (s.pc t).modified

theorem update_touched {buf : BufNo → Buf Thread} (touched : Touched t (buf i) x)
    (j : BufNo) : Touched t (buf j) (Function.update buf i x j) := by
  by_cases here : j = i
  · subst here
    rwa [Function.update_self]
  · rw [Function.update_of_ne here]
    exact .same rfl rfl rfl

variable [DecidableEq Thread]

theorem bwrite_eq_some {data : Block} (wrote : s.bwrite t i data = some after) :
    ∃ b, (s.buf i).blockno = some b ∧ (s.buf i).lock = some t ∧
      after = { s.setBuf i { s.buf i with data := data } with disk := Function.update s.disk b data } := by
  unfold State.bwrite at wrote
  split at wrote
  · next blockno block =>
    split at wrote
    · cases wrote
      exact ⟨blockno, block, ‹_›, rfl⟩
    · cases wrote
  · cases wrote

def Owned (sb : Superblock) (s : State Thread) : Prop := ∀ t, Owns sb s t (s.pc t)

theorem moved_touched (owned : Owned sb s) (moved : Moved sb s t logs after) (i : BufNo) :
    Touched t (s.buf i) (after.buf i) := by
  cases moved with
  | hit | modify | append | bunpin | unref =>
    refine update_touched ?_ i
    exact .same rfl rfl rfl
  | recycle _ _ unused =>
    refine update_touched ?_ i
    exact .recycle unused rfl
  | acquire _ free =>
    refine update_touched ?_ i
    exact .acquire free rfl rfl
  | fill here =>
    have holds := (owned t).locks
    rw [here] at holds
    refine update_touched ?_ i
    exact .own (holds _ (by simp [Pc.locks])) (.inl (holds _ (by simp [Pc.locks]))) rfl
  | release holds =>
    refine update_touched ?_ i
    exact .own holds (.inr rfl) rfl
  | writeLogBlock _ write | writeHead _ write | installBlock _ write | eraseHead _ write =>
    obtain ⟨_, _, _, rfl⟩ := bwrite_eq_some write
    refine update_touched ?_ i
    exact .same rfl rfl rfl
  | _ => exact .same rfl rfl rfl

theorem goes_owns (goes : Goes sb s.lh pc pc') (owns : Owns sb s t pc) : Owns sb (s.goto t pc') t pc' := by
  have quiet : pc'.locks = pc.locks ∧ pc'.modified = pc.modified := by cases goes <;> exact ⟨rfl, rfl⟩
  refine owns.keep (fun i => ⟨rfl, rfl, rfl⟩) ?_ ?_ quiet.1 (quiet.2 ▸ owns.settled) ?_ ?_ ?_ id
  · rintro b i use rfl
    cases goes
  · cases goes <;> rfl
  · rintro b i use (rfl | rfl) <;> cases goes
  · cases goes <;> exact List.Subset.refl _
  · rintro b i use (rfl | rfl | rfl) b' target <;> cases goes <;> simp_all [Use.target]

theorem moved_owns (owned : Owned sb s) (moved : Moved sb s t logs after)
    (used : ∀ i, (s.buf i).refcnt = 0 → (s.buf i).lock = none)
    (busy : s.booted = false → s.pc t ≠ .idle → (s.pc t).stage ≠ .outside) : Owns sb after t (after.pc t) := by
  have owns := owned t
  cases moved with
  | goto goes =>
    simpa [State.goto] using goes_owns goes owns
  | hit here cached =>
    simp only [State.goto, Function.update_self]
    rw [here] at owns
    refine owns.keep (update_keeps ?_) (by simp) rfl rfl owns.settled ?_ (List.Subset.refl _) ?_ id
    · exact ⟨rfl, rfl, rfl⟩
    · rintro b i use (place | place) <;> cases place
      exact cached
    · rintro b i use (place | place | place) <;> cases place
      exact owns.target _ 0 _ (.inl rfl)
  | @recycle blockno use b here missing unused =>
    simp only [State.goto, Function.update_self]
    rw [here] at owns
    have free := used b unused
    refine owns.goto (fun j => ?_) (by simp) rfl rfl owns.settled ?_ (List.Subset.refl _) ?_ id
    · by_cases this : j = b
      · simp [State.setBuf, this, free]
      · simp [State.setBuf, this]
    · rintro b' i use (place | place) <;> cases place
      simp [State.setBuf]
    · rintro b' i use (place | place | place) <;> cases place
      exact owns.target _ 0 _ (.inl rfl)
  | acquire here free =>
    simp only [State.goto, Function.update_self]
    rw [here] at owns
    refine owns.acquire free ?_ ?_ (fun j other => Function.update_of_ne other _ _) rfl rfl
    · simp [State.setBuf]
    · simp [State.setBuf]
  | cached here valid =>
    simp only [State.goto, Function.update_self]
    rw [here] at owns busy
    refine owns.resume (fun j => ⟨rfl, rfl⟩) (fun j => ?_) rfl rfl fun off => busy off (by simp)
    refine ⟨.inl, ?_⟩
    rintro (fresh | rfl)
    · exact fresh
    · exact valid
  | @fill blockno use b here invalid =>
    simp only [State.goto, Function.update_self]
    rw [here] at owns busy
    refine owns.resume (fun j => ?_) (fun j => ?_) rfl rfl fun off => busy off (by simp)
    all_goals by_cases this : j = b <;> simp [State.setBuf, this]
  | release holds here =>
    simp only [State.goto, Function.update_self]
    refine owns.release holds here ?_ (fun j other => Function.update_of_ne other _ _) rfl
    simp [State.setBuf]
  | unref here =>
    simp only [State.goto, Function.update_self]
    rw [here] at owns
    refine owns.plain owns.wf (update_keeps ?_) (by simp) rfl owns.settled id
    exact ⟨rfl, rfl, rfl⟩
  | beginOp here | endOp here | booted here | committed here =>
    simp only [State.goto, Function.update_self]
    rw [here] at owns
    exact owns.plain rfl (fun i => ⟨rfl, rfl, rfl⟩) (by simp) rfl (by simp [Pc.modified]) (by simp)
  | modify here holds =>
    simp only [State.goto, Function.update_self]
    rw [here] at owns
    refine owns.plain rfl (update_keeps ?_) (by simp) rfl ?_ id
    · exact ⟨rfl, rfl, rfl⟩
    · intro i member
      rcases List.mem_cons.mp member with rfl | before
      · exact ⟨holds, by simp [Pc.locks]⟩
      · exact owns.settled i before
  | absorb here =>
    simp only [State.goto, Function.update_self]
    rw [here] at owns
    exact owns.plain rfl (fun i => ⟨rfl, rfl, rfl⟩) (by simp) rfl
      (fun i member => owns.settled i (List.mem_of_mem_filter member)) id
  | append here =>
    simp only [State.goto, State.setBuf, Function.update_self]
    rw [here] at owns
    refine owns.plain rfl (update_keeps ?_) (by simp) rfl
      (fun i member => owns.settled i (List.mem_of_mem_filter member)) id
    exact ⟨rfl, rfl, rfl⟩
  | endLast here =>
    simp only [State.goto, Function.update_self]
    rw [here] at owns
    exact owns.keep (fun i => ⟨rfl, rfl, rfl⟩) (by simp) rfl rfl (by simp [Pc.modified]) (by simp)
      (by simp [Pc.reads]) (by simp) id
  | writeLogBlock here write | writeHead here write | eraseHead here write =>
    obtain ⟨_, _, _, rfl⟩ := bwrite_eq_some write
    simp only [State.goto, Function.update_self]
    rw [here] at owns
    refine owns.plain rfl (update_keeps ?_) (by simp) rfl (by simp [Pc.modified]) id
    exact ⟨rfl, rfl, rfl⟩
  | @installBlock recovering _ _ _ here _ write =>
    obtain ⟨_, _, _, rfl⟩ := bwrite_eq_some write
    simp only [State.goto, Function.update_self]
    rw [here] at owns
    cases recovering with
    | true =>
      refine owns.plain rfl (update_keeps ?_) (by simp) rfl (by simp [Pc.modified]) id
      exact ⟨rfl, rfl, rfl⟩
    | false =>
      refine owns.keep (update_keeps ?_) (by simp) rfl rfl (by simp [Pc.modified]) (by simp)
        (List.Subset.refl _) (by simp) id
      exact ⟨rfl, rfl, rfl⟩
  | bunpin here =>
    simp only [State.goto, Function.update_self]
    rw [here] at owns
    refine owns.plain rfl (update_keeps ?_) (by simp) rfl (by simp [Pc.modified]) id
    exact ⟨rfl, rfl, rfl⟩
  | installed here =>
    simp only [State.goto, Function.update_self]
    rw [here] at owns
    refine owns.keep (fun i => ⟨rfl, rfl, rfl⟩) (by simp) rfl rfl (by simp [Pc.modified, Use.modified]) (by simp)
      (by simp [Pc.reads, Use.reads]) ?_ id
    rintro b i use (place | place | place) <;> cases place
    simp [Use.target]
  | readHead here =>
    simp only [State.goto, Function.update_self]
    rw [here] at owns
    exact owns.plain rfl (fun i => ⟨rfl, rfl, rfl⟩) (by simp) rfl (by simp [Pc.modified]) id

theorem moved_booted (moved : Moved sb s t logs after) (off : after.booted = false) : s.booted = false := by
  cases moved with
  | writeLogBlock _ write | writeHead _ write | installBlock _ write | eraseHead _ write =>
    obtain ⟨_, _, _, rfl⟩ := bwrite_eq_some write
    exact off
  | booted => simp [State.goto] at off
  | _ => exact off

theorem moved_pc (moved : Moved sb s t logs after) : ∃ pc, after.pc = Function.update s.pc t pc := by
  cases moved with
  | writeLogBlock _ write | writeHead _ write | installBlock _ write | eraseHead _ write =>
    obtain ⟨_, _, _, rfl⟩ := bwrite_eq_some write
    exact ⟨_, rfl⟩
  | _ => exact ⟨_, rfl⟩

theorem moved_lh (moved : Moved sb s t logs after) :
    after.lh = s.lh ∨ (s.pc t).ops ≠ 0 ∨ (s.pc t).stage ≠ .outside := by
  cases moved with
  | append here => exact .inr (.inl (by simp [here, Pc.ops]))
  | installed here | readHead here => exact .inr (.inr (by simp [here, Pc.stage]))
  | writeLogBlock _ write | writeHead _ write | installBlock _ write | eraseHead _ write =>
    obtain ⟨_, _, _, rfl⟩ := bwrite_eq_some write
    exact .inl rfl
  | _ => exact .inl rfl

section run
variable [Fintype Thread] {c : Option Thread} {pins : List BlockNo} {mem : BlockNo → Block}

def State.refs (s : State Thread) (i : BufNo) : ℕ := weigh (Pc.refs i) s.pc

def State.Cached (s : State Thread) (pins : List BlockNo) (mem : BlockNo → Block) : Prop :=
  Logging.Cached s.buf s.order s.refs s.dirty pins s.disk mem

theorem Control.busy (control : Control c s) (off : s.booted = false) (up : s.pc t ≠ .idle) :
    (s.pc t).stage ≠ .outside := by
  have committer : c = some t := by
    by_contra other
    exact up (control.asleep off t other)
  exact (control.here t committer).1

theorem Owned.moved (owned : Owned sb s) (control : Control c s) (cached : s.Cached pins mem)
    (moved : Moved sb s t logs after) : Owned sb after := by
  have used : ∀ i, (s.buf i).refcnt = 0 → (s.buf i).lock = none := fun i zero => (cached.unused zero).1
  intro t'
  by_cases same : t' = t
  · subst same
    exact moved_owns owned moved used control.busy
  · obtain ⟨pc, pcs⟩ := moved_pc moved
    rw [pcs, Function.update_of_ne same]
    refine (owned t').frame same (moved_touched owned moved) used ?_ ?_ (moved_booted moved)
    · intro b i use waits
      refine (moved_touched owned moved i).block fun zero => ?_
      have mine := le_weigh (Pc.refs i) s.pc t'
      have total : weigh (Pc.refs i) s.pc = 0 := (cached.unused zero).2.1
      rw [waits, total] at mine
      simp [Pc.refs] at mine
    · refine (moved_lh moved).imp_right fun busy => control.elsewhere t' ?_
      rcases busy with op | stage
      · simp [control.none_of_ops op]
      · rw [control.committer stage]
        exact fun equal => same (Option.some.inj equal).symm

end run

theorem boot_owned (disk : BlockNo → Block) : Owned sb (boot sb disk t) := by
  intro t'
  have place : (boot sb disk t).pc t' = .idle ∨ (boot sb disk t).pc t' = .bget sb.logstart .readHead := by
    by_cases same : t' = t <;> simp [boot, same]
  rcases place with idle | first
  · rw [idle]
    constructor <;> simp [Pc.wf, Pc.locks, Pc.modified, Pc.reads, boot]
  · rw [first]
    constructor <;> simp [Pc.wf, Pc.locks, Use.locks, Pc.modified, Use.modified, Pc.reads, Use.reads, boot]
    intro b same
    exact Option.some.inj same

end OsProjects.Logging
