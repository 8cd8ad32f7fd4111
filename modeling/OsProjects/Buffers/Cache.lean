import OsProjects.Buffers.Model
import OsProjects.Transition.Count

namespace OsProjects.Buffers
open Transition Linked

variable {Thread Data : Type} {s s' : State Thread Data} {stored stored' : Stored Data} {t u : Thread} {b b' : Index} {key : Key}
  {buf : Buf Thread Data}

/-! ## References to a buffer -/

def Pc.waits (b : Index) : Pc → ℕ
  | .wait _ b' | .release b' => if b' = b then 1 else 0
  | _ => 0

def Pc.reads (key : Key) (b : Index) (pc : Pc) : Prop := pc = .wait key b ∨ pc = .fill key b ∨ pc = .got key b

def owned (buf : Buf Thread Data) : ℕ := if buf.lock = none then 0 else 1

variable [Fintype Thread] {new : Pc}

def users (s : State Thread Data) (b : Index) : ℕ := weigh (Pc.waits b) s.pc + owned (s.buf b) + s.pins b

structure Held (s : State Thread Data) : Prop where
  ring : ∃ l, Ring s.links l ∧ ∀ b, b ∈ l
  count : ∀ b, (s.buf b).refcnt.toNat = users s b
  locked : ∀ t key b, s.pc t = .fill key b ∨ s.pc t = .got key b → (s.buf b).lock = some t
  named : ∀ t key b, (s.pc t).reads key b → (s.buf b).key = key
  device : ∀ t key, s.pc t = .bget key → key.1 ≠ 0
  lockedDevice : ∀ b, users s b ≠ 0 → (s.buf b).key.1 ≠ 0
  unique : ∀ b b', (s.buf b).key = (s.buf b').key → (s.buf b).key.1 ≠ 0 → b = b'

structure Sound (s : State Thread Data) (stored : Stored Data) : Prop where
  loaded : ∀ t b, (s.buf b).lock = some t → (∃ key, s.pc t = .fill key b) ∨ (s.buf b).valid = true
  content : ∀ b, (s.buf b).valid = true → (s.buf b).key.1 ≠ 0 →
    (s.buf b).data = (stored.resident (s.buf b).key).getD (s.disk (s.buf b).key)
  resident : ∀ key, stored.resident key ≠ none → ∃ b, (s.buf b).key = key ∧ (s.buf b).valid = true

structure Inv (s : State Thread Data) (stored : Stored Data) : Prop where
  held : Held s
  sound : Sound s stored

theorem length_of_ring {k : Links Index} {l : List Index} (ring : Ring k l) (all : ∀ b, b ∈ l) : l.length = NBUF := by
  have count := List.toFinset_card_of_nodup ring.nodup
  have whole : l.toFinset = Finset.univ := by
    ext b
    simp [all b]
  rw [whole, Finset.card_univ, Fintype.card_fin] at count
  exact count.symm

namespace Held

theorem users_pos (lock : (s.buf b).lock = some t) : 0 < users s b := by
  simp only [users, owned, lock]
  simp

theorem users_pos_of_waits (here : (s.pc t).waits b ≠ 0) : 0 < users s b := by
  have one := le_weigh (Pc.waits b) s.pc t
  simp only [users]
  omega

theorem refcnt_ne_zero (inv : Held s) (used : 0 < users s b) : (s.buf b).refcnt ≠ 0 := by
  intro zero
  have count := inv.count b
  rw [zero] at count
  simp at count
  omega

theorem users_eq_zero (inv : Held s) (zero : (s.buf b).refcnt = 0) : users s b = 0 := by
  have count := inv.count b
  rw [zero] at count
  simpa using count.symm

theorem users_ne_zero (inv : Held s) (used : (s.buf b).refcnt ≠ 0) : users s b ≠ 0 := by
  rw [← inv.count b]
  intro zero
  exact used (BitVec.eq_of_toNat_eq zero)

theorem users_of_reads (inv : Held s) (here : (s.pc t).reads key b) : 0 < users s b := by
  rcases here with here | here | here
  · exact users_pos_of_waits (t := t) (by simp [here, Pc.waits])
  · exact users_pos (inv.locked t key b (.inl here))
  · exact users_pos (inv.locked t key b (.inr here))

end Held

variable [DecidableEq Thread]

theorem users_move (pc : s'.pc = Function.update s.pc t new) (b : Index) :
    users s' b + (s.pc t).waits b + owned (s.buf b) + s.pins b =
      users s b + new.waits b + owned (s'.buf b) + s'.pins b := by
  have moved := weigh_update (Pc.waits b) s.pc t new
  rw [← pc] at moved
  simp only [users]
  omega

namespace Held

theorem move (inv : Held s) (pc : s'.pc = Function.update s.pc t new) (ring : ∃ l, Ring s'.links l ∧ ∀ b, b ∈ l)
    (count : ∀ b, (s'.buf b).refcnt.toNat = users s' b)
    (locks : ∀ u b, u ≠ t → ((s'.buf b).lock = some u ↔ (s.buf b).lock = some u))
    (keys : ∀ b, users s b ≠ 0 → (s'.buf b).key = (s.buf b).key)
    (locked : ∀ key b, new = .fill key b ∨ new = .got key b → (s'.buf b).lock = some t)
    (named : ∀ key b, new.reads key b → (s'.buf b).key = key) (device : ∀ key, new = .bget key → key.1 ≠ 0)
    (lockedDevice : ∀ b, users s' b ≠ 0 → users s b = 0 → (s'.buf b).key.1 ≠ 0)
    (unique : ∀ b b', (s'.buf b).key = (s'.buf b').key → (s'.buf b).key.1 ≠ 0 → b = b') : Held s' := by
  have mine : s'.pc t = new := by rw [pc, Function.update_self]
  have others : ∀ u, u ≠ t → s'.pc u = s.pc u := fun u other => by rw [pc, Function.update_of_ne other]
  refine ⟨ring, count, ?_, ?_, ?_, ?_, unique⟩
  · intro u key b here
    by_cases same : u = t
    · subst same
      rw [mine] at here
      exact locked key b here
    · rw [others u same] at here
      exact (locks u b same).mpr (inv.locked u key b here)
  · intro u key b here
    by_cases same : u = t
    · subst same
      rw [mine] at here
      exact named key b here
    · rw [others u same] at here
      rw [keys b (inv.users_of_reads here).ne']
      exact inv.named u key b here
  · intro u key here
    by_cases same : u = t
    · subst same
      rw [mine] at here
      exact device key here
    · rw [others u same] at here
      exact inv.device u key here
  · intro b now
    by_cases before : users s b = 0
    · exact lockedDevice b now before
    · rw [keys b before]
      exact inv.lockedDevice b before

theorem stay (inv : Held s) (pc : s'.pc = Function.update s.pc t new) (ring : ∃ l, Ring s'.links l ∧ ∀ b, b ∈ l)
    (keys : ∀ b, (s'.buf b).key = (s.buf b).key) (count : ∀ b, (s'.buf b).refcnt.toNat = users s' b)
    (locks : ∀ u b, u ≠ t → ((s'.buf b).lock = some u ↔ (s.buf b).lock = some u))
    (locked : ∀ key b, new = .fill key b ∨ new = .got key b → (s'.buf b).lock = some t)
    (named : ∀ key b, new.reads key b → (s.buf b).key = key) (device : ∀ key, new = .bget key → key.1 ≠ 0)
    (used : ∀ b, users s b = 0 → users s' b ≠ 0 → (s.buf b).key.1 ≠ 0) : Held s' := by
  refine inv.move pc ring count locks (fun b _ => keys b) locked (fun key b here => ?_) device (fun b now before => ?_) ?_
  · rw [keys]
    exact named key b here
  · rw [keys]
    exact used b before now
  · intro b b' same
    rw [keys, keys] at same
    rw [keys]
    exact inv.unique b b' same

end Held

theorem Held.change (inv : Held s) (pc : s'.pc = Function.update s.pc t new)
    (bufs : s'.buf = Function.update s.buf b buf) (ring : ∃ l, Ring s'.links l ∧ ∀ b, b ∈ l) (key : buf.key = (s.buf b).key)
    (used : 0 < users s b) (elsewhere : ∀ b', b' ≠ b → s'.pins b' = s.pins b' ∧ new.waits b' = (s.pc t).waits b')
    (count : buf.refcnt.toNat + (s.pc t).waits b + owned (s.buf b) + s.pins b =
      (s.buf b).refcnt.toNat + new.waits b + owned buf + s'.pins b)
    (locks : ∀ u, u ≠ t → (buf.lock = some u ↔ (s.buf b).lock = some u))
    (locked : ∀ key b', new = .fill key b' ∨ new = .got key b' → b' = b ∧ buf.lock = some t)
    (named : ∀ key b', new.reads key b' → (s.buf b').key = key) (device : ∀ key, new ≠ .bget key) : Held s' := by
  have here : s'.buf b = buf := by rw [bufs, Function.update_self]
  have there : ∀ b', b' ≠ b → s'.buf b' = s.buf b' := fun b' other => by rw [bufs, Function.update_of_ne other]
  have same : ∀ b', b' ≠ b → users s' b' = users s b' := by
    intro b' other
    have moved := users_move pc b'
    rw [there b' other, (elsewhere b' other).1, (elsewhere b' other).2] at moved
    omega
  refine inv.stay pc ring (fun b' => ?_) (fun b' => ?_) (fun u b' other => ?_) (fun key b' now => ?_) named
    (fun key now => absurd now (device key)) fun b' before now => ?_
  · by_cases this : b' = b
    · rw [this, here, key]
    · rw [there b' this]
  · by_cases this : b' = b
    · subst this
      have moved := users_move pc b'
      have before := inv.count b'
      rw [here] at moved ⊢
      omega
    · rw [there b' this, same b' this]
      exact inv.count b'
  · by_cases this : b' = b
    · subst this
      rw [here]
      exact locks u other
    · rw [there b' this]
  · obtain ⟨rfl, lock⟩ := locked key b' now
    rw [here]
    exact lock
  · by_cases this : b' = b
    · subst this
      omega
    · rw [same b' this] at now
      exact absurd before now

omit [Fintype Thread] [DecidableEq Thread] in
theorem Sound.keep (sound : Sound s stored) (disk : s'.disk = s.disk)
    (bufs : ∀ b, (s'.buf b).key = (s.buf b).key ∧ (s'.buf b).valid = (s.buf b).valid ∧ (s'.buf b).data = (s.buf b).data)
    (loaded : ∀ t b, (s'.buf b).lock = some t → (∃ key, s'.pc t = .fill key b) ∨
      (s.buf b).lock = some t ∧ ¬ ∃ key, s.pc t = .fill key b) : Sound s' stored := by
  constructor
  · intro t b lock
    rw [(bufs b).2.1]
    exact (loaded t b lock).imp id fun ⟨before, off⟩ => (sound.loaded t b before).resolve_left off
  · intro b valid dev
    rw [(bufs b).2.1] at valid
    rw [(bufs b).1] at dev
    rw [(bufs b).2.2, (bufs b).1, disk]
    exact sound.content b valid dev
  · intro key known
    obtain ⟨b, same, valid⟩ := sound.resident key known
    exact ⟨b, by rw [(bufs b).1, same], by rw [(bufs b).2.1, valid]⟩

omit [Fintype Thread] [DecidableEq Thread] in
theorem Sound.same (sound : Sound s stored) (disk : s'.disk = s.disk)
    (bufs : ∀ b, (s'.buf b).key = (s.buf b).key ∧ (s'.buf b).valid = (s.buf b).valid ∧ (s'.buf b).data = (s.buf b).data ∧
      (s'.buf b).lock = (s.buf b).lock) (others : ∀ u, u ≠ t → s'.pc u = s.pc u) (off : ∀ key b, s.pc t ≠ .fill key b) :
    Sound s' stored := by
  refine sound.keep disk (fun b => ⟨(bufs b).1, (bufs b).2.1, (bufs b).2.2.1⟩) fun u b lock => ?_
  rw [(bufs b).2.2.2] at lock
  refine (em (∃ key, s.pc u = .fill key b)).imp (fun ⟨key, there⟩ => ⟨key, ?_⟩) fun off => ⟨lock, off⟩
  rw [others u (by rintro rfl; exact off key b there)]
  exact there

namespace Inv

variable (inv : Inv s stored)
include inv

theorem quiet (waits : ∀ b, new.waits b = (s.pc t).waits b)
    (locked : ∀ key b, new = .fill key b ∨ new = .got key b → (s.buf b).lock = some t)
    (named : ∀ key b, new.reads key b → (s.buf b).key = key) (device : ∀ key, new = .bget key → key.1 ≠ 0)
    (loaded : ∀ key b, s.pc t = .fill key b → (s.buf b).valid = true) : Inv (s.at t new) stored := by
  have same : ∀ b, users (s.at t new) b = users s b := by
    intro b
    have moved := users_move (show (s.at t new).pc = Function.update s.pc t new from rfl) b
    have equal := waits b
    simp only [State.at] at moved ⊢
    omega
  refine ⟨inv.held.stay rfl inv.held.ring (fun _ => rfl) (fun b => ?_) (fun _ _ _ => Iff.rfl) locked named device ?_, ?_⟩
  · rw [same]
    exact inv.held.count b
  · intro b before now
    rw [same] at now
    exact absurd before now
  · constructor
    · intro u b lock
      by_cases this : u = t
      · subst this
        refine .inr ((inv.sound.loaded u b lock).elim (fun ⟨key, here⟩ => loaded key b here) id)
      · have here : (s.at t new).pc u = s.pc u := by simp [State.at, this]
        rw [here]
        exact inv.sound.loaded u b lock
    · exact inv.sound.content
    · exact inv.sound.resident

theorem wait (here : s.pc t = .wait key b) (free : (s.buf b).lock = none) :
    Inv ((s.set b { s.buf b with lock := some t }).at t (.fill key b)) stored := by
  refine ⟨inv.held.change (t := t) (b := b) rfl rfl inv.held.ring rfl (inv.held.users_of_reads (.inl here)) (fun b' other => ⟨rfl, ?_⟩)
    ?_ (fun u other => by simp [free, Ne.symm other]) ?_ ?_ (by simp), ?_⟩
  · simp [here, Pc.waits, Ne.symm other]
  · simp [here, Pc.waits, owned, free, State.at, State.set]
  · rintro _ _ (⟨⟨⟩⟩ | ⟨⟨⟩⟩)
    exact ⟨rfl, rfl⟩
  · rintro _ _ (⟨⟨⟩⟩ | ⟨⟨⟩⟩ | ⟨⟨⟩⟩)
    exact inv.held.named t key b (.inl here)
  · refine inv.sound.keep rfl (fun b' => ?_) fun u b' lock => ?_
    · by_cases this : b' = b
      · subst this
        simp [State.at, State.set]
      · simp [State.at, State.set, this]
    · by_cases other : u = t
      · subst other
        by_cases this : b' = b
        · subst this
          exact .inl ⟨key, by simp [State.at]⟩
        · refine .inr ⟨by simpa [State.set, State.at, this] using lock, ?_⟩
          rintro ⟨key', there⟩
          cases here.symm.trans there
      · have before : (s.buf b').lock = some u := by
          by_cases this : b' = b
          · subst this
            simp [State.set, State.at, Ne.symm other] at lock
          · simpa [State.set, State.at, this] using lock
        refine (em (∃ key, s.pc u = .fill key b')).imp (fun ⟨key', there⟩ => ⟨key', ?_⟩) fun off => ⟨before, off⟩
        simpa [State.at, State.set, other] using there

theorem fill (here : s.pc t = .fill key b) (empty : (s.buf b).valid = false) :
    Inv ((s.set b { s.buf b with data := s.disk (s.buf b).key, valid := true }).at t (.got key b)) stored := by
  have lock := inv.held.locked t key b (.inl here)
  have used := Held.users_pos lock
  have dev := inv.held.lockedDevice b used.ne'
  have unknown : stored.resident (s.buf b).key = none := by
    by_contra known
    obtain ⟨b', same, valid⟩ := inv.sound.resident _ known
    obtain rfl := inv.held.unique b' b same (by rwa [same])
    cases valid.symm.trans empty
  refine ⟨inv.held.change (t := t) (b := b) rfl rfl inv.held.ring rfl used (fun b' other => ⟨rfl, ?_⟩)
    ?_ (fun _ _ => Iff.rfl) ?_ ?_ (by simp), ?_⟩
  · simp [here, Pc.waits]
  · simp [here, Pc.waits, owned, State.at, State.set]
  · rintro _ _ (⟨⟨⟩⟩ | ⟨⟨⟩⟩)
    exact ⟨rfl, lock⟩
  · rintro _ _ (⟨⟨⟩⟩ | ⟨⟨⟩⟩ | ⟨⟨⟩⟩)
    exact inv.held.named t key b (.inr (.inl here))
  · constructor
    · intro u b' lock'
      by_cases this : b' = b
      · subst this
        exact .inr (by simp [State.at, State.set])
      · have before : (s.buf b').lock = some u := by simpa [State.at, State.set, this] using lock'
        rcases inv.sound.loaded u b' before with ⟨key', there⟩ | valid
        · have other : u ≠ t := by
            rintro rfl
            obtain ⟨_, rfl⟩ : key = key' ∧ b = b' := by simpa using here.symm.trans there
            exact this rfl
          exact .inl ⟨key', by simpa [State.at, State.set, other] using there⟩
        · exact .inr (by simpa [State.at, State.set, this] using valid)
    · intro b' valid dev'
      by_cases this : b' = b
      · subst this
        simp [State.at, State.set, unknown]
      · simp only [State.at, State.set, Function.update_of_ne this] at valid dev' ⊢
        exact inv.sound.content b' valid dev'
    · intro key' known
      obtain ⟨b', same, valid⟩ := inv.sound.resident key' known
      have this : b' ≠ b := by
        rintro rfl
        cases valid.symm.trans empty
      exact ⟨b', by simpa [State.at, State.set, this] using same, by simpa [State.at, State.set, this] using valid⟩

theorem unlock (here : s.pc t = .idle) (lock : (s.buf b).lock = some t) :
    Inv ((s.set b { s.buf b with lock := none }).at t (.release b)) stored := by
  refine ⟨inv.held.change (t := t) (b := b) rfl rfl inv.held.ring rfl (Held.users_pos lock) (fun b' other => ⟨rfl, ?_⟩)
    ?_ (fun u other => by simp [lock, Ne.symm other]) (by simp) (by simp [Pc.reads]) (by simp), ?_⟩
  · simp [here, Pc.waits, Ne.symm other]
  · simp [here, Pc.waits, owned, lock, State.at, State.set]
  · refine inv.sound.keep rfl (fun b' => ?_) fun u b' lock' => ?_
    · by_cases this : b' = b
      · subst this
        simp [State.at, State.set]
      · simp [State.at, State.set, this]
    · have this : b' ≠ b := by
        rintro rfl
        simp [State.at, State.set] at lock'
      have before : (s.buf b').lock = some u := by simpa [State.at, State.set, this] using lock'
      refine (em (∃ key, s.pc u = .fill key b')).imp (fun ⟨key', there⟩ => ⟨key', ?_⟩) fun off => ⟨before, off⟩
      have other : u ≠ t := by
        rintro rfl
        cases here.symm.trans there
      simpa [State.at, State.set, other] using there

theorem release (here : s.pc t = .release b) : Inv ((Buffers.release s b).at t .idle) stored := by
  have used : 0 < users s b := Held.users_pos_of_waits (t := t) (by simp [here, Pc.waits])
  have positive := inv.held.refcnt_ne_zero used
  obtain ⟨l, ring, all⟩ := inv.held.ring
  have moved : Ring ((s.links.remove b).pushFront b) (b :: l.erase b) :=
    (ring.remove (all b)).pushFront (by simpa using ring.nodup.not_mem_erase)
  have links : ∃ l, Ring ((Buffers.release s b).at t .idle).links l ∧ ∀ b, b ∈ l := by
    simp only [State.at, Buffers.release]
    split
    · refine ⟨b :: l.erase b, moved, fun b' => ?_⟩
      by_cases this : b' = b
      · simp [this]
      · simp [this, List.mem_erase_of_ne this, all b']
    · exact ⟨l, ring, all⟩
  have less : ((s.buf b).refcnt - 1).toNat + 1 = (s.buf b).refcnt.toNat := by bv_omega
  refine ⟨inv.held.change (t := t) (b := b) rfl rfl links rfl used (fun b' other => ⟨rfl, ?_⟩) ?_ (fun _ _ => Iff.rfl) (by simp)
    (by simp [Pc.reads]) (by simp), inv.sound.same (t := t) rfl (fun b' => ?_) ?_ ?_⟩
  · simp [here, Pc.waits, Ne.symm other]
  · simp only [here, Pc.waits, if_true, owned, State.at, Buffers.release, State.set]
    omega
  · by_cases this : b' = b
    · subst this
      simp [State.at, State.set, Buffers.release]
    · simp [State.at, State.set, Buffers.release, this]
  · intro u other
    simp [State.at, State.set, Buffers.release, other]
  · simp [here]

theorem pin {refcnt : BitVec 32} {pins : ℕ} (here : s.pc t = .idle) (lock : (s.buf b).lock = some t)
    (count : refcnt.toNat + s.pins b = (s.buf b).refcnt.toNat + pins) :
    Inv { s.set b { s.buf b with refcnt := refcnt } with pins := Function.update s.pins b pins } stored := by
  have same : s.pc = Function.update s.pc t .idle := by rw [← here, Function.update_eq_self]
  refine ⟨inv.held.change (t := t) (b := b) same rfl inv.held.ring rfl (Held.users_pos lock) (fun b' other => ⟨?_, ?_⟩) ?_
    (fun _ _ => Iff.rfl) (by simp) (by simp [Pc.reads]) (by simp), inv.sound.same (t := t) rfl (fun b' => ?_) (fun _ _ => rfl) ?_⟩
  · simp [other]
  · rw [here]
  · simp only [here, owned, Function.update_self]
    omega
  · by_cases this : b' = b
    · subst this
      simp [State.set]
    · simp [State.set, this]
  · simp [here]

theorem store (here : s.pc t = .idle) (lock : (s.buf b).lock = some t) (data : Data)
    (known : stored'.resident = Function.update stored.resident (s.buf b).key (some data)) :
    Inv (s.set b { s.buf b with data := data }) stored' := by
  have same : s.pc = Function.update s.pc t .idle := by rw [← here, Function.update_eq_self]
  have used := Held.users_pos lock
  have dev := inv.held.lockedDevice b used.ne'
  have valid : (s.buf b).valid = true := by
    refine (inv.sound.loaded t b lock).resolve_left fun ⟨key, there⟩ => ?_
    cases here.symm.trans there
  refine ⟨inv.held.change (t := t) (b := b) same rfl inv.held.ring rfl used (fun b' other => ⟨rfl, by rw [here]⟩) ?_
    (fun _ _ => Iff.rfl) (by simp) (by simp [Pc.reads]) (by simp), ?_⟩
  · simp [here, owned, State.set]
  · constructor
    · intro u b' lock'
      by_cases this : b' = b
      · subst this
        exact .inr (by simpa [State.set] using valid)
      · simp only [State.set, Function.update_of_ne this] at lock' ⊢
        exact inv.sound.loaded u b' lock'
    · intro b' valid' dev'
      by_cases this : b' = b
      · subst this
        simp [State.set, known]
      · simp only [State.set, Function.update_of_ne this] at valid' dev' ⊢
        rw [known, Function.update_of_ne fun equal => this (inv.held.unique b' b equal dev')]
        exact inv.sound.content b' valid' dev'
    · intro key some
      have cached : ∃ b', (s.buf b').key = key ∧ (s.buf b').valid = true := by
        by_cases equal : key = (s.buf b).key
        · exact ⟨b, equal.symm, valid⟩
        · rw [known, Function.update_of_ne equal] at some
          exact inv.sound.resident key some
      obtain ⟨b', equal, valid'⟩ := cached
      by_cases this : b' = b
      · subst this
        exact ⟨b', by simpa [State.set] using equal, by simpa [State.set] using valid'⟩
      · exact ⟨b', by simpa [State.set, this] using equal, by simpa [State.set, this] using valid'⟩

omit [DecidableEq Thread] in
theorem write (b : Index) :
    Inv { s with disk := Function.update s.disk (s.buf b).key (s.buf b).data } stored := by
  refine ⟨⟨inv.held.ring, inv.held.count, inv.held.locked, inv.held.named, inv.held.device, inv.held.lockedDevice, inv.held.unique⟩,
    inv.sound.loaded, fun b' valid' dev' => ?_, inv.sound.resident⟩
  have content := inv.sound.content b' valid' dev'
  by_cases this : (s.buf b').key = (s.buf b).key
  · obtain rfl := inv.held.unique b' b this dev'
    simp only [Function.update_self]
    cases known : stored.resident (s.buf b').key with
    | none => rfl
    | some data =>
      rw [known] at content
      exact content
  · simp only [Function.update_of_ne this]
    exact content

/-! ## Looking a block up -/

omit [DecidableEq Thread] in
theorem bget_cases (found : bget s key = .ok (b, buf)) :
    (s.buf b).key = key ∧ buf = { s.buf b with refcnt := (s.buf b).refcnt + 1 } ∨
    (∀ b', (s.buf b').key ≠ key) ∧ (s.buf b).refcnt = 0 ∧ buf = { s.buf b with key := key, valid := false, refcnt := 1 } := by
  obtain ⟨l, ring, all⟩ := inv.held.ring
  have length := length_of_ring ring all
  have forth := scan_chain (p := fun b => decide ((s.buf b).key = key)) ring.chain
  have back := scan_chain (p := fun b => decide ((s.buf b).refcnt = 0)) ring.swap.chain
  rw [length] at forth
  rw [List.length_reverse, length] at back
  simp only [Links.swap] at back
  unfold bget at found
  rw [forth, back] at found
  cases cached : l.find? fun b => decide ((s.buf b).key = key) with
  | some b' =>
    rw [cached] at found
    obtain ⟨rfl, rfl⟩ := Prod.mk.inj (Except.ok.inj found)
    exact .inl ⟨by simpa using List.find?_some cached, rfl⟩
  | none =>
    rw [cached] at found
    have missing : ∀ b', (s.buf b').key ≠ key := fun b' => by simpa using List.find?_eq_none.mp cached b' (all b')
    cases unused : l.reverse.find? fun b => decide ((s.buf b).refcnt = 0) with
    | none =>
      rw [unused] at found
      cases found
    | some b' =>
      rw [unused] at found
      obtain ⟨rfl, rfl⟩ := Prod.mk.inj (Except.ok.inj found)
      exact .inr ⟨missing, by simpa using List.find?_some unused, rfl⟩

theorem bgetFound (here : s.pc t = .bget key) (cached : (s.buf b).key = key)
    (room : (s.buf b).refcnt.toNat + 1 < 2 ^ 32) :
    Inv ((s.set b { s.buf b with refcnt := (s.buf b).refcnt + 1 }).at t (.wait key b)) stored := by
  have more : ((s.buf b).refcnt + 1).toNat = (s.buf b).refcnt.toNat + 1 := by bv_omega
  have dev := inv.held.device t key here
  generalize next : (s.set b { s.buf b with refcnt := (s.buf b).refcnt + 1 }).at t (.wait key b) = s'
  have pc : s'.pc = Function.update s.pc t (.wait key b) := by rw [← next]; rfl
  have entry : s'.buf b = { s.buf b with refcnt := (s.buf b).refcnt + 1 } := by simp [← next, State.at, State.set]
  have others : ∀ b', b' ≠ b → s'.buf b' = s.buf b' := fun b' other => by simp [← next, State.at, State.set, other]
  have bufs : ∀ b', (s'.buf b').key = (s.buf b').key ∧ (s'.buf b').valid = (s.buf b').valid ∧
      (s'.buf b').data = (s.buf b').data ∧ (s'.buf b').lock = (s.buf b').lock := by
    intro b'
    by_cases this : b' = b
    · rw [this, entry]
      exact ⟨rfl, rfl, rfl, rfl⟩
    · rw [others b' this]
      exact ⟨rfl, rfl, rfl, rfl⟩
  have pins : s'.pins = s.pins := by rw [← next]; rfl
  have counts : ∀ b', users s' b' = users s b' + if b = b' then 1 else 0 := by
    intro b'
    have moved := users_move pc b'
    have same : owned (s'.buf b') = owned (s.buf b') := by simp only [owned, (bufs b').2.2.2]
    simp only [here, Pc.waits, same, pins] at moved
    omega
  refine ⟨inv.held.stay pc (by rw [← next]; exact inv.held.ring) (fun b' => (bufs b').1) (fun b' => ?_)
    (fun u b' _ => by rw [(bufs b').2.2.2]) (by simp) ?_ (by simp) fun b' before now => ?_, inv.sound.same (t := t) ?_ bufs ?_ ?_⟩
  · rw [counts]
    have count := inv.held.count b'
    by_cases this : b = b'
    · subst this
      rw [entry, if_pos rfl]
      simp only [more]
      omega
    · rw [others b' (Ne.symm this), if_neg this]
      exact count
  · rintro _ _ (⟨⟨⟩⟩ | ⟨⟨⟩⟩ | ⟨⟨⟩⟩)
    exact cached
  · rw [counts, before] at now
    by_cases this : b = b'
    · rw [← this, cached]
      exact dev
    · simp [this] at now
  · rw [← next]
    rfl
  · intro u other
    rw [pc, Function.update_of_ne other]
  · simp [here]

theorem bgetNew (here : s.pc t = .bget key) (missing : ∀ b', (s.buf b').key ≠ key)
    (unused : (s.buf b).refcnt = 0) (known : stored'.resident = Function.update stored.resident (s.buf b).key none) :
    Inv ((s.set b { s.buf b with key := key, valid := false, refcnt := 1 }).at t (.wait key b)) stored' := by
  have dev := inv.held.device t key here
  have none := inv.held.users_eq_zero unused
  have free : (s.buf b).lock = .none := by
    cases lock : (s.buf b).lock with
    | none => rfl
    | some u =>
      have some := Held.users_pos lock
      omega
  generalize next : (s.set b { s.buf b with key := key, valid := false, refcnt := 1 }).at t (.wait key b) = s'
  have pc : s'.pc = Function.update s.pc t (.wait key b) := by rw [← next]; rfl
  have entry : s'.buf b = { s.buf b with key := key, valid := false, refcnt := 1 } := by simp [← next, State.at, State.set]
  have others : ∀ b', b' ≠ b → s'.buf b' = s.buf b' := fun b' other => by simp [← next, State.at, State.set, other]
  have locks : ∀ b', (s'.buf b').lock = (s.buf b').lock := by
    intro b'
    by_cases this : b' = b
    · rw [this, entry]
    · rw [others b' this]
  have pins : s'.pins = s.pins := by rw [← next]; rfl
  have disk : s'.disk = s.disk := by rw [← next]; rfl
  have counts : ∀ b', users s' b' = users s b' + if b = b' then 1 else 0 := by
    intro b'
    have moved := users_move pc b'
    have same : owned (s'.buf b') = owned (s.buf b') := by simp only [owned, locks b']
    simp only [here, Pc.waits, same, pins] at moved
    omega
  constructor
  · refine inv.held.move pc (by rw [← next]; exact inv.held.ring) (fun b' => ?_) (fun u b' _ => by rw [locks]) (fun b' used => ?_)
      (by simp) ?_ (by simp) (fun b' now before => ?_) fun b' b'' same now => ?_
    · rw [counts]
      by_cases this : b = b'
      · subst this
        rw [entry, if_pos rfl, none]
        rfl
      · rw [others b' (Ne.symm this), if_neg this]
        exact inv.held.count b'
    · rw [others b']
      rintro rfl
      exact used none
    · rintro _ _ (⟨⟨⟩⟩ | ⟨⟨⟩⟩ | ⟨⟨⟩⟩)
      rw [entry]
    · rw [counts, before] at now
      by_cases this : b = b'
      · rw [← this, entry]
        exact dev
      · simp [this] at now
    · by_cases this : b' = b
      · by_cases this' : b'' = b
        · rw [this, this']
        · rw [this, entry, others b'' this'] at same
          exact absurd same.symm (missing b'')
      · by_cases this' : b'' = b
        · rw [this', entry, others b' this] at same
          exact absurd same (missing b')
        · rw [others b' this, others b'' this'] at same
          rw [others b' this] at now
          exact inv.held.unique b' b'' same now
  constructor
  · intro u b' lock
    rw [locks] at lock
    have this : b' ≠ b := by
      rintro rfl
      cases free.symm.trans lock
    rw [others b' this]
    rcases inv.sound.loaded u b' lock with ⟨key', there⟩ | valid
    · refine .inl ⟨key', ?_⟩
      rw [pc, Function.update_of_ne (by rintro rfl; cases here.symm.trans there)]
      exact there
    · exact .inr valid
  · intro b' valid now
    have this : b' ≠ b := by
      rintro rfl
      rw [entry] at valid
      cases valid
    rw [others b' this] at valid now ⊢
    rw [known, Function.update_of_ne fun equal => this (inv.held.unique b' b equal now), disk]
    exact inv.sound.content b' valid now
  · intro key' some
    have apart : key' ≠ (s.buf b).key := by
      rintro rfl
      simp [known] at some
    rw [known, Function.update_of_ne apart] at some
    obtain ⟨b', same, valid⟩ := inv.sound.resident key' some
    have this : b' ≠ b := by
      rintro rfl
      exact apart same.symm
    exact ⟨b', by rw [others b' this]; exact same, by rw [others b' this]; exact valid⟩

end Inv

end OsProjects.Buffers
