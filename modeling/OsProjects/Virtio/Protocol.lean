import Mathlib.Data.Multiset.Fintype
import OsProjects.Virtio.Descriptors

namespace OsProjects.Virtio
open Transition Wrapping

variable {Thread Buf Data : Type} {s s' : State Thread Buf Data} {h h' : History Buf} {t u : Thread} {b : Buf}
  {stage : Stage} {r : Request Buf} {new : Pc Buf} {x : ℕ}

/-! ## Requests on their way -/

def availHeads (s : State Thread Buf Data) : List ℕ := contents s.avail.ring s.device.last s.avail.idx

def usedHeads (s : State Thread Buf Data) : List ℕ := contents s.used.ring s.usedIdx s.used.idx

def answered (s : State Thread Buf Data) : Multiset ℕ := s.device.finished + (s.device.entered.toList + usedHeads s)

def flight (s : State Thread Buf Data) : Multiset ℕ := availHeads s + (s.device.working + answered s)

def Stage.Waits (stage : Stage) : Prop := stage = .test ∨ stage = .asleep

structure Chained (s : State Thread Buf Data) (r : Request Buf) : Prop where
  first : s.descs.desc r.i0 = ⟨.ops r.i0, 16, true, false, r.i1⟩
  second : s.descs.desc r.i1 = ⟨.data r.b, BSIZE, true, !r.write, r.i2⟩
  third : s.descs.desc r.i2 = ⟨.status r.i0, 1, false, true, 0⟩
  buf : (s.info r.i0).b = some r.b

def Fine (s : State Thread Buf Data) (h : History Buf) (r : Request Buf) : Stage → Prop
  | .format => True
  | .ring => Chained s r ∧ (s.buf r.b).disk = true
  | .publish => Chained s r ∧ (s.buf r.b).disk = true ∧ s.avail.ring (position NUM s.avail.idx) = r.i0.val
  | .test | .asleep => Chained s r ∧ ((s.buf r.b).disk = true ↔ r.i0.val ∈ flight s) ∧
      ((s.buf r.b).disk = false → h.served r.b = true)
  | .finish => Chained s r ∧ h.served r.b = true

structure Sound (s : State Thread Buf Data) (h : History Buf) : Prop where
  fine : ∀ t stage r, s.pc t = .request stage r → Fine s h r stage
  left : ∀ t b, s.pc t = .leave b → h.served b = true
  body : ∀ t, s.pc t = .intrBody → s.usedIdx ≠ s.used.idx
  nodup : (flight s).Nodup
  waiting : ∀ x ∈ flight s, ∃ t stage r, s.pc t = .request stage r ∧ stage.Waits ∧ r.i0.val = x
  status : ∀ i : Index, i.val ∈ answered s → (s.info i).status = 0
  served : ∀ t stage r, s.pc t = .request stage r → stage.Waits → r.i0.val ∈ usedHeads s → h.served r.b = true
  entered : ∀ x, s.device.entered = some x → s.used.ring (position NUM s.used.idx) = x
  submitted : h.submitted = h.taken ++ availHeads s
  completed : h.completed = h.processed ++ usedHeads s

structure Inv (s : State Thread Buf Data) (h : History Buf) : Prop where
  held : Held s
  sound : Sound s h

theorem Chained.congr (chained : Chained s r) (desc : ∀ i ∈ r.indices, s'.descs.desc i = s.descs.desc i)
    (info : (s'.info r.i0).b = (s.info r.i0).b) : Chained s' r where
  first := (desc r.i0 (by simp [Request.indices])).trans chained.first
  second := (desc r.i1 (by simp [Request.indices])).trans chained.second
  third := (desc r.i2 (by simp [Request.indices])).trans chained.third
  buf := info.trans chained.buf

theorem Chained.chain (chained : Chained s r) : Virtio.chain s r.i0.val = some (r.i0, r.b, r.i0) := by
  simp [Virtio.chain, chained.first, chained.second, chained.third]

theorem Fine.congr (fine : Fine s h r stage) (desc : ∀ i ∈ r.indices, s'.descs.desc i = s.descs.desc i)
    (info : (s'.info r.i0).b = (s.info r.i0).b) (disk : (s'.buf r.b).disk = (s.buf r.b).disk)
    (flying : stage.Waits → (r.i0.val ∈ flight s' ↔ r.i0.val ∈ flight s))
    (served : h.served r.b = true → h'.served r.b = true)
    (ring : stage = .publish → s'.avail.ring (position NUM s'.avail.idx) = s.avail.ring (position NUM s.avail.idx)) :
    Fine s' h' r stage := by
  cases stage with
  | format => trivial
  | ring => exact ⟨fine.1.congr desc info, disk.trans fine.2⟩
  | publish => exact ⟨fine.1.congr desc info, disk.trans fine.2.1, (ring rfl).trans fine.2.2⟩
  | test =>
    refine ⟨fine.1.congr desc info, ?_, fun off => served (fine.2.2 (disk.symm.trans off))⟩
    rw [disk, flying (.inl rfl)]
    exact fine.2.1
  | asleep =>
    refine ⟨fine.1.congr desc info, ?_, fun off => served (fine.2.2 (disk.symm.trans off))⟩
    rw [disk, flying (.inr rfl)]
    exact fine.2.1
  | finish => exact ⟨fine.1.congr desc info, served fine.2⟩

variable {stage' : Stage}

theorem mem_flight_of_answered (member : x ∈ answered s) : x ∈ flight s := by
  simp only [flight, Multiset.mem_add]
  exact .inr (.inr member)

theorem mem_answered_of_used (member : x ∈ usedHeads s) : x ∈ answered s := by
  simp only [answered, Multiset.mem_add, Multiset.mem_coe]
  exact .inr (.inr member)

namespace Inv

theorem waits (inv : Inv s h) (here : s.pc t = .request stage r) (member : r.i0.val ∈ flight s) : stage.Waits := by
  obtain ⟨u, stage', r', there, waits, equal⟩ := inv.sound.waiting _ member
  have same : r'.i0 = r.i0 := Fin.ext equal
  obtain rfl : t = u := inv.held.same_index (i := r.i0) here there (by simp [Request.indices]) (by simp [Request.indices, same])
  obtain ⟨rfl, rfl⟩ : stage = stage' ∧ r = r' := by simpa using here.symm.trans there
  exact waits

variable {r' : Request Buf}

theorem other_index (inv : Inv s h) {i j : Index} (here : s.pc t = .request stage r)
    (other : u ≠ t) (there : s.pc u = .request stage' r') (mine : i ∈ r.indices) (theirs : j ∈ r'.indices) : j ≠ i := by
  rintro rfl
  exact other (inv.held.same_index there here theirs mine)

theorem other_buf (inv : Inv s h) (here : s.pc t = .request stage r)
    (other : u ≠ t) (there : s.pc u = .request stage' r') : r'.b ≠ r.b := by
  intro same
  refine other (inv.held.same_buf (b := r.b) ?_ ?_)
  · rw [there]
    exact same
  · rw [here]
    rfl

theorem early (inv : Inv s h) (here : s.pc t = .request stage r) (notYet : ¬ stage.Waits)
    (there : s.pc t = .request stage' r') : r'.i0.val ∉ flight s := by
  intro member
  have waits := inv.waits there member
  obtain ⟨rfl, rfl⟩ : stage = stage' ∧ r = r' := by simpa using here.symm.trans there
  exact notYet waits

theorem card_flight (inv : Inv s h) : (flight s).card ≤ NUM := by
  have small : flight s ≤ Multiset.range NUM := by
    rw [Multiset.le_iff_subset inv.sound.nodup]
    intro x member
    obtain ⟨_, _, r, _, _, rfl⟩ := inv.sound.waiting x member
    exact Multiset.mem_range.mpr r.i0.isLt
  simpa using Multiset.card_le_card small

theorem avail_room (inv : Inv s h) (here : s.pc t = .request stage r) (notYet : ¬ stage.Waits) :
    (s.avail.idx - s.device.last).toNat < NUM := by
  have absent := inv.early here notYet here
  have distinct : (r.i0.val ::ₘ flight s).Nodup := Multiset.nodup_cons.mpr ⟨absent, inv.sound.nodup⟩
  have small : r.i0.val ::ₘ flight s ≤ Multiset.range NUM := by
    rw [Multiset.le_iff_subset distinct]
    intro x member
    rcases Multiset.mem_cons.mp member with rfl | member
    · exact Multiset.mem_range.mpr r.i0.isLt
    · obtain ⟨_, _, r, _, _, rfl⟩ := inv.sound.waiting x member
      exact Multiset.mem_range.mpr r.i0.isLt
  have count := Multiset.card_le_card small
  have length : (availHeads s).length = (s.avail.idx - s.device.last).toNat := length_contents _ _ _
  simp only [flight, Multiset.card_cons, Multiset.card_add, Multiset.coe_card, Multiset.card_range] at count
  omega

theorem used_room (inv : Inv s h) (some : s.device.finished ≠ [] ∨ s.device.entered ≠ none) :
    (s.used.idx - s.usedIdx).toNat < NUM := by
  have count := inv.card_flight
  have length : (usedHeads s).length = (s.used.idx - s.usedIdx).toNat := length_contents _ _ _
  simp only [flight, answered, Multiset.card_add, Multiset.coe_card] at count
  have one : 0 < s.device.finished.length + s.device.entered.toList.length := by
    rcases some with some | some
    · have := List.length_pos_iff.mpr some
      omega
    · obtain ⟨x, equal⟩ := Option.ne_none_iff_exists'.mp some
      simp [equal]
  omega

end Inv

/-! ## Steps of threads away from the rings -/

variable [DecidableEq Thread]

theorem Inv.local (inv : Inv s h) (pc : s'.pc = Function.update s.pc t new)
    (heads : availHeads s' = availHeads s)
    (ring : ∀ u r, u ≠ t → s.pc u = .request .publish r →
      s'.avail.ring (position NUM s'.avail.idx) = s.avail.ring (position NUM s.avail.idx))
    (used : s'.used = s.used) (usedIdx : s'.usedIdx = s.usedIdx) (device : s'.device = s.device)
    (others : ∀ u stage r, u ≠ t → s.pc u = .request stage r →
      (∀ i ∈ r.indices, s'.descs.desc i = s.descs.desc i) ∧ s'.info r.i0 = s.info r.i0 ∧
        (s'.buf r.b).disk = (s.buf r.b).disk)
    (fine : ∀ stage r, new = .request stage r → Fine s' h r stage) (left : ∀ b, new = .leave b → h.served b = true)
    (body : new = .intrBody → s.usedIdx ≠ s.used.idx)
    (waits : ∀ stage r, s.pc t = .request stage r → r.i0.val ∈ flight s →
      (∃ stage', new = .request stage' r ∧ stage'.Waits) ∧ s'.info r.i0 = s.info r.i0)
    (waited : ∀ stage r, new = .request stage r → stage.Waits → ∃ stage', s.pc t = .request stage' r ∧ stage'.Waits) :
    Sound s' h := by
  have mine : s'.pc t = new := by rw [pc, Function.update_self]
  have theirs : ∀ u, u ≠ t → s'.pc u = s.pc u := fun u other => by rw [pc, Function.update_of_ne other]
  have sameUsed : usedHeads s' = usedHeads s := by rw [usedHeads, used, usedIdx, usedHeads]
  have sameAnswered : answered s' = answered s := by rw [answered, sameUsed, device, answered]
  have sameFlight : flight s' = flight s := by rw [flight, heads, sameAnswered, device, flight]
  have sound := inv.sound
  constructor
  · intro u stage r here
    by_cases same : u = t
    · subst same
      exact fine stage r (by rwa [mine] at here)
    · rw [theirs u same] at here
      obtain ⟨desc, info, disk⟩ := others u stage r same here
      exact (sound.fine u stage r here).congr desc (by rw [info]) disk (fun _ => by rw [sameFlight]) id
        fun published => ring u r same (published ▸ here)
  · intro u b here
    by_cases same : u = t
    · subst same
      exact left b (by rwa [mine] at here)
    · exact sound.left u b (by rwa [theirs u same] at here)
  · intro u here
    rw [usedIdx, used]
    by_cases same : u = t
    · subst same
      exact body (by rwa [mine] at here)
    · exact sound.body u (by rwa [theirs u same] at here)
  · rw [sameFlight]
    exact sound.nodup
  · intro x member
    rw [sameFlight] at member
    obtain ⟨u, stage, r, here, _, rfl⟩ := sound.waiting x member
    by_cases same : u = t
    · subst same
      obtain ⟨⟨stage', there, waits'⟩, _⟩ := waits stage r here member
      exact ⟨u, stage', r, by rwa [mine], waits', rfl⟩
    · exact ⟨u, stage, r, by rwa [theirs u same], inv.waits here member, rfl⟩
  · intro i member
    rw [sameAnswered] at member
    obtain ⟨u, stage, r, here, _, equal⟩ := sound.waiting _ (mem_flight_of_answered member)
    obtain rfl : r.i0 = i := Fin.ext equal
    have status := sound.status r.i0 member
    by_cases same : u = t
    · subst same
      rw [(waits stage r here (mem_flight_of_answered member)).2]
      exact status
    · rw [(others u stage r same here).2.1]
      exact status
  · intro u stage r here waiting member
    rw [sameUsed] at member
    by_cases same : u = t
    · subst same
      rw [mine] at here
      obtain ⟨stage', before, waiting'⟩ := waited stage r here waiting
      exact sound.served u stage' r before waiting' member
    · exact sound.served u stage r (by rwa [theirs u same] at here) waiting member
  · rw [device, used]
    exact sound.entered
  · rw [heads]
    exact sound.submitted
  · rw [sameUsed]
    exact sound.completed

theorem Inv.quiet (inv : Inv s h) (t : Thread) (new : Pc Buf) (lock : Option Thread) (desc : Index → Desc Buf)
    (locked : new.holds ∧ lock = some t ∧ (s.lock = none ∨ s.lock = some t) ∨
      ¬ new.holds ∧ lock = none ∧ s.lock = some t ∨ ¬ new.holds ∧ lock = s.lock ∧ ¬ (s.pc t).holds)
    (cleared : ∀ i, s.descs.free i = false → desc i = s.descs.desc i) (buf : ∀ b, new.uses b → s.sleeplock b = some t)
    (owns : ∀ i, new.owns i ↔ (s.pc t).owns i)
    (after : ∀ stage r, new = .request stage r → ∃ stage', s.pc t = .request stage' r ∧ (stage.Waits → stage'.Waits) ∧
      (Fine s h r stage' → Fine s h r stage))
    (before : ∀ stage r, s.pc t = .request stage r → r.i0.val ∈ flight s → ∃ stage', new = .request stage' r ∧ stage'.Waits)
    (left : ∀ b, new = .leave b → h.served b = true) (body : new = .intrBody → s.usedIdx ≠ s.used.idx) :
    Inv { s with descs := ⟨desc, s.descs.free⟩, pc := Function.update s.pc t new, lock := lock } h := by
  have kept : ∀ u stage r, s.pc u = .request stage r → ∀ i ∈ r.indices, desc i = s.descs.desc i :=
    fun u stage r here i member => cleared i (inv.held.used here member)
  constructor
  · refine inv.held.move rfl locked rfl buf (fun i => ?_) (fun i mine => .inl ((owns i).mp mine)) fun stage r equal => ?_
    · rw [owns i]
      refine ⟨fun used => ?_, ?_⟩
      · exact (em ((s.pc t).owns i)).imp id fun other => ⟨used, other⟩
      · rintro (mine | ⟨used, _⟩)
        · exact (inv.held.owned i).mpr ⟨t, mine⟩
        · exact used
    · obtain ⟨stage', here, _, _⟩ := after stage r equal
      exact inv.held.distinct t stage' r here
  · refine inv.local rfl rfl (fun _ _ _ _ => rfl) rfl rfl rfl (fun u stage r _ here => ⟨kept u stage r here, rfl, rfl⟩)
      (fun stage r equal => ?_) left body (fun stage r here member => ⟨before stage r here member, rfl⟩)
      fun stage r equal waits => ?_
    · obtain ⟨stage', here, _, fine⟩ := after stage r equal
      exact (fine (inv.sound.fine t stage' r here)).congr (kept t stage' r here) rfl rfl (fun _ => Iff.rfl) id fun _ => rfl
    · obtain ⟨stage', here, waits', _⟩ := after stage r equal
      exact ⟨stage', here, waits' waits⟩

namespace Inv

theorem alloc {write : Bool} (inv : Inv s h) (here : s.pc t = .alloc b write) :
    ∃ descs, (∃ desc, alloc3Desc s.descs = .ok (none, descs) ∧ descs = ⟨desc, s.descs.free⟩ ∧
      Inv { s with descs := descs, pc := Function.update s.pc t (.enter b write), lock := none } h) ∨
    ∃ i0 i1 i2, alloc3Desc s.descs = .ok (some (i0, i1, i2), descs) ∧
      Inv { s with descs := descs, pc := Function.update s.pc t (.request .format ⟨b, write, i0, i1, i2⟩) } h := by
  have locked : s.lock = some t := (inv.held.lock t).mpr (by rw [here]; trivial)
  have mine : s.sleeplock b = some t := inv.held.buf t b (by rw [here]; rfl)
  rcases alloc3Desc_none_or_some s.descs with ⟨desc, result, cleared⟩ | ⟨i0, i1, i2, free, result, distinct, fresh, used⟩
  · refine ⟨_, .inl ⟨desc, result, rfl, inv.quiet t _ none desc ?_ cleared ?_ ?_ ?_ ?_ ?_ ?_⟩⟩
    all_goals simp [here, Pc.holds, Pc.uses, Pc.owns, locked, mine]
  · refine ⟨_, .inr ⟨i0, i1, i2, result, ?_, ?_⟩⟩
    · refine inv.held.move rfl (.inl ⟨by simp [Pc.holds, Stage.holds], locked, .inr locked⟩) rfl ?_ ?_ ?_ ?_
      · simpa [Pc.uses] using mine
      · intro i
        simpa [Pc.owns, here, Request.indices] using used i
      · intro i owns
        exact .inr (fresh i (by simpa [Pc.owns, Request.indices] using owns))
      · rintro stage r ⟨⟩
        exact distinct
    · refine inv.local rfl rfl (fun _ _ _ _ => rfl) rfl rfl rfl (fun _ _ _ _ _ => ⟨fun _ _ => rfl, rfl, rfl⟩) ?_ ?_ ?_ ?_ ?_
      · rintro stage r ⟨⟩
        trivial
      all_goals simp [here, Stage.Waits]

theorem held_request (inv : Inv s h) (here : s.pc t = .request stage r) (holds : stage.holds)
    (holds' : stage'.holds) (pc : s'.pc = Function.update s.pc t (.request stage' r)) (lock : s'.lock = s.lock)
    (sleeplock : s'.sleeplock = s.sleeplock) (free : s'.descs.free = s.descs.free) : Held s' := by
  have locked : s.lock = some t := (inv.held.lock t).mpr (by rw [here]; exact holds)
  refine inv.held.move pc (.inl ⟨holds', lock.trans locked, .inr locked⟩) sleeplock ?_ ?_ ?_ ?_
  · intro b uses
    exact inv.held.buf t b (by rw [here]; exact uses)
  · intro i
    rw [free, here]
    simp only [Pc.owns]
    refine ⟨fun used => (em (i ∈ r.indices)).imp id fun other => ⟨used, other⟩, ?_⟩
    rintro (mine | ⟨used, _⟩)
    · exact inv.held.used here mine
    · exact used
  · intro i owns
    rw [here]
    exact .inl owns
  · rintro _ _ ⟨⟩
    exact inv.held.distinct t stage r here

theorem ring (inv : Inv s h) (here : s.pc t = .request .ring r) :
    Inv ({ s with avail := ⟨Function.update s.avail.ring (position NUM s.avail.idx) r.i0.val, s.avail.idx⟩ }.at t
      (.request .publish r)) h := by
  have room := inv.avail_room here (by simp [Stage.Waits])
  have same : availHeads ({ s with avail := ⟨Function.update s.avail.ring (position NUM s.avail.idx) r.i0.val, s.avail.idx⟩ }.at t
      (.request .publish r)) = availHeads s := contents_update (by decide) room _
  refine ⟨inv.held_request here (by simp [Stage.holds]) (by simp [Stage.holds]) rfl rfl rfl rfl, ?_⟩
  refine inv.local rfl same (fun u r' other there => ?_) rfl rfl rfl (fun _ _ _ _ _ => ⟨fun _ _ => rfl, rfl, rfl⟩) ?_ ?_ ?_ ?_ ?_
  · refine absurd (inv.held.alone (t := u) (u := t) ?_ ?_) other
    · rw [there]
      simp [Pc.holds, Stage.holds]
    · rw [here]
      simp [Pc.holds, Stage.holds]
  · rintro stage' r' ⟨⟩
    obtain ⟨chained, disk⟩ := inv.sound.fine t _ r here
    exact ⟨chained.congr (fun _ _ => rfl) rfl, disk, by simp [State.at]⟩
  · simp
  · simp
  · exact fun stage' r' there member => absurd member (inv.early here (by simp [Stage.Waits]) there)
  · rintro stage' r' ⟨⟩ waits
    simp [Stage.Waits] at waits

theorem finish (inv : Inv s h) (here : s.pc t = .request .finish r) :
    ∃ descs, freeChain (NUM + 1) s.descs r.i0 = .ok descs ∧
      Inv ({ s with info := Function.update s.info r.i0 { s.info r.i0 with b := none }, descs := descs }.at t (.leave r.b)) h := by
  have distinct := inv.held.distinct t _ r here
  have locked : s.lock = some t := (inv.held.lock t).mpr (by rw [here]; simp [Pc.holds, Stage.holds])
  obtain ⟨chained, served⟩ := inv.sound.fine t _ r here
  obtain ⟨descs, freed, kept, free⟩ := freeChain_three (d := s.descs) distinct (fun i => inv.held.used here)
    (by simp [chained.first]) (by simp [chained.second]) (by simp [chained.third])
  refine ⟨descs, freed, ?_, ?_⟩
  · refine inv.held.move rfl (.inl ⟨trivial, locked, .inr locked⟩) rfl ?_ ?_ ?_ ?_
    · rintro b ⟨⟩
      exact inv.held.buf t r.b (by rw [here]; rfl)
    · intro i
      simpa [Pc.owns, here, State.at, Request.indices] using free i
    · simp [Pc.owns]
    · simp
  · refine inv.local rfl rfl (fun _ _ _ _ => rfl) rfl rfl rfl (fun u stage' r' other there => ?_) ?_ ?_ ?_ ?_ ?_
    · refine ⟨fun i theirs => kept i fun mine => ?_, ?_, rfl⟩
      · exact inv.other_index here other there mine theirs rfl
      · have apart := inv.other_index here other there (i := r.i0) (j := r'.i0) (by simp [Request.indices]) (by simp [Request.indices])
        simp [State.at, apart]
    · simp
    · rintro b ⟨⟩
      exact served
    · simp
    · exact fun stage' r' there member => absurd member (inv.early here (by simp [Stage.Waits]) there)
    · simp

variable [DecidableEq Buf] {head : ℕ} {outcome : Except Panic (State Thread Buf Data)}

omit [DecidableEq Thread] in
theorem chained_format (s : State Thread Buf Data) (distinct : r.indices.Nodup) : Chained (format s r) r := by
  simp only [Request.indices, List.nodup_cons, List.mem_cons, List.not_mem_nil, or_false, not_or, List.nodup_nil, and_true,
    not_false_eq_true] at distinct
  obtain ⟨⟨apart1, apart2⟩, apart3⟩ := distinct
  constructor <;> simp [format, apart1, apart2, apart3]

theorem format (inv : Inv s h) (here : s.pc t = .request .format r) :
    Inv ((Virtio.format s r).at t (.request .ring r)) h := by
  have distinct := inv.held.distinct t _ r here
  refine ⟨inv.held_request here (by simp [Stage.holds]) (by simp [Stage.holds]) rfl rfl rfl rfl, ?_⟩
  refine inv.local rfl rfl (fun _ _ _ _ => rfl) rfl rfl rfl (fun u stage' r' other there => ?_) ?_ ?_ ?_ ?_ ?_
  · have elsewhere : ∀ i ∈ r'.indices, i ≠ r.i0 ∧ i ≠ r.i1 ∧ i ≠ r.i2 := fun i theirs =>
      ⟨inv.other_index here other there (by simp [Request.indices]) theirs,
        inv.other_index here other there (by simp [Request.indices]) theirs,
        inv.other_index here other there (by simp [Request.indices]) theirs⟩
    refine ⟨fun i theirs => ?_, ?_, ?_⟩
    · simp [State.at, Virtio.format, elsewhere i theirs]
    · simp [State.at, Virtio.format, elsewhere r'.i0 (by simp [Request.indices])]
    · simp [State.at, Virtio.format, inv.other_buf here other there]
  · rintro stage' r' ⟨⟩
    exact ⟨(chained_format s distinct).congr (fun _ _ => rfl) rfl, by simp [State.at, Virtio.format]⟩
  · simp
  · simp
  · exact fun stage' r' there member => absurd member (inv.early here (by simp [Stage.Waits]) there)
  · rintro stage' r' ⟨⟩ waits
    simp [Stage.Waits] at waits

theorem publish (inv : Inv s h) (here : s.pc t = .request .publish r) :
    Inv ({ s with avail := ⟨s.avail.ring, s.avail.idx + 1⟩ }.at t (.request .test r))
      { h with submitted := h.submitted ++ [r.i0.val], served := Function.update h.served r.b false } := by
  have room := inv.avail_room here (by simp [Stage.Waits])
  have wide : (s.avail.idx - s.device.last).toNat + 1 < 2 ^ 16 := by
    have small : NUM < 2 ^ 16 := by decide
    omega
  have absent := inv.early here (by simp [Stage.Waits]) here
  obtain ⟨chained, disk, entry⟩ := inv.sound.fine t _ r here
  have alone : ∀ u, u ≠ t → ¬ (s.pc u).holds := fun u other holds =>
    other (inv.held.alone holds (by rw [here]; simp [Pc.holds, Stage.holds]))
  refine ⟨inv.held_request here (by simp [Stage.holds]) (by simp [Stage.holds]) rfl rfl rfl rfl, ?_⟩
  generalize next : ({ s with avail := ⟨s.avail.ring, s.avail.idx + 1⟩ }.at t (.request .test r)) = s'
  have mine : s'.pc t = .request .test r := by simp [← next, State.at]
  have theirs : ∀ u, u ≠ t → s'.pc u = s.pc u := fun u other => by simp [← next, State.at, other]
  have sole : ∀ u, (s'.pc u).holds → s'.pc u = .request .test r := by
    intro u holds
    by_cases same : u = t
    · rw [same, mine]
    · rw [theirs u same] at holds
      exact absurd holds (alone u same)
  have heads : availHeads s' = availHeads s ++ [r.i0.val] := by
    rw [← next, ← entry]
    exact contents_snoc wide
  have sameUsed : usedHeads s' = usedHeads s := by rw [← next]; rfl
  have sameAnswered : answered s' = answered s := by rw [← next]; rfl
  have flying : flight s' = r.i0.val ::ₘ flight s := by
    have working : s'.device.working = s.device.working := by rw [← next]; rfl
    rw [flight, heads, sameAnswered, working, Multiset.coe_eq_coe.mpr (List.perm_append_singleton _ _), ← Multiset.cons_coe,
      Multiset.cons_add, flight]
  constructor
  · intro u stage r' there
    by_cases same : u = t
    · subst same
      obtain ⟨rfl, rfl⟩ : Stage.test = stage ∧ r = r' := by simpa using mine.symm.trans there
      subst next
      exact ⟨chained.congr (fun _ _ => rfl) rfl, iff_of_true disk (by rw [flying]; exact Multiset.mem_cons_self _ _),
        fun off => absurd (disk.symm.trans off) (by simp)⟩
    · rw [theirs u same] at there
      have apart : r'.i0.val ≠ r.i0.val := fun equal =>
        inv.other_index here same there (i := r.i0) (j := r'.i0) (by simp [Request.indices]) (by simp [Request.indices]) (Fin.ext equal)
      refine (inv.sound.fine u stage r' there).congr ?_ ?_ ?_ (fun _ => ?_) ?_ ?_
      · simp [← next, State.at]
      · simp [← next, State.at]
      · simp [← next, State.at]
      · rw [flying, Multiset.mem_cons]
        simp [apart]
      · simp [inv.other_buf here same there]
      · rintro rfl
        exact absurd (by rw [there]; simp [Pc.holds, Stage.holds]) (alone u same)
  · exact fun u b there => by cases there.symm.trans (sole u (by rw [there]; trivial))
  · exact fun u there => by cases there.symm.trans (sole u (by rw [there]; trivial))
  · rw [flying]
    exact Multiset.nodup_cons.mpr ⟨absent, inv.sound.nodup⟩
  · intro x member
    rw [flying] at member
    rcases Multiset.mem_cons.mp member with rfl | member
    · exact ⟨t, .test, r, mine, .inl rfl, rfl⟩
    · obtain ⟨u, stage, r', there, waits, rfl⟩ := inv.sound.waiting x member
      have other : u ≠ t := by
        rintro rfl
        exact absurd member (inv.early here (by simp [Stage.Waits]) there)
      exact ⟨u, stage, r', by rwa [theirs u other], waits, rfl⟩
  · rw [sameAnswered, ← next]
    exact inv.sound.status
  · intro u stage r' there waits member
    rw [sameUsed] at member
    have flew := mem_flight_of_answered (mem_answered_of_used member)
    by_cases same : u = t
    · subst same
      obtain ⟨rfl, rfl⟩ : Stage.test = stage ∧ r = r' := by simpa using mine.symm.trans there
      exact absurd flew absent
    · rw [theirs u same] at there
      simpa [inv.other_buf here same there] using inv.sound.served u stage r' there waits member
  · rw [← next]
    exact inv.sound.entered
  · rw [heads, ← List.append_assoc, ← inv.sound.submitted]
  · rw [sameUsed]
    exact inv.sound.completed

theorem complete (inv : Inv s h) (here : s.pc t = .intrBody) :
    ∃ s', Virtio.complete s = .ok s' ∧
      Inv (s'.at t .intrTest) { h with processed := h.processed ++ [s.used.ring (position NUM s.usedIdx)] } := by
  have taken : usedHeads s = s.used.ring (position NUM s.usedIdx) :: contents s.used.ring (s.usedIdx + 1) s.used.idx :=
    contents_take _ (inv.sound.body t here)
  have first : s.used.ring (position NUM s.usedIdx) ∈ usedHeads s := by
    rw [taken]
    exact List.mem_cons_self
  have locked : s.lock = some t := (inv.held.lock t).mpr (by rw [here]; trivial)
  have replied := mem_answered_of_used first
  obtain ⟨u, stage, r, there, waits, equal⟩ := inv.sound.waiting _ (mem_flight_of_answered replied)
  rw [← equal] at first replied taken
  have status := inv.sound.status r.i0 replied
  have served := inv.sound.served u stage r there waits first
  have chained : Chained s r := by
    have fine := inv.sound.fine u stage r there
    rcases waits with rfl | rfl <;> exact fine.1
  have other : u ≠ t := by
    rintro rfl
    rw [here] at there
    cases there
  refine ⟨{ s with
    buf := Function.update s.buf r.b { s.buf r.b with disk := false }
    usedIdx := s.usedIdx + 1 }, by simp [Virtio.complete, ← equal, status, chained.buf, pure, Except.pure], ?_⟩
  rw [← equal]
  generalize next : State.at { s with
    buf := Function.update s.buf r.b { s.buf r.b with disk := false }
    usedIdx := s.usedIdx + 1 } t .intrTest = s'
  have mine : s'.pc t = .intrTest := by simp [← next, State.at]
  have theirs : ∀ v, v ≠ t → s'.pc v = s.pc v := fun v other => by simp [← next, State.at, other]
  have old : ∀ v pc, s'.pc v = pc → pc ≠ .intrTest → v ≠ t ∧ s.pc v = pc := by
    rintro v _ rfl other
    have elsewhere : v ≠ t := fun same => other (by rw [same, mine])
    exact ⟨elsewhere, (theirs v elsewhere).symm⟩
  have rest : usedHeads s = r.i0.val :: usedHeads s' := by rw [taken, ← next]; rfl
  have replies : answered s = r.i0.val ::ₘ answered s' := by
    have device : s'.device = s.device := by rw [← next]; rfl
    rw [answered, rest, answered, device, ← Multiset.cons_coe, Multiset.add_cons, Multiset.add_cons]
  have flying : flight s = r.i0.val ::ₘ flight s' := by
    have device : s'.device = s.device := by rw [← next]; rfl
    have heads : availHeads s' = availHeads s := by rw [← next]; rfl
    rw [flight, replies, flight, device, heads, Multiset.add_cons, Multiset.add_cons]
  have distinct := inv.sound.nodup
  rw [flying, Multiset.nodup_cons] at distinct
  have moved : s'.pc = Function.update s.pc t .intrTest := by rw [← next]; rfl
  constructor
  · refine inv.held.move moved (.inl ⟨trivial, ?_, .inr locked⟩) (by rw [← next]; rfl) ?_ ?_ ?_ ?_
    · rw [← next]
      exact locked
    · simp [Pc.uses]
    · simp [Pc.owns, here, ← next, State.at]
    · simp [Pc.owns]
    · simp
  constructor
  · intro v stage' r' there'
    obtain ⟨_, there'⟩ := old v _ there' (by simp)
    have fine := inv.sound.fine v stage' r' there'
    by_cases same : v = u
    · subst same
      obtain ⟨rfl, rfl⟩ : stage = stage' ∧ r = r' := by simpa using there.symm.trans there'
      have off : (s'.buf r.b).disk = false := by simp [← next, State.at]
      have kept : Chained s' r := chained.congr (by simp [← next, State.at]) (by simp [← next, State.at])
      have settled : Chained s' r ∧ ((s'.buf r.b).disk = true ↔ r.i0.val ∈ flight s') ∧
          ((s'.buf r.b).disk = false → h.served r.b = true) :=
        ⟨kept, by simp [off, distinct.1], fun _ => served⟩
      rcases waits with rfl | rfl <;> exact settled
    · have apart : r'.i0.val ≠ r.i0.val := fun equal => inv.other_index there same there' (i := r.i0) (j := r'.i0)
        (by simp [Request.indices]) (by simp [Request.indices]) (Fin.ext equal)
      refine fine.congr (by simp [← next, State.at]) (by simp [← next, State.at]) ?_ (fun _ => ?_) id fun _ => by simp [← next, State.at]
      · simp [← next, State.at, inv.other_buf there same there']
      · rw [flying, Multiset.mem_cons]
        simp [apart]
  · intro v b there'
    exact inv.sound.left v b (old v _ there' (by simp)).2
  · intro v there'
    obtain ⟨elsewhere, there'⟩ := old v _ there' (by simp)
    exact absurd (inv.held.alone (t := v) (u := t) (by rw [there']; trivial) (by rw [here]; trivial)) elsewhere
  · exact distinct.2
  · intro x member
    have before : x ∈ flight s := by
      rw [flying]
      exact Multiset.mem_cons_of_mem member
    obtain ⟨v, stage', r', there', waits', rfl⟩ := inv.sound.waiting x before
    have elsewhere : v ≠ t := by
      rintro rfl
      rw [here] at there'
      cases there'
    exact ⟨v, stage', r', by rwa [theirs v elsewhere], waits', rfl⟩
  · intro i member
    have before : i.val ∈ answered s := by
      rw [replies]
      exact Multiset.mem_cons_of_mem member
    rw [← next]
    exact inv.sound.status i before
  · intro v stage' r' there' waits' member
    refine inv.sound.served v stage' r' (old v _ there' (by simp)).2 waits' ?_
    rw [rest]
    exact List.mem_cons_of_mem _ member
  · rw [← next]
    exact inv.sound.entered
  · rw [← next]
    exact inv.sound.submitted
  · rw [List.append_assoc, List.singleton_append, ← rest]
    exact inv.sound.completed

/-! ## Steps of the device -/

omit [DecidableEq Thread] [DecidableEq Buf] in
theorem device (inv : Inv s h) (held : Held s') (pc : s'.pc = s.pc) (descs : s'.descs = s.descs) (info : ∀ i, (s'.info i).b = (s.info i).b) (disk : ∀ b, (s'.buf b).disk = (s.buf b).disk)
    (avail : s'.avail = s.avail) (body : s.usedIdx ≠ s.used.idx → s'.usedIdx ≠ s'.used.idx) (flying : flight s' = flight s)
    (status : ∀ i : Index, i.val ∈ answered s' → (s'.info i).status = 0)
    (grows : ∀ b, h.served b = true → h'.served b = true)
    (served : ∀ t stage r, s.pc t = .request stage r → stage.Waits → r.i0.val ∈ usedHeads s' → h'.served r.b = true)
    (entered : ∀ x, s'.device.entered = some x → s'.used.ring (position NUM s'.used.idx) = x)
    (submitted : h'.submitted = h'.taken ++ availHeads s') (completed : h'.completed = h'.processed ++ usedHeads s') :
    Inv s' h' := by
  refine ⟨held, ?_⟩
  constructor
  · intro t stage r here
    rw [pc] at here
    exact (inv.sound.fine t stage r here).congr (fun _ _ => by rw [descs]) (info _) (disk _) (fun _ => by rw [flying])
      (grows _) fun _ => by rw [avail]
  · intro t b here
    rw [pc] at here
    exact grows b (inv.sound.left t b here)
  · intro t here
    rw [pc] at here
    exact body (inv.sound.body t here)
  · rw [flying]
    exact inv.sound.nodup
  · rw [flying, pc]
    exact inv.sound.waiting
  · exact status
  · rw [pc]
    exact served
  · exact entered
  · exact submitted
  · exact completed

omit [DecidableEq Thread] [DecidableEq Buf] in
theorem take (inv : Inv s h) (left : s.device.last ≠ s.avail.idx) :
    Inv { s with device := { s.device with
        working := s.avail.ring (position NUM s.device.last) :: s.device.working
        last := s.device.last + 1 } }
      { h with taken := h.taken ++ [s.avail.ring (position NUM s.device.last)] } := by
  have taken : availHeads s = s.avail.ring (position NUM s.device.last) :: contents s.avail.ring (s.device.last + 1) s.avail.idx :=
    contents_take _ left
  refine inv.device (inv.held.congr rfl rfl rfl rfl) rfl rfl (fun _ => rfl) (fun _ => rfl) rfl id ?_ inv.sound.status (fun _ => id) inv.sound.served
    inv.sound.entered ?_ inv.sound.completed
  · rw [flight, flight, taken, ← Multiset.cons_coe, ← Multiset.cons_coe, Multiset.cons_add, Multiset.cons_add, Multiset.add_cons]
    rfl
  · rw [List.append_assoc, List.singleton_append, inv.sound.submitted, taken]
    rfl

omit [DecidableEq Thread] [DecidableEq Buf] in
theorem chained (inv : Inv s h) (member : x ∈ flight s) :
    ∃ t stage r, s.pc t = .request stage r ∧ stage.Waits ∧ r.i0.val = x ∧ Chained s r := by
  obtain ⟨t, stage, r, here, waits, equal⟩ := inv.sound.waiting x member
  refine ⟨t, stage, r, here, waits, equal, ?_⟩
  have fine := inv.sound.fine t stage r here
  rcases waits with rfl | rfl <;> exact fine.1

omit [DecidableEq Thread] in
theorem disk_perform (s : State Thread Buf Data) (k : Index) (b : Buf) (m : Index) (b' : Buf) :
    ((perform s k b m).buf b').disk = (s.buf b').disk := by
  cases type : (s.ops k).type with
  | read =>
    by_cases same : b' = b
    · subst same
      simp [perform, type]
    · simp [perform, type, same]
  | write => simp [perform, type]

omit [DecidableEq Thread] in
theorem transfer (inv : Inv s h) (member : head ∈ s.device.working) :
    ∃ k b m, Virtio.chain s head = some (k, b, m) ∧
      Inv { perform s k b m with device := { (perform s k b m).device with
        working := s.device.working.erase head
        finished := head :: s.device.finished } } h := by
  have flew : head ∈ flight s := by
    simp only [flight, Multiset.mem_add, Multiset.mem_coe]
    exact .inr (.inl member)
  obtain ⟨t, stage, r, here, waits, rfl, chained⟩ := inv.chained flew
  refine ⟨_, _, _, chained.chain, ?_⟩
  refine inv.device (inv.held.congr rfl rfl rfl rfl) rfl rfl (fun i => ?_) (disk_perform s r.i0 r.b r.i0) rfl id ?_ (fun i replied => ?_)
    (fun _ => id) inv.sound.served inv.sound.entered inv.sound.submitted inv.sound.completed
  · by_cases same : i = r.i0
    · subst same
      simp [perform]
    · simp [perform, same]
  · have taken : (s.device.working : Multiset ℕ) = r.i0.val ::ₘ (s.device.working.erase r.i0.val : List ℕ) :=
      Multiset.coe_eq_coe.mpr (List.perm_cons_erase member)
    rw [flight, flight, answered, answered, taken]
    simp only [← Multiset.cons_coe, Multiset.cons_add, Multiset.add_cons]
    rfl
  · by_cases same : i = r.i0
    · subst same
      simp [perform]
    · simp only [perform, Function.update_of_ne same]
      refine inv.sound.status i ?_
      simp only [answered, ← Multiset.cons_coe, Multiset.cons_add, Multiset.mem_cons] at replied
      exact replied.resolve_left fun equal => same (Fin.ext equal)

omit [DecidableEq Thread] [DecidableEq Buf] in
theorem enter (inv : Inv s h) (member : head ∈ s.device.finished) (free : s.device.entered = none) :
    Inv { s with
      used := ⟨Function.update s.used.ring (position NUM s.used.idx) head, s.used.idx⟩
      device := { s.device with
        finished := s.device.finished.erase head
        entered := some head } } h := by
  have room := inv.used_room (.inl (List.ne_nil_of_mem member))
  have taken : (s.device.finished : Multiset ℕ) = head ::ₘ (s.device.finished.erase head : List ℕ) :=
    Multiset.coe_eq_coe.mpr (List.perm_cons_erase member)
  generalize next : ({ s with
      used := ⟨Function.update s.used.ring (position NUM s.used.idx) head, s.used.idx⟩
      device := { s.device with
        finished := s.device.finished.erase head
        entered := some head } } : State Thread Buf Data) = s'
  have heads : usedHeads s' = usedHeads s := by
    rw [← next]
    exact contents_update (by decide) room _
  have replies : answered s' = answered s := by
    rw [answered, answered, heads, taken, free, ← next]
    simp only [Option.toList, ← Multiset.cons_coe, Multiset.cons_add, Multiset.add_cons]
  have flying : flight s' = flight s := by rw [flight, flight, replies, ← next]; rfl
  refine inv.device (next ▸ inv.held.congr rfl rfl rfl rfl) (by rw [← next]) (by rw [← next]) (fun i => by rw [← next])
    (fun _ => by rw [← next]) (by rw [← next]) (by rw [← next]; exact id) flying ?_ (fun _ => id) ?_ ?_ ?_ ?_
  · rw [replies, ← next]
    exact inv.sound.status
  · rw [heads]
    exact inv.sound.served
  · rw [← next]
    rintro x ⟨⟩
    simp
  · rw [← next]
    exact inv.sound.submitted
  · rw [heads]
    exact inv.sound.completed

omit [DecidableEq Thread] in
theorem advance (inv : Inv s h) (entered : s.device.entered = some head) :
    Inv { s with
        used := ⟨s.used.ring, s.used.idx + 1⟩
        device := { s.device with entered := none } }
      { h with
        completed := h.completed ++ [head]
        served := match Virtio.chain s head with
          | some (_, b, _) => Function.update h.served b true
          | none => h.served } := by
  have room := inv.used_room (.inr (by simp [entered]))
  have wide : (s.used.idx - s.usedIdx).toNat + 1 < 2 ^ 16 := by
    have small : NUM < 2 ^ 16 := by decide
    omega
  have flew : head ∈ flight s := by
    apply mem_flight_of_answered
    simp [answered, entered]
  obtain ⟨t, stage, r, here, waits, rfl, chained⟩ := inv.chained flew
  rw [chained.chain]
  generalize next : ({ s with
      used := ⟨s.used.ring, s.used.idx + 1⟩
      device := { s.device with entered := none } } : State Thread Buf Data) = s'
  have heads : usedHeads s' = usedHeads s ++ [r.i0.val] := by
    rw [← next, ← inv.sound.entered _ entered]
    exact contents_snoc wide
  have replies : answered s' = answered s := by
    have finished : s'.device.finished = s.device.finished := by rw [← next]
    have none : s'.device.entered = none := by rw [← next]
    rw [answered, answered, heads, entered, none, finished, Multiset.coe_eq_coe.mpr (List.perm_append_singleton _ _),
      ← Multiset.cons_coe]
    simp
  have flying : flight s' = flight s := by rw [flight, flight, replies, ← next]; rfl
  refine inv.device (next ▸ inv.held.congr rfl rfl rfl rfl) (by rw [← next]) (by rw [← next]) (fun i => by rw [← next])
    (fun _ => by rw [← next]) (by rw [← next]) (fun _ => ?_) flying ?_ (fun b served => ?_) (fun u stage' r' there waits' member => ?_) ?_ ?_ ?_
  · intro same
    have length : (usedHeads s').length = (s'.used.idx - s'.usedIdx).toNat := length_contents _ _ _
    rw [same] at length
    simp [heads] at length
  · rw [replies, ← next]
    exact inv.sound.status
  · by_cases same : b = r.b
    · simp [same]
    · simpa [same] using served
  · by_cases same : u = t
    · subst same
      obtain ⟨rfl, rfl⟩ : stage = stage' ∧ r = r' := by simpa using here.symm.trans there
      simp
    · have apart : r'.i0.val ≠ r.i0.val := fun equal => inv.other_index here same there (i := r.i0) (j := r'.i0)
        (by simp [Request.indices]) (by simp [Request.indices]) (Fin.ext equal)
      rw [heads] at member
      have before : r'.i0.val ∈ usedHeads s := by simpa [apart] using member
      simpa [inv.other_buf here same there] using inv.sound.served u stage' r' there waits' before
  · rw [← next]
    simp
  · rw [← next]
    exact inv.sound.submitted
  · rw [heads, ← List.append_assoc, ← inv.sound.completed]

/-! ## Any step -/

omit [DecidableEq Thread] [DecidableEq Buf] in
theorem acquired (free : (acquire s t) = some s') : s.lock = none ∧ s' = { s with lock := some t } := by
  obtain ⟨free, equal⟩ := Option.ite_none_right_eq_some.mp free
  exact ⟨free, (Option.some.inj equal).symm⟩

omit [DecidableEq Buf] in
theorem restage (inv : Inv s h) (here : s.pc t = .request stage r) {lock : Option Thread}
    (locked : stage'.holds ∧ lock = some t ∧ (s.lock = none ∨ s.lock = some t) ∨ ¬ stage'.holds ∧ lock = none ∧ s.lock = some t)
    (waits : stage'.Waits → stage.Waits) (fine : Fine s h r stage → Fine s h r stage')
    (still : r.i0.val ∈ flight s → stage'.Waits) :
    Inv { s with pc := Function.update s.pc t (.request stage' r), lock := lock } h := by
  refine inv.quiet t (.request stage' r) lock s.descs.desc (locked.imp id .inl) (fun _ _ => rfl) ?_ ?_ ?_ ?_ (by simp) (by simp)
  · rintro b ⟨⟩
    exact inv.held.buf t r.b (by rw [here]; rfl)
  · simp [Pc.owns, here]
  · rintro _ _ ⟨⟩
    exact ⟨stage, here, waits, fine⟩
  · intro old r' there member
    obtain ⟨rfl, rfl⟩ : stage = old ∧ r = r' := by simpa using here.symm.trans there
    exact ⟨stage', rfl, still member⟩

omit [DecidableEq Thread] [DecidableEq Buf] in
theorem returned (action : some (pure s') = some outcome) (inv : Inv s' h) : ∃ s', outcome = .ok s' ∧ Inv s' h :=
  ⟨s', (Option.some.inj action).symm, inv⟩

theorem request (inv : Inv s h) (here : s.pc t = .request stage r)
    (action : Virtio.request s t r stage = some outcome) : ∃ s', outcome = .ok s' ∧ Inv s' (note s (.thread t .go) h) := by
  cases stage <;> simp only [note, here]
  case format => exact returned action (inv.format here)
  case ring => exact returned action (inv.ring here)
  case publish => exact returned action (inv.publish here)
  case test =>
    have locked : s.lock = some t := (inv.held.lock t).mpr (by rw [here]; simp [Pc.holds, Stage.holds])
    simp only [Virtio.request] at action
    split at action
    · refine returned action (inv.restage here (.inr ⟨?_, rfl, locked⟩) (fun _ => .inl rfl) id fun _ => .inr rfl)
      simp [Stage.holds]
    · rename_i off
      obtain ⟨chained, flying, served⟩ := inv.sound.fine t _ r here
      refine returned action (inv.restage here (.inl ⟨?_, locked, .inr locked⟩) (fun _ => .inl rfl) (fun _ => ?_) fun member => ?_)
      · simp [Stage.holds]
      · exact ⟨chained, served (by simpa using off)⟩
      · exact absurd (flying.mpr member) off
  case asleep =>
    obtain ⟨s1, taken, rfl⟩ := Option.map_eq_some_iff.mp action
    obtain ⟨free, rfl⟩ := acquired taken
    refine ⟨_, rfl, inv.restage here (.inl ⟨?_, rfl, .inl free⟩) (fun _ => .inr rfl) id fun _ => .inl rfl⟩
    simp [Stage.holds]
  case finish =>
    obtain rfl := Option.some.inj action
    obtain ⟨descs, freed, done⟩ := inv.finish here
    exact ⟨_, by simp only [freed]; rfl, done⟩

theorem go (inv : Inv s h) (action : Virtio.go s t = some outcome) :
    ∃ s', outcome = .ok s' ∧ Inv s' (note s (.thread t .go) h) := by
  unfold Virtio.go at action
  cases here : s.pc t <;> simp only [here, reduceCtorEq] at action
  case request stage r => exact inv.request here action
  all_goals simp only [note, here]
  case enter b write =>
    obtain ⟨s1, taken, rfl⟩ := Option.map_eq_some_iff.mp action
    obtain ⟨free, rfl⟩ := acquired taken
    have uses : s.sleeplock b = some t := inv.held.buf t b (by rw [here]; rfl)
    refine ⟨_, rfl, inv.quiet t (.alloc b write) (some t) s.descs.desc (.inl ⟨trivial, rfl, .inl free⟩) (fun _ _ => rfl) ?_ ?_ ?_ ?_ ?_ ?_⟩
    all_goals simp [here, Pc.uses, Pc.owns, uses]
  case alloc b write =>
    obtain rfl := Option.some.inj action
    obtain ⟨descs, ⟨desc, result, rfl, done⟩ | ⟨i0, i1, i2, result, done⟩⟩ := inv.alloc here
    · exact ⟨_, by simp only [result]; rfl, done⟩
    · exact ⟨_, by simp only [result]; rfl, done⟩
  case leave | intrLeave =>
    have locked : s.lock = some t := (inv.held.lock t).mpr (by rw [here]; trivial)
    refine returned action (inv.quiet t .idle none s.descs.desc (.inr (.inl ⟨id, rfl, locked⟩)) (fun _ _ => rfl) ?_ ?_ ?_ ?_ ?_ ?_)
    all_goals simp [here, Pc.uses, Pc.owns]
  case intrEnter =>
    obtain ⟨s1, taken, rfl⟩ := Option.map_eq_some_iff.mp action
    obtain ⟨free, rfl⟩ := acquired taken
    refine ⟨_, rfl, inv.quiet t .intrTest (some t) s.descs.desc (.inl ⟨trivial, rfl, .inl free⟩) (fun _ _ => rfl) ?_ ?_ ?_ ?_ ?_ ?_⟩
    all_goals simp [here, Pc.uses, Pc.owns]
  case intrTest =>
    have locked : s.lock = some t := (inv.held.lock t).mpr (by rw [here]; trivial)
    refine returned action (inv.quiet t _ s.lock s.descs.desc (.inl ⟨by split <;> trivial, locked, .inr locked⟩) (fun _ _ => rfl)
      ?_ ?_ ?_ ?_ ?_ ?_)
    · split <;> simp [Pc.uses]
    · split <;> simp [here, Pc.owns]
    · split <;> simp
    · simp [here]
    · split <;> simp
    · split
      · exact fun _ => ‹_›
      · simp
  case intrBody =>
    obtain rfl := Option.some.inj action
    obtain ⟨s1, result, done⟩ := inv.complete here
    exact ⟨_, by simp only [result]; rfl, done⟩

omit [DecidableEq Thread] in
theorem deviceStep (inv : Inv s h) {act : DeviceAct} (action : Virtio.device s act = some s') :
    Inv s' (note s (.device act) h) := by
  cases act with
  | take =>
    obtain ⟨left, equal⟩ := Option.ite_none_right_eq_some.mp action
    obtain rfl := Option.some.inj equal
    exact inv.take left
  | transfer head =>
    obtain ⟨member, equal⟩ := Option.ite_none_right_eq_some.mp action
    obtain ⟨k, b, m, chain, done⟩ := inv.transfer member
    rw [chain] at equal
    obtain rfl := Option.some.inj equal
    exact done
  | enter head =>
    obtain ⟨⟨member, free⟩, equal⟩ := Option.ite_none_right_eq_some.mp action
    obtain rfl := Option.some.inj equal
    exact inv.enter member free
  | advance =>
    obtain ⟨some, equal⟩ := Option.ite_none_right_eq_some.mp action
    obtain rfl := Option.some.inj equal
    obtain ⟨head, entered⟩ := Option.ne_none_iff_exists'.mp some
    simp only [note, entered]
    exact inv.advance entered

omit [DecidableEq Thread] [DecidableEq Buf] in
theorem outside (inv : Inv s h) {sleeplock : Buf → Option Thread} {buf : Buf → BufState Data}
    (disk : ∀ b, (buf b).disk = (s.buf b).disk) (locked : ∀ t b, (s.pc t).uses b → sleeplock b = some t) :
    Inv { s with sleeplock := sleeplock, buf := buf } h :=
  inv.device ⟨inv.held.lock, locked, inv.held.owned, inv.held.unique, inv.held.distinct⟩ rfl rfl (fun _ => rfl) disk rfl id rfl
    inv.sound.status (fun _ => id) inv.sound.served inv.sound.entered inv.sound.submitted inv.sound.completed

theorem idle (inv : Inv s h) (here : s.pc t = .idle) {act : Act Buf Data} (other : act ≠ .go)
    (action : result s (.thread t act) = some outcome) :
    ∃ s', outcome = .ok s' ∧ Inv s' h := by
  cases act with
  | go => exact absurd rfl other
  | acquiresleep b =>
    simp only [result, here] at action
    obtain ⟨free, equal⟩ := Option.ite_none_right_eq_some.mp action
    obtain rfl := Option.some.inj equal
    refine ⟨_, rfl, inv.outside (fun _ => rfl) fun u b' uses => ?_⟩
    have theirs := inv.held.buf u b' uses
    have apart : b' ≠ b := by
      rintro rfl
      cases free.symm.trans theirs
    rwa [Function.update_of_ne apart]
  | releasesleep b =>
    simp only [result, here] at action
    obtain ⟨mine, equal⟩ := Option.ite_none_right_eq_some.mp action
    obtain rfl := Option.some.inj equal
    refine ⟨_, rfl, inv.outside (fun _ => rfl) fun u b' uses => ?_⟩
    have theirs := inv.held.buf u b' uses
    have apart : b' ≠ b := by
      rintro rfl
      obtain rfl : t = u := Option.some.inj (mine.symm.trans theirs)
      rw [here] at uses
      exact uses
    rwa [Function.update_of_ne apart]
  | store b blockno data =>
    simp only [result, here] at action
    obtain ⟨mine, equal⟩ := Option.ite_none_right_eq_some.mp action
    obtain rfl := Option.some.inj equal
    refine ⟨_, rfl, inv.outside (fun b' => ?_) inv.held.buf⟩
    by_cases same : b' = b
    · simp [same]
    · simp [same]
  | call b write =>
    simp only [result, here] at action
    obtain ⟨mine, equal⟩ := Option.ite_none_right_eq_some.mp action
    obtain rfl := Option.some.inj equal
    refine ⟨_, rfl, inv.quiet t (.enter b write) s.lock s.descs.desc (.inr (.inr ⟨id, rfl, by rw [here]; exact id⟩))
      (fun _ _ => rfl) ?_ ?_ ?_ ?_ ?_ ?_⟩
    all_goals simp [here, Pc.uses, Pc.owns, mine]
  | interrupt =>
    simp only [result, here] at action
    obtain rfl := Option.some.inj action
    refine ⟨_, rfl, inv.quiet t .intrEnter s.lock s.descs.desc (.inr (.inr ⟨id, rfl, by rw [here]; exact id⟩))
      (fun _ _ => rfl) ?_ ?_ ?_ ?_ ?_ ?_⟩
    all_goals simp [here, Pc.uses, Pc.owns]

theorem step (inv : Inv s h) {label : Label Thread Buf Data}
    (action : result s label = some outcome) : ∃ s', outcome = .ok s' ∧ Inv s' (note s label h) := by
  cases label with
  | device act =>
    obtain ⟨s', moved, rfl⟩ := Option.map_eq_some_iff.mp action
    exact ⟨s', rfl, inv.deviceStep moved⟩
  | thread t act =>
    by_cases going : act = .go
    · subst going
      exact inv.go action
    · have same : note s (.thread t act) h = h := by cases act <;> first | rfl | exact absurd rfl going
      rw [same]
      cases here : s.pc t with
      | idle => exact inv.idle here going action
      | _ => cases act <;> simp [result, here] at action going

end Inv

/-! ## Any run -/

variable (buf : Buf → BitVec 32 × Data) (sectors : BitVec 64 → Data)

omit [DecidableEq Thread] in
theorem inv_start : Inv (start buf sectors : State Thread Buf Data) .empty := by
  constructor
  · constructor <;> simp [start, Pc.holds, Pc.uses, Pc.owns]
  · constructor <;> simp [start, History.empty, flight, answered, availHeads, usedHeads]

variable [DecidableEq Buf]

theorem inv_of_reachable (reached : ((system buf sectors).recorded .empty note).Reachable (s, h)) : Inv s h := by
  refine System.Reachable.invariant (fun x => Inv x.1 x.2) (inv_start buf sectors) (fun x label x' _ inv action => ?_) reached
  obtain ⟨moved, equal⟩ := System.recorded_step action
  obtain ⟨outcome, result, ok⟩ := Option.bind_eq_some_iff.mp moved
  obtain ⟨s', rfl, done⟩ := inv.step result
  obtain rfl := Option.some.inj ok
  rw [equal]
  exact done

/-- With the lock free every descriptor is free or belongs to one request; the device takes the heads that were
submitted and the driver processes those that were completed, in order and each once; a call returns after its
request has been completed; and nothing panics. -/
theorem virtio_protocol (reached : ((system buf sectors).recorded .empty note).Reachable (s, h)) :
    (s.lock = none → ∀ i, s.descs.free i = true ∧ (∀ t stage r, s.pc t = .request stage r → i ∉ r.indices) ∨
      s.descs.free i = false ∧ ∃! t, ∃ r, s.pc t = .request .asleep r ∧ r.indices.Nodup ∧ i ∈ r.indices) ∧
    (h.submitted = h.taken ++ availHeads s ∧ (availHeads s).length ≤ NUM) ∧
    (h.completed = h.processed ++ usedHeads s ∧ (usedHeads s).length ≤ NUM) ∧
    (flight s).Nodup ∧ (∀ t b, s.pc t = .leave b → h.served b = true) ∧
    (∀ head ∈ s.device.working, (device s (.transfer head)).isSome) ∧
    ∀ label panic, result s label ≠ some (.error panic) := by
  have inv := inv_of_reachable buf sectors reached
  have count := inv.card_flight
  simp only [flight, answered, Multiset.card_add, Multiset.coe_card] at count
  refine ⟨fun free i => ?_, ⟨inv.sound.submitted, by omega⟩, ⟨inv.sound.completed, by omega⟩, inv.sound.nodup, inv.sound.left, ?_, ?_⟩
  · cases used : s.descs.free i with
    | true =>
      refine .inl ⟨rfl, fun t stage r here member => ?_⟩
      cases used.symm.trans (inv.held.used here member)
    | false =>
      obtain ⟨t, owns⟩ := (inv.held.owned i).mp used
      refine .inr ⟨rfl, t, ?_, fun u ⟨r, there, _, member⟩ => inv.held.unique u t i (by rw [there]; exact member) owns⟩
      cases here : s.pc t with
      | request stage r =>
        have asleep : stage = .asleep := by
          by_contra awake
          have locked := (inv.held.lock t).mpr (by rw [here]; exact awake)
          cases free.symm.trans locked
        rw [here] at owns
        exact ⟨r, by rw [here, asleep], inv.held.distinct t stage r here, owns⟩
      | _ => rw [here] at owns; exact owns.elim
  · intro head member
    obtain ⟨k, b, m, chain, _⟩ := inv.transfer member
    simp [device, member, chain]
  · intro label panic action
    obtain ⟨_, ok, _⟩ := inv.step action
    cases ok

abbrev twoThreads : System (State Bool Unit Unit × History Unit) (Label Bool Unit Unit) :=
  (system (fun _ => (0, ())) fun _ => ()).recorded .empty note

def oneWrite : List (Label Bool Unit Unit) :=
  [.thread true (.acquiresleep ()), .thread true (.call () true)] ++ List.replicate 6 (.thread true .go) ++
  [.device .take, .device (.transfer 0), .device (.enter 0), .device .advance, .thread false .interrupt] ++
  List.replicate 5 (.thread false .go) ++ List.replicate 3 (.thread true .go)

theorem virtio_protocol_oneWrite : ∃ s h, twoThreads.Reachable (s, h) ∧ s.pc true = .leave () ∧ h.served () = true ∧
    h.completed = h.processed ++ usedHeads s := by
  have checked : (twoThreads.run twoThreads.initial oneWrite).map
      (fun x => match x.1.pc true with | .leave _ => true | _ => false) = some true := by
    decide +kernel
  obtain ⟨⟨s, h⟩, result, returns⟩ := Option.map_eq_some_iff.mp checked
  have reached := System.Reachable.run .initial result
  have here : s.pc true = .leave () := by
    simp only at returns
    split at returns
    · assumption
    · cases returns
  have protocol := virtio_protocol _ _ reached
  exact ⟨s, h, reached, here, protocol.2.2.2.2.1 true () here, protocol.2.2.1.1⟩

end OsProjects.Virtio
