import OsProjects.Inodes.Steps

namespace OsProjects.Inodes
open Transition

variable {Thread : Type} [Fintype Thread] [DecidableEq Thread] {s s' : State Thread} {made made' : Made Thread} {t u : Thread}
  {ip jp : Entry} {key : Key} {kind : Kind} {ninodes : ℕ}

namespace Inv

/-! ## Calls -/

omit [Fintype Thread] in
theorem made_set (jp : Entry) (kind : Kind) (known : made.set t ip none t jp = some kind) :
    made t jp = some kind ∧ jp ≠ ip := by
  by_cases same : jp = ip
  · subst same
    simp [Made.set] at known
  · exact ⟨by simpa [Made.set, same] using known, same⟩

omit [Fintype Thread] in
theorem made_set_other (other : u ≠ t) : made.set t ip none u = made u := by
  simp [Made.set, other]

omit [Fintype Thread] [DecidableEq Thread] in
theorem unheld_of_off {pc : Pc} (off : ∀ stage jp, pc ≠ .on stage jp) : ¬ pc.holds := by
  cases pc with
  | on stage jp => exact absurd rfl (off stage jp)
  | _ => exact id

variable (inv : Inv s made)
include inv

theorem between {new : Pc} (unclaimed : ¬ (s.pc t).claims) (off : ∀ stage jp, s.pc t ≠ .on stage jp)
    (unclaimed' : ¬ new.claims) (off' : ∀ stage jp, new ≠ .on stage jp) : Inv (s.at t new) made := by
  have others : ∀ u, u ≠ t → (s.at t new).pc u = s.pc u := fun u other => by simp [State.at, other]
  have now : (s.at t new).pc t = new := by simp [State.at]
  refine inv.quiet (t := t) ?_ others rfl rfl rfl ⟨unclaimed, off⟩ (by rw [now]; exact ⟨unclaimed', off'⟩)
  refine inv.held.keep (t := t) others (.inr (.inr ⟨by rw [now]; exact unheld_of_off off', rfl, unheld_of_off off⟩)) rfl (fun _ => rfl)
    (fun _ _ _ => Iff.rfl) (inv.held.owner t) fun stage jp there => ?_
  rw [now] at there
  exact absurd there (off' stage jp)

omit [DecidableEq Thread] in
theorem valid_of_idle (idle : s.pc t = .idle) (has : (s.table ip).lock = some t) : (s.table ip).valid = true := by
  refine (inv.sound.loaded t ip has).resolve_left fun ⟨stage, there, _⟩ => ?_
  cases idle.symm.trans there

omit [DecidableEq Thread] in
theorem typed_of_idle (idle : s.pc t = .idle) (has : (s.table ip).lock = some t) (valid : (s.table ip).valid = true) :
    (s.table ip).d.type ≠ 0 := by
  refine (inv.sound.typed ip (inv.held.ref_pos (inv.held.owner t ip has)) valid).resolve_right fun ⟨u, there⟩ => ?_
  obtain rfl := Option.some.inj (has.symm.trans ((inv.held.stage u _ ip there).2.mpr trivial))
  cases idle.symm.trans there

theorem iunlock (idle : s.pc t = .idle) (has : (s.table ip).lock = some t) :
    Inv (s.set ip { s.table ip with lock := none }) (made.set t ip none) := by
  have mine := inv.held.owner t ip has
  have positive := inv.held.ref_pos mine
  have same : s.set ip { s.table ip with lock := none } =
      ⟨Function.update s.table ip { s.table ip with lock := none }, s.disk, s.lock, Function.update s.pc t .idle, s.refs⟩ := by
    rw [← idle, Function.update_eq_self]
    rfl
  rw [same]
  refine inv.change (t := t) mine (.inl idle) (.inl rfl) ⟨rfl, rfl⟩ (fun _ _ => rfl)
    (others_unlocked (.inr has) (.inl rfl)) (.inr (.inr ⟨id, rfl, by rw [idle]; exact id⟩)) (inv.sound.copy ip positive) (fun valid => ?_) (by simp) (by simp) (by simp) ?_
    fun u => made_set_other
  · exact .inl (inv.typed_of_idle idle has valid)
  · intro jp kind known
    obtain ⟨known, apart⟩ := made_set jp kind known
    exact ⟨known, fun equal => absurd equal apart⟩

theorem update (idle : s.pc t = .idle) (has : (s.table ip).lock = some t) {d : Dinode}
    (type : d.type = (s.table ip).d.type) :
    Inv ((s.set ip { s.table ip with d := d }).write (s.table ip).key d) (made.set t ip none) := by
  have mine := inv.held.owner t ip has
  have valid := inv.valid_of_idle idle has
  have same : (s.set ip { s.table ip with d := d }).write (s.table ip).key d =
      ⟨Function.update s.table ip { s.table ip with d := d }, Function.update s.disk (s.table ip).key d, s.lock,
        Function.update s.pc t .idle, s.refs⟩ := by
    rw [← idle, Function.update_eq_self]
    rfl
  rw [same]
  refine inv.change (t := t) mine (.inl idle) (.inl rfl) ⟨rfl, rfl⟩
    (fun key other => Function.update_of_ne other _ _) (others_unlocked (.inr has) (.inr has)) (.inr (.inr ⟨id, rfl, by rw [idle]; exact id⟩)) (fun _ => by simp)
    (fun _ => ?_) (by simp) (fun _ _ => valid) (by simp) ?_ fun u => made_set_other
  · rw [type]
    exact .inl (inv.typed_of_idle idle has valid)
  · intro jp kind known
    obtain ⟨known, apart⟩ := made_set jp kind known
    exact ⟨known, fun equal => absurd equal apart⟩

theorem pass (idle : s.pc t = .idle) (mine : 0 < s.refs t ip) (notMine : (s.table ip).lock ≠ some t) :
    Inv ((s.setRefs t ip (s.refs t ip - 1)).setRefs u ip ((s.setRefs t ip (s.refs t ip - 1)).refs u ip + 1)) (made.set t ip none) := by
  generalize next : (s.setRefs t ip (s.refs t ip - 1)).setRefs u ip ((s.setRefs t ip (s.refs t ip - 1)).refs u ip + 1) = s'
  have pc : s'.pc = s.pc := by rw [← next]; rfl
  have table : s'.table = s.table := by rw [← next]; rfl
  have disk : s'.disk = s.disk := by rw [← next]; rfl
  have lock : s'.lock = s.lock := by rw [← next]; rfl
  have elsewhere : ∀ v jp, jp ≠ ip → s'.refs v jp = s.refs v jp := by
    intro v jp other
    rw [← next]
    simp only [State.setRefs, Function.update_apply]
    split_ifs <;> simp_all
  have grows : ∀ v jp, v ≠ t → s.refs v jp ≤ s'.refs v jp := by
    intro v jp other
    rw [← next]
    by_cases same : v = u
    · subst same
      by_cases this : jp = ip
      · subst this
        simp [State.setRefs, other]
      · simp [State.setRefs, other, this]
    · simp [State.setRefs, other, same]
  have sum : ∀ jp, weigh (Inodes.held jp) s'.refs = weigh (Inodes.held jp) s.refs := by
    intro jp
    have first := weigh_setRefs s t ip (s.refs t ip - 1) jp
    have second := weigh_setRefs (s.setRefs t ip (s.refs t ip - 1)) u ip ((s.setRefs t ip (s.refs t ip - 1)).refs u ip + 1) jp
    rw [next] at second
    split_ifs at first second <;> omega
  have sound := inv.sound
  constructor
  · refine inv.held.move (t := t) (fun _ _ => by rw [pc]) (.inr (.inr ⟨by rw [pc, idle]; exact id, lock, by rw [idle]; exact id⟩))
      (fun jp => by rw [table, sum]; exact inv.held.sum jp) (fun v jp other => ⟨grows v jp other, by rw [table]⟩) (fun jp has => ?_)
      fun stage jp there => ?_
    · rw [table] at has
      have apart : jp ≠ ip := by
        rintro rfl
        exact notMine has
      rw [elsewhere t jp apart]
      exact inv.held.owner t jp has
    · rw [pc, idle] at there
      cases there
  constructor
  · rw [table]
    exact sound.unique
  · rw [table, disk]
    exact sound.copy
  · rw [table, pc]
    exact sound.typed
  · rw [table, pc]
    exact sound.loaded
  · rw [pc]
    exact fun v stage jp there => (sound.fine v stage jp there).congr (by rw [table]) (by rw [disk])
  · rw [table, disk, pc]
    exact sound.orphan
  · rw [table, disk, pc]
    exact sound.claimed
  · rw [pc]
    exact sound.once
  · intro v jp kind known
    have old : made v jp = some kind ∧ jp ≠ ip := by
      by_cases same : v = t
      · subst same
        exact made_set jp kind known
      · rw [made_set_other same] at known
        refine ⟨known, ?_⟩
        rintro rfl
        rw [inv.unmade mine same] at known
        cases known
    have secret := sound.secret v jp kind old.1
    exact ⟨by rw [elsewhere v jp old.2]; exact secret.mine, fun w other => by rw [elsewhere w jp old.2]; exact secret.others w other,
      by rw [table, disk, secret.disk], by rw [pc]; exact secret.kept⟩

/-! ## Any step -/

theorem iget {claim : Option Kind} (here : s.pc t = .iget key claim) (free : s.lock = none)
    (careful : Careful s (t, .go)) {inode : Inode Thread} (found : Inodes.iget s key = .ok (ip, inode)) :
    Inv (((s.set ip inode).setRefs t ip (s.refs t ip + 1)).at t .idle)
      (made.claim t ip claim) := by
  have linked : claim = none → (s.disk key).nlink ≠ 0 := by
    rintro rfl
    simpa [Careful, here] using careful
  unfold Inodes.iget at found
  split at found
  · rename_i jp first
    obtain ⟨rfl, rfl⟩ := Prod.mk.inj (Except.ok.inj found)
    obtain ⟨positive, equal⟩ : 0 < (s.table jp).ref ∧ (s.table jp).key = key := by simpa using List.find?_some first
    cases claim with
    | none => exact inv.igetFound here free (linked rfl) positive equal
    | some kind => exact absurd equal ((inv.sound.claimed t key kind here).2 jp positive)
  · rename_i missing
    split at found
    · rename_i jp first
      obtain ⟨rfl, rfl⟩ := Prod.mk.inj (Except.ok.inj found)
      have unused : (s.table jp).ref = 0 := by simpa using List.find?_some first
      refine inv.igetNew here free linked unused fun kp positive equal => ?_
      have absent := List.find?_eq_none.mp missing kp (List.mem_finRange kp)
      simp [positive, equal] at absent
    · cases found

theorem go (careful : Careful s (t, .go)) (action : Inodes.go ninodes s t = some (.ok s')) :
    Inv s' (note s (t, .go) made) := by
  unfold Inodes.go at action
  cases here : s.pc t with
  | idle => simp [here] at action
  | ialloc dev kind inum =>
    simp only [here] at action
    simp only [note, here]
    have quiet : ∀ new : Pc, ¬ new.claims → (∀ stage jp, new ≠ .on stage jp) → Inv (s.at t new) made := fun new =>
      inv.between (by rw [here]; exact id) (by simp [here])
    split_ifs at action with more free
    · obtain rfl := Except.ok.inj (Option.some.inj action)
      simp only [Careful, here] at careful
      exact inv.claim here free (careful free)
    · obtain rfl := Except.ok.inj (Option.some.inj action)
      exact quiet _ id (by simp)
    · obtain rfl := Except.ok.inj (Option.some.inj action)
      exact quiet _ id (by simp)
  | iget key claim =>
    simp only [here] at action
    obtain ⟨free, equal⟩ := Option.ite_none_right_eq_some.mp action
    cases found : Inodes.iget s key with
    | error e =>
      rw [found] at equal
      cases equal
    | ok pair =>
      obtain ⟨ip, inode⟩ := pair
      rw [found] at equal
      obtain rfl := Except.ok.inj (Option.some.inj equal)
      have done := inv.iget here free careful found
      cases claim with
      | none =>
        simp only [note, here]
        exact done
      | some kind =>
        simp only [note, here, found]
        exact done
  | on current ip =>
    simp only [here] at action
    simp only [note, here]
    exact inv.stage here careful action

theorem idle (here : s.pc t = .idle) {act : Act Thread} (other : act ≠ .go)
    (action : result ninodes s t act = some (.ok s')) : Inv s' (note s (t, act) made) := by
  have unclaimed : ¬ (s.pc t).claims := by
    rw [here]
    exact id
  have off : ∀ stage jp, s.pc t ≠ .on stage jp := by simp [here]
  cases act with
  | go => exact absurd rfl other
  | ialloc dev kind =>
    simp only [result, here] at action
    obtain rfl := Except.ok.inj (Option.some.inj action)
    exact inv.between unclaimed off id (by simp)
  | iget key =>
    simp only [result, here] at action
    obtain rfl := Except.ok.inj (Option.some.inj action)
    exact inv.between unclaimed off id (by simp)
  | idup ip =>
    simp only [result, here] at action
    obtain ⟨⟨mine, free⟩, equal⟩ := Option.ite_none_right_eq_some.mp action
    obtain rfl := Except.ok.inj (Option.some.inj equal)
    exact inv.idup here mine free
  | ilock ip =>
    simp only [result, here] at action
    obtain ⟨⟨mine, notMine⟩, equal⟩ := Option.ite_none_right_eq_some.mp action
    obtain rfl := Except.ok.inj (Option.some.inj equal)
    exact inv.advance (t := t) mine notMine (.inl here) id (.inr (.inr ⟨id, rfl, by rw [here]; exact id⟩)) trivial
      (fun jp kind known => ⟨known, fun _ puts => puts.1 rfl⟩) fun _ _ => rfl
  | iunlock ip =>
    simp only [result, here] at action
    obtain ⟨mine, equal⟩ := Option.ite_none_right_eq_some.mp action
    split_ifs at equal with bad
    · cases Option.some.inj equal
    · obtain rfl := Except.ok.inj (Option.some.inj equal)
      rw [not_or, not_not] at bad
      exact inv.iunlock here bad.1
  | iput ip =>
    simp only [result, here] at action
    obtain ⟨⟨mine, notMine⟩, equal⟩ := Option.ite_none_right_eq_some.mp action
    obtain rfl := Except.ok.inj (Option.some.inj equal)
    refine inv.advance (t := t) mine notMine (.inl here) id (.inr (.inr ⟨id, rfl, by rw [here]; exact id⟩)) trivial
      (fun jp kind known => ?_) fun u => made_set_other
    obtain ⟨known, apart⟩ := made_set jp kind known
    exact ⟨known, fun equal => absurd equal apart⟩
  | pass ip u =>
    simp only [result, here] at action
    obtain ⟨⟨mine, notMine⟩, equal⟩ := Option.ite_none_right_eq_some.mp action
    obtain rfl := Except.ok.inj (Option.some.inj equal)
    exact inv.pass here mine notMine
  | update ip d =>
    simp only [result, here] at action
    obtain ⟨has, equal⟩ := Option.ite_none_right_eq_some.mp action
    obtain rfl := Except.ok.inj (Option.some.inj equal)
    exact inv.update here has rfl

theorem step {disk : Key → Dinode} {label : Thread × Act Thread} (careful : Careful s label)
    (action : (system ninodes disk).step s label = some s') : Inv s' (note s label made) := by
  obtain ⟨t, act⟩ := label
  obtain ⟨outcome, moved, ok⟩ := Option.bind_eq_some_iff.mp action
  cases outcome with
  | error panic => cases ok
  | ok after =>
    obtain rfl := Option.some.inj ok
    by_cases going : act = .go
    · subst going
      exact inv.go careful moved
    · cases here : s.pc t with
      | idle => exact inv.idle here going moved
      | _ => cases act <;> simp [result, here] at moved going

end Inv

/-! ## Any run -/

omit [DecidableEq Thread] in
theorem inv_start {disk : Key → Dinode} (linked : ∀ key, ¬ (disk key).Orphan) :
    Inv (start disk : State Thread) (fun _ _ => none) := by
  constructor
  · constructor <;> simp [start, Pc.holds, weigh, held]
  · constructor <;> simp [start]
    exact fun dev inum => linked (dev, inum)

/-- From a disk without unlinked inodes, in the careful runs: between calls every unlinked inode is still in the table,
an inode has one entry, and an inode from `ialloc` is as asked for when its caller has locked it. -/
theorem unlinked_inode_freed {disk : Key → Dinode} (linked : ∀ key, ¬ (disk key).Orphan)
    (reached : ((system ninodes disk).recorded (fun _ _ => none) note).ReachedBy (fun x label => Careful x.1 label) (s, made)) :
    ((∀ t, s.pc t = .idle) → ∀ key, (s.disk key).Orphan → ∃ ip, 0 < (s.table ip).ref ∧ (s.table ip).key = key) ∧
    (∀ ip jp, 0 < (s.table ip).ref → 0 < (s.table jp).ref → (s.table ip).key = (s.table jp).key → ip = jp) ∧
    ∀ t ip kind, made t ip = some kind → s.pc t = .idle → (s.table ip).lock = some t → (s.table ip).d = .fresh kind := by
  have inv : Inv s made := by
    refine System.ReachedBy.invariant (fun x => Inv x.1 x.2) (inv_start linked) (fun x label x' _ inv careful action => ?_) reached
    obtain ⟨moved, equal⟩ := System.recorded_step action
    rw [equal]
    exact inv.step careful moved
  refine ⟨fun idle key orphan => ?_, inv.sound.unique, fun t ip kind known idle has => ?_⟩
  · refine (inv.sound.orphan key orphan).resolve_right fun ⟨t, kind, here⟩ => ?_
    cases (idle t).symm.trans here
  · have secret := inv.sound.secret t ip kind known
    rw [inv.sound.copy ip (inv.held.ref_pos secret.mine) (inv.valid_of_idle idle has)]
    exact secret.disk

/-! ## Two threads on one inode -/

def blank : Key → Dinode := fun _ => ⟨0, 0, 0, 0, 0, fun _ => 0⟩

theorem blank_linked (key : Key) : ¬ (blank key).Orphan := fun orphan => orphan.1 rfl

def makeFile (t : Bool) : List (Bool × Act Bool) :=
  [(t, .ialloc 1 .file), (t, .go), (t, .go), (t, .ilock 0), (t, .go), (t, .go)]

instance (s : State Bool) (label : Bool × Act Bool) : Decidable (Careful s label) := by
  unfold Careful
  split <;> infer_instance

def Pc.isIdle : Pc → Bool
  | .idle => true
  | _ => false

theorem Pc.isIdle_iff {pc : Pc} : pc.isIdle = true ↔ pc = .idle := by cases pc <;> simp [isIdle]

theorem unlinked_inode_freed_makeFile : ∃ (s : State Bool) (made : Made Bool),
    ((system 2 blank).recorded (fun _ _ => none) note).ReachedBy (fun x label => Careful x.1 label) (s, made) ∧
    (∀ t, s.pc t = .idle) ∧
    ((s.disk (1, 1)).Orphan ∧ ∃ ip, 0 < (s.table ip).ref ∧ (s.table ip).key = (1, 1)) ∧
    made true 0 = some .file ∧ (s.table 0).lock = some true ∧ (s.table 0).d = .fresh .file := by
  have checked : (((system 2 blank).recorded (fun _ _ => none) note).runBy (fun x label => Careful x.1 label)
      (start blank, fun _ _ => none) (makeFile true)).map (fun x => (x.2 true 0, (x.1.table 0).lock,
        decide (∀ t, (x.1.pc t).isIdle = true), decide (x.1.disk (1, 1)).Orphan)) =
      some (some .file, some true, true, true) := by
    decide +kernel
  obtain ⟨⟨s, made⟩, result, shown⟩ := Option.map_eq_some_iff.mp checked
  have reached := System.ReachedBy.runBy .initial result
  simp only [Prod.mk.injEq, decide_eq_true_eq] at shown
  obtain ⟨known, locked, idle, orphan⟩ := shown
  have here t := Pc.isIdle_iff.mp (idle t)
  obtain ⟨kept, _, fresh⟩ := unlinked_inode_freed blank_linked reached
  exact ⟨s, made, reached, here, ⟨orphan, kept here _ orphan⟩, known, locked, fresh true 0 .file known (here true) locked⟩

/-- While one thread is in the middle of freeing the file, the other one gets the same inode from `ialloc`, locks and
unlocks it, and puts it back; then the first one goes on. -/
def raceForInode : List (Bool × Act Bool) :=
  makeFile true ++ [(true, .iunlock 0), (true, .iput 0)] ++ List.replicate 5 (true, .go) ++
  [(false, .ialloc 1 .file), (false, .go), (false, .go), (true, .go), (false, .ilock 0), (false, .go), (false, .go),
    (false, .iunlock 0), (false, .iput 0), (false, .go), (false, .go), (false, .go), (true, .go), (true, .go)]

theorem racing_iput_loses_inode : ∃ s : State Bool, (system 2 blank).Reachable s ∧ (∀ t, s.pc t = .idle) ∧
    (s.disk (1, 1)).Orphan ∧ ∀ ip, (s.table ip).ref = 0 := by
  have checked : ((system 2 blank).run (start blank) raceForInode).map (fun s =>
      (decide (∀ t, (s.pc t).isIdle = true), decide (s.disk (1, 1)).Orphan,
        decide (∀ ip, (s.table ip).ref = 0))) = some (true, true, true) := by
    decide +kernel
  obtain ⟨s, result, shown⟩ := Option.map_eq_some_iff.mp checked
  simp only [Prod.mk.injEq, decide_eq_true_eq] at shown
  refine ⟨s, System.Reachable.run .initial result, fun t => Pc.isIdle_iff.mp (shown.1 t), shown.2.1, shown.2.2⟩

end OsProjects.Inodes
