import OsProjects.Virtio.Model

namespace OsProjects.Virtio
open Transition Wrapping

/-! ## Allocating and freeing descriptors -/

section
variable {Buf : Type} {d d' : Descs Buf} {i : Index}

@[simp]
theorem index_val (i : Index) : index i.val = some i := dif_pos i.isLt

theorem allocDesc_some (found : allocDesc d = some (i, d')) :
    d.free i = true ∧ d' = ⟨d.desc, Function.update d.free i false⟩ := by
  unfold allocDesc at found
  split at found
  · cases found
  · rename_i j first
    obtain ⟨rfl, rfl⟩ := Prod.mk.inj (Option.some.inj found)
    exact ⟨List.find?_some first, rfl⟩

theorem freeDesc_used (used : d.free i = false) : freeDesc d i.val =
    .ok ⟨Function.update d.desc i .cleared, Function.update d.free i true⟩ := by
  simp [freeDesc, used, pure, Except.pure]

theorem alloc3Desc_none_or_some (d : Descs Buf) :
    (∃ desc, alloc3Desc d = .ok (none, ⟨desc, d.free⟩) ∧ ∀ i, d.free i = false → desc i = d.desc i) ∨
    ∃ i0 i1 i2 free, alloc3Desc d = .ok (some (i0, i1, i2), ⟨d.desc, free⟩) ∧ [i0, i1, i2].Nodup ∧
      (∀ i ∈ [i0, i1, i2], d.free i = true) ∧ ∀ i, free i = false ↔ i ∈ [i0, i1, i2] ∨ d.free i = false := by
  cases first : allocDesc d with
  | none => exact .inl ⟨d.desc, by simp [alloc3Desc, first, pure, Except.pure], fun _ _ => rfl⟩
  | some found =>
    obtain ⟨i0, d0⟩ := found
    obtain ⟨free0, rfl⟩ := allocDesc_some first
    have back0 : Function.update (Function.update d.free i0 false) i0 true = d.free := by simp [← free0]
    cases second : allocDesc (⟨d.desc, Function.update d.free i0 false⟩ : Descs Buf) with
    | none =>
      refine .inl ⟨Function.update d.desc i0 .cleared, ?_, fun i used => Function.update_of_ne ?_ _ _⟩
      · simp [alloc3Desc, first, second, freeDesc_used, back0, pure, Except.pure, bind, Except.bind]
      · rintro rfl
        simp [free0] at used
    | some found =>
      obtain ⟨i1, d1⟩ := found
      obtain ⟨free1, rfl⟩ := allocDesc_some second
      have apart : i0 ≠ i1 := by
        rintro rfl
        simp at free1
      have free1' : d.free i1 = true := by simpa [Ne.symm apart] using free1
      cases third : allocDesc (⟨d.desc, Function.update (Function.update d.free i0 false) i1 false⟩ : Descs Buf) with
      | none =>
        have back1 : Function.update (Function.update (Function.update (Function.update d.free i0 false) i1 false)
            i0 true) i1 true = d.free := by
          funext i
          by_cases here : i = i1
          · simp [here, free1']
          · by_cases there : i = i0
            · subst there
              simp [apart, free0]
            · simp [here, there]
        refine .inl ⟨Function.update (Function.update d.desc i0 .cleared) i1 .cleared, ?_,
          fun i used => (Function.update_of_ne ?_ _ _).trans (Function.update_of_ne ?_ _ _)⟩
        · simp [alloc3Desc, first, second, third, freeDesc_used, apart, Ne.symm apart, back1, pure, Except.pure, bind,
            Except.bind]
        · rintro rfl
          simp [free1'] at used
        · rintro rfl
          simp [free0] at used
      | some found =>
        obtain ⟨i2, d2⟩ := found
        obtain ⟨free2, rfl⟩ := allocDesc_some third
        have apart1 : i2 ≠ i1 := by
          rintro rfl
          simp at free2
        have apart0 : i2 ≠ i0 := by
          rintro rfl
          simp [apart] at free2
        have free2' : d.free i2 = true := by simpa [apart0, apart1] using free2
        refine .inr ⟨i0, i1, i2, _, by simp [alloc3Desc, first, second, third, pure, Except.pure]; rfl, ?_, ?_, fun i => ?_⟩
        · simp [apart, Ne.symm apart0, Ne.symm apart1]
        · simp [free0, free1', free2']
        · simp only [Function.update_apply, List.mem_cons, List.not_mem_nil, or_false]
          split_ifs <;> simp_all

theorem freeChain_three {i0 i1 i2 : Index} (distinct : [i0, i1, i2].Nodup) (used : ∀ i ∈ [i0, i1, i2], d.free i = false)
    (first : (d.desc i0).hasNext = true ∧ (d.desc i0).next = i1.val)
    (second : (d.desc i1).hasNext = true ∧ (d.desc i1).next = i2.val) (third : (d.desc i2).hasNext = false) :
    ∃ d', freeChain (NUM + 1) d i0.val = .ok d' ∧ (∀ i, i ∉ [i0, i1, i2] → d'.desc i = d.desc i) ∧
      ∀ i, d'.free i = false ↔ d.free i = false ∧ i ∉ [i0, i1, i2] := by
  simp only [List.nodup_cons, List.mem_cons, List.not_mem_nil, or_false, not_or, List.nodup_nil, and_true,
    not_false_eq_true] at distinct
  obtain ⟨⟨apart1, apart2⟩, apart3⟩ := distinct
  simp only [List.mem_cons, List.not_mem_nil, or_false, forall_eq_or_imp, forall_eq] at used
  obtain ⟨used0, used1, used2⟩ := used
  refine ⟨⟨Function.update (Function.update (Function.update d.desc i0 .cleared) i1 .cleared) i2 .cleared,
    Function.update (Function.update (Function.update d.free i0 true) i1 true) i2 true⟩, ?_, fun i other => ?_, fun i => ?_⟩
  · simp only [freeChain, index_val, Option.map_some, freeDesc_used used0, bind, Except.bind, first, if_true]
    rw [freeDesc_used (by simpa [Ne.symm apart1] using used1)]
    simp only [Function.update_of_ne (Ne.symm apart1), second, if_true, index_val, Option.map_some]
    rw [freeDesc_used (by simpa [Ne.symm apart2, Ne.symm apart3] using used2)]
    simp only [Function.update_of_ne (Ne.symm apart3), Function.update_of_ne (Ne.symm apart2), third, Bool.false_eq_true,
      if_false]
    rfl
  · simp only [List.mem_cons, List.not_mem_nil, or_false, not_or] at other
    simp [other]
  · simp only [Function.update_apply, List.mem_cons, List.not_mem_nil, or_false, not_or]
    split_ifs <;> simp_all

end

/-! ## Who holds the lock, the buffers and the descriptors -/

section
variable {Thread Buf Data : Type} {s s' : State Thread Buf Data} {t u : Thread} {b : Buf} {i : Index}
  {stage : Stage} {r : Request Buf}

def Stage.holds (stage : Stage) : Prop := stage ≠ .asleep

def Pc.holds : Pc Buf → Prop
  | .alloc _ _ | .leave _ | .intrTest | .intrBody | .intrLeave => True
  | .request stage _ => stage.holds
  | .idle | .enter _ _ | .intrEnter => False

def Pc.uses (b : Buf) : Pc Buf → Prop
  | .enter b' _ | .alloc b' _ | .leave b' => b' = b
  | .request _ r => r.b = b
  | _ => False

def Pc.owns (i : Index) : Pc Buf → Prop
  | .request _ r => i ∈ r.indices
  | _ => False

structure Held (s : State Thread Buf Data) : Prop where
  lock : ∀ t, s.lock = some t ↔ (s.pc t).holds
  buf : ∀ t b, (s.pc t).uses b → s.sleeplock b = some t
  owned : ∀ i, s.descs.free i = false ↔ ∃ t, (s.pc t).owns i
  unique : ∀ t u i, (s.pc t).owns i → (s.pc u).owns i → t = u
  distinct : ∀ t stage r, s.pc t = .request stage r → r.indices.Nodup

namespace Held

theorem alone (held : Held s) (mine : (s.pc t).holds) (other : (s.pc u).holds) : t = u :=
  Option.some.inj (((held.lock t).mpr mine).symm.trans ((held.lock u).mpr other))

theorem same_buf (held : Held s) (mine : (s.pc t).uses b) (other : (s.pc u).uses b) : t = u :=
  Option.some.inj ((held.buf t b mine).symm.trans (held.buf u b other))

theorem used (held : Held s) (here : s.pc t = .request stage r) (member : i ∈ r.indices) : s.descs.free i = false :=
  (held.owned i).mpr ⟨t, by rw [here]; exact member⟩

theorem same_index (held : Held s) {stage' : Stage} {r' : Request Buf} (here : s.pc t = .request stage r)
    (there : s.pc u = .request stage' r') (member : i ∈ r.indices) (member' : i ∈ r'.indices) : t = u :=
  held.unique t u i (by rw [here]; exact member) (by rw [there]; exact member')

theorem congr (held : Held s) (pc : s'.pc = s.pc) (lock : s'.lock = s.lock) (sleeplock : s'.sleeplock = s.sleeplock)
    (free : s'.descs.free = s.descs.free) : Held s' := by
  constructor
  · rw [lock, pc]
    exact held.lock
  · rw [sleeplock, pc]
    exact held.buf
  · rw [free, pc]
    exact held.owned
  · rw [pc]
    exact held.unique
  · rw [pc]
    exact held.distinct

variable [DecidableEq Thread]

theorem move (held : Held s) {new : Pc Buf} (pc : s'.pc = Function.update s.pc t new)
    (lock : new.holds ∧ s'.lock = some t ∧ (s.lock = none ∨ s.lock = some t) ∨
      ¬ new.holds ∧ s'.lock = none ∧ s.lock = some t ∨ ¬ new.holds ∧ s'.lock = s.lock ∧ ¬ (s.pc t).holds)
    (sleeplock : s'.sleeplock = s.sleeplock) (buf : ∀ b, new.uses b → s.sleeplock b = some t)
    (owned : ∀ i, s'.descs.free i = false ↔ new.owns i ∨ s.descs.free i = false ∧ ¬ (s.pc t).owns i)
    (fresh : ∀ i, new.owns i → (s.pc t).owns i ∨ s.descs.free i = true)
    (distinct : ∀ stage r, new = .request stage r → r.indices.Nodup) : Held s' := by
  have mine : s'.pc t = new := by rw [pc, Function.update_self]
  have others : ∀ u, u ≠ t → s'.pc u = s.pc u := fun u other => by rw [pc, Function.update_of_ne other]
  have apart : ∀ u i, u ≠ t → (s.pc u).owns i → ¬ new.owns i := by
    intro u i other theirs owns
    rcases fresh i owns with before | free
    · exact other (held.unique u t i theirs before)
    · rw [(held.owned i).mpr ⟨u, theirs⟩] at free
      cases free
  constructor
  · intro u
    by_cases same : u = t
    · subst same
      rw [mine]
      rcases lock with ⟨holds, here, _⟩ | ⟨free, here, _⟩ | ⟨free, here, before⟩
      · simp [holds, here]
      · simp [free, here]
      · rw [here, held.lock u]
        simp [free, before]
    · rw [others u same]
      rcases lock with ⟨_, here, before⟩ | ⟨_, here, before⟩ | ⟨_, here, _⟩
      · rw [here, ← held.lock u]
        rcases before with before | before <;> simp [before, Ne.symm same]
      · rw [here, ← held.lock u, before]
        simp [Ne.symm same]
      · rw [here, held.lock u]
  · intro u b uses
    rw [sleeplock]
    by_cases same : u = t
    · subst same
      exact buf b (by rwa [mine] at uses)
    · exact held.buf u b (by rwa [others u same] at uses)
  · intro i
    rw [owned i, held.owned i]
    constructor
    · rintro (owns | ⟨⟨u, theirs⟩, notMine⟩)
      · exact ⟨t, by rwa [mine]⟩
      · have other : u ≠ t := by
          rintro rfl
          exact notMine theirs
        exact ⟨u, by rwa [others u other]⟩
    · rintro ⟨u, owns⟩
      by_cases same : u = t
      · subst same
        exact .inl (by rwa [mine] at owns)
      · rw [others u same] at owns
        exact .inr ⟨⟨u, owns⟩, fun before => same (held.unique u t i owns before)⟩
  · intro u v i first second
    by_cases same : u = t
    · subst same
      by_cases same' : v = u
      · exact same'.symm
      · rw [mine] at first
        rw [others v same'] at second
        exact absurd first (apart v i same' second)
    · rw [others u same] at first
      by_cases same' : v = t
      · subst same'
        rw [mine] at second
        exact absurd second (apart u i same first)
      · rw [others v same'] at second
        exact held.unique u v i first second
  · intro u stage r here
    by_cases same : u = t
    · subst same
      exact distinct stage r (by rwa [mine] at here)
    · exact held.distinct u stage r (by rwa [others u same] at here)

end Held

end

end OsProjects.Virtio
