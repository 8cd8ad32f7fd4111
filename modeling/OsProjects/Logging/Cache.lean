import OsProjects.Logging.Model

namespace OsProjects.Logging

variable {Thread : Type}

def Buf.held (x : Buf Thread) : ℕ := if x.lock = none then 0 else 1

def Buf.pinned (x : Buf Thread) (pins : List BlockNo) : ℕ :=
  match x.blockno with
  | some blockno => if blockno ∈ pins then 1 else 0
  | none => 0

/-- The buffer cache in front of the disk. `mem` is what the blocks hold for a reader: the buffers of the blocks in
`pins` may differ from the disk and stay in the cache. `refs` counts references by threads without the lock,
`dirty` says which buffers are being changed. -/
structure Cached (buf : BufNo → Buf Thread) (order : List BufNo) (refs : BufNo → ℕ) (dirty : BufNo → Prop)
    (pins : List BlockNo) (disk mem : BlockNo → Block) : Prop where
  listed : ∀ i, i ∈ order
  distinct : ∀ i j b, (buf i).blockno = some b → (buf j).blockno = some b → i = j
  counted : ∀ i, (buf i).refcnt = (buf i).held + refs i + (buf i).pinned pins
  kept : ∀ b ∈ pins, ∃ i, (buf i).blockno = some b ∧ (buf i).valid = true
  coherent : ∀ i b, (buf i).blockno = some b → (buf i).valid = true → ¬ dirty i → (buf i).data = mem b
  clean : ∀ b, b ∉ pins → disk b = mem b

namespace Cached

variable {buf : BufNo → Buf Thread} {order order' : List BufNo} {refs refs' : BufNo → ℕ} {dirty dirty' : BufNo → Prop}
  {pins : List BlockNo} {disk mem : BlockNo → Block} {i : BufNo} {b : BlockNo} {x : Buf Thread}

section
variable (cached : Cached buf order refs dirty pins disk mem)
include cached

theorem unused (zero : (buf i).refcnt = 0) :
    (buf i).lock = none ∧ refs i = 0 ∧ ∀ b, (buf i).blockno = some b → b ∉ pins := by
  have counted := cached.counted i
  refine ⟨?_, by omega, ?_⟩
  · by_contra locked
    simp only [Buf.held, locked, if_false] at counted
    omega
  · intro b here pinned
    simp only [Buf.pinned, here, pinned, if_true] at counted
    omega

theorem reorder (listed : ∀ i, i ∈ order') : Cached buf order' refs dirty pins disk mem :=
  { cached with listed := listed }

theorem set (block : x.blockno = (buf i).blockno)
    (valid : (buf i).valid = true → x.valid = true) (counted : x.refcnt = x.held + refs' i + x.pinned pins)
    (refs : ∀ j ≠ i, refs' j = refs j) (dirt : ∀ j ≠ i, dirty j → dirty' j)
    (data : ∀ b, x.blockno = some b → x.valid = true → ¬ dirty' i → x.data = mem b) :
    Cached (Function.update buf i x) order refs' dirty' pins disk mem where
  listed := cached.listed
  distinct j k b := by
    have same : ∀ j, (Function.update buf i x j).blockno = (buf j).blockno := by
      intro j
      by_cases here : j = i
      · rw [here, Function.update_self, block]
      · rw [Function.update_of_ne here]
    rw [same, same]
    exact cached.distinct j k b
  counted j := by
    by_cases here : j = i
    · rw [here, Function.update_self, counted]
    · rw [Function.update_of_ne here, refs j here]
      exact cached.counted j
  kept b pinned := by
    obtain ⟨j, there, fresh⟩ := cached.kept b pinned
    refine ⟨j, ?_⟩
    by_cases here : j = i
    · subst here
      rw [Function.update_self, block]
      exact ⟨there, valid fresh⟩
    · rw [Function.update_of_ne here]
      exact ⟨there, fresh⟩
  coherent j b there fresh settled := by
    by_cases here : j = i
    · subst here
      rw [Function.update_self] at there fresh ⊢
      exact data b there fresh settled
    · rw [Function.update_of_ne here] at there fresh ⊢
      exact cached.coherent j b there fresh fun changing => settled (dirt j here changing)
  clean := cached.clean

theorem keep (refs : ∀ j, refs' j = refs j)
    (dirt : ∀ j, dirty j → dirty' j) : Cached buf order refs' dirty' pins disk mem where
  listed := cached.listed
  distinct := cached.distinct
  counted j := by
    rw [refs j]
    exact cached.counted j
  kept := cached.kept
  coherent j b there fresh settled := cached.coherent j b there fresh fun changing => settled (dirt j changing)
  clean := cached.clean

theorem recycle (missing : ∀ j, (buf j).blockno ≠ some b)
    (zero : (buf i).refcnt = 0) (block : x.blockno = some b) (valid : x.valid = false) (one : x.refcnt = 1)
    (lock : x.lock = (buf i).lock) (ref : refs' i = refs i + 1) (refs : ∀ j ≠ i, refs' j = refs j)
    (dirt : ∀ j, dirty j → dirty' j) : Cached (Function.update buf i x) order refs' dirty' pins disk mem where
  listed := cached.listed
  distinct j k b' here there := by
    by_cases first : j = i <;> by_cases second : k = i
    · rw [first, second]
    · rw [first, Function.update_self, block] at here
      rw [Function.update_of_ne second] at there
      exact absurd (there.trans here.symm) (missing k)
    · rw [second, Function.update_self, block] at there
      rw [Function.update_of_ne first] at here
      exact absurd (here.trans there.symm) (missing j)
    · rw [Function.update_of_ne first] at here
      rw [Function.update_of_ne second] at there
      exact cached.distinct j k b' here there
  counted j := by
    by_cases here : j = i
    · have fresh : b ∉ pins := fun pinned => by
        obtain ⟨k, there, _⟩ := cached.kept b pinned
        exact missing k there
      obtain ⟨free, nobody, _⟩ := cached.unused zero
      rw [here, Function.update_self, one, Buf.held, lock, free, Buf.pinned, block, ref, nobody]
      simp [fresh]
    · rw [Function.update_of_ne here, refs j here]
      exact cached.counted j
  kept b' pinned := by
    obtain ⟨j, there, fresh⟩ := cached.kept b' pinned
    have other : j ≠ i := by
      rintro rfl
      exact (cached.unused zero).2.2 b' there pinned
    exact ⟨j, by rwa [Function.update_of_ne other], by rwa [Function.update_of_ne other]⟩
  coherent j b' there fresh settled := by
    by_cases here : j = i
    · rw [here, Function.update_self, valid] at fresh
      cases fresh
    · rw [Function.update_of_ne here] at there fresh ⊢
      exact cached.coherent j b' there fresh fun changing => settled (dirt j changing)
  clean := cached.clean

theorem disk_of_invalid (block : (buf i).blockno = some b) (invalid : (buf i).valid = false) : disk b = mem b := by
  refine cached.clean b fun pinned => ?_
  obtain ⟨j, there, fresh⟩ := cached.kept b pinned
  obtain rfl := cached.distinct i j b block there
  simp [invalid] at fresh

theorem store (block : (buf i).blockno = some b)
    {d : Block} (data : (buf i).data = d) (pinned : b ∈ pins) (refs : ∀ j, refs' j = refs j)
    (dirt : ∀ j ≠ i, dirty j → dirty' j) :
    Cached buf order refs' dirty' pins disk (Function.update mem b d) where
  listed := cached.listed
  distinct := cached.distinct
  counted j := by
    rw [refs j]
    exact cached.counted j
  kept := cached.kept
  coherent j b' there fresh settled := by
    by_cases here : j = i
    · subst here
      obtain rfl : b = b' := by simpa [block] using there
      rw [Function.update_self, data]
    · have other : b' ≠ b := by
        rintro rfl
        exact here (cached.distinct j i b' there block)
      rw [Function.update_of_ne other]
      exact cached.coherent j b' there fresh fun changing => settled (dirt j here changing)
  clean b' missing := by
    have other : b' ≠ b := fun same => missing (same ▸ pinned)
    rw [Function.update_of_ne other]
    exact cached.clean b' missing

/-- The pin of block `b` is the reference that `refcnt` of its buffer has over those of the threads: it can be taken
or given up with no other block noticing. -/
theorem repin {pins' : List BlockNo} {refcnt : ℕ} (block : (buf i).blockno = some b) (others : ∀ b' ≠ b, b' ∈ pins' ↔ b' ∈ pins)
    (counted : refcnt = (buf i).held + refs i + (buf i).pinned pins') (valid : b ∈ pins' → (buf i).valid = true)
    (written : b ∉ pins' → disk b = mem b) :
    Cached (Function.update buf i { buf i with refcnt := refcnt }) order refs dirty pins' disk mem := by
  have same : ∀ j, (Function.update buf i { buf i with refcnt := refcnt } j).blockno = (buf j).blockno ∧
      (Function.update buf i { buf i with refcnt := refcnt } j).valid = (buf j).valid ∧
      (Function.update buf i { buf i with refcnt := refcnt } j).data = (buf j).data := by
    intro j
    by_cases here : j = i
    · subst here
      simp
    · simp [here]
  refine ⟨cached.listed, ?_, ?_, ?_, ?_, ?_⟩
  · intro j k b'
    rw [(same j).1, (same k).1]
    exact cached.distinct j k b'
  · intro j
    by_cases here : j = i
    · rw [here, Function.update_self]
      exact counted
    · rw [Function.update_of_ne here, cached.counted j]
      congr 1
      unfold Buf.pinned
      cases there : (buf j).blockno with
      | none => rfl
      | some b' =>
        have other : b' ≠ b := by
          rintro rfl
          exact here (cached.distinct j i b' there block)
        simp [others b' other]
  · intro b' pinned
    by_cases this : b' = b
    · subst this
      exact ⟨i, by rw [(same i).1, block], by rw [(same i).2.1, valid pinned]⟩
    · obtain ⟨j, there, fresh⟩ := cached.kept b' ((others b' this).mp pinned)
      exact ⟨j, by rw [(same j).1, there], by rw [(same j).2.1, fresh]⟩
  · intro j b' there fresh settled
    rw [(same j).1] at there
    rw [(same j).2.1] at fresh
    rw [(same j).2.2]
    exact cached.coherent j b' there fresh settled
  · intro b' missing
    by_cases this : b' = b
    · subst this
      exact written missing
    · exact cached.clean b' fun pinned => missing ((others b' this).mpr pinned)

theorem pin (block : (buf i).blockno = some b)
    (valid : (buf i).valid = true) (fresh : b ∉ pins) (x_eq : x = { buf i with refcnt := (buf i).refcnt + 1 }) :
    Cached (Function.update buf i x) order refs dirty (pins ++ [b]) disk mem := by
  subst x_eq
  refine cached.repin block (fun b' other => by simp [other]) ?_ (fun _ => valid) (fun missing => by simp at missing)
  have counted := cached.counted i
  simp only [Buf.pinned, block, fresh, List.mem_append, List.mem_singleton, or_true, if_true, if_false] at counted ⊢
  omega

end

theorem unpin {rest : List BlockNo} (cached : Cached buf order refs dirty (b :: rest) disk mem)
    (block : (buf i).blockno = some b) (once : b ∉ rest) (written : disk b = mem b) (refs : ∀ j, refs' j = refs j)
    (dirt : ∀ j, dirty j → dirty' j) (x_eq : x = { buf i with refcnt := (buf i).refcnt - 1 }) :
    Cached (Function.update buf i x) order refs' dirty' rest disk mem := by
  subst x_eq
  have kept := cached.keep refs dirt
  refine kept.repin block (fun b' other => by simp [other]) ?_ (fun pinned => absurd pinned once) fun _ => written
  have counted := kept.counted i
  simp only [Buf.pinned, block, once, List.mem_cons, true_or, if_true, if_false] at counted ⊢
  omega

theorem write (cached : Cached buf order refs dirty pins disk mem) (block : (buf i).blockno = some b) {d : Block}
    (refs : ∀ j, refs' j = refs j) (dirt : ∀ j, dirty j → dirty' j) (x_eq : x = { buf i with data := d }) :
    Cached (Function.update buf i x) order refs' dirty' pins (Function.update disk b d) (Function.update mem b d) := by
  have same : ∀ j, (Function.update buf i x j).blockno = (buf j).blockno ∧
      (Function.update buf i x j).valid = (buf j).valid ∧ (Function.update buf i x j).refcnt = (buf j).refcnt ∧
      (Function.update buf i x j).lock = (buf j).lock := by
    intro j
    by_cases here : j = i
    · subst here
      simp [x_eq]
    · simp [here]
  refine ⟨cached.listed, ?_, ?_, ?_, ?_, ?_⟩
  · intro j k b'
    rw [(same j).1, (same k).1]
    exact cached.distinct j k b'
  · intro j
    have counted := cached.counted j
    simp only [Buf.held, Buf.pinned] at counted ⊢
    rw [(same j).1, (same j).2.2.1, (same j).2.2.2, refs j]
    exact counted
  · intro b' pinned
    obtain ⟨j, there, fresh⟩ := cached.kept b' pinned
    exact ⟨j, by rw [(same j).1, there], by rw [(same j).2.1, fresh]⟩
  · intro j b' there fresh settled
    rw [(same j).1] at there
    rw [(same j).2.1] at fresh
    by_cases here : j = i
    · subst here
      obtain rfl : b = b' := by simpa [block] using there
      simp [x_eq]
    · have other : b' ≠ b := by
        rintro rfl
        exact here (cached.distinct j i b' there block)
      rw [Function.update_of_ne here, Function.update_of_ne other]
      exact cached.coherent j b' there fresh fun changing => settled (dirt j changing)
  · intro b' missing
    by_cases this : b' = b
    · rw [this, Function.update_self, Function.update_self]
    · rw [Function.update_of_ne this, Function.update_of_ne this]
      exact cached.clean b' missing

end Cached

end OsProjects.Logging
