import OsProjects.Exec.Model
import OsProjects.Paging.AddressSpace

namespace OsProjects.Exec
open Bytes Ownership
open Paging hiding Proc State vm
open Copying hiding copyout

variable {L : Layout} {s s' s₀ : State} {m m' : Mem} {root p : Page} {sz sz' v va pa n : ℕ} {perm : Perm} {α : Type} {r : α}
  {code : Vm α} {f src : ℕ → UInt8} {k : ℕ} {off offset size : BitVec 32} {base : BitVec 64}

/-! ## Addresses of user pages -/

theorem address_mod (ram : n < PHYSTOP / PGSIZE) : n * PGSIZE % 2 ^ 64 = n * PGSIZE := by
  simp only [PHYSTOP, PGSIZE] at *
  omega

theorem frame_inRam (pte : Pte) (ram : InRam L pte.ppn) : Copying.Pte.frame pte = pte.ppn * PGSIZE := address_mod ram.2

theorem walkaddr_of_pageMap (here : pageMap m root (va / PGSIZE) = some (p, perm)) (user : perm.u = true) (ram : InRam L p)
    (positive : 0 < L.kernelEnd) : walkaddr m root va = some (p * PGSIZE) := by
  have small : va < MAXVA := by
    by_contra large
    rw [pageMap_beyond m root (by simp only [pageCount, MAXVA, PGSIZE] at *; omega)] at here
    cases here
  rw [mapped_target m root small] at here
  obtain ⟨pte, leaf, target⟩ := Option.bind_eq_some_iff.mp here
  obtain ⟨_, equal⟩ := Option.ite_none_right_eq_some.mp target
  obtain ⟨rfl, rfl⟩ := Prod.mk.inj (Option.some.inj equal)
  have above : (0 : ℕ) < pte.ppn := positive.trans_le ram.1
  exact Copying.walkaddr_iff.mpr ⟨small, pte, leaf, user, frame_inRam pte ram, Nat.mul_ne_zero above.ne' (by decide)⟩

theorem walkaddr_pageMap (space : AddressSpace L m root sz trapframe) (found : walkaddr m root va = some pa) :
    ∃ p, va / PGSIZE < pagesOf sz ∧ (∃ perm, pageMap m root (va / PGSIZE) = some (p, perm) ∧ perm.u = true) ∧ pa = p * PGSIZE := by
  obtain ⟨small, pte, leaf, user, rfl, _⟩ := Copying.walkaddr_iff.mp found
  have valid : pte.v = true := by
    obtain ⟨q, _, entry⟩ := Option.bind_eq_some_iff.mp leaf
    obtain ⟨valid, content⟩ := Option.ite_none_right_eq_some.mp entry
    rwa [← Option.some.inj content]
  have here : pageMap m root (va / PGSIZE) = some (pte.ppn, pte.perm) := by
    rw [mapped_target m root small, leaf, Option.bind_some, Pte.target, if_pos valid]
  obtain ⟨inside, frame⟩ := space.userFrame here user
  exact ⟨pte.ppn, inside, ⟨pte.perm, here, user⟩, frame_inRam pte (space.ram pte.ppn (Multiset.mem_add.mpr (.inr (Multiset.mem_add.mpr (.inr frame)))))⟩

/-- No user page is a page of the page table. -/
theorem foreign_of_space (space : AddressSpace L m root sz trapframe) (va len : ℕ) : Foreign m root va len := by
  intro k _ a address
  obtain ⟨pa, found, rfl⟩ := Option.map_eq_some_iff.mp address
  obtain ⟨p, inside, ⟨perm, here, _⟩, rfl⟩ := walkaddr_pageMap space found
  rw [page_add p (Nat.mod_lt _ (by decide))]
  exact (space.store here inside rfl fun _ _ => rfl).2.2.2

/-! ## A new address space beside the old one -/

structure Building (L : Layout) (s₀ s : State) (root : Page) (sz : ℕ) : Prop where
  space : AddressSpace L s.mem root sz s₀.proc.trapframe
  moves : Moves s₀.mem.heap s.mem.heap 0 (owns s.mem root sz)
  proc : s.proc = s₀.proc

theorem vm_eq (ran : code s.mem = some (r, m')) : vm code s = some (r, { s with mem := m' }) := by
  rw [vm, ran]
  rfl

theorem Building.vm (building : Building L s₀ s root sz) (ran : code s.mem = some (r, m'))
    (moves : Moves s.mem.heap m'.heap (owns s.mem root sz) (owns m' root sz')) (space : AddressSpace L m' root sz' s₀.proc.trapframe) :
    ∃ s', vm code s = some (r, s') ∧ s'.mem = m' ∧ Building L s₀ s' root sz' :=
  ⟨_, vm_eq ran, rfl, space, building.moves.trans moves, building.proc⟩

theorem Building.store (building : Building L s₀ s root sz) (here : pageMap s.mem root v = some (p, perm)) (user : v < pagesOf sz)
    (free : m'.freelist = s.mem.freelist) (others : ∀ q ≠ p, m'.mem q = s.mem.mem q) (reads : ℕ) :
    Building L s₀ { s with mem := m', reads := reads } root sz := by
  obtain ⟨space, moves, _⟩ := building.space.store here user free others
  exact ⟨space, building.moves.trans moves, building.proc⟩

theorem Building.inRam (building : Building L s₀ s root sz) (here : pageMap s.mem root v = some (p, perm)) (user : v < pagesOf sz) :
    InRam L p := by
  refine building.space.ram p (Multiset.mem_add.mpr (.inr (Multiset.mem_add.mpr (.inr (PageMap.mem_frames (e := (p, perm)) ?_ user)))))
  rw [Nat.zero_add, here]

/-! ## The image that the headers describe -/

/-- The size, the permissions of the pages and the bytes of an image. -/
structure Image where
  sz : ℕ
  perm : ℕ → Perm
  byte : ℕ → UInt8

def Image.empty : Image := ⟨0, fun _ => .none, fun _ => 0⟩

/-- A segment gives its permissions to the pages that are new, and its bytes to where it is, over what was there. -/
def Image.load (img : Image) (file : File) (ph : Proghdr) : Image where
  sz := max img.sz (ph.vaddr + ph.memsz).toNat
  perm v := if v < pagesOf img.sz then img.perm v else { flags2perm ph.flags with r := true, u := true }
  byte := put img.byte ph.vaddr.toNat (ph.filesz.setWidth 32).toNat fun k => file.data (ph.off.setWidth 32 + .ofNat 32 k)

def File.proghdr (file : File) (off : BitVec 32) : Proghdr := Exec.proghdr (file.bytes off proghdrSize.toNat)

def File.elfhdr (file : File) : Elfhdr := Exec.elfhdr (file.bytes 0 elfhdrSize.toNat)

/-- The image after this many headers, the first of them at this offset. -/
def File.image (file : File) : ℕ → BitVec 32 → Image → Image
  | 0, _, img => img
  | n + 1, off, img => file.image n (off + proghdrSize) (if (file.proghdr off).type ≠ ELF_PROG_LOAD then img else img.load file (file.proghdr off))

structure Loaded (m : Mem) (root : Page) (img : Image) : Prop where
  page : ∀ v < pagesOf img.sz, ∃ p, pageMap m root v = some (p, img.perm v) ∧
    ∀ k < PGSIZE, m.byte (p * PGSIZE + k) = img.byte (v * PGSIZE + k)
  user : ∀ v < pagesOf img.sz, (img.perm v).u = true
  above : ∀ va, pagesOf img.sz ≤ va / PGSIZE → img.byte va = 0

variable {img : Image} {file : File}

theorem loaded_empty (m : Mem) (root : Page) : Loaded m root .empty where
  page v absurd := by
    rw [show pagesOf Image.empty.sz = 0 from pagesOf_zero] at absurd
    omega
  user v absurd := by
    rw [show pagesOf Image.empty.sz = 0 from pagesOf_zero] at absurd
    omega
  above _ _ := rfl

theorem Loaded.congr {m' : Mem} (loaded : Loaded m root img)
    (same : ∀ v < pagesOf img.sz, ∀ p perm, pageMap m root v = some (p, perm) → pageMap m' root v = some (p, perm) ∧ m'.mem p = m.mem p) :
    Loaded m' root img where
  page v less := by
    obtain ⟨p, here, bytes⟩ := loaded.page v less
    obtain ⟨there, cell⟩ := same v less p _ here
    refine ⟨p, there, fun k inside => ?_⟩
    rw [← bytes k inside]
    refine byte_of_page ?_
    rw [page_add p inside, cell]
  user := loaded.user
  above := loaded.above

theorem Loaded.grow {img' : Image} (loaded : Loaded m root img) (sz : img.sz ≤ img'.sz) (byte : img'.byte = img.byte)
    (perm : ∀ v < pagesOf img.sz, img'.perm v = img.perm v) (old : ∀ v < pagesOf img.sz, pageMap m' root v = pageMap m root v)
    (kept : ∀ p ∈ (pageMap m root).frames 0 (pagesOf img.sz), m'.mem p = m.mem p)
    (new : ∀ v, pagesOf img.sz ≤ v → v < pagesOf img'.sz → ∃ p, pageMap m' root v = some (p, img'.perm v) ∧ m'.mem p = memset 0 ∧
      (img'.perm v).u = true) : Loaded m' root img' := by
  have order : pagesOf img.sz ≤ pagesOf img'.sz := by
    simp only [pagesOf, PGSIZE]
    omega
  have before : Loaded m' root img := by
    refine loaded.congr fun v less p perm here => ⟨(old v less).trans here, kept p (PageMap.mem_frames (e := (p, perm)) ?_ less)⟩
    rw [Nat.zero_add, here]
  refine ⟨fun v less => ?_, fun v less => ?_, fun va high => ?_⟩
  · by_cases low : v < pagesOf img.sz
    · rw [perm v low, byte]
      exact before.page v low
    · obtain ⟨p, here, zero, _⟩ := new v (not_lt.mp low) less
      refine ⟨p, here, fun k inside => ?_⟩
      rw [byte_memset zero inside, byte, loaded.above]
      simp only [PGSIZE] at *
      omega
  · by_cases low : v < pagesOf img.sz
    · rw [perm v low]
      exact loaded.user v low
    · obtain ⟨_, _, _, user⟩ := new v (not_lt.mp low) less
      exact user
  · rw [byte]
    exact loaded.above va (order.trans high)

theorem put_page {g : ℕ → UInt8} {p v : ℕ} (same : f (p * PGSIZE + k) = g (v * PGSIZE + k)) :
    put f (p * PGSIZE) n src (p * PGSIZE + k) = put g (v * PGSIZE) n src (v * PGSIZE + k) := by
  by_cases early : k < n
  · rw [put_of_mem (by omega) (by omega), put_of_mem (by omega) (by omega), Nat.add_sub_cancel_left, Nat.add_sub_cancel_left]
  · rw [put_of_notMem (by omega), put_of_notMem (by omega), same]

theorem put_page_of_ne {p v : ℕ} (few : n ≤ PGSIZE) (inside : k < PGSIZE) (other : p ≠ v) :
    put f (v * PGSIZE) n src (p * PGSIZE + k) = f (p * PGSIZE + k) := by
  refine put_of_notMem ?_
  simp only [PGSIZE] at *
  omega

theorem Loaded.write (loaded : Loaded m root img) (src : ℕ → UInt8) (space : AddressSpace L m root img.sz trapframe)
    (here : pageMap m root v = some (p, perm)) (user : v < pagesOf img.sz) (few : n ≤ PGSIZE) :
    Loaded (m.write (p * PGSIZE) n src) root { img with byte := put img.byte (v * PGSIZE) n src } := by
  have others : ∀ q ≠ p, (m.write (p * PGSIZE) n src).mem q = m.mem q :=
    fun q other => write_of_ne le_rfl (Nat.add_le_add_left few _) other
  have free : (m.write (p * PGSIZE) n src).freelist = m.freelist := rfl
  obtain ⟨_, _, map, _⟩ := space.store here user free others
  refine ⟨fun u less => ?_, loaded.user, fun va high => ?_⟩
  · obtain ⟨q, there, bytes⟩ := loaded.page u less
    refine ⟨q, by rw [map]; exact there, fun k inside => ?_⟩
    rw [byte_write]
    by_cases same : u = v
    · subst same
      obtain ⟨rfl, _⟩ := Prod.mk.inj (Option.some.inj (here.symm.trans there))
      exact put_page (bytes k inside)
    · rw [put_page_of_ne few inside (space.frame_ne here there user less same), bytes k inside]
      exact (put_page_of_ne few inside same).symm
  · refine (put_of_notMem ?_).trans (loaded.above va high)
    simp only [PGSIZE] at *
    omega

/-! ## `loadseg` -/

theorem returns_readi {n : BitVec 32} {Q : List UInt8 → State → Prop} :
    Returns (readi file off n) s Q ↔ Q (file.bytes off (min n.toNat (file.delivered s.reads off n))) { s with reads := s.reads + 1 } :=
  returns_of_eq rfl

theorem length_bytes (file : File) (off : BitVec 32) (n : ℕ) : (file.bytes off n).length = n := by
  rw [File.bytes, List.length_map, List.length_range]

theorem getD_bytes (less : k < n) : (file.bytes off n).getD k 0 = file.data (off + .ofNat 32 k) := by
  rw [File.bytes, List.getD_eq_getElem?_getD, List.getElem?_map, List.getElem?_range less]
  rfl

/-- The bytes of a segment, up to the page that is next. -/
def Image.segment (img : Image) (file : File) (base : BitVec 64) (offset : BitVec 32) (count : ℕ) : Image :=
  { img with byte := put img.byte base.toNat count fun k => file.data (offset + .ofNat 32 k) }

theorem loadsegFrom_spec (positive : 0 < L.kernelEnd) {i : BitVec 32} {fuel : ℕ}
    (loaded : Loaded s.mem root (img.segment file base offset (min i.toNat size.toNat))) (building : Building L s₀ s root img.sz)
    (aligned : base.toNat % PGSIZE = 0) (inside : base.toNat + size.toNat ≤ img.sz) (start : i.toNat % PGSIZE = 0)
    (enough : size.toNat ≤ i.toNat + fuel * PGSIZE) :
    Returns (loadsegFrom file root base offset size fuel i) s fun ok s' => Building L s₀ s' root img.sz ∧
      (ok = true → Loaded s'.mem root (img.segment file base offset size.toNat)) := by
  induction fuel generalizing s i with
  | zero =>
    have done : ¬ i < size := by
      rw [BitVec.lt_def]
      omega
    rw [loadsegFrom, if_neg done, returns_pure]
    exact ⟨building, fun _ => by rwa [min_eq_right (by omega)] at loaded⟩
  | succ fuel ih =>
    rw [loadsegFrom]
    by_cases more : i < size
    · rw [if_pos more]
      rw [BitVec.lt_def] at more
      have few := building.space.size
      -- neither the address nor the counter can wrap: the image is no larger than RAM
      obtain ⟨page, next, address, place⟩ : (base.toNat + i.toNat) / PGSIZE < pagesOf img.sz ∧
          (i + .ofNat 32 PGSIZE).toNat = i.toNat + PGSIZE ∧ (base + i.setWidth 64).toNat = base.toNat + i.toNat ∧
          (base.toNat + i.toNat) / PGSIZE * PGSIZE = base.toNat + i.toNat := by
        simp only [BitVec.toNat_add, BitVec.toNat_ofNat, BitVec.toNat_setWidth, pagesOf, PHYSTOP, PGSIZE] at *
        omega
      obtain ⟨p, here, _⟩ := loaded.page _ page
      have found : walkaddr s.mem root (base.toNat + i.toNat) = some (p * PGSIZE) :=
        walkaddr_of_pageMap here (loaded.user _ page) (building.inRam here page) positive
      obtain ⟨n, count⟩ : ∃ n : BitVec 32, (if (size - i).toNat < PGSIZE then size - i else .ofNat 32 PGSIZE) = n := ⟨_, rfl⟩
      have short : n.toNat = min PGSIZE (size.toNat - i.toNat) := by
        have least : (size - i).toNat = size.toNat - i.toNat := by bv_omega
        rw [← count]
        split
        · omega
        · rw [show (BitVec.ofNat 32 PGSIZE).toNat = PGSIZE from rfl]
          omega
      simp only [returns_bind, returns_get, address, found, returns_readi, returns_modify, count]
      obtain ⟨c, arrived⟩ : ∃ c, min n.toNat (file.delivered s.reads (offset + i) n) = c := ⟨_, rfl⟩
      rw [arrived, length_bytes]
      have most : c ≤ PGSIZE := by omega
      have building' : Building L s₀ { s with
          mem := s.mem.write (p * PGSIZE) c fun k => (file.bytes (offset + i) c).getD k 0, reads := s.reads + 1 } root img.sz := by
        refine building.store here page ?_ (fun q other => write_of_ne le_rfl (Nat.add_le_add_left most _) other) _
        rfl
      split
      · exact returns_pure.mpr ⟨building', fun absurd => by cases absurd⟩
      · have turn : (i.toNat + PGSIZE) % PGSIZE = 0 ∧ size.toNat ≤ i.toNat + PGSIZE + fuel * PGSIZE := by
          simp only [PGSIZE] at *
          omega
        refine ih ?_ building' (by rw [next]; exact turn.1) (by rw [next]; exact turn.2)
        rw [min_eq_left more.le] at loaded here
        have wrote := loaded.write (fun k => (file.bytes (offset + i) c).getD k 0) building.space here page most
        simp only [Image.segment, place] at wrote
        rw [put_append (fun _ _ => rfl) fun k less => ?_] at wrote
        · rwa [next, Image.segment, show min (i.toNat + PGSIZE) size.toNat = i.toNat + c by omega]
        · rw [getD_bytes less, Nat.add_comm i.toNat, BitVec.ofNat_add, BitVec.ofNat_toNat, BitVec.setWidth_eq, BitVec.add_comm (.ofNat 32 k),
            BitVec.add_assoc]
    · rw [if_neg more, returns_pure]
      rw [BitVec.lt_def] at more
      exact ⟨building, fun _ => by rwa [min_eq_right (by omega)] at loaded⟩

theorem loadseg_spec (positive : 0 < L.kernelEnd)
    (loaded : Loaded s.mem root img) (building : Building L s₀ s root img.sz) (aligned : base.toNat % PGSIZE = 0)
    (inside : base.toNat + size.toNat ≤ img.sz) :
    Returns (loadseg file root base offset size) s fun ok s' => Building L s₀ s' root img.sz ∧
      (ok = true → Loaded s'.mem root (img.segment file base offset size.toNat)) := by
  refine loadsegFrom_spec positive ?_ building aligned inside rfl ?_
  · rwa [Image.segment, show (0 : BitVec 32).toNat = 0 from rfl, Nat.zero_min, put_none]
  · simp only [PGSIZE]
    omega

/-! ## The program headers -/

theorem loadSegments_spec (positive : 0 < L.kernelEnd) (loaded : Loaded s.mem root img)
    (building : Building L s₀ s root img.sz) : Returns (loadSegments L file root n off img.sz) s fun r s' => Building L s₀ s' root r.2 ∧
      (r.1 = true → r.2 = (file.image n off img).sz ∧ Loaded s'.mem root (file.image n off img)) := by
  induction n generalizing s img off with
  | zero => exact returns_pure.mpr ⟨building, fun _ => ⟨rfl, loaded⟩⟩
  | succ n ih =>
    rw [loadSegments, returns_bind, returns_readi]
    obtain ⟨s₁, after⟩ : ∃ s₁, { s with reads := s.reads + 1 } = s₁ := ⟨_, rfl⟩
    have building₁ : Building L s₀ s₁ root img.sz := after ▸ ⟨building.space, building.moves, building.proc⟩
    have loaded₁ : Loaded s₁.mem root img := after ▸ loaded
    rw [after]
    have stop {t : State} {sz : ℕ} {img' : Image} (building : Building L s₀ t root sz) :
        Returns (pure (false, sz) : Code (Bool × ℕ)) t fun r s' =>
          Building L s₀ s' root r.2 ∧ (r.1 = true → r.2 = img'.sz ∧ Loaded s'.mem root img') :=
      returns_pure.mpr ⟨building, fun absurd => by cases absurd⟩
    rw [length_bytes]
    split
    · exact stop building₁
    rename_i whole
    rw [not_not.mp whole]
    obtain ⟨ph, header⟩ : ∃ ph, proghdr (file.bytes off proghdrSize.toNat) = ph := ⟨_, rfl⟩
    rw [File.image, File.proghdr, header]
    simp only
    split
    · exact ih loaded₁ building₁
    split
    · exact stop building₁
    split
    · exact stop building₁
    split
    · exact stop building₁
    rename_i room wrap aligned
    rw [BitVec.lt_def] at room wrap
    obtain ⟨r, m', ran, sz', outcome, moves, space, old, kept, new⟩ := building₁.space.uvmalloc (ph.vaddr + ph.memsz).toNat (flags2perm ph.flags)
    obtain ⟨s₂, called, mem, building₂⟩ := building₁.vm ran moves space
    rw [returns_bind, returns_of_eq called]
    rcases outcome with ⟨rfl, rfl⟩ | ⟨some, rfl, size⟩
    · rw [if_pos rfl]
      exact stop building₂
    · rw [if_neg some, returns_bind]
      have inside : ph.vaddr.toNat + (ph.filesz.setWidth 32).toNat ≤ r := by
        simp only [BitVec.toNat_add, BitVec.toNat_setWidth] at *
        omega
      subst size
      have loaded₂ : Loaded s₂.mem root { img.load file ph with byte := img.byte } := by
        refine loaded₁.grow (le_max_left ..) rfl (fun v less => if_pos less) (mem ▸ old) (mem ▸ kept) fun v low high => ?_
        obtain ⟨p, here, zero⟩ := new v low high
        rw [← mem] at here zero
        have perm : (img.load file ph).perm v = { flags2perm ph.flags with r := true, u := true } := if_neg (not_lt.mpr low)
        refine ⟨p, here.trans ?_, zero, ?_⟩
        · rw [perm]
        · rw [perm]
      refine (loadseg_spec positive loaded₂ building₂ (not_not.mp aligned) inside).mono fun ok s₃ after => ?_
      obtain ⟨building₃, loaded₃⟩ := after
      cases ok with
      | true =>
        have loaded₄ : Loaded s₃.mem root (img.load file ph) := loaded₃ rfl
        exact ih loaded₄ building₃
      | false =>
        rw [if_neg Bool.false_ne_true]
        exact stop building₃

end OsProjects.Exec
