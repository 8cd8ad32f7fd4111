import OsProjects.Exec.Stack

namespace OsProjects.Exec
open Bytes Ownership
open Paging hiding Proc State vm
open Copying hiding copyout

variable {L : Layout} {s s' s₀ : State} {m m' : Mem} {root p : Page} {sz sz' : ℕ} {argv : List (List UInt8)} {file : File} {img : Image}

/-! ## The new image -/

/-- The segments of an image, a page above them that is closed, and the page of the stack with the arguments. -/
structure Stacked (m : Mem) (root : Page) (img : Image) (argv : List (List UInt8)) (sp : BitVec 64) (p : Page) (ustack : List (BitVec 64)) :
    Prop where
  segments : Loaded m root img
  guard : ∃ q perm, pageMap m root (pagesOf img.sz) = some (q, perm) ∧ perm.u = false
  page : pageMap m root (pagesOf img.sz + 1) = some (p, userPage)
  strings : List.Forall₂ (fun arg u => Stored m ((pagesOf img.sz + 1) * PGSIZE) p (arg ++ [0]) u) argv ustack
  array : Stored m ((pagesOf img.sz + 1) * PGSIZE) p ((ustack ++ [0]).flatMap le64) sp

theorem Building.resize (building : Building L s₀ s root sz) (same : pagesOf sz' = pagesOf sz) : Building L s₀ s root sz' where
  space := building.space.resize same
  moves := by
    rw [owns, same]
    exact building.moves
  proc := building.proc

theorem Building.wrote {perm : Perm} {v : ℕ} (building : Building L s₀ s root sz) (here : pageMap s.mem root v = some (p, perm))
    (user : v < pagesOf sz) (wrote : Wrote s s' p) : Building L s₀ s' root sz ∧ pageMap s'.mem root = pageMap s.mem root := by
  obtain ⟨m, rfl, free, others⟩ := wrote
  obtain ⟨_, _, map, _⟩ := building.space.store here user free others
  exact ⟨building.store here user free others _, map⟩

theorem pages_size (img : Image) (few : pagesOf img.sz ≤ PHYSTOP / PGSIZE) : pgRoundUp img.sz = pagesOf img.sz * PGSIZE ∧
    pagesOf (pagesOf img.sz * PGSIZE) = pagesOf img.sz ∧
    (pagesOf img.sz * PGSIZE + 2 * PGSIZE) % 2 ^ 64 = pagesOf img.sz * PGSIZE + 2 * PGSIZE ∧
    pagesOf (pagesOf img.sz * PGSIZE + 2 * PGSIZE) = pagesOf img.sz + 2 := by
  simp only [pgRoundUp, pagesOf, PHYSTOP, PGSIZE] at *
  omega

theorem build_spec (positive : 0 < L.kernelEnd) {elf : Elfhdr} (building : Building L s₀ s root 0) (few : argv.length < MAXARG)
    (short : ∀ arg ∈ argv, arg.length + 1 < 2 ^ 32) (image : file.image elf.phnum (elf.phoff.setWidth 32) .empty = img) :
    Returns (build L file elf argv root) s fun r s' => Building L s₀ s' root r.2 ∧ ∀ sp, r.1 = some sp →
      r.2 = pagesOf img.sz * PGSIZE + 2 * PGSIZE ∧ ∃ p ustack, Stacked s'.mem root img argv sp p ustack := by
  rw [build, returns_bind]
  refine (loadSegments_spec positive (loaded_empty s.mem root) building).mono fun r s₁ after => ?_
  obtain ⟨loaded, sz⟩ := r
  obtain ⟨building₁, segments⟩ := after
  cases loaded with
  | false => exact returns_pure.mpr ⟨building₁, fun sp absurd => by cases absurd⟩
  | true =>
    obtain ⟨size, segments₁⟩ := segments rfl
    rw [image] at size segments₁
    dsimp only at size building₁ ⊢
    subst size
    obtain ⟨round, same, sum, more⟩ := pages_size img building₁.space.size
    obtain ⟨k, pages⟩ : ∃ k, pagesOf img.sz = k := ⟨_, rfl⟩
    rw [pages] at round same sum more ⊢
    rw [if_neg (by decide), round, sum]
    have building₂ : Building L s₀ s₁ root (k * PGSIZE) := building₁.resize (same.trans pages.symm)
    have room := building₂.space.size
    rw [same] at room
    obtain ⟨r, m₂, ran₂, sz', outcome, moves₂, space₂, old, kept, new⟩ :=
      building₂.space.uvmalloc (k * PGSIZE + 2 * PGSIZE) ⟨false, true, false, false, 0#5⟩
    obtain ⟨s₂, called₂, mem₂, building₃⟩ := building₂.vm ran₂ moves₂ space₂
    rw [returns_bind, returns_of_eq called₂]
    rcases outcome with ⟨rfl, rfl⟩ | ⟨some, rfl, most⟩
    · exact returns_pure.mpr ⟨building₃, fun sp absurd => by cases absurd⟩
    obtain rfl : r = k * PGSIZE + 2 * PGSIZE := by omega
    rw [same] at old kept
    rw [same, more] at new
    -- the guard page is closed, and the page above it is the stack
    obtain ⟨guard, closed, _⟩ := new k le_rfl (by omega)
    obtain ⟨p, here, _⟩ := new (k + 1) (by omega) (by omega)
    rw [← mem₂] at closed here old kept
    obtain ⟨m₃, ran₃, moves₃, space₃, map₃, kept₃⟩ := building₃.space.uvmclear (by rw [more]; omega) closed rfl
    obtain ⟨s₃, called₃, mem₃, building₄⟩ := building₃.vm ran₃ moves₃ space₃
    rw [← mem₃] at map₃ kept₃
    have here₃ : pageMap s₃.mem root (k + 1) = Option.some (p, userPage) := by
      rw [map₃, Function.update_of_ne (by omega), here]
      rfl
    have guard₃ : pageMap s₃.mem root k = Option.some (guard, ⟨true, true, false, false, 0#5⟩) := by
      rw [map₃, Function.update_self]
    have user : k + 1 < pagesOf (k * PGSIZE + 2 * PGSIZE) := by omega
    have segments₃ : Loaded s₃.mem root img := by
      refine segments₁.congr fun v less q perm there => ?_
      rw [pages] at less
      have there₂ : pageMap s₂.mem root v = Option.some (q, perm) := (old v less).trans there
      refine ⟨by rw [map₃, Function.update_of_ne less.ne]; exact there₂, ?_⟩
      rw [kept₃ q (PageMap.mem_frames (k := v) (e := (q, perm)) (by rw [Nat.zero_add, there₂]) (by omega)),
        kept q (PageMap.mem_frames (k := v) (e := (q, perm)) (by rw [Nat.zero_add, there]) less)]
    obtain ⟨guardAddr, base, page, top, bottom⟩ : k * PGSIZE + 2 * PGSIZE - 2 * PGSIZE = k * PGSIZE ∧
        k * PGSIZE + 2 * PGSIZE - PGSIZE = (k + 1) * PGSIZE ∧ (k + 1) * PGSIZE / PGSIZE = k + 1 ∧
        (BitVec.ofNat 64 (k * PGSIZE + 2 * PGSIZE)).toNat = (k + 1) * PGSIZE + PGSIZE ∧
        (BitVec.ofNat 64 ((k + 1) * PGSIZE)).toNat = (k + 1) * PGSIZE := by
      simp only [BitVec.toNat_ofNat, PHYSTOP, PGSIZE] at *
      omega
    have stack : StackPage s₃.mem root ((k + 1) * PGSIZE) p :=
      ⟨walkaddr_of_pageMap (by rw [page]; exact here₃) rfl (building₄.inRam here₃ user) positive, Nat.mul_mod_left _ _,
        (building₄.space.store here₃ user rfl fun _ _ => rfl).2.2.2⟩
    rw [if_neg some, guardAddr, returns_bind, returns_of_eq called₃, base, returns_bind]
    refine (pushArgs_spec stack bottom top few short).mono fun sp s₄ after => ?_
    obtain ⟨wrote, stored⟩ := after
    obtain ⟨building₅, map₄⟩ := building₄.wrote here₃ user wrote
    refine returns_pure.mpr ⟨building₅, fun sp' same' => ⟨rfl, ?_⟩⟩
    obtain ⟨ustack, strings, array⟩ := stored sp' same'
    refine ⟨p, ustack, ?_, ⟨guard, _, by rw [map₄, pages]; exact guard₃, rfl⟩, by rw [map₄, pages]; exact here₃,
      by rw [pages]; exact strings, by rw [pages]; exact array⟩
    -- the frames of the segments are other pages than that of the stack
    refine segments₃.congr fun v less q perm there => ⟨by rw [map₄]; exact there, ?_⟩
    rw [pages] at less
    obtain ⟨m₄, rfl, _, others⟩ := wrote
    exact others q (building₄.space.frame_ne here₃ there user (by omega) (by omega))

/-! ## All or nothing -/

/-- A process with an address space of its own, in a kernel whose free pages are RAM after the kernel. -/
structure Ready (L : Layout) (s : State) : Prop where
  above : KERNBASE / PGSIZE ≤ L.kernelEnd
  space : AddressSpace L s.mem s.proc.pagetable s.proc.sz s.proc.trapframe
  trapframe : s.proc.trapframe ∉ s.mem.freelist

/-- The process and every page that was not free are as before, and the same pages are free. -/
structure Unchanged (s s' : State) : Prop where
  proc : s'.proc = s.proc
  free : (s'.mem.freelist : Multiset Page) = s.mem.freelist
  pages : ∀ p ∉ s.mem.freelist, s'.mem.mem p = s.mem.mem p
  trapframe : s'.mem.mem s.proc.trapframe = s.mem.mem s.proc.trapframe
  memory : ∀ va, userByte s'.mem s.proc.pagetable va = userByte s.mem s.proc.pagetable va

structure OnStack (s : State) (bytes : List UInt8) (u : BitVec 64) : Prop where
  aligned : u.toNat % 16 = 0
  stackbase : s.proc.sz - PGSIZE ≤ u.toNat
  top : u.toNat + bytes.length ≤ s.proc.sz
  bytes : ∀ k < bytes.length, userByte s.mem s.proc.pagetable (u.toNat + k) = some (bytes.getD k 0)

/-- The segments of the file are in the memory of the process: each page that they cover with its permissions, and in it
the bytes of the file and zeros. Above them are a page that is closed and one for the stack. -/
structure Holds (s : State) (img : Image) : Prop where
  size : s.proc.sz = pgRoundUp img.sz + 2 * PGSIZE
  perm : ∀ v < pagesOf img.sz, ∃ p, pageMap s.mem s.proc.pagetable v = some (p, img.perm v)
  bytes : ∀ va < pgRoundUp img.sz, userByte s.mem s.proc.pagetable va = some (img.byte va)
  guard : ∃ p perm, pageMap s.mem s.proc.pagetable (pagesOf img.sz) = some (p, perm) ∧ perm.u = false
  stack : ∃ p, pageMap s.mem s.proc.pagetable (pagesOf img.sz + 1) = some (p, userPage)

/-- The new image: its address space, the segments, the arguments on its stack, and the registers; the old one has been
freed. -/
structure Installed (L : Layout) (file : File) (path : List UInt8) (argv : List (List UInt8)) (s s' : State) : Prop where
  space : AddressSpace L s'.mem s'.proc.pagetable s'.proc.sz s'.proc.trapframe
  pages : (s'.mem.freelist : Multiset Page) + owns s'.mem s'.proc.pagetable s'.proc.sz =
    s.mem.freelist + owns s.mem s.proc.pagetable s.proc.sz
  segments : Holds s' (file.image file.elfhdr.phnum (file.elfhdr.phoff.setWidth 32) .empty)
  args : ∃ ustack, List.Forall₂ (fun arg u => OnStack s' (arg ++ [0]) u) argv ustack ∧
    OnStack s' ((ustack ++ [0]).flatMap le64) s'.proc.regs.sp
  a1 : s'.proc.regs.a1 = s'.proc.regs.sp
  epc : s'.proc.regs.epc = file.elfhdr.entry
  trapframe : s'.proc.trapframe = s.proc.trapframe
  name : s'.proc.name = safestrcpy s.proc.name (lastElement path path) nameSize

theorem unchanged_of_moves (ready : Ready L s) (proc : s'.proc = s.proc) (moves : Moves s.mem.heap s'.mem.heap 0 0) : Unchanged s s' where
  proc := proc
  free := by simpa using moves.total
  pages p used := moves.frame p used (Multiset.notMem_zero p)
  trapframe := moves.frame _ ready.trapframe (Multiset.notMem_zero _)
  memory va := by
    have used {p : Page} (owned : p ∈ owns s.mem s.proc.pagetable s.proc.sz) : s'.mem.mem p = s.mem.mem p :=
      moves.kept (G := owns s.mem s.proc.pagetable s.proc.sz) (by rw [zero_add]; exact ready.space.nodup) owned
    rw [userByte, walkaddr_agree fun p member => used (Multiset.mem_add.mpr (.inl member)), userByte]
    cases found : walkaddr s.mem s.proc.pagetable (pgRoundDown va) with
    | none => rfl
    | some pa =>
      obtain ⟨p, inside, ⟨perm, here, _⟩, rfl⟩ := walkaddr_pageMap ready.space found
      have frame : p ∈ owns s.mem s.proc.pagetable s.proc.sz := by
        refine Multiset.mem_add.mpr (.inr (PageMap.mem_frames (e := (p, perm)) ?_ inside))
        rw [Nat.zero_add, here]
      rw [Option.map_some, Option.map_some, byte_of_page]
      rw [page_add p (Nat.mod_lt _ (by decide)), used frame]

/-- A byte of a user page, read through the page table. -/
theorem userByte_of_pageMap {v k : ℕ} {perm : Perm} (here : pageMap m root v = some (p, perm)) (user : perm.u = true) (ram : InRam L p)
    (positive : 0 < L.kernelEnd) (less : k < PGSIZE) : userByte m root (v * PGSIZE + k) = some (m.byte (p * PGSIZE + k)) := by
  obtain ⟨down, off, page⟩ : pgRoundDown (v * PGSIZE + k) = v * PGSIZE ∧ (v * PGSIZE + k) % PGSIZE = k ∧ v * PGSIZE / PGSIZE = v := by
    simp only [pgRoundDown, PGSIZE] at *
    omega
  rw [userByte, down, walkaddr_of_pageMap (by rw [page]; exact here) user ram positive, off, Option.map_some]

section
variable {sp : BitVec 64} {ustack : List (BitVec 64)} (positive : 0 < L.kernelEnd) (stacked : Stacked s.mem root img argv sp p ustack)
  (space : AddressSpace L s.mem root s.proc.sz trapframe) (pagetable : s.proc.pagetable = root)
  (size : s.proc.sz = pagesOf img.sz * PGSIZE + 2 * PGSIZE)
include positive stacked space pagetable size

theorem Stacked.onStack {bytes : List UInt8} {u : BitVec 64} (stored : Stored s.mem ((pagesOf img.sz + 1) * PGSIZE) p bytes u) :
    OnStack s bytes u := by
  have low := stored.low
  have high := stored.high
  have ends : s.proc.sz = (pagesOf img.sz + 1) * PGSIZE + PGSIZE := by
    rw [size]
    ring
  refine ⟨stored.aligned, by omega, by omega, fun k less => ?_⟩
  obtain ⟨j, place⟩ : ∃ j, u.toNat + k = (pagesOf img.sz + 1) * PGSIZE + j := ⟨u.toNat + k - (pagesOf img.sz + 1) * PGSIZE, by omega⟩
  obtain ⟨_, frame⟩ := space.userFrame stacked.page rfl
  have inRam := space.ram p (Multiset.mem_add.mpr (.inr (Multiset.mem_add.mpr (.inr frame))))
  rw [pagetable, place, userByte_of_pageMap stacked.page rfl inRam positive (by omega), ← stored.bytes k less, Nat.add_assoc,
    show u.toNat - (pagesOf img.sz + 1) * PGSIZE + k = j by omega]

theorem Stacked.holds : Holds s img := by
  have few : pagesOf img.sz ≤ PHYSTOP / PGSIZE := by
    have limit := space.size
    rw [size] at limit
    simp only [pagesOf, PGSIZE] at *
    omega
  obtain ⟨round, _⟩ := pages_size img few
  refine ⟨by rw [size, round], fun v less => ?_, fun va less => ?_, ?_, ?_⟩
  · obtain ⟨q, here, _⟩ := stacked.segments.page v less
    exact ⟨q, by rw [pagetable]; exact here⟩
  · obtain ⟨v, k, inside, rfl, user⟩ : ∃ v k, k < PGSIZE ∧ va = v * PGSIZE + k ∧ v < pagesOf img.sz := by
      refine ⟨va / PGSIZE, va % PGSIZE, Nat.mod_lt _ (by decide), by rw [Nat.div_add_mod'], ?_⟩
      rw [round] at less
      exact Nat.div_lt_of_lt_mul (by rwa [Nat.mul_comm])
    obtain ⟨q, here, bytes⟩ := stacked.segments.page v user
    obtain ⟨_, frame⟩ := space.userFrame here (stacked.segments.user v user)
    have inRam := space.ram q (Multiset.mem_add.mpr (.inr (Multiset.mem_add.mpr (.inr frame))))
    rw [pagetable, userByte_of_pageMap here (stacked.segments.user v user) inRam positive inside, bytes k inside]
  · rw [pagetable]
    exact stacked.guard
  · exact ⟨p, by rw [pagetable]; exact stacked.page⟩

end

theorem Stored.congr {base : ℕ} {bytes : List UInt8} {u : BitVec 64} (stored : Stored m base p bytes u) (same : m'.mem p = m.mem p) :
    Stored m' base p bytes u where
  aligned := stored.aligned
  low := stored.low
  high := stored.high
  bytes k less := by
    have low := stored.low
    have high := stored.high
    rw [← stored.bytes k less]
    refine byte_of_page ?_
    rw [Nat.add_assoc, page_add p (by omega), same]

theorem Stacked.congr {sp : BitVec 64} {ustack : List (BitVec 64)} (stacked : Stacked m root img argv sp p ustack)
    (space : AddressSpace L m root (pagesOf img.sz * PGSIZE + 2 * PGSIZE) trapframe) (map : pageMap m' root = pageMap m root)
    (kept : ∀ p ∈ owns m root (pagesOf img.sz * PGSIZE + 2 * PGSIZE), m'.mem p = m.mem p) : Stacked m' root img argv sp p ustack := by
  have same {v : ℕ} {q : Page} {perm : Perm} (here : pageMap m root v = some (q, perm)) (user : perm.u = true) : m'.mem q = m.mem q := by
    obtain ⟨_, frame⟩ := space.userFrame here user
    exact kept q (Multiset.mem_add.mpr (.inr frame))
  have stack := same stacked.page rfl
  refine ⟨stacked.segments.congr fun v less q perm here => ⟨by rw [map]; exact here, ?_⟩, by rw [map]; exact stacked.guard,
    by rw [map]; exact stacked.page, stacked.strings.imp fun _ _ stored => stored.congr stack, stacked.array.congr stack⟩
  obtain ⟨_, there, _⟩ := stacked.segments.page v less
  obtain ⟨rfl, rfl⟩ := Prod.mk.inj (Option.some.inj (there.symm.trans here))
  exact same here (stacked.segments.user v less)

theorem Building.commit (building : Building L s s' root sz) (ready : Ready L s) :
    ∃ m', procFreepagetable L s.proc.pagetable s.proc.sz s'.mem = some ((), m') ∧ AddressSpace L m' root sz s.proc.trapframe ∧
      pageMap m' root = pageMap s'.mem root ∧ (∀ p ∈ owns s'.mem root sz, m'.mem p = s'.mem.mem p) ∧
      (m'.freelist : Multiset Page) + owns m' root sz = s.mem.freelist + owns s.mem s.proc.pagetable s.proc.sz := by
  obtain ⟨A, before⟩ : ∃ A, owns s.mem s.proc.pagetable s.proc.sz = A := ⟨_, rfl⟩
  obtain ⟨B, after⟩ : ∃ B, owns s'.mem root sz = B := ⟨_, rfl⟩
  have apart : ((s.mem.freelist : Multiset Page) + (0 + A)).Nodup := by
    rw [zero_add, ← before]
    exact ready.space.nodup
  obtain ⟨old, _, kept⟩ := ready.space.kept building.moves (before ▸ apart) fun p absurd => (Multiset.notMem_zero p absurd).elim
  rw [before] at kept
  obtain ⟨m', ran, gone⟩ := old.free
  rw [kept] at gone
  have start := building.moves
  rw [after] at start
  have both : ((s'.mem.freelist : Multiset Page) + (A + B)).Nodup := by
    rw [add_comm A]
    exact (start.add A).nodup apart
  obtain ⟨space, map, same⟩ := building.space.kept gone (after ▸ both) fun p member => old.ram p (Multiset.mem_add.mpr (.inr (kept ▸ member)))
  refine ⟨m', ran, space, map, fun p member => gone.kept both (after ▸ member), ?_⟩
  rw [same, after, before]
  have total := gone.total
  have first := start.total
  rw [add_zero] at total first
  calc (m'.freelist : Multiset Page) + B
      _ = s'.mem.freelist + A + B := by rw [total]
      _ = s'.mem.freelist + B + A := add_right_comm _ _ _
      _ = s.mem.freelist + A := by rw [first]

/-- For any file, any arguments and any luck with pages and reads, `exec` ends: with the new image, or with nothing
changed. -/
theorem exec_all_or_nothing (L : Layout) (file : File) (path : List UInt8) (argv : List (List UInt8)) (s : State) (ready : Ready L s)
    (few : argv.length < MAXARG) (short : ∀ arg ∈ argv, arg.length < PHYSTOP - KERNBASE) :
    ∃ r s', exec L file path argv s = some (r, s') ∧
      (r = argv.length ∧ Installed L file path argv s s' ∨ r = -1 ∧ Unchanged s s') := by
  have positive : 0 < L.kernelEnd := lt_of_lt_of_le (by decide) ready.above
  have short' : ∀ arg ∈ argv, arg.length + 1 < 2 ^ 32 := by
    intro arg member
    have less := short arg member
    simp only [PHYSTOP, KERNBASE] at less
    omega
  change Returns (exec L file path argv) s fun r s' => r = argv.length ∧ Installed L file path argv s s' ∨ r = -1 ∧ Unchanged s s'
  have giveUp {t : State} (proc : t.proc = s.proc) (moves : Moves s.mem.heap t.mem.heap 0 0) :
      Returns (pure (-1) : Code ℤ) t fun r s' => r = argv.length ∧ Installed L file path argv s s' ∨ r = -1 ∧ Unchanged s s' :=
    returns_pure.mpr (.inr ⟨rfl, unchanged_of_moves ready proc moves⟩)
  rw [exec]
  split
  · exact giveUp rfl (.refl _ _)
  rw [returns_bind, returns_readi]
  obtain ⟨s₁, after⟩ : ∃ s₁, { s with reads := s.reads + 1 } = s₁ := ⟨_, rfl⟩
  obtain ⟨mem₁, proc₁⟩ : s₁.mem = s.mem ∧ s₁.proc = s.proc := by
    rw [← after]
    exact ⟨rfl, rfl⟩
  rw [after, length_bytes]
  have giveUp₁ : Returns (pure (-1) : Code ℤ) s₁ fun r s' => r = argv.length ∧ Installed L file path argv s s' ∨ r = -1 ∧ Unchanged s s' :=
    giveUp proc₁ (by rw [mem₁]; exact .refl _ _)
  split
  · exact giveUp₁
  rename_i whole
  rw [not_not.mp whole]
  obtain ⟨elf, header⟩ : ∃ elf, elfhdr (file.bytes 0 elfhdrSize.toNat) = elf := ⟨_, rfl⟩
  simp only [header]
  split
  · exact giveUp₁
  rw [returns_bind, returns_get, proc₁]
  obtain ⟨distinct, _⟩ := Multiset.nodup_add.mp ready.space.nodup
  obtain ⟨r, m₂, ran₂, failed, made⟩ := procPagetable_spec s.proc.trapframe distinct
    fun p free => ready.space.ram p (Multiset.mem_add.mpr (.inl free))
  have called₂ : vm (procPagetable L s.proc.trapframe) s₁ = some (r, { s₁ with mem := m₂ }) := vm_eq (by rw [mem₁]; exact ran₂)
  rw [returns_bind, returns_of_eq called₂]
  cases r with
  | none => exact giveUp proc₁ (failed rfl)
  | some root =>
    obtain ⟨moves₂, space₂⟩ := made root rfl
    have building : Building L s { s₁ with mem := m₂ } root 0 := ⟨space₂, moves₂, proc₁⟩
    dsimp only
    rw [returns_bind]
    refine (build_spec positive building few short' rfl).mono fun r s₃ after => ?_
    obtain ⟨sp, sz⟩ := r
    obtain ⟨building₃, image⟩ := after
    cases sp with
    | none =>
      obtain ⟨m₄, ran₄, moves₄⟩ := building₃.space.free
      rw [returns_bind, returns_of_eq (vm_eq ran₄)]
      exact giveUp building₃.proc (building₃.moves.trans moves₄)
    | some sp =>
      obtain ⟨size, p, ustack, stacked⟩ := image sp rfl
      dsimp only at size building₃
      obtain ⟨m₄, ran₄, space₄, map₄, kept₄, pages⟩ := building₃.commit ready
      have stacked₄ := stacked.congr (size ▸ building₃.space) map₄ (size ▸ kept₄)
      obtain ⟨new, installed⟩ : ∃ new : Proc, new = ⟨root, sz, s.proc.trapframe, ⟨elf.entry, sp, sp⟩,
        safestrcpy s.proc.name (lastElement path path) nameSize⟩ := ⟨_, rfl⟩
      rw [returns_bind, returns_get, returns_bind, returns_modify, building₃.proc, ← installed, returns_bind,
        returns_of_eq (vm_eq (s := { s₃ with proc := new }) ran₄), returns_pure]
      subst installed
      refine .inl ⟨rfl, space₄, pages, ?_, ⟨ustack, stacked₄.strings.imp fun _ _ stored => ?_, ?_⟩, rfl, ?_, rfl, rfl⟩
      · rw [File.elfhdr, header]
        exact stacked₄.holds positive space₄ rfl size
      · exact stacked₄.onStack positive space₄ rfl size stored
      · exact stacked₄.onStack positive space₄ rfl size stacked₄.array
      · rw [File.elfhdr, header]

/-! A kernel with sixteen free pages, a process without user pages, and a file with one segment: four bytes of code and
zeros up to 5000. -/

def small : Layout := ⟨0x80000, 9⟩

def sixteenPages : Mem := ⟨List.range' 0x80000 16, fun _ => memset 0, 16⟩

def started : Mem := ((procPagetable small 7 sixteenPages).map Prod.snd).getD sixteenPages

def firstProc : State := ⟨started, ⟨0x80000, 0, 7, ⟨0, 0, 0⟩, fun _ => 0⟩, 0⟩

def header : List UInt8 :=
  [0x7f, 0x45, 0x4c, 0x46] ++ List.replicate 28 0 ++ [64, 0, 0, 0, 0, 0, 0, 0] ++ List.replicate 16 0 ++ [1, 0] ++ List.replicate 6 0

def segment : List UInt8 :=
  [1, 0, 0, 0, 5, 0, 0, 0, 120, 0, 0, 0, 0, 0, 0, 0] ++ List.replicate 16 0 ++ [4, 0, 0, 0, 0, 0, 0, 0, 0x88, 0x13, 0, 0, 0, 0, 0, 0] ++
    List.replicate 8 0

def program : File := ⟨true, fun off => (header ++ segment ++ [0x13, 0x05, 0x15, 0x00]).getD off.toNat 0, fun _ _ n => n.toNat⟩

theorem firstProc_ready : Ready small firstProc := by
  have root : (procPagetable small 7 sixteenPages).map Prod.fst = some (some 0x80000) := by decide +kernel
  obtain ⟨⟨_, m⟩, ran, rfl⟩ := Option.map_eq_some_iff.mp root
  have mem : started = m := by rw [started, ran]; rfl
  have ram : ∀ p ∈ sixteenPages.freelist, InRam small p := by
    intro p member
    obtain ⟨low, high⟩ := List.mem_range'_1.mp member
    exact ⟨low, high.trans (by decide)⟩
  obtain ⟨r, m', ran', _, made⟩ := procPagetable_spec 7 (by decide : (sixteenPages.freelist : Multiset Page).Nodup) ram
  obtain ⟨rfl, rfl⟩ := Prod.mk.inj (Option.some.inj (ran.symm.trans ran'))
  obtain ⟨moves, space⟩ := made _ rfl
  rw [← mem] at moves space
  refine ⟨by decide, space, fun free => ?_⟩
  have before := (moves.mem_iff 7).mp (.inl free)
  revert before
  decide

theorem exec_all_or_nothing_oneSegment : ∃ s', exec small program [47, 97] [[97]] firstProc = some (1, s') ∧
    Installed small program [47, 97] [[97]] firstProc s' ∧ s'.proc.sz = 16384 ∧
    (∃ p, pageMap s'.mem s'.proc.pagetable 0 = some (p, ⟨true, false, true, true, 0#5⟩)) ∧
    userByte s'.mem s'.proc.pagetable 1 = some 0x05 ∧ userByte s'.mem s'.proc.pagetable 4999 = some 0 := by
  have done : (exec small program [47, 97] [[97]] firstProc).map Prod.fst = some 1 := by decide +kernel
  obtain ⟨⟨_, s'⟩, ran, rfl⟩ := Option.map_eq_some_iff.mp done
  obtain ⟨r, s'', ran', outcome⟩ := exec_all_or_nothing small program [47, 97] [[97]] firstProc firstProc_ready (by decide) (by decide)
  obtain ⟨rfl, rfl⟩ := Prod.mk.inj (Option.some.inj (ran.symm.trans ran'))
  rcases outcome with ⟨_, installed⟩ | ⟨absurd, _⟩
  · have holds := installed.segments
    obtain ⟨p, here⟩ := holds.perm 0 (by decide +kernel)
    refine ⟨s', ran, installed, holds.size.trans (by decide +kernel), ⟨p, here.trans ?_⟩, (holds.bytes 1 (by decide +kernel)).trans ?_,
      (holds.bytes 4999 (by decide +kernel)).trans ?_⟩
    · exact congrArg (fun perm => some (p, perm)) (by decide +kernel)
    · decide +kernel
    · decide +kernel
  · cases absurd

end OsProjects.Exec
