import OsProjects.Paging.Map

namespace OsProjects.Copying
open Bytes Ownership
open Paging hiding Proc

/-! ## Copies to user space -/

def walkaddr (m : Mem) (pagetable : Page) (va : ℕ) : Option ℕ :=
  if va ≥ MAXVA then none
  else match walk pagetable va false m with
    | some (some (table, i), _) =>
      let pte := m.mem table i
      let pa := pte.ppn * PGSIZE % 2 ^ 64
      if pte.v ∧ pte.perm.u ∧ pa ≠ 0 then some pa else none
    | _ => none

/-- The loop of `copyout`. The page tables that it walks are in the memory that it writes to. -/
def copyoutLoop (pagetable : Page) : ℕ → ℕ → (ℕ → UInt8) → ℕ → Vm ℤ
  | 0, _, _, len, m => if len = 0 then some (0, m) else none
  | fuel + 1, dstva, src, len, m =>
    if len = 0 then some (0, m)
    else
      let va0 := pgRoundDown dstva
      match walkaddr m pagetable va0 with
      | none => some (-1, m)
      | some pa0 =>
        let n := min (PGSIZE - (dstva - va0)) len
        copyoutLoop pagetable fuel ((va0 + PGSIZE) % 2 ^ 64) (fun k => src (n + k)) (len - n) (m.write (pa0 + (dstva - va0)) n src)

def copyout (pagetable : Page) (dstva : ℕ) (src : ℕ → UInt8) (len : ℕ) : Vm ℤ := copyoutLoop pagetable len dstva src len

def eitherCopyout (pagetable : Page) (userDst : Bool) (dst : ℕ) (src : ℕ → UInt8) (len : ℕ) : Vm ℤ :=
  if userDst then copyout pagetable dst src len else fun m => some (0, m.write dst len src)

variable {m m' : Mem} {pagetable : Page} {va pa k a : ℕ} {n len fuel dstva : ℕ} {src : ℕ → UInt8}

/-! ## Translation of one address -/

def Pte.frame (pte : Pte) : ℕ := pte.ppn * PGSIZE % 2 ^ 64

theorem walkaddr_iff : walkaddr m pagetable va = some pa ↔
    va < MAXVA ∧ ∃ pte, mapped m pagetable va = some pte ∧ pte.perm.u = true ∧ Pte.frame pte = pa ∧ pa ≠ 0 := by
  unfold walkaddr
  by_cases large : va ≥ MAXVA
  · simp [large]
  · rw [if_neg large, walk_false m pagetable (not_le.mp large), mapped]
    cases follow (next m.mem) (tablePath va) pagetable with
    | none => simp
    | some q =>
      obtain ⟨pte, entry⟩ : ∃ pte, m.mem q (px 0 va) = pte := ⟨_, rfl⟩
      cases valid : pte.v <;> simp [entry, valid, not_le.mp large, Pte.frame]
      constructor
      · rintro ⟨⟨user, some⟩, equal⟩
        exact ⟨user, equal, equal ▸ some⟩
      · rintro ⟨user, equal, some⟩
        exact ⟨⟨user, equal ▸ some⟩, equal⟩

theorem walkaddr_aligned (page : walkaddr m pagetable va = some pa) : pa % PGSIZE = 0 := by
  obtain ⟨_, pte, _, _, rfl, _⟩ := walkaddr_iff.mp page
  simp only [Pte.frame, PGSIZE]
  omega

theorem walkaddr_agree (same : ∀ p ∈ tables m pagetable, m'.mem p = m.mem p) (va : ℕ) :
    walkaddr m' pagetable va = walkaddr m pagetable va := by
  refine Option.ext fun pa => ?_
  rw [walkaddr_iff, walkaddr_iff, mapped_agree same]

theorem pgRoundDown_add_of_lt (va k : ℕ) (fits : va % PGSIZE + k < PGSIZE) :
    pgRoundDown (va + k) = pgRoundDown va ∧ (va + k) % PGSIZE = va % PGSIZE + k := by
  simp only [pgRoundDown, PGSIZE] at *
  omega

def userByte (m : Mem) (pagetable : Page) (va : ℕ) : Option UInt8 :=
  (walkaddr m pagetable (pgRoundDown va)).map fun pa => m.byte (pa + va % PGSIZE)

/-- The physical address of a byte of a range of user addresses, which wrap. -/
def physAfter (m : Mem) (pagetable : Page) (va k : ℕ) : Option ℕ :=
  (walkaddr m pagetable (pgRoundDown ((va + k) % 2 ^ 64))).map fun pa => pa + (va + k) % 2 ^ 64 % PGSIZE

theorem physAfter_page (page : walkaddr m pagetable (pgRoundDown va) = some pa) (fits : va % PGSIZE + k < PGSIZE)
    (same : (va + k) % 2 ^ 64 = va + k) : physAfter m pagetable va k = some (pa + va % PGSIZE + k) := by
  obtain ⟨down, off⟩ := pgRoundDown_add_of_lt va k fits
  rw [physAfter, same, down, page, off, Option.map_some, Nat.add_assoc]

theorem physAfter_rest {next : ℕ} (same : (va + (n + k)) % 2 ^ 64 = (next + k) % 2 ^ 64) :
    physAfter m pagetable va (n + k) = physAfter m pagetable next k := by
  rw [physAfter, physAfter, same]

theorem physAfter_none (none : walkaddr m pagetable (pgRoundDown va) = none) (small : va < 2 ^ 64) :
    physAfter m pagetable va 0 = .none := by
  rw [physAfter, Nat.add_zero, Nat.mod_eq_of_lt small, none, Option.map_none]

theorem physAfter_mod (address : physAfter m pagetable va k = some a) : a % PGSIZE = (va + k) % PGSIZE := by
  obtain ⟨pa, page, rfl⟩ := Option.map_eq_some_iff.mp address
  have aligned := walkaddr_aligned page
  simp only [PGSIZE] at *
  omega

theorem userByte_eq (small : va + k < 2 ^ 64) : userByte m pagetable (va + k) = (physAfter m pagetable va k).map m.byte := by
  rw [userByte, physAfter, Nat.mod_eq_of_lt small, Option.map_map]
  rfl

theorem turn_split (small : va < 2 ^ 64) (more : len ≠ 0) : ∃ n, min (PGSIZE - va % PGSIZE) len = n ∧
    0 < n ∧ n ≤ len ∧ va - pgRoundDown va = va % PGSIZE ∧ (∀ k < n, va % PGSIZE + k < PGSIZE ∧ (va + k) % 2 ^ 64 = va + k) ∧
    ∀ k < len - n, (va + (n + k)) % 2 ^ 64 = ((pgRoundDown va + PGSIZE) % 2 ^ 64 + k) % 2 ^ 64 := by
  refine ⟨_, rfl, ?_⟩
  simp only [pgRoundDown, PGSIZE]
  refine ⟨by omega, by omega, by omega, fun k less => ⟨by omega, by omega⟩, fun k less => by omega⟩

theorem next_lt (va : ℕ) : (pgRoundDown va + PGSIZE) % 2 ^ 64 < 2 ^ 64 := Nat.mod_lt _ (by norm_num)

/-! ## What `copyout` writes -/

/-- No byte of the range is in a page of the page table. -/
def Foreign (m : Mem) (pagetable : Page) (va len : ℕ) : Prop :=
  ∀ k < len, ∀ a, physAfter m pagetable va k = some a → a / PGSIZE ∉ tables m pagetable

/-- The copy gets to a byte: those up to it are mapped. -/
def Reached (m : Mem) (pagetable : Page) (va k : ℕ) : Prop := ∀ j ≤ k, (physAfter m pagetable va j).isSome

theorem physAfter_agree (same : ∀ p ∈ tables m pagetable, m'.mem p = m.mem p) : physAfter m' pagetable = physAfter m pagetable := by
  funext va k
  rw [physAfter, walkaddr_agree same, physAfter]

theorem write_page {off : ℕ} (src : ℕ → UInt8) (aligned : pa % PGSIZE = 0) (fits : off + n ≤ PGSIZE)
    (foreign : pa / PGSIZE ∉ tables m pagetable) : ∀ p ∈ tables m pagetable, (m.write (pa + off) n src).mem p = m.mem p := by
  intro p member
  refine write_of_ne (p := pa / PGSIZE) ?_ ?_ fun same => foreign (same ▸ member)
  all_goals
    simp only [PGSIZE] at *
    omega

/-- The memory after a copy: the last byte sent to an address is there, and all other bytes are as before. -/
structure Sent (m : Mem) (pagetable : Page) (va len : ℕ) (src : ℕ → UInt8) (m' : Mem) : Prop where
  tables : ∀ p ∈ tables m pagetable, m'.mem p = m.mem p
  free : m'.freelist = m.freelist
  quota : m'.quota = m.quota
  stored : ∀ k < len, Reached m pagetable va k → ∀ a, physAfter m pagetable va k = some a →
    ∃ j, k ≤ j ∧ j < len ∧ physAfter m pagetable va j = some a ∧ m'.byte a = src j
  others : ∀ a, (∀ k < len, Reached m pagetable va k → physAfter m pagetable va k ≠ some a) → m'.byte a = m.byte a

theorem Sent.refl (stops : ∀ k < len, ¬ Reached m pagetable va k) : Sent m pagetable va len src m :=
  ⟨fun _ _ => rfl, rfl, rfl, fun k less reached => (stops k less reached).elim, fun _ _ => rfl⟩

theorem Sent.turn {next : ℕ} (most : n ≤ len) (here : ∀ k < n, physAfter m pagetable va k = some (a + k))
    (rest : ∀ k < len - n, (va + (n + k)) % 2 ^ 64 = (next + k) % 2 ^ 64)
    (same : ∀ p ∈ Paging.tables m pagetable, (m.write a n src).mem p = m.mem p)
    (sent : Sent (m.write a n src) pagetable next (len - n) (fun k => src (n + k)) m') : Sent m pagetable va len src m' := by
  have tables : Paging.tables (m.write a n src) pagetable = Paging.tables m pagetable := cells_agree same
  have phys := physAfter_agree same
  have reached {k : ℕ} (less : k < len - n) : Reached (m.write a n src) pagetable next k ↔ Reached m pagetable va (n + k) := by
    rw [Reached, phys]
    constructor
    · intro all j before
      by_cases early : j < n
      · rw [here j early]
        rfl
      · obtain ⟨i, rfl⟩ := Nat.exists_eq_add_of_le (not_lt.mp early)
        rw [physAfter_rest (rest i (by omega))]
        exact all i (by omega)
    · intro all j before
      rw [← physAfter_rest (rest j (by omega))]
      exact all (n + j) (by omega)
  refine ⟨fun p member => ?_, sent.free, sent.quota, fun k less reach b address => ?_, fun b never => ?_⟩
  · rw [sent.tables p (by rwa [tables]), same p member]
  · by_cases early : k < n
    · by_cases again : ∃ i < len - n, Reached (m.write a n src) pagetable next i ∧ physAfter (m.write a n src) pagetable next i = some b
      · obtain ⟨i, inside, reach, address⟩ := again
        obtain ⟨j, later, bound, last, byte⟩ := sent.stored i inside reach b address
        rw [phys, ← physAfter_rest (rest j bound)] at last
        exact ⟨n + j, by omega, by omega, last, byte⟩
      · have kept := sent.others b fun i inside reach address => again ⟨i, inside, reach, address⟩
        obtain rfl : a + k = b := Option.some.inj ((here k early).symm.trans address)
        refine ⟨k, le_rfl, less, address, ?_⟩
        rw [kept, byte_write, put_of_mem (by omega) (by omega), Nat.add_sub_cancel_left]
    · obtain ⟨i, rfl⟩ := Nat.exists_eq_add_of_le (not_lt.mp early)
      have there := address
      rw [physAfter_rest (rest i (by omega)), ← phys] at there
      obtain ⟨j, later, bound, last, byte⟩ := sent.stored i (by omega) ((reached (by omega)).mpr reach) b there
      rw [phys, ← physAfter_rest (rest j bound)] at last
      exact ⟨n + j, by omega, by omega, last, byte⟩
  · have start : ∀ k < n, b ≠ a + k := by
      intro k early equal
      refine never k (by omega) (fun j before => ?_) (by rw [here k early, equal])
      rw [here j (by omega)]
      rfl
    rw [sent.others b fun k less reach address => ?_, byte_write, put_of_notMem]
    · by_contra inside
      exact start (b - a) (by omega) (by omega)
    · rw [phys, ← physAfter_rest (rest k less)] at address
      exact never (n + k) (by omega) ((reached less).mp reach) address

theorem copyoutLoop_spec (src : ℕ → UInt8) (small : dstva < 2 ^ 64) (enough : len ≤ fuel)
    (foreign : Foreign m pagetable dstva len) : ∃ r m', copyoutLoop pagetable fuel dstva src len m = some (r, m') ∧ (r = 0 ∨ r = -1) ∧
      (r = 0 ↔ ∀ k < len, (physAfter m pagetable dstva k).isSome) ∧ Sent m pagetable dstva len src m' := by
  induction fuel generalizing dstva len src m with
  | zero =>
    obtain rfl : len = 0 := by omega
    exact ⟨0, m, rfl, .inl rfl, by simp, .refl (by simp)⟩
  | succ fuel ih =>
    rw [copyoutLoop]
    by_cases none : len = 0
    · subst none
      exact ⟨0, m, rfl, .inl rfl, by simp, .refl (by simp)⟩
    rw [if_neg none]
    cases page : walkaddr m pagetable (pgRoundDown dstva) with
    | none =>
      have first : physAfter m pagetable dstva 0 = .none := physAfter_none page small
      refine ⟨-1, m, by simp only [page], .inr rfl, ⟨by simp, fun all => ?_⟩, .refl fun k _ reached => ?_⟩
      · simpa [first] using all 0 (Nat.pos_of_ne_zero none)
      · simpa [first] using reached 0 (Nat.zero_le k)
    | some pa =>
      obtain ⟨n, size, positive, most, start, inside, rest⟩ := turn_split small none
      have here : ∀ k < n, physAfter m pagetable dstva k = some (pa + dstva % PGSIZE + k) :=
        fun k less => physAfter_page page (inside k less).1 (inside k less).2
      have aligned := walkaddr_aligned page
      have fits : dstva % PGSIZE + n ≤ PGSIZE := by
        have last := (inside (n - 1) (by omega)).1
        omega
      have apart : pa / PGSIZE ∉ tables m pagetable := by
        have first := foreign 0 (by omega) _ (here 0 positive)
        have same : (pa + dstva % PGSIZE + 0) / PGSIZE = pa / PGSIZE := by
          simp only [PGSIZE] at *
          omega
        rwa [same] at first
      have kept := write_page src aligned fits apart
      have foreign' : Foreign (m.write (pa + dstva % PGSIZE) n src) pagetable ((pgRoundDown dstva + PGSIZE) % 2 ^ 64) (len - n) := by
        intro k less a address
        rw [physAfter_agree kept, ← physAfter_rest (rest k less)] at address
        rw [show tables (m.write (pa + dstva % PGSIZE) n src) pagetable = tables m pagetable from cells_agree kept]
        exact foreign (n + k) (by omega) a address
      simp only [page, start, size]
      obtain ⟨r, m', ran, code, mapped, sent⟩ := ih (fun k => src (n + k)) (next_lt dstva) (by omega : len - n ≤ fuel) foreign'
      rw [physAfter_agree kept] at mapped
      refine ⟨r, m', ran, code, mapped.trans ⟨fun all k less => ?_, fun all k less => ?_⟩, sent.turn most here rest kept⟩
      · by_cases early : k < n
        · simp [here k early]
        · obtain ⟨j, rfl⟩ := Nat.exists_eq_add_of_le (not_lt.mp early)
          rw [physAfter_rest (rest j (by omega))]
          exact all j (by omega)
      · rw [← physAfter_rest (rest k less)]
        exact all (n + k) (by omega)

theorem copyoutLoop_last (more : len ≠ 0) (whole : dstva % PGSIZE + len ≤ PGSIZE)
    (page : walkaddr m pagetable (pgRoundDown dstva) = some pa) :
    copyoutLoop pagetable (fuel + 1) dstva src len m = some (0, m.write (pa + dstva % PGSIZE) len src) := by
  have start : dstva - pgRoundDown dstva = dstva % PGSIZE := by simp only [pgRoundDown, PGSIZE]; omega
  have all : min (PGSIZE - dstva % PGSIZE) len = len := by omega
  rw [copyoutLoop, if_neg more]
  simp only [page, start, all, Nat.sub_self]
  cases fuel <;> rfl

theorem copyoutLoop_unmapped (more : len ≠ 0)
    (page : walkaddr m pagetable (pgRoundDown dstva) = none) : copyoutLoop pagetable (fuel + 1) dstva src len m = some (-1, m) := by
  rw [copyoutLoop, if_neg more]
  simp only [page]

/-- Within the size of a page no two bytes go to one address. -/
theorem Sent.byte (sent : Sent m pagetable va len src m') (short : len ≤ PGSIZE) (less : k < len)
    (reached : Reached m pagetable va k) (address : physAfter m pagetable va k = some a) : m'.byte a = src k := by
  obtain ⟨j, later, bound, same, byte⟩ := sent.stored k less reached a address
  have first := physAfter_mod address
  have second := physAfter_mod same
  obtain rfl : j = k := by
    simp only [PGSIZE] at *
    omega
  exact byte

/-! ## A table with no page, and one that leads to one page -/

def noPages : Mem := ⟨[], fun _ => memset 0, 0⟩

theorem walkaddr_noPages {va : ℕ} : walkaddr noPages 1 va = none := by
  by_contra some
  obtain ⟨pa, page⟩ := Option.ne_none_iff_exists'.mp some
  obtain ⟨_, pte, leaf, _⟩ := walkaddr_iff.mp page
  cases leaf

def leadingTo (frame : Page) : Mem where
  freelist := []
  mem p i := if p = 7 then ⟨true, .none, 8⟩ else if p = 8 then ⟨true, .none, 9⟩ else if p = 9 then ⟨true, userPage, frame⟩ else memset 0 i
  quota := 0

theorem mapped_leadingTo (frame : Page) (va : ℕ) : mapped (leadingTo frame) 7 va = some ⟨true, userPage, frame⟩ := rfl

theorem tables_leadingTo {frame p : Page} (member : p ∈ tables (leadingTo frame) 7) : p = 7 ∨ p = 8 ∨ p = 9 := by
  obtain root | ⟨_, _, link, member⟩ := mem_span_succ.mp member
  · exact .inl root
  obtain rfl := Option.some.inj link
  obtain middle | ⟨_, _, link, member⟩ := mem_span_succ.mp member
  · exact .inr (.inl middle)
  obtain rfl := Option.some.inj link
  obtain last | ⟨_, _, _, member⟩ := mem_span_succ.mp member
  · exact .inr (.inr last)
  simp [span] at member

theorem walkaddr_leadingTo {va : ℕ} (less : va < MAXVA) : walkaddr (leadingTo 5) 7 va = some (5 * PGSIZE) :=
  walkaddr_iff.mpr ⟨less, _, mapped_leadingTo 5 va, rfl, rfl, by decide⟩

theorem foreign_leadingTo (va len : ℕ) : Foreign (leadingTo 5) 7 va len := by
  intro k _ a address member
  obtain ⟨pa, page, rfl⟩ := Option.map_eq_some_iff.mp address
  obtain ⟨less, _⟩ := walkaddr_iff.mp page
  obtain rfl := Option.some.inj ((walkaddr_leadingTo less).symm.trans page)
  have five : (5 * PGSIZE + (va + k) % 2 ^ 64 % PGSIZE) / PGSIZE = 5 := by
    simp only [PGSIZE]
    omega
  rw [five] at member
  rcases tables_leadingTo member with same | same | same <;> cases same

end OsProjects.Copying
