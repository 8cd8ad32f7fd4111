import OsProjects.Arrays.Checked
import OsProjects.Kernel.Lottery
import OsProjects.Transition.System

namespace OsProjects.Random
open Arrays Kernel Transition

abbrev Long := BitVec 64

def KK : ℕ := 100

def LL : ℕ := 37

def MM : Long := 1 <<< 30

def TT : ℕ := 70

def modDiff (x y : Long) : Long := (x - y) &&& (MM - 1)

def isOdd (x : Long) : Prop := x &&& 1 ≠ 0

instance (x : Long) : Decidable (isOdd x) := inferInstanceAs (Decidable (_ ≠ _))

def evenize (x : Long) : Long := x &&& (MM - 2)

/-- The variables of the file. -/
structure Vars where
  ranX : Vector Long KK
  aa : Vector Long 2000
  randIndex : ℤ

/-! ## `ran_array` -/

section
variable {len : ℕ}

/-- The loops that fill `aa`. -/
def fillArray (n : ℕ) (ranX : Vector Long KK) (aa : Vector Long len) : Option (Vector Long len) := do
  let aa ← forUp KK (fun j aa => do store aa j (← load ranX j)) 0 aa
  forUp n (fun j aa => do store aa j (modDiff (← load aa (j - KK)) (← load aa (j - LL)))) KK aa

/-- The loops that refill `ran_x`; both count `j` on with `i`. -/
def refill (aa : Vector Long len) (j : ℕ) (ranX : Vector Long KK) : Option (Vector Long KK) := do
  let (ranX, j) ← forUp LL (fun i (ranX, j) => do
    pure (← store ranX i (modDiff (← load aa (j - KK)) (← load aa (j - LL))), j + 1)) 0 (ranX, j)
  let (ranX, _) ← forUp KK (fun i (ranX, j) => do
    pure (← store ranX i (modDiff (← load aa (j - KK)) (← load ranX (i - LL))), j + 1)) LL (ranX, j)
  pure ranX

def ranArray (aa : Vector Long len) (n : ℕ) (ranX : Vector Long KK) : Option (Vector Long len × Vector Long KK) := do
  let aa ← fillArray n ranX aa
  let ranX ← refill aa (max KK n) ranX
  pure (aa, ranX)

end

/-! ## `ran_start` -/

abbrev Local := Vector Long (KK + KK - 1)

def double (ss : Long) : Long :=
  let ss := ss <<< 1
  if MM.sle ss then ss - (MM - 2) else ss

/-- The loops before `x[1]++`, and that increment; the stack holds anything before. -/
def startArray (seed : ℤ) (x : Local) : Option Local := do
  let (x, _) ← forUp KK (fun j (x, ss) => do pure (← store x j ss, double ss)) 0 (x, evenize (.ofInt 64 (int (seed + 2))))
  let x ← forUp (KK + KK - 1) (fun j x => store x j 0) KK x
  store x 1 ((← load x 1) + 1)

def spread (x : Local) : Option Local := forDown 0 0 (fun j x => do store x (j + j) (← load x j)) (KK - 1) x

def fillOdd (x : Local) : Option Local :=
  forDown (KK - LL) 1 (fun j x => do store x (KK + KK - 1 - j) (evenize (← load x j))) (KK + KK - 2) x

def reduceAt (j : ℕ) (x : Local) : Option Local := do
  if isOdd (← load x j) then
    let x ← store x (j - (KK - LL)) (modDiff (← load x (j - (KK - LL))) (← load x j))
    store x (j - KK) (modDiff (← load x (j - KK)) (← load x j))
  else pure x

def reduce (x : Local) : Option Local := forDown (KK - 1) 0 reduceAt (KK + KK - 2) x

def shift (x : Local) : Option Local := do
  let x ← forDown 0 0 (fun j x => do store x j (← load x (j - 1))) KK x
  let x ← store x 0 (← load x KK)
  if isOdd (← load x KK) then store x LL (modDiff (← load x LL) (← load x KK)) else pure x

/-- One turn of the `while` loop, without its last statement. -/
def turn (ss : Long) (x : Local) : Option Local := do
  let x ← spread x
  let x ← fillOdd x
  let x ← reduce x
  if isOdd ss then shift x else pure x

/-- The `while` loop, for a number of turns. -/
def turns : ℕ → ℕ → Long → Local → Option Local
  | _, 0, _, x => some x
  | 0, _ + 1, _, _ => none
  | fuel + 1, t + 1, ss, x => do
    let x ← turn ss x
    if ss ≠ 0 then turns fuel (t + 1) (ss.sshiftRight 1) x else turns fuel t ss x

def copyOut (x : Local) (ranX : Vector Long KK) : Option (Vector Long KK) := do
  let ranX ← forUp LL (fun j ranX => do store ranX (j + KK - LL) (← load x j)) 0 ranX
  forUp KK (fun j ranX => do store ranX (j - LL) (← load x j)) LL ranX

/-- What `ran_start` computes in `ran_x`, before its call of `ran_array`. The bits of `ss` and the count of `t` bound the
turns. -/
def firstTerms (seed : ℤ) (x : Local) (ranX : Vector Long KK) : Option (Vector Long KK) := do
  let x ← startArray seed x
  let x ← turns (30 + (TT - 1)) (TT - 1) (.ofInt 64 seed &&& (MM - 1)) x
  copyOut x ranX

def ranStart (seed : ℤ) (x : Local) (s : Vars) : Option Vars := do
  let ranX ← firstTerms seed x s.ranX
  let (aa, ranX) ← ranArray s.aa 1009 ranX
  pure ⟨ranX, aa, 0⟩

/-! ## The calls -/

/-- The `if` of `nextRand`, with the increment in its condition. -/
def nextIndex (s : Vars) : Option Vars :=
  let index := int (s.randIndex + 1)
  if index > 100 then do
    let (aa, ranX) ← ranArray s.aa 1009 s.ranX
    pure ⟨ranX, aa, 0⟩
  else pure { s with randIndex := index }

def nextRand (s : Vars) : Option (ℤ × Vars) := do
  let s ← nextIndex s
  let value ← load s.aa s.randIndex
  pure (int value.toInt, s)

def randInit (seed : ℤ) (x : Local) (s : Vars) : Option Vars := ranStart seed x s

def scaledRandom (low high : ℤ) (s : Vars) : Option (ℤ × Vars) := do
  let (val, s) ← nextRand s
  pure (Kernel.scaledRandom low high val, s)

/-- The kernel is loaded with its variables zero. -/
def boot : Vars := ⟨.replicate KK 0, .replicate 2000 0, 0⟩

inductive Call
  | randInit (seed : ℤ) (stack : Local)
  | nextRand
  | scaledRandom (low high : ℤ)

def perform (s : Vars) : Call → Option Vars
  | .randInit seed stack => randInit seed stack s
  | .nextRand => (nextRand s).map Prod.snd
  | .scaledRandom low high => (scaledRandom low high s).map Prod.snd

def system : System Vars Call := ⟨boot, perform⟩

/-! ## The arithmetic of `long` -/

theorem toNat_modDiff (x y : Long) : (modDiff x y).toNat = (x - y).toNat % 2 ^ 30 := by
  have mask : (MM - 1).toNat = 2 ^ 30 - 1 := by decide
  rw [modDiff, BitVec.toNat_and, mask, Nat.and_two_pow_sub_one_eq_mod]

theorem toNat_evenize (x : Long) : (evenize x).toNat < 2 ^ 30 ∧ (evenize x).toNat % 2 = 0 := by
  have mask : (MM - 2).toNat = 2 ^ 30 - 2 := by decide
  rw [evenize, BitVec.toNat_and, mask]
  refine ⟨lt_of_le_of_lt Nat.and_le_right (by decide), ?_⟩
  have bits := @Nat.and_mod_two_pow x.toNat (2 ^ 30 - 2) 1
  rwa [pow_one, show (2 ^ 30 - 2) % 2 = 0 from rfl, Nat.and_zero] at bits

theorem isOdd_iff (x : Long) : isOdd x ↔ x.toNat % 2 = 1 := by
  have low : (x &&& 1).toNat = x.toNat % 2 := by
    rw [BitVec.toNat_and]
    exact Nat.and_one_is_mod _
  rw [isOdd, Ne, ← BitVec.toNat_inj, low]
  change ¬x.toNat % 2 = 0 ↔ _
  omega

theorem modDiff_ofInt (a b : ℤ) : modDiff (.ofInt 64 a) (.ofInt 64 b) = .ofInt 64 ((a - b) % 2 ^ 30) := by
  refine BitVec.eq_of_toNat_eq ?_
  simp only [toNat_modDiff, BitVec.toNat_sub, BitVec.toNat_ofInt]
  omega

end OsProjects.Random
