import Mathlib.Data.List.TakeWhile
import OsProjects.Runs.Maximal

namespace OsProjects.Tokens
open Runs

/-! ## The library -/

def newline : UInt8 := 10

/-- At most `count` characters of a stream, up to the first newline, and the rest of the stream. -/
def readLine : ℕ → List UInt8 → List UInt8 × List UInt8
  | 0, stream => ([], stream)
  | _ + 1, [] => ([], [])
  | count + 1, c :: stream =>
    if c = newline then ([c], stream)
    else (c :: (readLine count stream).1, (readLine count stream).2)

def fgets (size : ℕ) (stream : List UInt8) : Option (List UInt8 × List UInt8) :=
  if stream = [] then none else some (readLine (size - 1) stream)

def string (buffer : List UInt8) : List UInt8 := buffer.takeWhile (· ≠ 0)

def strtok (delim : UInt8 → Bool) (saved : List UInt8) : Option (List UInt8 × List UInt8) :=
  let rest := saved.dropWhile delim
  if rest = [] then none
  else some (rest.takeWhile (fun c => !delim c), (rest.dropWhile fun c => !delim c).tail)

/-! ## The program -/

def whitespace : List UInt8 := [32, 9, 12, 13, 11, 10]

def isWhitespace (c : UInt8) : Bool := c ∈ whitespace

def printLoop : ℕ → List UInt8 → Option (List (List UInt8))
  | 0, _ => none
  | fuel + 1, saved =>
    match strtok isWhitespace saved with
    | none => some []
    | some (token, saved) => (printLoop fuel saved).map (token :: ·)

def printTokens (buffer : List UInt8) : Option (List (List UInt8)) :=
  printLoop ((string buffer).length + 1) (string buffer)

abbrev lineSize : ℕ := 50

def mainLoop : ℕ → List UInt8 → Option (List (List UInt8))
  | 0, _ => none
  | fuel + 1, stream =>
    match fgets lineSize stream with
    | none => some []
    | some (line, stream) => do
      let tokens ← printTokens line
      let more ← mainLoop fuel stream
      pure (tokens ++ more)

def main (stream : List UInt8) : Option (List (List UInt8)) := mainLoop (stream.length + 1) stream

def lines : ℕ → List UInt8 → List (List UInt8)
  | 0, _ => []
  | fuel + 1, stream =>
    match fgets lineSize stream with
    | none => []
    | some (line, stream) => line :: lines fuel stream

/-! ## One buffer -/

theorem printLoop_eq {fuel : ℕ} {saved : List UInt8} (enough : saved.length < fuel) :
    printLoop fuel saved = some (runs isWhitespace saved) := by
  induction fuel generalizing saved with
  | zero => omega
  | succ fuel ih =>
    have shorter : (saved.dropWhile isWhitespace).length ≤ saved.length := (List.dropWhile_suffix _).length_le
    rw [printLoop, strtok, ← runs_dropWhile saved]
    generalize stripped : saved.dropWhile isWhitespace = rest at shorter ⊢
    by_cases empty : rest = []
    · simp [empty]
    · have first : ∀ c, rest.head? = some c → isWhitespace c = false := by
        intro c here
        have head := List.head?_dropWhile_not isWhitespace saved
        rw [stripped, here] at head
        simpa using head
      obtain ⟨c, cs, rfl⟩ := List.exists_cons_of_ne_nil empty
      generalize word : (c :: cs).takeWhile (fun c => !isWhitespace c) = token
      generalize tail : (c :: cs).dropWhile (fun c => !isWhitespace c) = after
      have whole : token ++ after = c :: cs := by rw [← word, ← tail, List.takeWhile_append_dropWhile]
      have nonempty : token ≠ [] := by
        rw [← word, List.takeWhile_cons_of_pos (by simp [first c rfl])]
        simp
      have letters : ∀ a ∈ token, isWhitespace a = false := by
        intro a mem
        rw [← word] at mem
        simpa using List.mem_takeWhile_imp mem
      have ends : ∀ b, after.head? = some b → isWhitespace b = true := by
        intro b here
        have head := List.head?_dropWhile_not (fun c => !isWhitespace c) (c :: cs)
        rw [tail, here] at head
        simpa using head
      have less : after.tail.length < fuel := by
        have lengths := congrArg List.length whole
        have some := List.length_pos_of_ne_nil nonempty
        rw [List.length_append] at lengths
        rw [List.length_tail]
        omega
      rw [if_neg empty, ← whole, runs_eq_cons nonempty letters ends]
      simp only [ih less, Option.map_some]

theorem string_eq_self {buffer : List UInt8} (nulFree : 0 ∉ buffer) : string buffer = buffer := by
  refine List.takeWhile_eq_self_iff.mpr fun c mem => ?_
  simpa using ne_of_mem_of_not_mem mem nulFree

theorem printTokens_eq {buffer : List UInt8} (nulFree : 0 ∉ buffer) : printTokens buffer = some (runs isWhitespace buffer) := by
  rw [printTokens, string_eq_self nulFree, printLoop_eq (Nat.lt_succ_self _)]

/-! ## The whole stream -/

theorem readLine_append (count : ℕ) (stream : List UInt8) : (readLine count stream).1 ++ (readLine count stream).2 = stream := by
  induction stream generalizing count with
  | nil => cases count <;> rfl
  | cons c stream ih =>
    cases count with
    | zero => rfl
    | succ count =>
      rw [readLine]
      split
      · rfl
      · rw [List.cons_append, ih]

theorem fgets_eq_some {stream line rest : List UInt8} (read : fgets lineSize stream = some (line, rest)) :
    line ≠ [] ∧ line ++ rest = stream := by
  unfold fgets at read
  obtain ⟨nonempty, equal⟩ := Option.ite_none_left_eq_some.mp read
  obtain ⟨rfl, rfl⟩ := Prod.mk.inj (Option.some.inj equal)
  refine ⟨?_, readLine_append _ _⟩
  obtain ⟨c, cs, rfl⟩ := List.exists_cons_of_ne_nil nonempty
  rw [lineSize, readLine]
  split <;> simp

theorem lines_spec {fuel : ℕ} {stream : List UInt8} (enough : stream.length < fuel) :
    (∀ line ∈ lines fuel stream, line ≠ []) ∧ (lines fuel stream).flatten = stream ∧
      (0 ∉ stream → mainLoop fuel stream = some ((lines fuel stream).flatMap (runs isWhitespace))) := by
  induction fuel generalizing stream with
  | zero => omega
  | succ fuel ih =>
    rw [lines, mainLoop]
    cases read : fgets lineSize stream with
    | none =>
      have empty : stream = [] := by simpa [fgets] using read
      simp [empty]
    | some pair =>
      obtain ⟨line, rest⟩ := pair
      obtain ⟨nonempty, whole⟩ := fgets_eq_some read
      have some := List.length_pos_of_ne_nil nonempty
      have lengths := congrArg List.length whole
      rw [List.length_append] at lengths
      obtain ⟨others, flat, printed⟩ := ih (by omega : rest.length < fuel)
      refine ⟨?_, ?_, fun nulFree => ?_⟩
      · intro l mem
        rcases List.mem_cons.mp mem with rfl | mem
        · exact nonempty
        · exact others l mem
      · rw [List.flatten_cons, flat, whole]
      · rw [← whole, List.mem_append, not_or] at nulFree
        simp [printTokens_eq nulFree.1, printed nulFree.2]

/-- The tokens printed are those of the stream exactly if no token goes on from one buffer into the next. -/
theorem tokens_whole_iff (stream : List UInt8) (nulFree : 0 ∉ stream) :
    ∃ printed, main stream = some printed ∧
      (printed = runs isWhitespace stream ↔
        (lines (stream.length + 1) stream).IsChain fun line next => ¬ Joined isWhitespace line next) := by
  obtain ⟨nonempty, whole, printed⟩ := lines_spec (Nat.lt_succ_self stream.length)
  refine ⟨_, printed nulFree, ?_⟩
  have same := (runs_flatten (p := isWhitespace) nonempty).2
  rwa [whole] at same

theorem tokens_whole_iff_twoLines :
    main [97, 98, 32, 99, 10, 100] = some [[97, 98], [99], [100]] ∧
      (lines 7 [97, 98, 32, 99, 10, 100]).IsChain fun line next => ¬ Joined isWhitespace line next := by
  obtain ⟨printed, ran, whole⟩ := tokens_whole_iff [97, 98, 32, 99, 10, 100] (by decide)
  have checked : main [97, 98, 32, 99, 10, 100] = some [[97, 98], [99], [100]] := by decide +kernel
  obtain rfl := Option.some.inj (checked.symm.trans ran)
  exact ⟨checked, whole.mp (by decide +kernel)⟩

theorem long_token_split :
    main (List.replicate 60 97) = some [List.replicate 49 97, List.replicate 11 97] ∧
      runs isWhitespace (List.replicate 60 97) = [List.replicate 60 97] := by
  decide +kernel

end OsProjects.Tokens
