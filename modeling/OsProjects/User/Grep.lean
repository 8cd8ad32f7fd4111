import Mathlib.Computability.Language

namespace OsProjects.Grep

abbrev Str := List UInt8

def dollar : UInt8 := 36

def star : UInt8 := 42

def dot : UInt8 := 46

def caret : UInt8 := 94

def newline : UInt8 := 10

/-! ## The matcher -/

/-- `matchstar(c, re, text)`, where `rest` is `matchhere` for `re`. -/
def matchstar (rest : Str → Bool) (c : UInt8) : Str → Bool
  | [] => rest []
  | x :: text => rest (x :: text) || (x == c || c == dot) && matchstar rest c text

def matchhere : Str → Str → Bool
  | [], _ => true
  | [c], text =>
    if c = dollar then text.isEmpty
    else match text with
      | [] => false
      | x :: _ => c == dot || c == x
  | c :: d :: re, text =>
    if d = star then matchstar (matchhere re) c text
    else match text with
      | [] => false
      | x :: text => (c == dot || c == x) && matchhere (d :: re) text

def matchFrom (re : Str) : Str → Bool
  | [] => matchhere re []
  | x :: text => matchhere re (x :: text) || matchFrom re text

def matchLine (re text : Str) : Bool :=
  match re with
  | [] => matchFrom [] text
  | c :: re => if c = caret then matchhere re text else matchFrom (c :: re) text

def single (c : UInt8) : Language UInt8 := {w | ∃ x, (c = dot ∨ c = x) ∧ w = [x]}

/-- What a pattern matches: a character before a star any number of times, a `$` at the end nothing. -/
def language : Str → Language UInt8
  | [] => 1
  | [c] => if c = dollar then 1 else single c
  | c :: d :: re => if d = star then KStar.kstar (single c) * language re else single c * language (d :: re)

def anchored : Str → Bool
  | [] => false
  | [c] => c == dollar
  | _ :: d :: re => if d = star then anchored re else anchored (d :: re)

def Starts (re text : Str) : Prop := ∃ front back, text = front ++ back ∧ front ∈ language re ∧ (anchored re = true → back = [])

theorem mem_kstar_single {c : UInt8} {w : Str} : w ∈ KStar.kstar (single c) ↔ ∀ x ∈ w, c = dot ∨ c = x := by
  rw [Language.mem_kstar]
  constructor
  · rintro ⟨parts, rfl, each⟩ x member
    obtain ⟨part, among, inside⟩ := List.mem_flatten.mp member
    obtain ⟨y, fits, rfl⟩ := each part among
    rwa [List.mem_singleton.mp inside]
  · intro fits
    refine ⟨w.map fun x => [x], by rw [← List.flatMap_def, List.flatMap_singleton'], fun part member => ?_⟩
    obtain ⟨x, among, rfl⟩ := List.mem_map.mp member
    exact ⟨x, fits x among, rfl⟩

theorem fits_iff {c x : UInt8} : (x == c || c == dot) = true ↔ c = dot ∨ c = x := by
  rw [Bool.or_eq_true, beq_iff_eq, beq_iff_eq, or_comm, eq_comm (a := x)]

theorem matchstar_iff {rest : Str → Bool} {c : UInt8} {text : Str} :
    matchstar rest c text = true ↔ ∃ stars back, text = stars ++ back ∧ stars ∈ KStar.kstar (single c) ∧ rest back = true := by
  simp only [mem_kstar_single]
  induction text with
  | nil => simp [matchstar]
  | cons x text ih =>
    rw [matchstar, Bool.or_eq_true, Bool.and_eq_true, fits_iff, ih]
    constructor
    · rintro (here | ⟨fits, stars, back, rfl, all, later⟩)
      · exact ⟨[], x :: text, rfl, by simp, here⟩
      · refine ⟨x :: stars, back, rfl, fun y member => ?_, later⟩
        rcases List.mem_cons.mp member with rfl | member
        · exact fits
        · exact all y member
    · rintro ⟨stars, back, split, all, later⟩
      cases stars with
      | nil => exact .inl (by rwa [split])
      | cons y stars =>
        obtain ⟨rfl, rfl⟩ := List.cons.inj split
        refine .inr ⟨all x (by simp), stars, back, rfl, fun y member => all y (by simp [member]), later⟩

theorem starts_single (c : UInt8) {re text : Str} (rest : Str) (words : language re = single c * language rest)
    (ends : anchored re = anchored rest) :
    Starts re text ↔ ∃ x tail, text = x :: tail ∧ (c = dot ∨ c = x) ∧ Starts rest tail := by
  simp only [Starts, words, ends, Language.mem_mul]
  constructor
  · rintro ⟨_, back, rfl, ⟨_, ⟨x, fits, rfl⟩, front, within, rfl⟩, last⟩
    exact ⟨x, front ++ back, rfl, fits, front, back, rfl, within, last⟩
  · rintro ⟨x, _, rfl, fits, front, back, rfl, within, last⟩
    exact ⟨x :: front, back, rfl, ⟨[x], ⟨x, fits, rfl⟩, front, within, rfl⟩, last⟩

theorem matchhere_iff : ∀ re text : Str, matchhere re text = true ↔ Starts re text
  | [], text => by simp [matchhere, Starts, language, anchored, Language.mem_one]
  | [c], text => by
    by_cases last : c = dollar
    · simp [matchhere, Starts, language, anchored, Language.mem_one, last, List.isEmpty_iff]
    · rw [starts_single c [] (by simp [language, last]) (by simp [anchored, last])]
      have all (tail : Str) : Starts [] tail := ⟨[], tail, rfl, rfl, by simp [anchored]⟩
      cases text <;> simp [matchhere, last, all]
  | c :: d :: re, text => by
    by_cases starred : d = star
    · simp only [matchhere, if_pos starred, matchstar_iff, matchhere_iff re, Starts, language, anchored, Language.mem_mul]
      constructor
      · rintro ⟨stars, _, rfl, all, front, back, rfl, within, last⟩
        exact ⟨stars ++ front, back, by simp, ⟨stars, all, front, within, rfl⟩, last⟩
      · rintro ⟨_, back, rfl, ⟨stars, all, front, within, rfl⟩, last⟩
        exact ⟨stars, front ++ back, by simp, all, front, back, rfl, within, last⟩
    · rw [starts_single c (d :: re) (by simp [language, starred]) (by simp [anchored, starred])]
      cases text with
      | nil => simp [matchhere, starred]
      | cons x text => simp [matchhere, starred, matchhere_iff (d :: re)]

theorem matchFrom_iff (re text : Str) : matchFrom re text = true ↔ ∃ before after, text = before ++ after ∧ Starts re after := by
  induction text with
  | nil => simp [matchFrom, matchhere_iff]
  | cons x text ih =>
    rw [matchFrom, Bool.or_eq_true, matchhere_iff, ih]
    constructor
    · rintro (here | ⟨before, after, rfl, there⟩)
      · exact ⟨[], x :: text, rfl, here⟩
      · exact ⟨x :: before, after, rfl, there⟩
    · rintro ⟨before, after, split, there⟩
      cases before with
      | nil => exact .inl (by rwa [split])
      | cons y before => exact .inr ⟨before, after, (List.cons.inj split).2, there⟩

/-- `match` says whether the pattern, less a `^`, matches the start of the line or, without one, some place in it. -/
theorem match_iff_language (re line : Str) : matchLine re line = true ↔ if re.head? = some caret then Starts re.tail line
    else ∃ before after, line = before ++ after ∧ Starts re after := by
  cases re with
  | nil => simp [matchLine, matchFrom_iff]
  | cons c re =>
    by_cases start : c = caret
    · simp [matchLine, start, matchhere_iff]
    · simp [matchLine, start, matchFrom_iff]

/-! ## The lines of a file -/

def BUFSIZE : ℕ := 1024

def strchr (c : UInt8) : Str → Option (Str × Str)
  | [] => none
  | x :: rest => if x = 0 then none else if x = c then some ([], rest) else (strchr c rest).map fun found => (x :: found.1, found.2)

/-- The inner loop on the bytes in the buffer: what it writes, and the bytes it leaves. -/
def grepLines (re : Str) : ℕ → Str → Option (Str × Str)
  | 0, _ => none
  | fuel + 1, bytes =>
    match strchr newline bytes with
    | none => some ([], bytes)
    | some (line, rest) => (grepLines re fuel rest).map fun done =>
      ((if matchLine re line then line ++ [newline] else []) ++ done.1, done.2)

/-- The loop of `grep` with `buf` in the buffer. The reads get parts of the stream, `reads` says how large. -/
def grep (re : Str) (reads : ℕ → ℕ) : ℕ → Str → Str → Option Str
  | 0, _, _ => none
  | fuel + 1, buf, stream =>
    let n := min (reads fuel + 1) (min (BUFSIZE - buf.length - 1) stream.length)
    if n = 0 then some []
    else do
      let (out, left) ← grepLines re (BUFSIZE + 1) (buf ++ stream.take n)
      pure (out ++ (← grep re reads fuel left (stream.drop n)))

/-- The lines before the first that does not fit into the buffer, as far as the pattern matches them. -/
def shown (re stream : Str) : Str :=
  (((stream.splitOn newline).dropLast.takeWhile fun line => line.length + 1 < BUFSIZE).filter (matchLine re)).flatMap
    fun line => line ++ [newline]

theorem strchr_spec {bytes : Str} (plain : (0 : UInt8) ∉ bytes) : (strchr newline bytes = none ∧ newline ∉ bytes) ∨
    ∃ line rest, strchr newline bytes = some (line, rest) ∧ bytes = line ++ newline :: rest ∧ newline ∉ line := by
  induction bytes with
  | nil => exact .inl ⟨rfl, by simp⟩
  | cons x rest ih =>
    obtain ⟨other, plain⟩ : (0 : UInt8) ≠ x ∧ (0 : UInt8) ∉ rest := by simpa using plain
    by_cases here : x = newline
    · exact .inr ⟨[], rest, by simp [strchr, here, newline], by simp [here], by simp⟩
    · rcases ih plain with ⟨none, absent⟩ | ⟨line, tail, found, rfl, absent⟩
      · exact .inl ⟨by simp [strchr, other.symm, here, none], by simp [Ne.symm here, absent]⟩
      · exact .inr ⟨x :: line, tail, by simp [strchr, other.symm, here, found], by simp, by simp [Ne.symm here, absent]⟩

variable {re : Str}

theorem shown_line {line rest : Str} (whole : newline ∉ line) (fits : line.length + 1 < BUFSIZE) :
    shown re (line ++ newline :: rest) = (if matchLine re line then line ++ [newline] else []) ++ shown re rest := by
  have more : rest.splitOn newline ≠ [] := List.splitOnP_ne_nil _ _
  rw [shown, List.splitOn_append_cons_self_of_not_mem whole, List.dropLast_cons_of_ne_nil more, List.takeWhile_cons_of_pos (by simpa using fits),
    List.filter_cons]
  split <;> simp [shown]

theorem shown_eq_nil {front rest : Str} (none : newline ∉ front) (stuck : rest = [] ∨ BUFSIZE ≤ front.length + 1) :
    shown re (front ++ rest) = [] := by
  by_cases member : newline ∈ front ++ rest
  · obtain ⟨line, tail, same, whole⟩ := List.eq_append_cons_of_mem member
    have long : front.length ≤ line.length := by
      by_contra short
      have here : (front ++ rest)[line.length]? = some newline := by
        rw [same]
        simp
      rw [List.getElem?_append_left (by omega)] at here
      exact none (List.mem_of_getElem? here)
    rcases stuck with rfl | stuck
    · exact absurd (by simpa using member) none
    · have more : tail.splitOn newline ≠ [] := List.splitOnP_ne_nil _ _
      rw [shown, same, List.splitOn_append_cons_self_of_not_mem whole, List.dropLast_cons_of_ne_nil more,
        List.takeWhile_cons_of_neg (by simp; omega)]
      rfl
  · rw [shown, List.splitOn_eq_singleton member]
    rfl

theorem grepLines_spec (re : Str) {fuel : ℕ} {bytes : Str} (plain : (0 : UInt8) ∉ bytes) (enough : bytes.length < fuel) (fits : bytes.length < BUFSIZE) :
    ∃ out left, grepLines re fuel bytes = some (out, left) ∧ newline ∉ left ∧ left <:+ bytes ∧
      ∀ tail, shown re (bytes ++ tail) = out ++ shown re (left ++ tail) := by
  induction fuel generalizing bytes with
  | zero => omega
  | succ fuel ih =>
    rcases strchr_spec plain with ⟨found, absent⟩ | ⟨line, rest, found, rfl, whole⟩
    · exact ⟨[], bytes, by simp [grepLines, found], absent, List.suffix_refl _, by simp⟩
    · simp only [List.length_append, List.length_cons] at enough fits
      have plain' : (0 : UInt8) ∉ rest := by simp_all
      obtain ⟨out, left, ran, clean, last, means⟩ := ih plain' (by omega) (by omega)
      refine ⟨(if matchLine re line then line ++ [newline] else []) ++ out, left, by simp [grepLines, found, ran], clean,
        last.trans ⟨line ++ [newline], by simp⟩, fun tail => ?_⟩
      rw [List.append_assoc, List.cons_append, shown_line whole (by omega), means, List.append_assoc]

/-- Whatever the reads return, `grep` ends and shows the lines of a file that match, up to the first one too long for
its buffer and without a last one that has no newline. -/
theorem grep_shows_matching_lines (re : Str) (reads : ℕ → ℕ) (stream : Str) (plain : (0 : UInt8) ∉ stream) {fuel : ℕ}
    (enough : stream.length < fuel) : grep re reads fuel [] stream = some (shown re stream) := by
  suffices all : ∀ fuel buf stream, stream.length < fuel → newline ∉ buf → buf.length < BUFSIZE → (0 : UInt8) ∉ buf ++ stream →
      grep re reads fuel buf stream = some (shown re (buf ++ stream)) by
    exact all fuel [] stream enough (by simp) (by decide) plain
  intro fuel
  induction fuel with
  | zero => intro _ _ enough; omega
  | succ fuel ih =>
    intro buf stream enough clean room plain
    rw [grep]
    generalize size : min (reads fuel + 1) (min (BUFSIZE - buf.length - 1) stream.length) = n
    by_cases zero : n = 0
    · rw [if_pos zero, shown_eq_nil clean]
      by_cases empty : stream = []
      · exact .inl empty
      · have some := List.length_pos_of_ne_nil empty
        exact .inr (by omega)
    · rw [if_neg zero]
      have parts : buf ++ stream = (buf ++ stream.take n) ++ stream.drop n := by simp
      have few : (buf ++ stream.take n).length < BUFSIZE := by simp; omega
      have plain' : (0 : UInt8) ∉ buf ++ stream.take n := fun member => plain (by rw [parts]; exact List.mem_append_left _ member)
      obtain ⟨out, left, ran, clean', last, means⟩ := grepLines_spec re plain' (by omega : _ < BUFSIZE + 1) few
      have short := last.length_le
      have rest := ih left (stream.drop n) (by simp; omega) clean' (by omega) fun member => plain (by
        rw [parts]
        rcases List.mem_append.mp member with member | member
        · exact List.mem_append_left _ (last.subset member)
        · exact List.mem_append_right _ member)
      simp only [ran, rest, Option.bind_eq_bind, Option.bind_some]
      rw [parts, means]
      rfl

theorem grep_shows_matching_lines_twoReads : grep [94, 97, 46, 42, 98, 36] (fun _ => 2) 6 [] [97, 98, 10, 120, 98] = some [97, 98, 10] :=
  (grep_shows_matching_lines _ (fun _ => 2) _ (by decide) (by decide)).trans (by decide +kernel)

end OsProjects.Grep
