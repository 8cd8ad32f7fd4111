import OsProjects.Shell.Parser

namespace OsProjects.Shell
open Hoare

variable {line : List UInt8} {fuel s : ℕ} {input : List Token} {buf : ℕ → UInt8} {ts : List Token} {i q e : ℕ}
  {cmd : Cmd Span}

/-! ## The functions of the parser -/

/-- On these tokens a function finds the only parse of the nonterminal, or panics where there is none. -/
def Meets (line : List UInt8) (symbol : Nonterminal) (x : Parse (Cmd Span)) (input : List Token) (s : ℕ) : Prop :=
  wp (fun e => e ≠ .endless ∧ Rejected symbol input) x
    (fun cmd t => ∃ rest, Rest line t rest ∧ Words line cmd ∧ Exact symbol input (spell line cmd) rest) s

structure Correct (line : List UInt8) (fuel : ℕ) : Prop where
  lines : ∀ {s input}, 4 * input.length + 4 ≤ fuel → Rest line s input → Meets line .line (parseline line fuel) input s
  pipes : ∀ {s input}, 4 * input.length + 3 ≤ fuel → Rest line s input → Meets line .pipe (parsepipe line fuel) input s
  execs : ∀ {s input}, 4 * input.length + 2 ≤ fuel → Rest line s input → Meets line .exec (parseexec line fuel) input s
  blocks : ∀ {s ts}, 4 * ts.length + 5 ≤ fuel → Rest line s (.lparen :: ts) →
    Meets line .exec (parseblock line fuel) (.lparen :: ts) s

theorem head?_cases {t : Token} (ts : List Token) : (∃ ts', ts = t :: ts') ∨ ts.head? ≠ some t := by
  by_cases head : ts.head? = some t
  · exact .inl (List.head?_eq_some_iff.mp head)
  · exact .inr head

theorem Correct.parsepipe (terminated : 0 ∉ line) (correct : Correct line fuel)
    (enough : 4 * input.length + 3 ≤ fuel + 1) (rest : Rest line s input) :
    Meets line .pipe (parsepipe line (fuel + 1)) input s := by
  rw [Shell.parsepipe, Meets, wp_bind]
  refine (correct.execs (by omega) rest).imp (fun e stop => ⟨stop.1, stop.2.pipe⟩) fun cmd t found => ?_
  obtain ⟨left, rest, words, exec⟩ := found
  rw [wp_bind]
  refine (peek_spec rfl rest).mono fun seen u peek => ?_
  obtain ⟨rfl, rest, -⟩ := peek
  have bar : peeked [124] left = true ↔ left.head? = some .bar := peeked_single (t := .bar) trivial
  obtain ⟨mid, rfl⟩ | ends := head?_cases (t := .bar) left
  · rw [if_pos (bar.mpr rfl), wp_bind]
    refine (gettoken_spec terminated rest).mono fun out v reads => ?_
    have fewer := exec.suffix.length_le
    rw [List.length_cons] at fewer
    rw [wp_bind]
    refine (correct.pipes (by omega) reads.rest).imp (fun e stop => ⟨stop.1, exec.rejected_piped stop.2⟩)
      fun right w found => ?_
    obtain ⟨left, rest, words', pipe⟩ := found
    refine ⟨left, rest, ?_, exec.piped pipe⟩
    exact List.forall_mem_append.mpr ⟨words, words'⟩
  · rw [if_neg (by rwa [bar])]
    exact ⟨left, rest, words, exec.alone ends⟩

theorem Correct.parseline (terminated : 0 ∉ line) (correct : Correct line fuel)
    (enough : 4 * input.length + 4 ≤ fuel + 1) (rest : Rest line s input) :
    Meets line .line (parseline line (fuel + 1)) input s := by
  rw [Shell.parseline, Meets, wp_bind]
  refine (correct.pipes (by omega) rest).imp (fun e stop => ⟨stop.1, stop.2.line⟩) fun cmd t found => ?_
  obtain ⟨left, rest, words, pipe⟩ := found
  have fewer := pipe.suffix.length_le
  rw [wp_bind]
  refine (parseback_spec terminated (by omega) rest words).mono fun cmd' u backed => ?_
  obtain ⟨k, mid, rfl, ends, behind, words, spelled⟩ := backed
  rw [wp_bind]
  refine (peek_spec rfl behind).mono fun seen v peek => ?_
  obtain ⟨rfl, rest, -⟩ := peek
  have semi : peeked [59] mid = true ↔ mid.head? = some .semi := peeked_single (t := .semi) trivial
  obtain ⟨mid, rfl⟩ | final := head?_cases (t := .semi) mid
  · rw [if_pos (semi.mpr rfl), wp_bind]
    refine (gettoken_spec terminated rest).mono fun out v reads => ?_
    rw [List.length_append, List.length_cons] at fewer
    rw [wp_bind]
    refine (correct.lines (by omega) reads.rest).imp (fun e stop => ⟨stop.1, pipe.rejected_next stop.2⟩)
      fun right w found => ?_
    obtain ⟨left, rest, words', next⟩ := found
    refine ⟨left, rest, List.forall_mem_append.mpr ⟨words, words'⟩, ?_⟩
    have exact := pipe.next next
    rw [← spelled] at exact
    exact exact
  · rw [if_neg (by rwa [semi])]
    refine ⟨mid, rest, words, ?_⟩
    rw [spelled]
    exact pipe.last ends final

theorem Correct.parseblock (terminated : 0 ∉ line) (correct : Correct line fuel)
    (enough : 4 * ts.length + 5 ≤ fuel + 1) (rest : Rest line s (.lparen :: ts)) :
    Meets line .exec (parseblock line (fuel + 1)) (.lparen :: ts) s := by
  rw [Shell.parseblock, Meets, wp_bind]
  refine (peek_spec rfl rest).mono fun seen t peek => ?_
  obtain ⟨rfl, rest, -⟩ := peek
  have lparen : peeked [40] (.lparen :: ts) = true := rfl
  rw [if_pos lparen, wp_bind]
  refine (gettoken_spec terminated rest).mono fun out u reads => ?_
  rw [wp_bind]
  refine (correct.lines (by omega) reads.rest).imp (fun e stop => ⟨stop.1, ?_⟩) fun cmd v found => ?_
  · exact rejected_block fun cmd redirs left _ parse => stop.2 _ _ parse
  obtain ⟨left, rest, words, inner⟩ := found
  rw [wp_bind]
  refine (peek_spec rfl rest).mono fun seen w peek => ?_
  obtain ⟨rfl, rest, -⟩ := peek
  have rparen : peeked [41] left = true ↔ left.head? = some .rparen := peeked_single (t := .rparen) trivial
  obtain ⟨mid, rfl⟩ | missing := head?_cases (t := .rparen) left
  · rw [if_pos (rparen.mpr rfl), wp_bind]
    refine (gettoken_spec terminated rest).mono fun out x reads => ?_
    have fewer := inner.suffix.length_le
    rw [List.length_cons] at fewer
    refine (parseredirs_spec terminated (by omega) reads.rest words).imp (fun e stop => ⟨stop.1, ?_⟩)
      fun cmd' y after => ?_
    · refine rejected_block fun cmd redirs left follow parse => ?_
      obtain ⟨-, -, same⟩ := (inner.unique _ _).mp parse
      cases same
      exact follow.not_redirects (stop.2 redirs left rfl)
    · obtain ⟨redirs, left, rfl, ends, behind, words, spelled⟩ := after
      refine ⟨left, behind, words, ?_⟩
      rw [spelled]
      exact inner.block ends
  · rw [if_neg (by rwa [rparen])]
    refine ⟨by simp, rejected_block fun cmd redirs rest _ parse => ?_⟩
    obtain ⟨-, -, rfl⟩ := (inner.unique _ _).mp parse
    exact missing rfl

theorem Correct.parseexec (terminated : 0 ∉ line) (correct : Correct line fuel)
    (enough : 4 * input.length + 2 ≤ fuel + 1) (rest : Rest line s input) :
    Meets line .exec (parseexec line (fuel + 1)) input s := by
  rw [Shell.parseexec, Meets, wp_bind]
  refine (peek_spec rfl rest).mono fun seen t peek => ?_
  obtain ⟨rfl, rest, -⟩ := peek
  have lparen : peeked [40] input = true ↔ input.head? = some .lparen := peeked_single (t := .lparen) trivial
  obtain ⟨ts, rfl⟩ | start := head?_cases (t := .lparen) input
  · rw [if_pos (lparen.mpr rfl)]
    rw [List.length_cons] at enough
    exact correct.blocks (by omega) rest
  rw [if_neg (by rwa [lparen]), wp_bind]
  have empty : Words line (.exec []) := by simp [Words, Cmd.strings]
  refine (parseredirs_spec terminated (by omega) rest empty).imp (fun e stop => ⟨stop.1, ?_⟩) fun ret u after => ?_
  · intro tree left parse
    obtain ⟨follow, redirs, items, split, -, -⟩ := (parses_simple start).mp parse
    exact not_redirects_itemTokens follow (stop.2 redirs _ split)
  obtain ⟨redirs, mid, split, ends, rest, words, spelled⟩ := after
  have fewer : mid.length ≤ input.length := by
    rw [split, List.length_append]
    omega
  refine (parseargs_spec terminated (by omega) (by decide) ends rest words).imp (fun e stop => ⟨stop.1, ?_⟩)
    fun ret' v after => ?_
  · intro tree left parse
    obtain ⟨follow, redirs', items, split', few, -⟩ := (parses_simple start).mp parse
    obtain ⟨-, same⟩ := redirTokens_inj (split.symm.trans split') ends (not_redirects_itemTokens follow)
    have many := stop.2 items left same follow
    simp only [MAXARGS] at few many
    omega
  · obtain ⟨items, left, split', follow, few, rest, words, spelled'⟩ := after
    refine ⟨left, rest, words, ?_⟩
    have whole := exact_simple start (split' ▸ split) follow (by omega)
    have tree : spell line ret' = wrap (.exec (items.map Item.arg)) (redirs ++ items.flatMap Item.redirs) := by
      rw [spelled', spelled]
      exact extend_wrap
    rw [tree]
    exact whole

theorem correct (terminated : 0 ∉ line) (fuel : ℕ) : Correct line fuel := by
  induction fuel with
  | zero => constructor <;> omega
  | succ fuel ih =>
    exact ⟨ih.parseline terminated, ih.parsepipe terminated, ih.parseexec terminated, ih.parseblock terminated⟩

/-! ## The strings in the buffer -/

theorem foldl_update_apply {argv : List Span} :
    argv.foldl (fun buf arg => Function.update buf arg.2 0) buf i = if i ∈ argv.map Prod.snd then 0 else buf i := by
  induction argv generalizing buf with
  | nil => rfl
  | cons arg argv ih =>
    rw [List.foldl_cons, ih, Function.update_apply]
    by_cases here : i = arg.2
    · simp [here]
    · simp only [List.map_cons, List.mem_cons, here, if_false, false_or]

theorem nulterminate_apply : nulterminate cmd buf i = if i ∈ cmd.strings.map Prod.snd then 0 else buf i := by
  induction cmd generalizing buf with
  | exec argv => exact foldl_update_apply
  | redir cmd file mode fd ih =>
    simp only [nulterminate, Function.update_apply, ih, Cmd.strings, List.map_append, List.mem_append,
      List.map_singleton, List.mem_singleton]
    by_cases here : i = file.2
    · simp [here]
    · simp only [here, if_false, or_false]
  | pipe left right ihLeft ihRight | list left right ihLeft ihRight =>
    simp only [nulterminate, ihLeft, ihRight, Cmd.strings, List.map_append, List.mem_append]
    by_cases last : i ∈ right.strings.map Prod.snd
    · simp only [last, if_true, or_true]
    · simp only [last, if_false, or_false]
  | back cmd ih => exact ih

theorem text_cons (low : q < e) (inside : e ≤ line.length) :
    text line (q, e) = line.getD q 0 :: text line (q + 1, e) := by
  have bound : q < line.length := lt_of_lt_of_le low inside
  obtain ⟨n, rfl⟩ := Nat.exists_eq_add_of_lt low
  rw [text, text, List.getD_eq_getElem?_getD, List.getElem?_eq_getElem bound, List.drop_eq_getElem_cons bound]
  have size : q + n + 1 - q = n + 1 := by omega
  have size' : q + n + 1 - (q + 1) = n := by omega
  simp only [size, size', List.take_succ_cons, Option.getD_some]

theorem cstring_text {n : ℕ} (order : q ≤ e) (inside : e ≤ line.length)
    (kept : ∀ i, q ≤ i → i < e → buf i = line.getD i 0 ∧ buf i ≠ 0) (ended : buf e = 0) (room : e < q + n) :
    cstring buf n q = some (text line (q, e)) := by
  induction n generalizing q with
  | zero => omega
  | succ n ih =>
    rcases order.eq_or_lt with rfl | low
    · simp [cstring, ended, text]
    · obtain ⟨same, nonzero⟩ := kept q (Nat.le_refl q) low
      have behind := ih low (fun i above => kept i (by omega)) (by omega)
      rw [cstring, if_neg nonzero, behind, text_cons low inside, same]
      rfl

theorem Words.cstring (terminated : 0 ∉ line) (words : Words line cmd) {string : Span} (member : string ∈ cmd.strings) :
    cstring (nulterminate cmd fun i => line.getD i 0) (line.length + 1) string.1 = some (text line string) := by
  have word := words string member
  refine cstring_text word.order word.inside (fun i low high => ?_) ?_ (by have := word.inside; omega)
  · have bound : i < line.length := lt_of_lt_of_le high word.inside
    -- no string ends inside a word
    have untouched : i ∉ cmd.strings.map Prod.snd := by
      intro ends
      obtain ⟨other, member', rfl⟩ := List.mem_map.mp ends
      exact (words other member').ends bound (word.plain _ low high)
    rw [nulterminate_apply, if_neg untouched]
    refine ⟨rfl, ?_⟩
    rw [List.getD_eq_getElem?_getD, List.getElem?_eq_getElem bound]
    intro zero
    exact terminated (zero ▸ List.getElem_mem bound)
  · rw [nulterminate_apply, if_pos (List.mem_map_of_mem member)]

theorem Cmd.map_eq_map_some {α : Type} {cmd : Cmd α} {f : α → Option Text} {g : α → Text}
    (same : ∀ string ∈ cmd.strings, f string = some (g string)) : cmd.map f = (cmd.map g).map some := by
  induction cmd with
  | exec argv =>
    simp only [map, List.map_map, Cmd.exec.injEq]
    exact List.map_congr_left same
  | redir cmd file mode fd ih =>
    obtain ⟨inner, last⟩ := List.forall_mem_append.mp same
    simp only [map, ih inner, last file (List.mem_singleton_self file)]
  | pipe left right ihLeft ihRight | list left right ihLeft ihRight =>
    obtain ⟨first, second⟩ := List.forall_mem_append.mp same
    simp only [map, ihLeft first, ihRight second]
  | back cmd ih => simp only [map, ih same]

/-! ## The shell accepts its grammar -/

theorem skip_eq_length (rest : Rest line s ts) : skip line s = line.length ↔ ts = [] := by
  constructor
  · intro ended
    rw [← rest.skip.tokens, ended, List.drop_length, tokens]
  · rintro rfl
    have empty := eq_nil_of_tokens head_skip rest.skip.tokens
    exact Nat.le_antisymm rest.skip.inside (List.drop_eq_nil_iff.mp empty)

/-- `parsecmd` ends on every line. It returns where the tokens of the line have a derivation, with the tree of the
only one and each string ended behind its word, and it panics where they have none. -/
theorem parsecmd_accepts_grammar (terminated : 0 ∉ line) {fuel : ℕ} (enough : 4 * line.length + 4 ≤ fuel) :
    (∃ tree cmd buf, parsecmd line fuel = .ok (cmd, buf) ∧
      (∀ other, Derives .line (tokens line) other ↔ other = tree) ∧
      cmd.map (fun string => cstring buf (line.length + 1) string.1) = tree.map some) ∨
    (∃ text, parsecmd line fuel = .error (.panic text) ∧ ∀ tree, ¬ Derives .line (tokens line) tree) := by
  have size := length_tokens_le line
  have start : Rest line 0 (tokens line) := ⟨Nat.zero_le _, rfl⟩
  have meets := (correct terminated fuel).lines (by omega) start
  cases run : parseline line fuel 0 with
  | error e =>
    obtain ⟨finite, rejected⟩ := meets.of_error run
    cases e with
    | endless => exact absurd rfl finite
    | panic text =>
      refine .inr ⟨text, ?_, fun tree derives => rejected tree [] (derives_line.mp derives)⟩
      rw [parsecmd, StateT.run, run]
      rfl
  | ok out =>
    obtain ⟨cmd, s⟩ := out
    obtain ⟨left, rest, words, whole⟩ := meets.of_ok run
    have result : parsecmd line fuel = if skip line s ≠ line.length then .error (.panic "syntax")
        else .ok (cmd, nulterminate cmd fun i => line.getD i 0) := by
      rw [parsecmd, StateT.run, run]
      rfl
    by_cases ended : left = []
    · subst ended
      refine .inl ⟨spell line cmd, cmd, nulterminate cmd fun i => line.getD i 0, ?_, fun other => ?_, ?_⟩
      · rw [result, if_neg (not_not.mpr ((skip_eq_length rest).mpr rfl))]
      · rw [derives_line, whole.unique]
        simp
      · exact Cmd.map_eq_map_some fun string member => words.cstring terminated member
    · refine .inr ⟨"syntax", ?_, fun tree derives => ?_⟩
      · rw [result, if_pos (by rwa [Ne, skip_eq_length rest])]
      · obtain ⟨-, -, none⟩ := (whole.unique _ _).mp (derives_line.mp derives)
        exact ended none.symm

/-- `(a>b;c)|d&` -/
def blockLine : List UInt8 := [40, 97, 62, 98, 59, 99, 41, 124, 100, 38]

theorem parsecmd_accepts_block :
    ∃ tree cmd buf, parsecmd blockLine 44 = .ok (cmd, buf) ∧
      (∀ other, Derives .line (tokens blockLine) other ↔ other = tree) ∧
      cmd.map (fun string => cstring buf 11 string.1) = tree.map some := by
  obtain accepted | ⟨text, failed, -⟩ := parsecmd_accepts_grammar (show 0 ∉ blockLine by decide) (show 44 ≤ 44 by decide)
  · exact accepted
  · have returned : (parsecmd blockLine 44).toBool = true := by decide +kernel
    rw [failed] at returned
    exact absurd returned Bool.false_ne_true

example : ((parsecmd blockLine 44).map fun out => out.1.map fun string => cstring out.2 11 string.1) =
    .ok (.back (.pipe (.list (.redir (.exec [some [97]]) (some [98]) 0x601 1) (.exec [some [99]]))
      (.exec [some [100]]))) := by
  rfl

end OsProjects.Shell
