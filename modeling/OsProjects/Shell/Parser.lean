import OsProjects.Shell.Lexer

namespace OsProjects.Shell
open Hoare

variable {line : List UInt8} {cmd : Cmd Span} {direction : Direction} {t : Token} {ts input : List Token}
  {fuel s : ℕ} {redirs : List Redirection} {file : Span} {e : Stop} {argc : ℕ}

/-! ## Commands of words -/

def Words (line : List UInt8) (cmd : Cmd Span) : Prop :=
  ∀ string ∈ cmd.strings, Word line string

def spell (line : List UInt8) (cmd : Cmd Span) : Cmd Text := cmd.map (text line)

theorem Cmd.map_addArg {α β : Type} (f : α → β) (arg : α) (cmd : Cmd α) :
    (cmd.addArg arg).map f = (cmd.map f).addArg (f arg) := by
  induction cmd with
  | exec argv => simp [addArg, map]
  | redir cmd file mode fd ih => simp [addArg, map, ih]
  | pipe | list | back => rfl

theorem Words.addArg {arg : Span} (words : Words line cmd) (word : Word line arg) : Words line (cmd.addArg arg) := by
  induction cmd with
  | exec argv =>
    intro string member
    rcases List.mem_append.mp member with member | member
    · exact words string member
    · rw [List.mem_singleton.mp member]
      exact word
  | redir cmd file mode fd ih =>
    intro string member
    rcases List.mem_append.mp member with member | member
    · exact ih (fun string member => words string (List.mem_append_left _ member)) string member
    · exact words string (List.mem_append_right _ member)
  | pipe | list | back => exact words

theorem addArg_wrap {arg : Text} {cmd : Cmd Text} : (wrap cmd redirs).addArg arg = wrap (cmd.addArg arg) redirs := by
  induction redirs generalizing cmd with
  | nil => rfl
  | cons redir redirs ih =>
    obtain ⟨direction, file⟩ := redir
    cases direction <;> exact ih

def extend (cmd : Cmd Text) (items : List Item) : Cmd Text :=
  items.foldl (fun cmd item => wrap (cmd.addArg item.arg) item.redirs) cmd

theorem extend_wrap {argv : List Text} {items : List Item} :
    extend (wrap (.exec argv) redirs) items =
      wrap (.exec (argv ++ items.map Item.arg)) (redirs ++ items.flatMap Item.redirs) := by
  induction items generalizing argv redirs with
  | nil => simp [extend]
  | cons item items ih =>
    have first : wrap ((wrap (.exec argv) redirs).addArg item.arg) item.redirs =
        wrap (.exec (argv ++ [item.arg])) (redirs ++ item.redirs) := by
      rw [addArg_wrap]
      exact List.foldl_append.symm
    have step : extend (wrap (.exec argv) redirs) (item :: items) =
        extend (wrap ((wrap (.exec argv) redirs).addArg item.arg) item.redirs) items := rfl
    rw [step, first, ih]
    simp

theorem spell_redircmd :
    spell line (redircmd cmd file direction.token.code) = Redirection.apply (spell line cmd) ⟨direction, text line file⟩ := by
  cases direction <;> rfl

theorem Words.redircmd (words : Words line cmd)
    (word : Word line file) : Words line (redircmd cmd file direction.token.code) := by
  have strings : (Shell.redircmd cmd file direction.token.code).strings = cmd.strings ++ [file] := by
    cases direction <;> rfl
  intro string member
  rw [strings] at member
  rcases List.mem_append.mp member with member | member
  · exact words string member
  · rw [List.mem_singleton.mp member]
    exact word

/-! ## What the tests see -/

theorem peeked_single (single : t.single) : peeked [t.code] ts = true ↔ ts.head? = some t := by
  cases ts with
  | nil => simp [peeked]
  | cons t' ts =>
    cases t' <;> cases t <;> first | exact single.elim | simp [peeked, Token.symbol, Token.code]

theorem peeked_redirs : peeked [60, 62] ts = true ↔ Redirects ts := by
  constructor
  · intro seen
    cases ts with
    | nil => simp [peeked] at seen
    | cons t ts =>
      cases t with
      | lt => exact ⟨.input, rfl⟩
      | gt => exact ⟨.output, rfl⟩
      | gtgt => exact ⟨.append, rfl⟩
      | _ => simp [peeked, Token.symbol, Token.code] at seen
  · rintro ⟨direction, head⟩
    obtain ⟨ts, rfl⟩ := List.head?_eq_some_iff.mp head
    cases direction <;> rfl

theorem peeked_follow : peeked [124, 41, 38, 59] (t :: ts) = true ↔ Follow .exec (t :: ts) := by
  cases t <;> simp [peeked, Token.symbol, Token.code, Nonterminal.follow]

theorem Token.code_eq_word (code : t.code = 97) : ∃ chars, t = .word chars := by
  cases t with
  | word chars => exact ⟨chars, rfl⟩
  | _ => simp [Token.code] at code

/-! ## The loops -/

def NoRedirs (input : List Token) (e : Stop) : Prop :=
  e ≠ .endless ∧ ∀ redirs rest, input = redirTokens redirs ++ rest → Redirects rest

structure Redirected (line : List UInt8) (input : List Token) (cmd : Cmd Text) (redirs : List Redirection)
    (rest : List Token) (cmd' : Cmd Span) (s : ℕ) : Prop where
  split : input = redirTokens redirs ++ rest
  ends : ¬ Redirects rest
  rest : Rest line s rest
  words : Words line cmd'
  spelled : spell line cmd' = wrap cmd redirs

theorem NoRedirs.missing {text : String}
    (missing : ∀ chars ts', ts ≠ .word chars :: ts') : NoRedirs (direction.token :: ts) (.panic text) := by
  refine ⟨by simp, fun redirs rest split => ?_⟩
  cases redirs with
  | nil => exact ⟨direction, by simp [← show _ = rest from split]⟩
  | cons redir redirs =>
    simp only [redirTokens_cons, List.cons_append, List.cons.injEq] at split
    exact absurd split.2 (missing _ _)

theorem NoRedirs.cons {chars : Text} (none : NoRedirs ts e) : NoRedirs (direction.token :: .word chars :: ts) e := by
  refine ⟨none.1, fun redirs rest split => ?_⟩
  cases redirs with
  | nil => exact ⟨direction, by simp [← show _ = rest from split]⟩
  | cons redir redirs =>
    simp only [redirTokens_cons, List.cons_append, List.cons.injEq] at split
    exact none.2 redirs rest split.2.2

theorem parseredirs_spec (terminated : 0 ∉ line)
    (enough : input.length < fuel) (rest : Rest line s input) (words : Words line cmd) :
    wp (NoRedirs input) (parseredirs line fuel cmd)
      (fun cmd' t => ∃ redirs rest, Redirected line input (spell line cmd) redirs rest cmd' t) s := by
  induction fuel generalizing input s cmd with
  | zero => omega
  | succ fuel ih =>
    rw [parseredirs, wp_bind]
    refine (peek_spec rfl rest).mono fun found s' seen => ?_
    obtain ⟨rfl, rest, -⟩ := seen
    by_cases redirects : Redirects input
    · rw [if_pos (peeked_redirs.mpr redirects)]
      obtain ⟨direction, head⟩ := redirects
      obtain ⟨ts, rfl⟩ := List.head?_eq_some_iff.mp head
      rw [wp_bind]
      refine (gettoken_spec terminated rest).mono fun out s'' reads => ?_
      obtain ⟨tok, q⟩ := out
      obtain ⟨rfl, rest, -⟩ := reads
      simp only [wp_bind]
      cases ts with
      | nil =>
        refine (gettoken_end rest).mono fun out s'' reads => ?_
        obtain ⟨kind, file⟩ := out
        obtain ⟨rfl, -⟩ := reads
        exact NoRedirs.missing (by simp)
      | cons t ts =>
        refine (gettoken_spec terminated rest).mono fun out s'' reads => ?_
        obtain ⟨kind, file⟩ := out
        obtain ⟨code, behind, word⟩ := reads
        simp only at code word ⊢
        by_cases isWord : kind = 97
        · obtain ⟨chars, rfl⟩ := Token.code_eq_word (code.symm.trans isWord)
          obtain ⟨run, rfl⟩ := word chars rfl
          rw [if_neg (not_not.mpr isWord)]
          have fewer : ts.length < fuel := by
            simp only [List.length_cons] at enough
            omega
          have grown : Words line (redircmd cmd file direction.token.code) := words.redircmd run
          refine (ih fewer behind grown).imp (fun e => NoRedirs.cons) fun cmd' t after => ?_
          obtain ⟨redirs, left, split, ends, rest, words, spelled⟩ := after
          refine ⟨⟨direction, text line file⟩ :: redirs, left, ?_, ends, rest, words, ?_⟩
          · rw [split]
            rfl
          · rw [spelled, spell_redircmd]
            rfl
        · rw [if_pos isWord]
          refine NoRedirs.missing ?_
          rintro chars ts' ⟨⟩
          exact isWord code
    · rw [if_neg (by rwa [peeked_redirs])]
      exact ⟨[], input, rfl, redirects, rest, words, rfl⟩

def NoItems (argc : ℕ) (input : List Token) (e : Stop) : Prop :=
  e ≠ .endless ∧ ∀ items rest, input = itemTokens items ++ rest → Follow .exec rest → MAXARGS ≤ argc + items.length

structure Extended (line : List UInt8) (argc : ℕ) (input : List Token) (cmd : Cmd Text) (items : List Item)
    (rest : List Token) (cmd' : Cmd Span) (s : ℕ) : Prop where
  split : input = itemTokens items ++ rest
  follow : Follow .exec rest
  few : argc + items.length < MAXARGS
  rest : Rest line s rest
  words : Words line cmd'
  spelled : spell line cmd' = extend cmd items

theorem noItems_of_token (stopped : e ≠ .endless) (stuck : ¬ Follow .exec (t :: ts))
    (bad : ∀ chars items redirs rest, t = .word chars → ts = redirTokens redirs ++ (itemTokens items ++ rest) →
      Follow .exec rest → MAXARGS ≤ argc + 1 + items.length) : NoItems argc (t :: ts) e := by
  refine ⟨stopped, fun items rest split follow => ?_⟩
  cases items with
  | nil => exact absurd (show Follow .exec (t :: ts) from split ▸ follow) stuck
  | cons item items =>
    simp only [itemTokens_cons, List.cons_append, List.append_assoc, List.cons.injEq] at split
    have many := bad item.arg items item.redirs rest split.1 split.2 follow
    rw [List.length_cons]
    omega

theorem parseargs_spec (terminated : 0 ∉ line) {ret : Cmd Span}
    (enough : input.length < fuel) (room : argc < MAXARGS) (start : ¬ Redirects input) (rest : Rest line s input)
    (words : Words line ret) :
    wp (NoItems argc input) (parseargs line fuel argc ret)
      (fun ret' t => ∃ items rest, Extended line argc input (spell line ret) items rest ret' t) s := by
  induction fuel generalizing input s argc ret with
  | zero => omega
  | succ fuel ih =>
    rw [parseargs, wp_bind]
    refine (peek_spec rfl rest).mono fun found s' seen => ?_
    obtain ⟨rfl, rest, -⟩ := seen
    cases input with
    | nil =>
      simp only [peeked, Bool.false_eq_true, if_false, wp_bind]
      refine (gettoken_end rest).mono fun out s'' reads => ?_
      obtain ⟨tok, arg⟩ := out
      obtain ⟨rfl, rest⟩ := reads
      exact ⟨[], [], rfl, follow_nil, room, rest, words, rfl⟩
    | cons t ts =>
      by_cases follow : Follow .exec (t :: ts)
      · rw [if_pos (peeked_follow.mpr follow)]
        exact ⟨[], t :: ts, rfl, follow, room, rest, words, rfl⟩
      rw [if_neg (by rwa [peeked_follow]), wp_bind]
      refine (gettoken_spec terminated rest).mono fun out s'' reads => ?_
      obtain ⟨tok, arg⟩ := out
      obtain ⟨code, behind, word⟩ := reads
      simp only at code word ⊢
      subst code
      rw [if_neg (by cases t <;> simp [Token.code])]
      by_cases isWord : t.code = 97
      · obtain ⟨chars, rfl⟩ := Token.code_eq_word isWord
        obtain ⟨run, rfl⟩ := word chars rfl
        rw [if_neg (not_not.mpr isWord)]
        by_cases full : MAXARGS ≤ argc + 1
        · rw [if_pos full]
          refine noItems_of_token (by simp) follow fun _ items _ _ _ _ _ => ?_
          omega
        rw [if_neg full, wp_bind]
        have fewer : ts.length < fuel := by
          simp only [List.length_cons] at enough
          omega
        refine (parseredirs_spec terminated fewer behind (words.addArg run)).imp (fun e none => ?_)
          fun ret' u after => ?_
        · refine noItems_of_token none.1 follow fun _ items redirs left _ split followed => ?_
          exact absurd (none.2 redirs _ split) (not_redirects_itemTokens followed)
        obtain ⟨redirs, mid, split, ends, rest, words, spelled⟩ := after
        have shorter : mid.length < fuel := by
          rw [split, List.length_append] at fewer
          omega
        refine (ih shorter (by omega) ends rest words).imp (fun e none => ?_) fun ret'' t after => ?_
        · refine noItems_of_token none.1 follow fun _ items redirs' left _ split' followed => ?_
          obtain ⟨rfl, same⟩ := redirTokens_inj (split.symm.trans split') ends (not_redirects_itemTokens followed)
          exact none.2 items left same followed
        obtain ⟨items, left, split', followed, few, rest, words, spelled'⟩ := after
        refine ⟨⟨text line arg, redirs⟩ :: items, left, ?_, followed, ?_, rest, words, ?_⟩
        · simp [split, split']
        · rw [List.length_cons]
          omega
        · rw [spelled', spelled, spell, Cmd.map_addArg]
          rfl
      · rw [if_pos isWord]
        refine noItems_of_token (by simp) follow ?_
        rintro chars items redirs left rfl
        exact absurd rfl isWord

structure Backed (line : List UInt8) (input : List Token) (cmd : Cmd Text) (k : ℕ) (rest : List Token)
    (cmd' : Cmd Span) (s : ℕ) : Prop where
  split : input = List.replicate k .amp ++ rest
  ends : rest.head? ≠ some .amp
  rest : Rest line s rest
  words : Words line cmd'
  spelled : spell line cmd' = Cmd.back^[k] cmd

theorem parseback_spec (terminated : 0 ∉ line) {E : Stop → Prop}
    (enough : input.length < fuel) (rest : Rest line s input) (words : Words line cmd) :
    wp E (parseback line fuel cmd) (fun cmd' t => ∃ k rest, Backed line input (spell line cmd) k rest cmd' t) s := by
  induction fuel generalizing input s cmd with
  | zero => omega
  | succ fuel ih =>
    rw [parseback, wp_bind]
    refine (peek_spec rfl rest).mono fun found s' seen => ?_
    obtain ⟨rfl, rest, -⟩ := seen
    have seen : peeked [38] input = true ↔ input.head? = some .amp := peeked_single (t := .amp) trivial
    by_cases back : input.head? = some .amp
    · rw [if_pos (seen.mpr back), wp_bind]
      obtain ⟨ts, rfl⟩ := List.head?_eq_some_iff.mp back
      refine (gettoken_spec terminated rest).mono fun out s'' reads => ?_
      have fewer : ts.length < fuel := by
        simp only [List.length_cons] at enough
        omega
      refine (ih fewer reads.rest (show Words line (.back cmd) from words)).mono fun cmd' t after => ?_
      obtain ⟨k, left, split, ends, rest, words, spelled⟩ := after
      refine ⟨k + 1, left, ?_, ends, rest, words, spelled⟩
      rw [split, List.replicate_succ, List.cons_append]
    · rw [if_neg (by rwa [seen])]
      exact ⟨0, input, rfl, back, rest, words, rfl⟩

end OsProjects.Shell
