import OsProjects.Shell.Model
import Mathlib.Data.List.Infix
import Mathlib.Logic.Function.Iterate

namespace OsProjects.Shell

/-! ## The tokens of a line -/

abbrev Text := List UInt8

inductive Token
  | bar
  | lparen
  | rparen
  | semi
  | amp
  | lt
  | gt
  | gtgt
  | word (text : Text)
  deriving DecidableEq

def tokens : List UInt8 → List Token
  | [] => []
  | c :: cs =>
    if isSpace c then tokens cs
    else if c = 124 then .bar :: tokens cs
    else if c = 40 then .lparen :: tokens cs
    else if c = 41 then .rparen :: tokens cs
    else if c = 59 then .semi :: tokens cs
    else if c = 38 then .amp :: tokens cs
    else if c = 60 then .lt :: tokens cs
    else if c = 62 then
      if cs.head? = some 62 then .gtgt :: tokens cs.tail else .gt :: tokens cs
    else .word (c :: cs.takeWhile isPlain) :: tokens (cs.dropWhile isPlain)
  termination_by line => line.length
  decreasing_by
    all_goals simp only [List.length_cons, List.length_tail]
    any_goals omega
    exact Nat.lt_succ_of_le (List.dropWhile_suffix isPlain).length_le

/-! ## The grammar -/

inductive Direction
  | input
  | output
  | append

structure Redirection where
  direction : Direction
  file : Text

def Direction.token : Direction → Token
  | .input => .lt
  | .output => .gt
  | .append => .gtgt

def Redirection.tokens (redir : Redirection) : List Token :=
  [redir.direction.token, .word redir.file]

def Redirection.apply (cmd : Cmd Text) (redir : Redirection) : Cmd Text :=
  match redir.direction with
  | .input => .redir cmd redir.file O_RDONLY 0
  | .output => .redir cmd redir.file (O_WRONLY ||| O_CREATE ||| O_TRUNC) 1
  | .append => .redir cmd redir.file (O_WRONLY ||| O_CREATE) 1

def wrap (cmd : Cmd Text) (redirs : List Redirection) : Cmd Text :=
  redirs.foldl Redirection.apply cmd

def redirTokens (redirs : List Redirection) : List Token :=
  redirs.flatMap Redirection.tokens

structure Item where
  arg : Text
  redirs : List Redirection

def itemTokens (items : List Item) : List Token :=
  items.flatMap fun item => .word item.arg :: redirTokens item.redirs

inductive Nonterminal
  | line
  | pipe
  | exec

inductive Derives : Nonterminal → List Token → Cmd Text → Prop
  | last {ts : List Token} {cmd : Cmd Text} (k : ℕ) :
      Derives .pipe ts cmd → Derives .line (ts ++ List.replicate k .amp) (Cmd.back^[k] cmd)
  | next {ts ts' : List Token} {cmd cmd' : Cmd Text} (k : ℕ) :
      Derives .pipe ts cmd → Derives .line ts' cmd' →
      Derives .line (ts ++ List.replicate k .amp ++ .semi :: ts') (.list (Cmd.back^[k] cmd) cmd')
  | alone {ts : List Token} {cmd : Cmd Text} :
      Derives .exec ts cmd → Derives .pipe ts cmd
  | piped {ts ts' : List Token} {cmd cmd' : Cmd Text} :
      Derives .exec ts cmd → Derives .pipe ts' cmd' → Derives .pipe (ts ++ .bar :: ts') (.pipe cmd cmd')
  | block {ts : List Token} {cmd : Cmd Text} (redirs : List Redirection) :
      Derives .line ts cmd →
      Derives .exec (.lparen :: ts ++ .rparen :: redirTokens redirs) (wrap cmd redirs)
  | simple (redirs : List Redirection) (items : List Item) : items.length ≤ MAXARGS - 1 →
      Derives .exec (redirTokens redirs ++ itemTokens items)
        (wrap (.exec (items.map Item.arg)) (redirs ++ items.flatMap Item.redirs))

/-! ## What may follow -/

def Nonterminal.follow : Nonterminal → List Token
  | .line => [.rparen]
  | .pipe => [.rparen, .amp, .semi]
  | .exec => [.rparen, .amp, .semi, .bar]

def Follow (symbol : Nonterminal) (rest : List Token) : Prop :=
  ∀ t, rest.head? = some t → t ∈ symbol.follow

@[simp]
theorem follow_nil {symbol : Nonterminal} : Follow symbol [] := by
  simp [Follow]

variable {rest rest' input mid : List Token} {redirs : List Redirection} {items : List Item} {k : ℕ}
  {tree : Cmd Text}

@[simp]
theorem follow_cons {symbol : Nonterminal} {t : Token} : Follow symbol (t :: rest) ↔ t ∈ symbol.follow := by
  simp [Follow]

theorem Follow.pipe_of_line (follow : Follow .line rest) : Follow .pipe rest := by
  intro t head
  have member := follow t head
  simp_all [Nonterminal.follow]

theorem Follow.exec_of_pipe (follow : Follow .pipe rest) : Follow .exec rest := by
  intro t head
  have member := follow t head
  simp only [Nonterminal.follow, List.mem_cons] at member ⊢
  tauto

def Redirects (ts : List Token) : Prop :=
  ∃ direction : Direction, ts.head? = some direction.token

theorem Follow.replicate_amp (k : ℕ) (follow : Follow .pipe rest) : Follow .pipe (List.replicate k .amp ++ rest) := by
  cases k with
  | zero => exact follow
  | succ k => simp [List.replicate_succ, Nonterminal.follow]

theorem Follow.not_redirects (follow : Follow .exec rest) : ¬ Redirects rest := by
  rintro ⟨direction, head⟩
  have member := follow _ head
  cases direction <;> simp [Nonterminal.follow, Direction.token] at member

theorem Follow.not_word {text : Text} : ¬ Follow .exec (.word text :: rest) := by
  simp [Nonterminal.follow]

/-! ## Lists of redirections and items are read in one way only -/

@[simp]
theorem redirTokens_nil : redirTokens [] = [] := rfl

@[simp]
theorem redirTokens_cons {redir : Redirection} :
    redirTokens (redir :: redirs) = redir.direction.token :: .word redir.file :: redirTokens redirs := rfl

@[simp]
theorem itemTokens_nil : itemTokens [] = [] := rfl

@[simp]
theorem itemTokens_cons {item : Item} :
    itemTokens (item :: items) = .word item.arg :: (redirTokens item.redirs ++ itemTokens items) := rfl

theorem Direction.token_inj {a b : Direction} (same : a.token = b.token) : a = b := by
  cases a <;> cases b <;> simp_all [Direction.token]

theorem redirTokens_inj {redirs' : List Redirection}
    (same : redirTokens redirs ++ rest = redirTokens redirs' ++ rest') (ends : ¬ Redirects rest)
    (ends' : ¬ Redirects rest') : redirs = redirs' ∧ rest = rest' := by
  induction redirs generalizing redirs' with
  | nil =>
    cases redirs' with
    | nil => exact ⟨rfl, same⟩
    | cons redir' redirs' =>
      refine absurd ⟨redir'.direction, ?_⟩ ends
      simp only [redirTokens_nil, List.nil_append] at same
      simp [same]
  | cons redir redirs ih =>
    cases redirs' with
    | nil =>
      refine absurd ⟨redir.direction, ?_⟩ ends'
      simp only [redirTokens_nil, List.nil_append] at same
      simp [← same]
    | cons redir' redirs' =>
      simp only [redirTokens_cons, List.cons_append, List.cons.injEq, Token.word.injEq] at same
      obtain ⟨direction, file, same⟩ := same
      obtain ⟨redirsEq, restEq⟩ := ih same
      refine ⟨?_, restEq⟩
      rw [redirsEq]
      cases redir
      cases redir'
      cases Direction.token_inj direction
      cases file
      rfl

theorem not_redirects_itemTokens (follow : Follow .exec rest) : ¬ Redirects (itemTokens items ++ rest) := by
  cases items with
  | nil => exact follow.not_redirects
  | cons item items =>
    rintro ⟨direction, head⟩
    cases direction <;> simp [Direction.token] at head

theorem itemTokens_inj {items' : List Item}
    (same : itemTokens items ++ rest = itemTokens items' ++ rest') (follow : Follow .exec rest)
    (follow' : Follow .exec rest') : items = items' ∧ rest = rest' := by
  induction items generalizing items' with
  | nil =>
    cases items' with
    | nil => exact ⟨rfl, same⟩
    | cons item' items' =>
      simp only [itemTokens_nil, itemTokens_cons, List.nil_append, List.cons_append] at same
      exact absurd (same ▸ follow) Follow.not_word
  | cons item items ih =>
    cases items' with
    | nil =>
      simp only [itemTokens_nil, itemTokens_cons, List.nil_append, List.cons_append] at same
      exact absurd (same ▸ follow') Follow.not_word
    | cons item' items' =>
      simp only [itemTokens_cons, List.cons_append, List.append_assoc, List.cons.injEq,
        Token.word.injEq] at same
      obtain ⟨arg, same⟩ := same
      obtain ⟨redirsEq, same⟩ := redirTokens_inj same (not_redirects_itemTokens follow)
        (not_redirects_itemTokens follow')
      obtain ⟨itemsEq, restEq⟩ := ih same
      refine ⟨?_, restEq⟩
      rw [itemsEq]
      cases item
      cases item'
      cases arg
      cases redirsEq
      rfl

theorem replicate_amp_inj {k' : ℕ} (same : List.replicate k Token.amp ++ rest = List.replicate k' Token.amp ++ rest')
    (ends : rest.head? ≠ some .amp) (ends' : rest'.head? ≠ some .amp) : k = k' ∧ rest = rest' := by
  induction k generalizing k' with
  | zero =>
    cases k' with
    | zero => exact ⟨rfl, same⟩
    | succ k' =>
      simp only [List.replicate_zero, List.nil_append, List.replicate_succ, List.cons_append] at same
      simp [same] at ends
  | succ k ih =>
    cases k' with
    | zero =>
      simp only [List.replicate_zero, List.nil_append, List.replicate_succ, List.cons_append] at same
      simp [← same] at ends'
    | succ k' =>
      simp only [List.replicate_succ, List.cons_append, List.cons.injEq, true_and] at same
      obtain ⟨countEq, restEq⟩ := ih same
      exact ⟨congrArg (· + 1) countEq, restEq⟩

/-! ## Parses -/

def Parses (symbol : Nonterminal) (input : List Token) (tree : Cmd Text) (rest : List Token) : Prop :=
  ∃ ts, input = ts ++ rest ∧ Derives symbol ts tree ∧ Follow symbol rest

def Rejected (symbol : Nonterminal) (input : List Token) : Prop :=
  ∀ tree rest, ¬ Parses symbol input tree rest

structure Exact (symbol : Nonterminal) (input : List Token) (tree : Cmd Text) (rest : List Token) : Prop where
  suffix : rest <:+ input
  unique : ∀ tree' rest', Parses symbol input tree' rest' ↔ Follow symbol rest ∧ tree' = tree ∧ rest' = rest

theorem parses_pipe :
    Parses .pipe input tree rest ↔
      Follow .pipe rest ∧ (Parses .exec input tree rest ∨
        ∃ cmd cmd' mid, Parses .exec input cmd (.bar :: mid) ∧ Parses .pipe mid cmd' rest ∧ tree = .pipe cmd cmd') := by
  constructor
  · rintro ⟨ts, rfl, derives, follow⟩
    refine ⟨follow, ?_⟩
    cases derives with
    | alone exec => exact .inl ⟨ts, rfl, exec, follow.exec_of_pipe⟩
    | @piped ts ts' cmd cmd' exec pipe =>
      refine .inr ⟨cmd, cmd', ts' ++ rest, ⟨ts, ?_, exec, by simp [Nonterminal.follow]⟩, ⟨ts', rfl, pipe, follow⟩, rfl⟩
      simp
  · rintro ⟨follow, ⟨ts, split, exec, -⟩ | ⟨cmd, cmd', mid, ⟨ts, split, exec, -⟩, ⟨ts', split', pipe, -⟩, rfl⟩⟩
    · exact ⟨ts, split, .alone exec, follow⟩
    · refine ⟨ts ++ .bar :: ts', ?_, .piped exec pipe, follow⟩
      simp [split, split']

theorem parses_line :
    Parses .line input tree rest ↔
      Follow .line rest ∧ ∃ k cmd, (Parses .pipe input cmd (List.replicate k .amp ++ rest) ∧ tree = Cmd.back^[k] cmd) ∨
        ∃ cmd' mid, Parses .pipe input cmd (List.replicate k .amp ++ .semi :: mid) ∧
          Parses .line mid cmd' rest ∧ tree = .list (Cmd.back^[k] cmd) cmd' := by
  constructor
  · rintro ⟨ts, rfl, derives, follow⟩
    refine ⟨follow, ?_⟩
    cases derives with
    | @last ts cmd k pipe =>
      refine ⟨k, cmd, .inl ⟨⟨ts, ?_, pipe, follow.pipe_of_line.replicate_amp k⟩, rfl⟩⟩
      simp
    | @next ts ts' cmd cmd' k pipe line =>
      refine ⟨k, cmd, .inr ⟨cmd', ts' ++ rest, ⟨ts, ?_, pipe, Follow.replicate_amp k (by simp [Nonterminal.follow])⟩,
        ⟨ts', rfl, line, follow⟩, rfl⟩⟩
      simp
  · rintro ⟨follow, k, cmd, ⟨⟨ts, split, pipe, -⟩, rfl⟩ |
      ⟨cmd', mid, ⟨ts, split, pipe, -⟩, ⟨ts', split', line, -⟩, rfl⟩⟩
    · refine ⟨ts ++ List.replicate k .amp, ?_, .last k pipe, follow⟩
      simp [split]
    · refine ⟨ts ++ List.replicate k .amp ++ .semi :: ts', ?_, .next k pipe line, follow⟩
      simp [split, split']

theorem parses_block :
    Parses .exec (.lparen :: input) tree rest ↔
      Follow .exec rest ∧ ∃ cmd redirs, Parses .line input cmd (.rparen :: (redirTokens redirs ++ rest)) ∧
        tree = wrap cmd redirs := by
  constructor
  · rintro ⟨ts, split, derives, follow⟩
    refine ⟨follow, ?_⟩
    cases derives with
    | @block ts cmd redirs line =>
      simp only [List.cons_append, List.append_assoc, List.cons.injEq, true_and] at split
      exact ⟨cmd, redirs, ⟨ts, split, line, by simp [Nonterminal.follow]⟩, rfl⟩
    | simple redirs items few =>
      -- neither a redirection nor a word begins with a parenthesis
      exfalso
      cases redirs with
      | cons redir redirs =>
        obtain ⟨direction, file⟩ := redir
        cases direction <;> simp [Direction.token] at split
      | nil =>
        cases items with
        | cons item items => simp at split
        | nil =>
          simp only [redirTokens_nil, itemTokens_nil, List.nil_append] at split
          rw [← split] at follow
          simp [Nonterminal.follow] at follow
  · rintro ⟨follow, cmd, redirs, ⟨ts, split, line, -⟩, rfl⟩
    refine ⟨.lparen :: ts ++ .rparen :: redirTokens redirs, ?_, .block redirs line, follow⟩
    simp [split]

theorem parses_simple (start : input.head? ≠ some .lparen) :
    Parses .exec input tree rest ↔
      Follow .exec rest ∧ ∃ redirs items, input = redirTokens redirs ++ (itemTokens items ++ rest) ∧
        items.length ≤ MAXARGS - 1 ∧
        tree = wrap (.exec (items.map Item.arg)) (redirs ++ items.flatMap Item.redirs) := by
  constructor
  · rintro ⟨ts, rfl, derives, follow⟩
    refine ⟨follow, ?_⟩
    cases derives with
    | block redirs line => simp at start
    | simple redirs items few =>
      refine ⟨redirs, items, ?_, few, rfl⟩
      rw [List.append_assoc]
  · rintro ⟨follow, redirs, items, split, few, rfl⟩
    refine ⟨redirTokens redirs ++ itemTokens items, ?_, .simple redirs items few, follow⟩
    rw [split, List.append_assoc]

theorem derives_line : Derives .line input tree ↔ Parses .line input tree [] := by
  constructor
  · intro derives
    exact ⟨input, (List.append_nil input).symm, derives, follow_nil⟩
  · rintro ⟨ts, split, derives, -⟩
    rw [split, List.append_nil]
    exact derives

/-! ## Exact parses are composed from exact parses -/

theorem Exact.alone (exec : Exact .exec input tree rest)
    (ends : rest.head? ≠ some .bar) : Exact .pipe input tree rest := by
  refine ⟨exec.suffix, fun tree' rest' => ?_⟩
  rw [parses_pipe]
  constructor
  · rintro ⟨follow, parse | ⟨cmd, cmd', mid, parse, -, -⟩⟩
    · obtain ⟨-, rfl, rfl⟩ := (exec.unique _ _).mp parse
      exact ⟨follow, rfl, rfl⟩
    · obtain ⟨-, -, rfl⟩ := (exec.unique _ _).mp parse
      exact absurd rfl ends
  · rintro ⟨follow, rfl, rfl⟩
    exact ⟨follow, .inl ((exec.unique _ _).mpr ⟨follow.exec_of_pipe, rfl, rfl⟩)⟩

theorem Exact.piped {tree' : Cmd Text} (exec : Exact .exec input tree (.bar :: mid))
    (pipe : Exact .pipe mid tree' rest) : Exact .pipe input (.pipe tree tree') rest := by
  refine ⟨pipe.suffix.trans ((List.suffix_cons _ _).trans exec.suffix), fun other rest' => ?_⟩
  rw [parses_pipe]
  constructor
  · rintro ⟨follow, parse | ⟨cmd, cmd', mid', parse, parse', rfl⟩⟩
    · obtain ⟨-, -, rfl⟩ := (exec.unique _ _).mp parse
      simp [Nonterminal.follow] at follow
    · obtain ⟨-, rfl, same⟩ := (exec.unique _ _).mp parse
      cases same
      obtain ⟨follow, rfl, rfl⟩ := (pipe.unique _ _).mp parse'
      exact ⟨follow, rfl, rfl⟩
  · rintro ⟨follow, rfl, rfl⟩
    refine ⟨follow, .inr ⟨tree, tree', mid, (exec.unique _ _).mpr ⟨?_, rfl, rfl⟩,
      (pipe.unique _ _).mpr ⟨follow, rfl, rfl⟩, rfl⟩⟩
    simp [Nonterminal.follow]

theorem Rejected.pipe (exec : Rejected .exec input) : Rejected .pipe input := by
  intro tree rest parse
  obtain ⟨-, parse | ⟨cmd, cmd', mid, parse, -, -⟩⟩ := parses_pipe.mp parse
  · exact exec _ _ parse
  · exact exec _ _ parse

theorem Exact.rejected_piped (exec : Exact .exec input tree (.bar :: mid))
    (pipe : Rejected .pipe mid) : Rejected .pipe input := by
  intro other rest parse
  obtain ⟨follow, parse | ⟨cmd, cmd', mid', parse, parse', -⟩⟩ := parses_pipe.mp parse
  · obtain ⟨-, -, rfl⟩ := (exec.unique _ _).mp parse
    simp [Nonterminal.follow] at follow
  · obtain ⟨-, -, same⟩ := (exec.unique _ _).mp parse
    cases same
    exact pipe _ _ parse'

theorem Follow.head_ne_amp (follow : Follow .line rest) : rest.head? ≠ some .amp := by
  intro head
  have member := follow _ head
  simp [Nonterminal.follow] at member

theorem Exact.parses_line {other : Cmd Text}
    (pipe : Exact .pipe input tree (List.replicate k .amp ++ mid)) (ends : mid.head? ≠ some .amp) :
    Parses .line input other rest ↔ Follow .line rest ∧ ((rest = mid ∧ other = Cmd.back^[k] tree) ∨
      ∃ cmd' mid', mid = .semi :: mid' ∧ Parses .line mid' cmd' rest ∧ other = .list (Cmd.back^[k] tree) cmd') := by
  rw [Shell.parses_line]
  constructor
  · rintro ⟨follow, k', cmd, ⟨parse, rfl⟩ | ⟨cmd', mid', parse, line, rfl⟩⟩
    · obtain ⟨-, rfl, same⟩ := (pipe.unique _ _).mp parse
      obtain ⟨rfl, rfl⟩ := replicate_amp_inj same follow.head_ne_amp ends
      exact ⟨follow, .inl ⟨rfl, rfl⟩⟩
    · obtain ⟨-, rfl, same⟩ := (pipe.unique _ _).mp parse
      obtain ⟨rfl, rfl⟩ := replicate_amp_inj same (by simp) ends
      exact ⟨follow, .inr ⟨cmd', mid', rfl, line, rfl⟩⟩
  · rintro ⟨follow, ⟨rfl, rfl⟩ | ⟨cmd', mid', rfl, line, rfl⟩⟩
    · refine ⟨follow, k, tree, .inl ⟨(pipe.unique _ _).mpr ⟨?_, rfl, rfl⟩, rfl⟩⟩
      exact follow.pipe_of_line.replicate_amp k
    · refine ⟨follow, k, tree, .inr ⟨cmd', mid', (pipe.unique _ _).mpr ⟨?_, rfl, rfl⟩, line, rfl⟩⟩
      refine Follow.replicate_amp k ?_
      simp [Nonterminal.follow]

theorem Exact.last (pipe : Exact .pipe input tree (List.replicate k .amp ++ mid)) (ends : mid.head? ≠ some .amp)
    (final : mid.head? ≠ some .semi) : Exact .line input (Cmd.back^[k] tree) mid := by
  refine ⟨(List.suffix_append _ _).trans pipe.suffix, fun other rest => ?_⟩
  rw [pipe.parses_line ends]
  constructor
  · rintro ⟨follow, ⟨rfl, rfl⟩ | ⟨cmd', mid', rfl, -, -⟩⟩
    · exact ⟨follow, rfl, rfl⟩
    · exact absurd rfl final
  · rintro ⟨follow, rfl, rfl⟩
    exact ⟨follow, .inl ⟨rfl, rfl⟩⟩

theorem Exact.next {tree' : Cmd Text}
    (pipe : Exact .pipe input tree (List.replicate k .amp ++ .semi :: mid)) (line : Exact .line mid tree' rest) :
    Exact .line input (.list (Cmd.back^[k] tree) tree') rest := by
  refine ⟨line.suffix.trans ((List.suffix_cons _ _).trans ((List.suffix_append _ _).trans pipe.suffix)),
    fun other rest' => ?_⟩
  rw [pipe.parses_line (by simp)]
  constructor
  · rintro ⟨follow, ⟨rfl, -⟩ | ⟨cmd', mid', same, parse, rfl⟩⟩
    · simp [Nonterminal.follow] at follow
    · cases same
      obtain ⟨follow', rfl, rfl⟩ := (line.unique _ _).mp parse
      exact ⟨follow', rfl, rfl⟩
  · rintro ⟨follow, rfl, rfl⟩
    exact ⟨follow, .inr ⟨tree', mid, rfl, (line.unique _ _).mpr ⟨follow, rfl, rfl⟩, rfl⟩⟩

theorem Rejected.line (pipe : Rejected .pipe input) : Rejected .line input := by
  intro tree rest parse
  obtain ⟨-, k, cmd, ⟨parse, -⟩ | ⟨cmd', mid, parse, -, -⟩⟩ := parses_line.mp parse
  · exact pipe _ _ parse
  · exact pipe _ _ parse

theorem Exact.rejected_next
    (pipe : Exact .pipe input tree (List.replicate k .amp ++ .semi :: mid)) (line : Rejected .line mid) :
    Rejected .line input := by
  intro other rest parse
  obtain ⟨follow, ⟨rfl, -⟩ | ⟨cmd', mid', same, parse, -⟩⟩ := (pipe.parses_line (by simp)).mp parse
  · simp [Nonterminal.follow] at follow
  · cases same
    exact line _ _ parse

theorem Exact.block
    (line : Exact .line input tree (.rparen :: (redirTokens redirs ++ rest))) (ends : ¬ Redirects rest) :
    Exact .exec (.lparen :: input) (wrap tree redirs) rest := by
  refine ⟨?_, fun other rest' => ?_⟩
  · have inner := (List.suffix_append (redirTokens redirs) rest).trans (List.suffix_cons .rparen _)
    exact inner.trans (line.suffix.trans (List.suffix_cons _ _))
  rw [parses_block]
  constructor
  · rintro ⟨follow, cmd, redirs', parse, rfl⟩
    obtain ⟨-, rfl, same⟩ := (line.unique _ _).mp parse
    simp only [List.cons.injEq, true_and] at same
    obtain ⟨rfl, rfl⟩ := redirTokens_inj same follow.not_redirects ends
    exact ⟨follow, rfl, rfl⟩
  · rintro ⟨follow, rfl, rfl⟩
    refine ⟨follow, tree, redirs, (line.unique _ _).mpr ⟨?_, rfl, rfl⟩, rfl⟩
    simp [Nonterminal.follow]

theorem rejected_block
    (bad : ∀ cmd redirs rest, Follow .exec rest → ¬ Parses .line input cmd (.rparen :: (redirTokens redirs ++ rest))) :
    Rejected .exec (.lparen :: input) := by
  intro tree rest parse
  obtain ⟨follow, cmd, redirs, parse, -⟩ := parses_block.mp parse
  exact bad cmd redirs rest follow parse

theorem exact_simple
    (start : input.head? ≠ some .lparen) (split : input = redirTokens redirs ++ (itemTokens items ++ rest))
    (follow : Follow .exec rest) (few : items.length ≤ MAXARGS - 1) :
    Exact .exec input (wrap (.exec (items.map Item.arg)) (redirs ++ items.flatMap Item.redirs)) rest := by
  refine ⟨?_, fun other rest' => ?_⟩
  · rw [split]
    exact (List.suffix_append _ _).trans (List.suffix_append _ _)
  rw [parses_simple start]
  constructor
  · rintro ⟨follow', redirs', items', split', -, rfl⟩
    obtain ⟨rfl, same⟩ := redirTokens_inj (split.symm.trans split') (not_redirects_itemTokens follow)
      (not_redirects_itemTokens follow')
    obtain ⟨rfl, rfl⟩ := itemTokens_inj same follow follow'
    exact ⟨follow, rfl, rfl⟩
  · rintro ⟨-, rfl, rfl⟩
    exact ⟨follow, redirs, items, split, few, rfl⟩

end OsProjects.Shell
