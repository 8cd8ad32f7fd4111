import OsProjects.Shell.Grammar
import OsProjects.Hoare.Wp
import Mathlib.Data.List.TakeWhile

namespace OsProjects.Shell
open Hoare

/-! ## Positions and the tokens behind them -/

structure Rest (line : List UInt8) (s : ℕ) (ts : List Token) : Prop where
  inside : s ≤ line.length
  tokens : tokens (line.drop s) = ts

structure Word (line : List UInt8) (string : Span) : Prop where
  order : string.1 ≤ string.2
  inside : string.2 ≤ line.length
  plain : ∀ i, string.1 ≤ i → i < string.2 → isPlain (line.getD i 0)
  ends : string.2 < line.length → ¬ isPlain (line.getD string.2 0)

def text (line : List UInt8) (string : Span) : Text :=
  (line.drop string.1).take (string.2 - string.1)

def Token.code : Token → UInt8
  | .bar => 124
  | .lparen => 40
  | .rparen => 41
  | .semi => 59
  | .amp => 38
  | .lt => 60
  | .gt => 62
  | .gtgt => 43
  | .word _ => 97

def Token.symbol : Token → Option UInt8
  | .gtgt => some 62
  | .word _ => none
  | t => some t.code

def peeked (toks : List UInt8) : List Token → Bool
  | [] => false
  | t :: _ => t.symbol.any (· ∈ toks)

/-! ## Runs of characters -/

theorem drop_add_takeWhile {line : List UInt8} {s : ℕ} (p : UInt8 → Bool) :
    line.drop (s + ((line.drop s).takeWhile p).length) = (line.drop s).dropWhile p := by
  rw [← List.drop_drop]
  have split := List.takeWhile_append_dropWhile (p := p) (l := line.drop s)
  calc (line.drop s).drop ((line.drop s).takeWhile p).length
      = ((line.drop s).takeWhile p ++ (line.drop s).dropWhile p).drop ((line.drop s).takeWhile p).length := by
        rw [split]
    _ = (line.drop s).dropWhile p := List.drop_left

theorem add_takeWhile_le {line : List UInt8} {s : ℕ} (p : UInt8 → Bool) (inside : s ≤ line.length) :
    s + ((line.drop s).takeWhile p).length ≤ line.length := by
  have short := (List.takeWhile_prefix p (l := line.drop s)).length_le
  rw [List.length_drop] at short
  omega

theorem getD_eq_headD {line : List UInt8} {s : ℕ} : line.getD s 0 = (line.drop s).headD 0 := by
  rw [List.getD_eq_getElem?_getD, List.headD_eq_head?_getD, List.head?_drop]

theorem tokens_dropWhile (line : List UInt8) : tokens (line.dropWhile isSpace) = tokens line := by
  induction line with
  | nil => rfl
  | cons c cs ih =>
    by_cases space : isSpace c
    · rw [List.dropWhile_cons_of_pos space, ih, tokens, if_pos space]
    · rw [List.dropWhile_cons_of_neg space]

theorem length_tokens_le (line : List UInt8) : (tokens line).length ≤ line.length := by
  fun_induction tokens line with
  | case1 => exact Nat.le_refl _
  | case2 c cs space ih => exact Nat.le_succ_of_le ih
  | case9 cs _ _ _ _ _ _ _ _ ih =>
    rw [List.length_tail] at ih
    rw [List.length_cons, List.length_cons]
    omega
  | case11 c cs _ _ _ _ _ _ _ _ ih =>
    exact Nat.succ_le_succ (ih.trans (List.dropWhile_suffix isPlain).length_le)
  | _ => exact Nat.succ_le_succ (by assumption)

variable {t : Token} {E : Stop → Prop}

section
variable {line : List UInt8} {s : ℕ} {ts : List Token}

theorem drop_skip : line.drop (skip line s) = (line.drop s).dropWhile isSpace :=
  drop_add_takeWhile isSpace

theorem Rest.skip (rest : Rest line s ts) : Rest line (skip line s) ts := by
  refine ⟨add_takeWhile_le isSpace rest.inside, ?_⟩
  rw [drop_skip, tokens_dropWhile]
  exact rest.tokens

theorem head_skip : ¬ isSpace ((line.drop (Shell.skip line s)).headD 0) := by
  rw [drop_skip]
  cases found : (line.drop s).dropWhile isSpace with
  | nil => decide
  | cons c cs =>
    have head := List.head?_dropWhile_not isSpace (line.drop s)
    rw [found] at head
    simpa using head

/-! ## The first token -/

theorem not_mem_symbols {c : UInt8} : c ∉ symbols ↔
    c ≠ 60 ∧ c ≠ 124 ∧ c ≠ 62 ∧ c ≠ 38 ∧ c ≠ 59 ∧ c ≠ 40 ∧ c ≠ 41 := by
  simp [symbols]

theorem tokens_word {c : UInt8} {cs : List UInt8} (start : ¬ isSpace c) (plain : c ∉ symbols) :
    tokens (c :: cs) = .word ((c :: cs).takeWhile isPlain) :: tokens ((c :: cs).dropWhile isPlain) := by
  have letter : isPlain c := by
    simp only [isSpace, decide_eq_true_eq] at start
    simp [isPlain, start, plain]
  rw [List.takeWhile_cons_of_pos letter, List.dropWhile_cons_of_pos letter, tokens]
  simp only [not_mem_symbols] at plain
  simp [start, plain]

def Token.single : Token → Prop
  | .gt | .gtgt | .word _ => False
  | _ => True

theorem tokens_single {cs : List UInt8} (single : t.single) : tokens (t.code :: cs) = t :: tokens cs := by
  rw [tokens]
  cases t <;> first | exact single.elim | rfl

theorem tokens_gt {cs : List UInt8} :
    tokens (62 :: cs) = if cs.head? = some 62 then .gtgt :: tokens cs.tail else .gt :: tokens cs := by
  rw [tokens]
  rfl

theorem first_cases (c : UInt8) : (∃ t : Token, t.single ∧ c = t.code) ∨ c = 62 ∨ c ∉ symbols := by
  by_cases symbol : c ∈ symbols
  · simp only [symbols, List.mem_cons, List.not_mem_nil, or_false] at symbol
    rcases symbol with rfl | rfl | rfl | rfl | rfl | rfl | rfl
    · exact .inl ⟨.lt, trivial, rfl⟩
    · exact .inl ⟨.bar, trivial, rfl⟩
    · exact .inr (.inl rfl)
    · exact .inl ⟨.amp, trivial, rfl⟩
    · exact .inl ⟨.semi, trivial, rfl⟩
    · exact .inl ⟨.lparen, trivial, rfl⟩
    · exact .inl ⟨.rparen, trivial, rfl⟩
  · exact .inr (.inr symbol)

theorem Token.single.symbol (single : t.single) : t.symbol = some t.code := by
  cases t <;> first | exact single.elim | rfl

theorem peeked_tokens {toks : List UInt8} (known : toks.all (· ∈ symbols) = true) {c : UInt8} {cs : List UInt8}
    (start : ¬ isSpace c) : peeked toks (tokens (c :: cs)) = decide (c ∈ toks) := by
  obtain ⟨t, single, rfl⟩ | rfl | plain := first_cases c
  · simp [tokens_single single, peeked, single.symbol]
  · rw [tokens_gt]
    by_cases double : cs.head? = some 62 <;> simp [double, peeked, Token.symbol, Token.code]
  · rw [tokens_word start plain]
    have other : c ∉ toks := fun member => plain (of_decide_eq_true (List.all_eq_true.mp known c member))
    simp [peeked, Token.symbol, other]

theorem eq_nil_of_tokens {cs : List UInt8} (start : ¬ isSpace (cs.headD 0)) (none : tokens cs = []) : cs = [] := by
  cases cs with
  | nil => rfl
  | cons c cs =>
    rw [List.headD_cons] at start
    obtain ⟨t, single, rfl⟩ | rfl | plain := first_cases c
    · simp [tokens_single single] at none
    · rw [tokens_gt] at none
      by_cases double : cs.head? = some 62 <;> simp [double] at none
    · simp [tokens_word start plain] at none

theorem peek_spec {toks : List UInt8} (known : toks.all (· ∈ symbols) = true) (rest : Rest line s ts) :
    wp E (peek line toks) (fun found t => found = peeked toks ts ∧ Rest line t ts ∧ t = Shell.skip line s) s := by
  simp only [peek, wp_bind, wp_get, wp_set, wp_pure]
  refine ⟨?_, rest.skip, trivial⟩
  rw [getD_eq_headD, ← rest.skip.tokens]
  have start : ¬ isSpace ((line.drop (Shell.skip line s)).headD 0) := head_skip
  cases found : line.drop (Shell.skip line s) with
  | nil => simp [tokens, peeked]
  | cons c cs =>
    rw [found, List.headD_cons] at start
    rw [peeked_tokens known start]
    have symbol : c ∈ toks → c ≠ 0 := by
      rintro member rfl
      exact absurd (List.all_eq_true.mp known 0 member) Bool.false_ne_true
    simp only [List.headD_cons]
    by_cases member : c ∈ toks <;> simp [member, symbol]

end

/-! ## `gettoken` -/

section
variable {line : List UInt8} {s : ℕ} {c : UInt8} {cs : List UInt8}

theorem drop_succ (found : line.drop s = c :: cs) : line.drop (s + 1) = cs ∧ s + 1 ≤ line.length := by
  constructor
  · rw [← List.drop_drop, found]
    rfl
  · have size := congrArg List.length found
    rw [List.length_drop, List.length_cons] at size
    omega

theorem word_takeWhile (inside : s ≤ line.length) :
    Word line (s, s + ((line.drop s).takeWhile isPlain).length) := by
  refine ⟨Nat.le_add_right _ _, add_takeWhile_le isPlain inside, ?_, ?_⟩
  · intro i low high
    have near : i - s < ((line.drop s).takeWhile isPlain).length := by
      simp only at low high
      omega
    have member := List.mem_takeWhile_imp (List.getElem_mem near)
    rw [(List.takeWhile_prefix isPlain).getElem near, List.getElem_drop] at member
    have position : s + (i - s) = i := Nat.add_sub_cancel' low
    simp only [position] at member
    have bound : i < line.length := lt_of_lt_of_le high (add_takeWhile_le isPlain inside)
    rw [List.getD_eq_getElem?_getD, List.getElem?_eq_getElem bound]
    exact member
  · intro more
    rw [getD_eq_headD, drop_add_takeWhile]
    have head := List.head?_dropWhile_not isPlain (line.drop s)
    cases found : (line.drop s).dropWhile isPlain with
    | nil =>
      rw [← drop_add_takeWhile, List.drop_eq_nil_iff] at found
      omega
    | cons c cs =>
      rw [found] at head
      simpa using head

theorem text_takeWhile : text line (s, s + ((line.drop s).takeWhile isPlain).length) = (line.drop s).takeWhile isPlain := by
  rw [text, Nat.add_sub_cancel_left]
  exact (List.prefix_iff_eq_take.mp (List.takeWhile_prefix isPlain)).symm

structure Reads (line : List UInt8) (t : Token) (ts : List Token) (out : UInt8 × Span) (s : ℕ) : Prop where
  code : out.1 = t.code
  rest : Rest line s ts
  word : ∀ chars, t = .word chars → Word line out.2 ∧ text line out.2 = chars

theorem scan_spec {ts : List Token} (terminated : 0 ∉ line) (rest : Rest line s (t :: ts))
    (start : ¬ isSpace ((line.drop s).headD 0)) :
    (scan line s).1 = t.code ∧ Rest line (scan line s).2 ts ∧
      ∀ chars, t = .word chars → Word line (s, (scan line s).2) ∧ text line (s, (scan line s).2) = chars := by
  obtain ⟨inside, tokensEq⟩ := rest
  cases found : line.drop s with
  | nil =>
    rw [found] at tokensEq
    simp [tokens] at tokensEq
  | cons c cs =>
    obtain ⟨next, more⟩ := drop_succ found
    have nonzero : c ≠ 0 := by
      rintro rfl
      exact terminated (List.mem_of_mem_drop (found ▸ List.mem_cons_self))
    have head : line.getD s 0 = c := by rw [getD_eq_headD, found, List.headD_cons]
    rw [found, List.headD_cons] at start
    rw [found] at tokensEq
    obtain ⟨t', single, rfl⟩ | rfl | plain := first_cases c
    · rw [tokens_single single, List.cons.injEq] at tokensEq
      obtain ⟨rfl, tokensEq⟩ := tokensEq
      have result : scan line s = (t'.code, s + 1) := by
        rw [scan, head]
        cases t' <;> first | exact single.elim | rfl
      rw [result]
      refine ⟨rfl, ⟨more, next ▸ tokensEq⟩, ?_⟩
      rintro chars rfl
      exact single.elim
    · rw [tokens_gt] at tokensEq
      have second : line.getD (s + 1) 0 = cs.headD 0 := by rw [getD_eq_headD, next]
      by_cases double : cs.head? = some 62
      · rw [if_pos double, List.cons.injEq] at tokensEq
        obtain ⟨rfl, tokensEq⟩ := tokensEq
        obtain ⟨cs', rfl⟩ : ∃ cs', cs = 62 :: cs' := List.head?_eq_some_iff.mp double
        obtain ⟨next', more'⟩ := drop_succ next
        have result : scan line s = (43, s + 2) := by
          rw [scan, head, second]
          rfl
        rw [result]
        refine ⟨rfl, ⟨more', next' ▸ tokensEq⟩, ?_⟩
        simp
      · rw [if_neg double, List.cons.injEq] at tokensEq
        obtain ⟨rfl, tokensEq⟩ := tokensEq
        have other : cs.head?.getD 0 ≠ 62 := by
          cases cs with
          | nil => decide
          | cons c' cs' => simpa using double
        have result : scan line s = (62, s + 1) := by
          rw [scan, head, second]
          simp [other]
        rw [result]
        refine ⟨rfl, ⟨more, next ▸ tokensEq⟩, ?_⟩
        simp
    · rw [tokens_word start plain, ← found, List.cons.injEq] at tokensEq
      obtain ⟨rfl, tokensEq⟩ := tokensEq
      have result : scan line s = (97, s + ((line.drop s).takeWhile isPlain).length) := by
        rw [scan, head]
        rw [not_mem_symbols] at plain
        simp [plain, nonzero]
      rw [result]
      refine ⟨rfl, ⟨add_takeWhile_le isPlain inside, ?_⟩, ?_⟩
      · rw [drop_add_takeWhile]
        exact tokensEq
      · rintro chars ⟨⟩
        exact ⟨word_takeWhile inside, text_takeWhile⟩

theorem gettoken_spec {ts : List Token} (terminated : 0 ∉ line)
    (rest : Rest line s (t :: ts)) : wp E (gettoken line) (Reads line t ts) s := by
  simp only [gettoken, wp_bind, wp_get, wp_set, wp_pure]
  obtain ⟨code, after, word⟩ := scan_spec terminated rest.skip head_skip
  exact ⟨code, after.skip, word⟩

theorem gettoken_end (rest : Rest line s []) : wp E (gettoken line) (fun out t => out.1 = 0 ∧ Rest line t []) s := by
  have result : scan line (skip line s) = (0, skip line s) := by
    rw [scan, getD_eq_headD, eq_nil_of_tokens head_skip rest.skip.tokens]
    rfl
  simp only [gettoken, wp_bind, wp_get, wp_set, wp_pure, result]
  exact ⟨trivial, rest.skip.skip⟩

end

end OsProjects.Shell
