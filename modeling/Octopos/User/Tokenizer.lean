import Mathlib.Data.List.TakeWhile
import Octopos.Lib.Str

/-!
# The tokenizer of the shell

`Tokenizer` of the shell reads the characters of a line one after the other and counts their bytes;
the tokens are the slices of the line between two counts.
-/

namespace Octopos

/-- `char::is_whitespace`: the characters with the property White_Space. -/
def isWhitespace (c : Char) : Bool :=
  (9 ≤ c.toNat && c.toNat ≤ 13) || c.toNat == 0x20 || c.toNat == 0x85 || c.toNat == 0xa0 || c.toNat == 0x1680 ||
  (0x2000 ≤ c.toNat && c.toNat ≤ 0x200a) || c.toNat == 0x2028 || c.toNat == 0x2029 || c.toNat == 0x202f ||
  c.toNat == 0x205f || c.toNat == 0x3000

/-- `"|();&<>".contains(c)` -/
def isSpecial (c : Char) : Bool := ['|', '(', ')', ';', '&', '<', '>'].contains c

structure Tokenizer where
  input : List Char
  iter : List Char
  cursor : ℕ
deriving Repr, DecidableEq

namespace Tokenizer

def new (input : List Char) : Tokenizer := ⟨input, input, 0⟩

def peek (t : Tokenizer) : Option Char := t.iter.head?

def next (t : Tokenizer) : Option Char × Tokenizer :=
  match t.iter with
  | [] => (none, t)
  | c :: iter => (some c, { t with iter := iter, cursor := t.cursor + c.utf8Size })

/-- The loops `while let Some(c) = self.peek()`: characters are read as long as `p` holds. The
recursion is on the characters that are not read. -/
def skipWhile (p : Char → Bool) (input : List Char) : List Char → ℕ → Tokenizer
  | [], cursor => ⟨input, [], cursor⟩
  | c :: iter, cursor =>
    if p c then skipWhile p input iter (cursor + c.utf8Size) else ⟨input, c :: iter, cursor⟩

/-- `&self.input[start..self.cursor]` -/
def token (t : Tokenizer) (start : ℕ) : Except SlicePanic (Option (List Char) × Tokenizer) :=
  match Str.slice t.input start t.cursor with
  | some tok => .ok (some tok, t)
  | none => .error .notBoundary

def isWord (c : Char) : Bool := !(isWhitespace c || isSpecial c)

def nextToken (t : Tokenizer) : Except SlicePanic (Option (List Char) × Tokenizer) :=
  let t := skipWhile isWhitespace t.input t.iter t.cursor
  let start := t.cursor
  match t.next with
  | (none, t) => .ok (none, t)
  | (some c, t) =>
    if c = '|' ∨ c = '(' ∨ c = ')' ∨ c = ';' ∨ c = '&' ∨ c = '<' then t.token start
    else if c = '>' then
      if t.peek = some '>' then t.next.2.token start else t.token start
    else (skipWhile isWord t.input t.iter t.cursor).token start

/-- The tokens up to the first `None`, as the iterator gives them. -/
def tokens : ℕ → Tokenizer → Except SlicePanic (Option (List (List Char)))
  | 0, _ => .ok none
  | fuel + 1, t =>
    match t.nextToken with
    | .error e => .error e
    | .ok (none, _) => .ok (some [])
    | .ok (some tok, t) =>
      match tokens fuel t with
      | .error e => .error e
      | .ok toks => .ok (toks.map (tok :: ·))

example : (new "ab>>>c | αβ;".toList).tokens 20 =
    .ok (some ["ab".toList, ">>".toList, ">".toList, "c".toList, "|".toList, "αβ".toList, ";".toList]) := by
  decide

end Tokenizer

/-! ## What a token is -/

def operators : List (List Char) := [['|'], ['('], [')'], [';'], ['&'], ['<'], ['>'], ['>', '>']]

/-- A token between what precedes and what follows it in the line: an operator, where `>` is not
followed by another `>`, or a maximal run of characters of a word. -/
def IsToken (before tok after : List Char) : Prop :=
  (tok ∈ operators ∧ (tok = ['>'] → after.head? ≠ some '>')) ∨
  (tok ≠ [] ∧ (∀ c ∈ tok, Tokenizer.isWord c) ∧
    (∀ c ∈ before.getLast?, ¬Tokenizer.isWord c) ∧ ∀ c ∈ after.head?, ¬Tokenizer.isWord c)

theorem IsToken.not_whitespace {before tok after : List Char} (h : IsToken before tok after)
    {c : Char} (hc : c ∈ tok) : isWhitespace c = false := by
  rcases h with ⟨hop, -⟩ | ⟨-, hword, -, -⟩
  · have hall : ∀ tok ∈ operators, ∀ c ∈ tok, isWhitespace c = false := by
      simp [operators, isWhitespace]
    exact hall tok hop c hc
  · have := hword c hc
    unfold Tokenizer.isWord at this
    cases hw : isWhitespace c
    · rfl
    · rw [hw] at this
      exact absurd this (by simp)

theorem IsToken.ne_nil {before tok after : List Char} (h : IsToken before tok after) :
    tok ≠ [] := by
  rcases h with ⟨hop, -⟩ | ⟨hne, -⟩
  · have hall : ∀ tok ∈ operators, tok ≠ [] := by decide
    exact hall tok hop
  · exact hne

/-- The tokens of the rest of a line of which `before` is read. -/
inductive Tokens : List Char → List Char → List (List Char) → Prop
  | nil {before space : List Char} (hspace : ∀ c ∈ space, isWhitespace c) : Tokens before space []
  | cons {before space tok after : List Char} {toks : List (List Char)} (hspace : ∀ c ∈ space, isWhitespace c)
    (htok : IsToken (before ++ space) tok after) (h : Tokens (before ++ space ++ tok) after toks) :
    Tokens before (space ++ tok ++ after) (tok :: toks)

namespace Tokens

variable {before line : List Char} {toks : List (List Char)}

theorem flatten (h : Tokens before line toks) :
    toks.flatten = line.filter fun c => !isWhitespace c := by
  have hspaces {l : List Char} (hl : ∀ c ∈ l, isWhitespace c) : (l.filter fun c => !isWhitespace c) = [] := by
    rw [List.filter_eq_nil_iff]
    intro c hc
    rw [hl c hc]
    decide
  induction h with
  | nil hspace => rw [hspaces hspace, List.flatten_nil]
  | @cons before space tok after toks hspace htok h ih =>
    have hkeep : (tok.filter fun c => !isWhitespace c) = tok := by
      rw [List.filter_eq_self]
      intro c hc
      rw [htok.not_whitespace hc]
      rfl
    rw [List.flatten_cons, ih, List.filter_append, List.filter_append, hspaces hspace, hkeep, List.nil_append]

theorem spans (h : Tokens before line toks) :
    ∃ spans : List (List Char × List Char × List Char), toks = spans.map (fun s => s.2.1) ∧
    (∀ s ∈ spans, before ++ line = s.1 ++ s.2.1 ++ s.2.2 ∧ before <+: s.1 ∧
      IsToken s.1 s.2.1 s.2.2) ∧ spans.Pairwise fun s s' => s.1 ++ s.2.1 <+: s'.1 := by
  induction h with
  | nil => exact ⟨[], rfl, by simp, .nil⟩
  | @cons before space tok after toks hspace htok h ih =>
    obtain ⟨spans, htoks, hspans, horder⟩ := ih
    refine ⟨(before ++ space, tok, after) :: spans, by rw [List.map_cons, ← htoks], ?_, ?_⟩
    · intro s hs
      rcases List.mem_cons.1 hs with rfl | hs
      · exact ⟨by simp only [List.append_assoc], List.prefix_append _ _, htok⟩
      · obtain ⟨hline, hbefore, hs⟩ := hspans s hs
        refine ⟨by rw [← hline]; simp only [List.append_assoc], ?_, hs⟩
        exact (List.prefix_append _ _).trans ((List.prefix_append _ _).trans hbefore)
    · exact List.pairwise_cons.2 ⟨fun s hs => (hspans s hs).2.1, horder⟩

end Tokens

namespace Tokenizer

variable {read iter : List Char} {c : Char}

/-- The tokenizer after it has read the first part of a line. -/
def reading (read iter : List Char) : Tokenizer := ⟨read ++ iter, iter, Str.byteSize read⟩

theorem reading_append (read l iter : List Char) :
    (⟨read ++ (l ++ iter), iter, Str.byteSize read + Str.byteSize l⟩ : Tokenizer) =
      reading (read ++ l) iter := by
  rw [reading, List.append_assoc, Str.byteSize_append]

theorem next_reading : (reading read (c :: iter)).next = (some c, reading (read ++ [c]) iter) := by
  rw [← reading_append]
  rfl

theorem skipWhile_reading (p : Char → Bool) :
    skipWhile p (read ++ iter) iter (Str.byteSize read) =
      reading (read ++ iter.takeWhile p) (iter.dropWhile p) := by
  have hskip (input : List Char) (cursor : ℕ) : skipWhile p input iter cursor =
      ⟨input, iter.dropWhile p, cursor + Str.byteSize (iter.takeWhile p)⟩ := by
    induction iter generalizing cursor with
    | nil => rfl
    | cons c iter ih =>
      rw [skipWhile, List.dropWhile_cons, List.takeWhile_cons]
      by_cases hc : p c
      · rw [if_pos hc, if_pos hc, if_pos hc, ih, Str.byteSize_cons, Nat.add_assoc]
      · rw [if_neg hc, if_neg hc, if_neg hc]
        rfl
  rw [hskip, ← reading_append, List.takeWhile_append_dropWhile]

theorem token_reading {tok : List Char} :
    (reading (read ++ tok) iter).token (Str.byteSize read) =
      .ok (some tok, reading (read ++ tok) iter) := by
  unfold token reading
  dsimp only
  rw [Str.slice_append]

/-- A call of `next_token` at a character that is not white space reads the next token. -/
theorem nextToken_reads (iter : List Char) {before space : List Char}
    (hspace : ∀ c ∈ space, isWhitespace c) (hc : isWhitespace c = false)
    (hboundary : isWord c → ∀ d ∈ (before ++ space).getLast?, ¬isWord d) :
    ∃ tok after, c :: iter = tok ++ after ∧ IsToken (before ++ space) tok after ∧
    (∀ d ∈ tok.getLast?, isWord d → ∀ d ∈ after.head?, ¬isWord d) ∧
    (reading before (space ++ c :: iter)).nextToken =
      .ok (some tok, reading (before ++ space ++ tok) after) := by
  have htake : (space ++ c :: iter).takeWhile isWhitespace = space := by
    rw [List.takeWhile_append_of_pos hspace, List.takeWhile_cons_of_neg (by rw [hc]; decide), List.append_nil]
  have hdrop : (space ++ c :: iter).dropWhile isWhitespace = c :: iter := by
    rw [List.dropWhile_append_of_pos hspace, List.dropWhile_cons_of_neg (by rw [hc]; decide)]
  have hnext : (reading before (space ++ c :: iter)).nextToken =
      let t := reading (before ++ space ++ [c]) iter
      if c = '|' ∨ c = '(' ∨ c = ')' ∨ c = ';' ∨ c = '&' ∨ c = '<' then t.token (Str.byteSize (before ++ space))
      else if c = '>' then
        if iter.head? = some '>' then t.next.2.token (Str.byteSize (before ++ space))
        else t.token (Str.byteSize (before ++ space))
      else (reading (before ++ space ++ [c] ++ iter.takeWhile isWord) (iter.dropWhile isWord)).token
        (Str.byteSize (before ++ space)) := by
    unfold nextToken
    dsimp only [reading]
    rw [skipWhile_reading, htake, hdrop, next_reading]
    dsimp only [reading]
    rw [skipWhile_reading]
    rfl
  rw [hnext]
  dsimp only
  by_cases hsingle : c = '|' ∨ c = '(' ∨ c = ')' ∨ c = ';' ∨ c = '&' ∨ c = '<'
  · rw [if_pos hsingle]
    refine ⟨[c], iter, rfl, .inl ⟨?_, ?_⟩, ?_, token_reading⟩
    all_goals rcases hsingle with rfl | rfl | rfl | rfl | rfl | rfl <;> simp [operators, isWord, isSpecial]
  rw [if_neg hsingle]
  by_cases hgreater : c = '>'
  · rw [if_pos hgreater]
    subst hgreater
    by_cases hpair : iter.head? = some '>'
    · rw [if_pos hpair]
      obtain ⟨after, rfl⟩ : ∃ after, iter = '>' :: after := by
        cases iter with
        | nil => cases hpair
        | cons d after => exact ⟨after, by rw [List.head?_cons, Option.some.injEq] at hpair; rw [hpair]⟩
      refine ⟨['>', '>'], after, rfl, .inl ⟨by decide, by simp⟩, by simp [isWord, isSpecial], ?_⟩
      rw [next_reading, List.append_assoc]
      exact token_reading
    · rw [if_neg hpair]
      exact ⟨['>'], iter, rfl, .inl ⟨by decide, fun _ => hpair⟩, by simp [isWord, isSpecial], token_reading⟩
  · rw [if_neg hgreater]
    have hword : isWord c := by
      simp only [not_or] at hsingle
      simp [isWord, hc, isSpecial, hsingle, hgreater]
    have hafter : ∀ d ∈ (iter.dropWhile isWord).head?, ¬isWord d := by
      intro d hd
      have := List.head?_dropWhile_not isWord iter
      rw [hd] at this
      simpa using this
    refine ⟨c :: iter.takeWhile isWord, iter.dropWhile isWord, ?_, .inr ⟨by simp, ?_, ?_, hafter⟩, ?_, ?_⟩
    · rw [List.cons_append, List.takeWhile_append_dropWhile]
    · intro d hd
      rcases List.mem_cons.1 hd with rfl | hd
      · exact hword
      · exact List.mem_takeWhile_imp hd
    · exact hboundary hword
    · exact fun _ _ _ => hafter
    · rw [List.append_assoc _ [c]]
      exact token_reading

/-- The tokens from a place that is not in the middle of a word; every token takes at least one
character. -/
theorem tokens_reading (read iter : List Char)
    (hboundary : ∀ c ∈ read.getLast?, isWord c → ∀ d ∈ iter.head?, ¬isWord d) :
    ∃ toks, Tokens read iter toks ∧ ∀ fuel, iter.length < fuel →
    (reading read iter).tokens fuel = .ok (some toks) := by
  -- along the characters that are not read
  induction hn : iter.length using Nat.strong_induction_on generalizing read iter with
  | _ n ih =>
    subst hn
    have hspace : ∀ c ∈ iter.takeWhile isWhitespace, isWhitespace c := fun c hc => List.mem_takeWhile_imp hc
    have hiter : iter.takeWhile isWhitespace ++ iter.dropWhile isWhitespace = iter :=
      List.takeWhile_append_dropWhile
    cases hrest : iter.dropWhile isWhitespace with
    | nil =>
      rw [hrest, List.append_nil] at hiter
      refine ⟨[], .nil (hiter ▸ hspace), fun fuel hfuel => ?_⟩
      obtain ⟨fuel, rfl⟩ : ∃ k, fuel = k + 1 := ⟨fuel - 1, by omega⟩
      have hnone : (reading read iter).nextToken = .ok (none, reading (read ++ iter) []) := by
        unfold nextToken
        dsimp only [reading]
        rw [skipWhile_reading, hiter, hrest]
        rfl
      rw [tokens, hnone]
    | cons c rest =>
      have hc : isWhitespace c = false := by
        have := List.head?_dropWhile_not isWhitespace iter
        rw [hrest] at this
        simpa using this
      rw [hrest] at hiter
      generalize iter.takeWhile isWhitespace = space at hspace hiter
      subst hiter
      have hlast : isWord c → ∀ d ∈ (read ++ space).getLast?, ¬isWord d := by
        intro hword d hd
        rcases List.eq_nil_or_concat space with rfl | ⟨l, e, rfl⟩
        · rw [List.append_nil] at hd
          exact fun hd' => hboundary d hd hd' c rfl hword
        · rw [List.concat_eq_append, ← List.append_assoc, List.getLast?_concat] at hd
          obtain rfl : e = d := by simpa using hd
          rw [isWord, hspace e (by simp), Bool.true_or]
          decide
      obtain ⟨tok, after, heq, htok, hend, hnext⟩ := nextToken_reads rest hspace hc hlast
      have hpos : 0 < tok.length := List.length_pos_iff.2 htok.ne_nil
      have hlen : rest.length + 1 = tok.length + after.length := by
        rw [← List.length_append, ← heq, List.length_cons]
      have hboundary' : ∀ d ∈ (read ++ space ++ tok).getLast?, isWord d → ∀ d ∈ after.head?, ¬isWord d := by
        intro d hd
        rw [List.getLast?_append_of_ne_nil _ htok.ne_nil] at hd
        exact hend d hd
      obtain ⟨toks, htoks, hfuel⟩ := ih after.length (by simp; omega) _ _ hboundary' rfl
      rw [heq, ← List.append_assoc]
      refine ⟨tok :: toks, .cons hspace htok htoks, fun fuel hlt => ?_⟩
      obtain ⟨fuel, rfl⟩ : ∃ k, fuel = k + 1 := ⟨fuel - 1, by omega⟩
      rw [List.append_assoc, ← heq, tokens, hnext]
      dsimp only
      rw [hfuel fuel (by simp at hlt; omega)]
      rfl

end Tokenizer

/-- The tokenizer ends on every line without a slice off the character boundaries. Its tokens are
not empty, give the line without its white space, and stand in the line one behind the other, each
of them an operator or a maximal run of characters of a word, where a `>` is joined with the next
character if that is another `>`. -/
theorem tokenizer_tokens (input : List Char) : ∃ toks : List (List Char),
    (∀ fuel, input.length < fuel → (Tokenizer.new input).tokens fuel = .ok (some toks)) ∧
    (∀ tok ∈ toks, tok ≠ []) ∧
    toks.flatten = input.filter (fun c => !isWhitespace c) ∧
    ∃ spans : List (List Char × List Char × List Char), toks = spans.map (fun s => s.2.1) ∧
      (∀ s ∈ spans, input = s.1 ++ s.2.1 ++ s.2.2 ∧ IsToken s.1 s.2.1 s.2.2) ∧
      spans.Pairwise fun s s' => s.1 ++ s.2.1 <+: s'.1 := by
  obtain ⟨toks, htoks, hfuel⟩ := Tokenizer.tokens_reading [] input (by simp)
  obtain ⟨spans, hspans, hline, horder⟩ := htoks.spans
  refine ⟨toks, hfuel, ?_, htoks.flatten, spans, hspans, fun s hs => ⟨(hline s hs).1, (hline s hs).2.2⟩, horder⟩
  intro tok htok
  rw [hspans] at htok
  obtain ⟨s, hs, rfl⟩ := List.mem_map.1 htok
  exact (hline s hs).2.2.ne_nil

end Octopos
