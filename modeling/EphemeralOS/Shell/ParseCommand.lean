import Mathlib.Data.List.GetD
import Mathlib.Data.List.ReduceOption
import EphemeralOS.Kernel.String
import EphemeralOS.Lib.Path

/-!
# The command line

`parse_command` (`shell/shell.c`) cuts the line into words in one loop. What it
has to find are the `tokens` of the line, the first 20 of them and of each the
first 63 characters (`parseCommand_tokens`). A line that quotes its words is cut
into just these words (`tokens_quoteLine`).
-/

namespace EphemeralOS

/-- `argv_buffer`, `argv` and the variables of `parse_command`. An entry of `argv` is the row of
`argv_buffer` it points to. `bufferStores` and `argvStores` are the indices written. -/
structure ParseState where
  argvBuffer : Nat → Nat → UInt8
  argv : Nat → Nat
  argc : Nat
  inQuotes : Bool
  bufPos : Nat
  bufferStores : List (Nat × Nat)
  argvStores : List Nat

def maxArgs : Nat := 20
def maxArgLen : Nat := 64

namespace ParseState

/-- `argv_buffer[*argc][buf_pos] = c`. -/
def store (c : UInt8) (p : ParseState) : ParseState :=
  { p with
    argvBuffer := Function.update p.argvBuffer p.argc
      (Function.update (p.argvBuffer p.argc) p.bufPos c)
    bufferStores := p.bufferStores ++ [(p.argc, p.bufPos)] }

/-- The end of a word: its NUL, its entry in `argv`, and the next row. -/
def endWord (p : ParseState) : ParseState :=
  let p := p.store 0
  { p with
    argv := Function.update p.argv p.argc p.argc
    argc := p.argc + 1
    argvStores := p.argvStores ++ [p.argc] }

def round (c : UInt8) (p : ParseState) : ParseState :=
  if c = 0x22 then { p with inQuotes := !p.inQuotes }
  else if (c = 0x20 ∨ c = 0x09) ∧ ¬ p.inQuotes then
    if p.bufPos > 0 then { p.endWord with bufPos := 0 } else p
  else if p.bufPos < maxArgLen - 1 then { p.store c with bufPos := p.bufPos + 1 }
  else p

def loop : List UInt8 → ParseState → ParseState
  | [], p => p
  | c :: input, p => if p.argc < maxArgs then loop input (p.round c) else p

def rowString (row : Nat → UInt8) : List UInt8 := ((List.range maxArgLen).map row).takeWhile (· ≠ 0)

/-- The strings that `argv` points to. -/
def args (p : ParseState) : List (List UInt8) :=
  (List.range p.argc).map fun k => rowString (p.argvBuffer (p.argv k))

theorem argc_round_le (p : ParseState) (c : UInt8) (h : p.argc < maxArgs) :
    (p.round c).argc ≤ maxArgs := by
  rw [round]
  split
  · exact h.le
  · split
    · split
      · exact h
      · exact h.le
    · split
      · exact h.le
      · exact h.le

end ParseState

/-- `parse_command`, with the arrays as they are before it. -/
def parseCommand (input : List UInt8) (argvBuffer : Nat → Nat → UInt8) (argv : Nat → Nat) :
    ParseState :=
  let p := ParseState.loop input ⟨argvBuffer, argv, 0, false, 0, [], []⟩
  if p.bufPos > 0 ∧ p.argc < maxArgs then p.endWord else p

/-! ## Tokens -/

/-- The line without its double quotes, and `none` where it is cut: at the spaces and tabs outside
quotes. -/
def marks : Bool → List UInt8 → List (Option UInt8)
  | _, [] => []
  | inQuotes, c :: line =>
    if c = 0x22 then marks (!inQuotes) line
    else (if (c = 0x20 ∨ c = 0x09) ∧ ¬ inQuotes then none else some c) :: marks inQuotes line

/-- What stands between the cuts, where it is not empty. -/
def tokens (line : List UInt8) : List (List UInt8) :=
  (Path.components none (marks false line)).map List.reduceOption

/-- The tokens from some point on, the first of which begins with `word`. -/
def tokensFrom (inQuotes : Bool) (word line : List UInt8) : List (List UInt8) :=
  (Path.componentsFrom none (word.map some) (marks inQuotes line)).map List.reduceOption

def wordList (word : List UInt8) : List (List UInt8) := if word = [] then [] else [word]

theorem tokens_eq (line : List UInt8) : tokens line = tokensFrom false [] line := rfl

theorem reduceOption_map_some (word : List UInt8) : (word.map some).reduceOption = word := by
  rw [List.reduceOption, List.filterMap_map]
  exact List.filterMap_some

theorem tokensFrom_nil (inQuotes : Bool) (word : List UInt8) :
    tokensFrom inQuotes word [] = wordList word := by
  rw [tokensFrom, marks, Path.componentsFrom, wordList]
  simp only [List.map_eq_nil_iff]
  split
  · rfl
  · rw [List.map_singleton, reduceOption_map_some]

theorem tokensFrom_quote (inQuotes : Bool) (word line : List UInt8) :
    tokensFrom inQuotes word (0x22 :: line) = tokensFrom (!inQuotes) word line := by
  rw [tokensFrom, marks, if_pos rfl]
  rfl

theorem tokensFrom_separator {inQuotes : Bool} {c : UInt8} (hquote : c ≠ 0x22)
    (hc : (c = 0x20 ∨ c = 0x09) ∧ ¬ inQuotes) (word line : List UInt8) :
    tokensFrom inQuotes word (c :: line) = wordList word ++ tokensFrom inQuotes [] line := by
  rw [tokensFrom, marks, if_neg hquote, if_pos hc, Path.componentsFrom, if_pos rfl,
    List.map_append, wordList]
  simp only [List.map_eq_nil_iff]
  split
  · rfl
  · rw [List.map_singleton, reduceOption_map_some]
    rfl

theorem tokensFrom_char {inQuotes : Bool} {c : UInt8} (hquote : c ≠ 0x22)
    (hc : ¬ ((c = 0x20 ∨ c = 0x09) ∧ ¬ inQuotes)) (word line : List UInt8) :
    tokensFrom inQuotes word (c :: line) = tokensFrom inQuotes (word ++ [c]) line := by
  rw [tokensFrom, marks, if_neg hquote, if_neg hc, Path.componentsFrom,
    if_neg (Option.some_ne_none c), tokensFrom, List.map_append]
  rfl

/-! ## The loop finds the tokens -/

theorem rowString_eq {row : Nat → UInt8} {w : List UInt8} (hlen : w.length < maxArgLen)
    (hnul : 0 ∉ w) (hrow : ∀ j, j < w.length → row j = w.getD j 0) (hend : row w.length = 0) :
    ParseState.rowString row = w := by
  obtain ⟨k, hk⟩ : ∃ k, maxArgLen = w.length + (k + 1) := ⟨maxArgLen - (w.length + 1), by omega⟩
  have hsplit : List.range maxArgLen =
      List.range w.length ++ w.length :: (List.range k).map fun j => w.length + (j + 1) := by
    rw [hk, List.range_add, List.range_succ_eq_map, List.map_cons, List.map_map]
    rfl
  have hprefix : (List.range w.length).map row = w := by
    apply List.ext_getElem
    · rw [List.length_map, List.length_range]
    · intro j hj hj'
      rw [List.getElem_map, List.getElem_range, hrow j hj', List.getD_eq_getElem _ _ hj']
  have hall : ∀ c ∈ w, decide (c ≠ 0) = true := fun c hc => decide_eq_true fun h => hnul (h ▸ hc)
  rw [ParseState.rowString, hsplit, List.map_append, List.map_cons, hprefix, hend,
    List.takeWhile_append_of_pos hall, List.takeWhile_cons_of_neg (by decide), List.append_nil]

/-- The state when the words `done` are complete and `word` is what has been read of the next. -/
structure Parsed (done : List (List UInt8)) (word : List UInt8) (p : ParseState) : Prop where
  args : p.args = done.map (List.take 63)
  argc : p.argc = done.length
  argv : ∀ k, k < p.argc → p.argv k = k
  bufPos : p.bufPos = min word.length 63
  row : ∀ j, j < p.bufPos → p.argvBuffer p.argc j = word.getD j 0
  noNul : 0 ∉ word
  bufferStores : ∀ s ∈ p.bufferStores, s.1 < maxArgs ∧ s.2 < maxArgLen
  argvStores : ∀ k ∈ p.argvStores, k < maxArgs

section Step

variable {done : List (List UInt8)} {word : List UInt8} {p : ParseState} (h : Parsed done word p)

include h

/-- A store in the row of the next word leaves the words before it alone. -/
theorem Parsed.args_store (c : UInt8) : (p.store c).args = p.args := by
  refine List.map_congr_left fun k hk => ?_
  have hlt : k < p.argc := List.mem_range.mp hk
  change ParseState.rowString (Function.update p.argvBuffer p.argc _ (p.argv k)) = _
  rw [h.argv k hlt, Function.update_of_ne (Nat.ne_of_lt hlt)]

theorem Parsed.bufferStores_store (hargc : p.argc < maxArgs) (c : UInt8) :
    ∀ s ∈ (p.store c).bufferStores, s.1 < maxArgs ∧ s.2 < maxArgLen := by
  intro s hs
  rcases List.mem_append.mp hs with hs | hs
  · exact h.bufferStores s hs
  · rw [List.mem_singleton.mp hs]
    have hpos := h.bufPos
    refine ⟨hargc, ?_⟩
    change p.bufPos < 64
    omega

theorem Parsed.argvStores_endWord (hargc : p.argc < maxArgs) :
    ∀ k ∈ p.endWord.argvStores, k < maxArgs := by
  intro k hk
  rcases List.mem_append.mp hk with hk | hk
  · exact h.argvStores k hk
  · rw [List.mem_singleton.mp hk]
    exact hargc

theorem Parsed.args_endWord : p.endWord.args = (done ++ [word]).map (List.take 63) := by
  have hpos := h.bufPos
  have hlength : (word.take 63).length = p.bufPos := by
    rw [List.length_take, hpos, Nat.min_comm]
  have hbefore : (List.range p.argc).map (fun k => ParseState.rowString
      (p.endWord.argvBuffer (p.endWord.argv k))) = p.args := by
    refine List.map_congr_left fun k hk => ?_
    have hlt : k < p.argc := List.mem_range.mp hk
    change ParseState.rowString (Function.update p.argvBuffer p.argc _
      (Function.update p.argv p.argc p.argc k)) = _
    rw [Function.update_of_ne (Nat.ne_of_lt hlt), h.argv k hlt,
      Function.update_of_ne (Nat.ne_of_lt hlt)]
  have hlast : ParseState.rowString (p.endWord.argvBuffer (p.endWord.argv p.argc)) =
      word.take 63 := by
    change ParseState.rowString (Function.update p.argvBuffer p.argc _
      (Function.update p.argv p.argc p.argc p.argc)) = _
    rw [Function.update_self, Function.update_self]
    refine rowString_eq ?_ (fun hmem => h.noNul (List.mem_of_mem_take hmem)) (fun j hj => ?_) ?_
    · rw [hlength]
      change p.bufPos < 64
      omega
    · rw [hlength] at hj
      rw [Function.update_of_ne (Nat.ne_of_lt hj), h.row j hj, List.getD_eq_getElem?_getD,
        List.getD_eq_getElem?_getD, List.getElem?_take_of_lt (by omega)]
    · rw [hlength, Function.update_self]
  rw [ParseState.args]
  change (List.range (p.argc + 1)).map _ = _
  rw [List.range_succ, List.map_append, hbefore, List.map_singleton, hlast, h.args,
    List.map_append, List.map_singleton]

theorem Parsed.endWord (hargc : p.argc < maxArgs) :
    Parsed (done ++ [word]) [] { p.endWord with bufPos := 0 } where
  args := h.args_endWord
  argc := by
    rw [List.length_append, ← h.argc]
    rfl
  argv := by
    intro k hk
    change Function.update p.argv p.argc p.argc k = k
    by_cases heq : k = p.argc
    · rw [heq, Function.update_self]
    · rw [Function.update_of_ne heq]
      have hlt : k < p.argc + 1 := hk
      exact h.argv k (by omega)
  bufPos := rfl
  row := fun j hj => absurd hj (Nat.not_lt_zero j)
  noNul := List.not_mem_nil
  bufferStores := h.bufferStores_store hargc 0
  argvStores := h.argvStores_endWord hargc

theorem Parsed.char (hargc : p.argc < maxArgs) {c : UInt8} (hc : c ≠ 0) :
    Parsed done (word ++ [c]) (if p.bufPos < maxArgLen - 1 then
      { p.store c with bufPos := p.bufPos + 1 } else p) := by
  have hpos := h.bufPos
  have hnul : 0 ∉ word ++ [c] := by
    rw [List.mem_append, List.mem_singleton]
    exact not_or_intro h.noNul (Ne.symm hc)
  have hlength : (word ++ [c]).length = word.length + 1 := List.length_append
  by_cases hroom : p.bufPos < maxArgLen - 1
  · rw [if_pos hroom]
    change p.bufPos < 63 at hroom
    refine ⟨(h.args_store c).trans h.args, h.argc, h.argv, ?_, fun j hj => ?_, hnul,
      h.bufferStores_store hargc c, h.argvStores⟩
    · change p.bufPos + 1 = _
      omega
    · change j < p.bufPos + 1 at hj
      change Function.update p.argvBuffer p.argc
        (Function.update (p.argvBuffer p.argc) p.bufPos c) p.argc j = _
      rw [Function.update_self]
      by_cases heq : j = p.bufPos
      · have hend : p.bufPos = word.length := by omega
        rw [heq, Function.update_self, hend, List.getD_eq_getElem?_getD,
          List.getElem?_concat_length]
        rfl
      · rw [Function.update_of_ne heq, h.row j (by omega), List.getD_eq_getElem?_getD,
          List.getD_eq_getElem?_getD, List.getElem?_append_left (by omega)]
  · -- the row is full, and the character is dropped
    rw [if_neg hroom]
    change ¬ p.bufPos < 63 at hroom
    refine ⟨h.args, h.argc, h.argv, by omega, fun j hj => ?_, hnul, h.bufferStores, h.argvStores⟩
    rw [h.row j hj, List.getD_eq_getElem?_getD, List.getD_eq_getElem?_getD,
      List.getElem?_append_left (by omega)]

end Step

/-- **A round takes one character from the line to the words.** -/
theorem Parsed.round {done : List (List UInt8)} {word : List UInt8} {p : ParseState}
    (h : Parsed done word p) (hargc : p.argc < maxArgs) {c : UInt8} (hc : c ≠ 0) :
    ∃ done' word', Parsed done' word' (p.round c) ∧ ((p.round c).argc < maxArgs ∨ word' = []) ∧
      ∀ line, done' ++ tokensFrom (p.round c).inQuotes word' line =
        done ++ tokensFrom p.inQuotes word (c :: line) := by
  rw [ParseState.round]
  by_cases hquote : c = 0x22
  · rw [if_pos hquote]
    refine ⟨done, word, ⟨h.args, h.argc, h.argv, h.bufPos, h.row, h.noNul, h.bufferStores,
      h.argvStores⟩, .inl hargc, fun line => ?_⟩
    rw [hquote, tokensFrom_quote]
  rw [if_neg hquote]
  by_cases hsep : (c = 0x20 ∨ c = 0x09) ∧ ¬ p.inQuotes
  · rw [if_pos hsep]
    have hpos := h.bufPos
    by_cases hword : word = []
    · -- between words nothing ends
      have hzero : ¬ p.bufPos > 0 := by
        rw [hpos, hword]
        decide
      rw [if_neg hzero]
      refine ⟨done, word, h, .inl hargc, fun line => ?_⟩
      rw [tokensFrom_separator hquote hsep, hword, wordList, if_pos rfl, List.nil_append]
    · have hlen := List.length_pos_of_ne_nil hword
      rw [if_pos (by omega)]
      refine ⟨done ++ [word], [], h.endWord hargc, .inr rfl, fun line => ?_⟩
      rw [tokensFrom_separator hquote hsep, wordList, if_neg hword, List.append_assoc]
      rfl
  · rw [if_neg hsep]
    refine ⟨done, word ++ [c], h.char hargc hc, .inl ?_, fun line => ?_⟩
    · split
      · exact hargc
      · exact hargc
    · rw [tokensFrom_char hquote hsep]
      split
      · rfl
      · rfl

/-- What the loop leaves: all words but one that has not ended, or the first 20. -/
theorem Parsed.loop {line : List UInt8} (hline : 0 ∉ line) {done : List (List UInt8)}
    {word : List UInt8} {p : ParseState} (h : Parsed done word p)
    (hargc : p.argc < maxArgs ∨ p.argc = maxArgs ∧ word = []) :
    ∃ done' word' rest, Parsed done' word' (p.loop line) ∧
      done' ++ wordList word' ++ rest = done ++ tokensFrom p.inQuotes word line ∧
      ((p.loop line).argc < maxArgs ∧ rest = [] ∨ (p.loop line).argc = maxArgs ∧ word' = []) := by
  induction line generalizing done word p with
  | nil =>
    refine ⟨done, word, [], h, by rw [tokensFrom_nil, List.append_nil], ?_⟩
    rcases hargc with hargc | hargc
    · exact .inl ⟨hargc, rfl⟩
    · exact .inr hargc
  | cons c line ih =>
    rw [List.mem_cons, not_or] at hline
    rw [ParseState.loop]
    rcases hargc with hargc | ⟨hfull, rfl⟩
    · rw [if_pos hargc]
      obtain ⟨done', word', hround, hword, htokens⟩ := h.round hargc (Ne.symm hline.1)
      rw [← htokens line]
      refine ih hline.2 hround ?_
      rcases Nat.lt_or_ge (p.round c).argc maxArgs with hlt | hge
      · exact .inl hlt
      · -- the word that ended was the last one
        refine .inr ⟨Nat.le_antisymm ?_ hge, hword.resolve_left (Nat.not_lt.mpr hge)⟩
        exact p.argc_round_le c hargc
    · rw [if_neg (by omega)]
      exact ⟨done, [], tokensFrom p.inQuotes [] (c :: line), h,
        by rw [wordList, if_pos rfl, List.append_nil], .inr ⟨hfull, rfl⟩⟩

theorem parsed_start (argvBuffer : Nat → Nat → UInt8) (argv : Nat → Nat) :
    Parsed [] [] ⟨argvBuffer, argv, 0, false, 0, [], []⟩ where
  args := rfl
  argc := rfl
  argv := fun _ hk => absurd hk (Nat.not_lt_zero _)
  bufPos := rfl
  row := fun _ hj => absurd hj (Nat.not_lt_zero _)
  noNul := List.not_mem_nil
  bufferStores := fun _ hs => absurd hs List.not_mem_nil
  argvStores := fun _ hk => absurd hk List.not_mem_nil

/-- The first 20 tokens, each cut to 63 characters, and no store outside the arrays. -/
theorem parseCommand_spec {input : List UInt8} (hinput : 0 ∉ input)
    (argvBuffer : Nat → Nat → UInt8) (argv : Nat → Nat) :
    (parseCommand input argvBuffer argv).args =
        ((tokens input).take maxArgs).map (List.take (maxArgLen - 1)) ∧
      (∀ s ∈ (parseCommand input argvBuffer argv).bufferStores, s.1 < maxArgs ∧ s.2 < maxArgLen) ∧
      ∀ k ∈ (parseCommand input argvBuffer argv).argvStores, k < maxArgs := by
  obtain ⟨done, word, rest, h, htokens, hend⟩ := (parsed_start argvBuffer argv).loop hinput
    (.inl (Nat.zero_lt_succ 19))
  rw [List.nil_append, ← tokens_eq] at htokens
  rw [parseCommand, ← htokens]
  generalize ParseState.loop input ⟨argvBuffer, argv, 0, false, 0, [], []⟩ = p at h hend ⊢
  have hpos := h.bufPos
  have hlen := h.argc
  rcases hend with ⟨hargc, rfl⟩ | ⟨hargc, rfl⟩
  · rw [List.append_nil]
    by_cases hword : word = []
    · have hzero : ¬ (p.bufPos > 0 ∧ p.argc < maxArgs) := by
        rw [hpos, hword]
        exact fun h => absurd h.1 (by decide)
      rw [if_neg hzero, wordList, if_pos hword, List.append_nil,
        List.take_of_length_le (by omega)]
      exact ⟨h.args, h.bufferStores, h.argvStores⟩
    · have hwordLen := List.length_pos_of_ne_nil hword
      rw [if_pos ⟨by omega, hargc⟩, wordList, if_neg hword, List.take_of_length_le]
      · exact ⟨h.args_endWord, h.bufferStores_store hargc 0, h.argvStores_endWord hargc⟩
      · rw [List.length_append, List.length_singleton]
        omega
  · have htake : (done ++ rest).take maxArgs = done := by
      rw [← hargc, hlen, List.take_left]
    rw [if_neg (by omega), wordList, if_pos rfl, List.append_nil, htake]
    exact ⟨h.args, h.bufferStores, h.argvStores⟩

/-! ## Quoted words -/

structure QuotableWord where
  chars : List UInt8
  nonempty : chars ≠ []
  short : chars.length ≤ 63
  noQuote : 0x22 ∉ chars
  noNul : 0 ∉ chars

def QuotableWord.quoted (w : QuotableWord) : List UInt8 := 0x22 :: (w.chars ++ [0x22])

/-- The words in quotes, with one space and `gap` more after each but the last. -/
def quoteLine : List (QuotableWord × Nat) → List UInt8
  | [] => []
  | [(w, _)] => w.quoted
  | (w, gap) :: next :: words =>
    w.quoted ++ (List.replicate (gap + 1) 0x20 ++ quoteLine (next :: words))

theorem tokensFrom_quoted {l : List UInt8} (hl : 0x22 ∉ l) (word line : List UInt8) :
    tokensFrom true word (l ++ line) = tokensFrom true (word ++ l) line := by
  induction l generalizing word with
  | nil => rw [List.nil_append, List.append_nil]
  | cons c l ih =>
    rw [List.mem_cons, not_or] at hl
    rw [List.cons_append, tokensFrom_char (Ne.symm hl.1) (by simp), ih hl.2, List.append_assoc,
      List.singleton_append]

theorem tokensFrom_word (w : QuotableWord) (line : List UInt8) :
    tokensFrom false [] (w.quoted ++ line) = tokensFrom false w.chars line := by
  rw [QuotableWord.quoted, List.cons_append, List.append_assoc, tokensFrom_quote, Bool.not_false,
    tokensFrom_quoted w.noQuote, List.nil_append, List.singleton_append, tokensFrom_quote,
    Bool.not_true]

theorem tokensFrom_spaces (n : Nat) (line : List UInt8) :
    tokensFrom false [] (List.replicate n 0x20 ++ line) = tokensFrom false [] line := by
  induction n with
  | zero => rfl
  | succ n ih =>
    rw [List.replicate_succ, List.cons_append,
      tokensFrom_separator (by decide) ⟨.inl rfl, Bool.false_ne_true⟩, ih]
    rfl

theorem tokens_quoteLine (words : List (QuotableWord × Nat)) :
    tokens (quoteLine words) = words.map fun w => w.1.chars := by
  rw [tokens_eq]
  induction words with
  | nil => rfl
  | cons word words ih =>
    obtain ⟨w, gap⟩ := word
    cases words with
    | nil =>
      have hword := tokensFrom_word w []
      rw [List.append_nil, tokensFrom_nil, wordList, if_neg w.nonempty] at hword
      exact hword
    | cons next words =>
      rw [quoteLine, tokensFrom_word, List.replicate_succ, List.cons_append,
        tokensFrom_separator (by decide) ⟨.inl rfl, Bool.false_ne_true⟩, tokensFrom_spaces, ih,
        wordList, if_neg w.nonempty]
      rfl

theorem quoteLine_noNul (words : List (QuotableWord × Nat)) : 0 ∉ quoteLine words := by
  have hquoted : ∀ w : QuotableWord, 0 ∉ w.quoted := fun w => by
    simp [QuotableWord.quoted, w.noNul]
  induction words with
  | nil => exact List.not_mem_nil
  | cons word words ih =>
    obtain ⟨w, gap⟩ := word
    cases words with
    | nil => exact hquoted w
    | cons next words => simp [quoteLine, hquoted w, ih]

/-- **The command line is cut into its first 20 tokens, and quoted words are found again.** -/
theorem parseCommand_tokens :
    (∀ (input : CStr) (argvBuffer : Nat → Nat → UInt8) (argv : Nat → Nat),
      (parseCommand input argvBuffer argv).args =
          ((tokens input).take maxArgs).map (List.take (maxArgLen - 1)) ∧
        (∀ s ∈ (parseCommand input argvBuffer argv).bufferStores,
          s.1 < maxArgs ∧ s.2 < maxArgLen) ∧
        ∀ k ∈ (parseCommand input argvBuffer argv).argvStores, k < maxArgs) ∧
    ∀ words : List (QuotableWord × Nat), words.length ≤ maxArgs →
      ∀ (argvBuffer : Nat → Nat → UInt8) (argv : Nat → Nat),
        (parseCommand (quoteLine words) argvBuffer argv).args = words.map fun w => w.1.chars := by
  refine ⟨fun input => parseCommand_spec input.2, fun words hlen argvBuffer argv => ?_⟩
  have hwords : ∀ w ∈ words, w.1.chars.take (maxArgLen - 1) = w.1.chars := fun w _ =>
    List.take_of_length_le w.1.short
  rw [(parseCommand_spec (quoteLine_noNul words) argvBuffer argv).1, tokens_quoteLine,
    List.take_of_length_le (by rwa [List.length_map]), List.map_map]
  exact List.map_congr_left hwords

end EphemeralOS
