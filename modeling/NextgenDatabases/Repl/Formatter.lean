import NextgenDatabases.Repl.Tokenizer

/-!
# The query formatter of the shell

Keywords are put in capitals, and clauses are written on their own lines, or the query on one line.
Formatting keeps the tokens of a query, read as the formatter reads them.
-/
namespace NextgenDatabases.Repl

open Foundations
open Planner (Str isWhitespace toUppercase upperChar)

variable (u : Unicode)

def tokenize (input : Str) : Option (List Token) :=
  if input = [] then some []
  else
    match _h : nextToken u input with
    | none => none
    | some (t, rest) => (tokenize rest).map (t :: ·)
termination_by input.length
decreasing_by exact nextToken_length _h

/-! ### Keywords -/

def vclKeywords : List Str :=
  ["SELECT", "FROM", "WHERE", "PROOF", "LIMIT", "OFFSET", "ORDER", "BY",
    "GROUP", "HAVING", "AS", "AND", "OR", "NOT", "IN", "BETWEEN", "LIKE",
    "EXISTS", "CONTAINS", "SIMILAR", "TO", "TRAVERSE", "DEPTH", "THRESHOLD",
    "DRIFT", "CONSISTENCY", "AT", "TIME", "EXPLAIN", "INSERT", "UPDATE",
    "DELETE", "SET", "INTO", "VALUES", "CREATE", "DROP", "ALTER", "JOIN",
    "ON", "WITH", "FEDERATION", "STORE", "OCTAD", "ALL", "ASC", "DESC",
    "COUNT", "SUM", "AVG", "MIN", "MAX", "DISTINCT", "ANALYZE"].map String.toList

def vclModalities : List Str :=
  ["GRAPH", "VECTOR", "TENSOR", "SEMANTIC", "DOCUMENT", "TEMPORAL",
    "PROVENANCE", "SPATIAL"].map String.toList

def clauseStarters : List Str :=
  ["SELECT", "FROM", "WHERE", "ORDER", "GROUP", "HAVING", "LIMIT",
    "OFFSET", "JOIN", "ON", "WITH", "SET", "INTO", "VALUES",
    "TRAVERSE", "PROOF", "EXPLAIN"].map String.toList

local instance : LawfulBEq Str := inferInstance

def uppercaseKeyword : Token → Token
  | .word w =>
    if toUppercase w ∈ vclKeywords then .keyword (toUppercase w)
    else if toUppercase w ∈ vclModalities then .modality (toUppercase w)
    else .word w
  | t => t

def uppercaseKeywords (tokens : List Token) : List Token := tokens.map uppercaseKeyword

/-! ### Clauses -/

/-- The loop of `indentClauses`, with the tokens it has passed. -/
structure Indent where
  before : List Token
  result : List Token
  isFirstKeyword : Bool

def isSpace (t : Token) : Bool := t = .whitespace

/-- The slice of the last two tokens starts with `EXPLAIN`. -/
def prevIsExplain (before : List Token) : Bool :=
  (before.drop (before.length - 2)).head? = some (.keyword "EXPLAIN".toList)

def indentToken (st : Indent) (token : Token) : Indent :=
  match token with
  | .keyword kw =>
    if kw ∈ clauseStarters then
      if st.isFirstKeyword then ⟨st.before ++ [token], st.result ++ [token], false⟩
      else
        let trimmed := st.result.rdropWhile isSpace
        if prevIsExplain st.before ∧ kw = "SELECT".toList then
          ⟨st.before ++ [token], trimmed ++ [.whitespace, token], false⟩
        else ⟨st.before ++ [token], trimmed ++ [.punctuation '\n', token], false⟩
    else if kw = "AND".toList ∨ kw = "OR".toList then
      ⟨st.before ++ [token],
        st.result.rdropWhile isSpace ++ [.punctuation '\n', .word "  ".toList, token],
        st.isFirstKeyword⟩
    else ⟨st.before ++ [token], st.result ++ [token], st.isFirstKeyword⟩
  | _ => ⟨st.before ++ [token], st.result ++ [token], st.isFirstKeyword⟩

def indentClauses (tokens : List Token) : List Token :=
  (tokens.foldl indentToken ⟨[], [], true⟩).result

/-! ### Whitespace -/

def writeToken (result : Str) : Token → Str
  | .whitespace =>
    if result ≠ [] ∧ result.getLast? ≠ some '\n' ∧ result.getLast? ≠ some ' ' then result ++ [' ']
    else result
  | .punctuation c =>
    if c = '\n' then result.rdropWhile (· = ' ') ++ ['\n'] else result ++ [c]
  | t => result ++ t.text

def trim (s : Str) : Str := (s.rdropWhile isWhitespace).dropWhile isWhitespace

def normalizeWhitespace (tokens : List Token) : Str := trim (tokens.foldl writeToken [])

def formatVcl (query : Str) : Option Str :=
  (tokenize u query).map fun tokens => normalizeWhitespace (indentClauses (uppercaseKeywords tokens))

/-- The turn of the loop of `formatVclCompact`, on the result and on whether a space was last. -/
def compactToken (st : Str × Bool) (token : Token) : Str × Bool :=
  match token with
  | .whitespace => if !st.2 ∧ st.1 ≠ [] then (st.1 ++ [' '], true) else st
  | .punctuation c =>
    if c = ',' ∨ c = ';' then
      ((if st.1.getLast? = some ' ' then st.1.dropLast else st.1) ++ [c, ' '], true)
    else (st.1 ++ [c], false)
  | t => (st.1 ++ t.text, false)

def formatVclCompact (query : Str) : Option Str :=
  (tokenize u query).map fun tokens =>
    trim ((uppercaseKeywords tokens).foldl compactToken ([], false)).1

variable {u} {t a b : Token} {ts : List Token} {s : Str} {q : State} {c d : Char}

/-! ### Tokens of a query -/

theorem tokenize_eq_some_iff : tokenize u s = some ts ↔ Lexes (nextToken u) s ts := by
  fun_induction tokenize u s generalizing ts with
  | case1 =>
    constructor
    · intro h
      cases h
      exact .nil
    · intro h
      cases h with
      | nil => rfl
      | cons hnext => cases hnext
  | case2 s hs hnext =>
    refine ⟨nofun, fun h => ?_⟩
    cases h with
    | nil => exact absurd rfl hs
    | cons h =>
      rw [hnext] at h
      cases h
  | case3 s hs t rest hnext ih =>
    rw [Option.map_eq_some_iff]
    constructor
    · rintro ⟨ts, hts, rfl⟩
      exact .cons hnext (ih.mp hts)
    · intro h
      cases h with
      | nil => exact absurd rfl hs
      | @cons t' ts _ rest' hnext' hrest =>
        rw [hnext] at hnext'
        cases hnext'
        exact ⟨ts, ih.mpr hrest, rfl⟩

/-- The token as the tokenizer reads it. -/
def Token.plain : Token → Token
  | .keyword w => .word w
  | .modality w => .word w
  | t => t

theorem plain_text (t : Token) : t.plain.text = t.text := by
  cases t <;> rfl

/-- What the formatter puts between the tokens of a query. -/
def isLayout (t : Token) : Bool :=
  t = .whitespace || t = .punctuation '\n' || t = .word "  ".toList

/-- A token that is read for itself, and not on into a blank. -/
def Clean (u : Unicode) (t : Token) : Prop := ∃ q, Reads u t.plain q ∧ q.ended = true

/-- The first token is read for itself in front of the second. -/
def Touch (u : Unicode) (a b : Token) : Prop :=
  ∀ s, Before (nextToken u) Token.text a.plain (b.text ++ s)

/-- Next to each other, the tokens are read as two. -/
def Adjacent (u : Unicode) (a b : Token) : Prop :=
  isLayout a = true ∨ isLayout b = true ∨ Touch u a b

theorem Clean.solid (h : Clean u t) : Solid isWhitespace Token.text t.plain := by
  obtain ⟨q, hreads, hq⟩ := h
  exact hreads.solid hq

theorem Clean.ends (h : Clean u t) : Ends (nextToken u) isWhitespace Token.text t.plain := by
  obtain ⟨q, hreads, hq⟩ := h
  exact hreads.ends hq

theorem Clean.text_ne_nil (h : Clean u t) : t.text ≠ [] := by
  rw [← plain_text]
  exact h.solid.nonempty

theorem Clean.not_layout (h : Clean u t) : isLayout t = false := by
  by_contra hlayout
  rw [Bool.not_eq_false, isLayout, Bool.or_eq_true, Bool.or_eq_true, decide_eq_true_eq,
    decide_eq_true_eq, decide_eq_true_eq] at hlayout
  have hhead := h.solid.head
  rcases hlayout with (rfl | rfl) | rfl
  · exact absurd (hhead ' ' rfl) (by decide)
  · exact absurd (hhead '\n' rfl) (by decide)
  · exact absurd (hhead ' ' rfl) (by decide)

theorem touch_iff (hb : b.text ≠ []) : Touch u a b ↔
    ∃ q, Reads u a.plain q ∧ ∀ c ∈ b.text.head?, step u q c = none := by
  have hhead (s : Str) : (b.text ++ s).head? = b.text.head? := List.head?_append_of_ne_nil _ hb
  simp only [Touch, before_iff, hhead, forall_const]

theorem plain_of_nextToken {rest : Str} (h : nextToken u s = some (t, rest)) : t.plain = t := by
  rw [nextToken_eq, lexer_eq_some_iff] at h
  obtain ⟨w, q, -, -, htoken, -⟩ := h
  unfold State.token at htoken
  split at htoken <;> cases htoken <;> rfl

/-- A token of the tokenizer is blank, or it is read for itself. -/
theorem clean_of_nextToken {rest : Str} (h : nextToken u s = some (t, rest))
    (hclosed : t.isClosed = true) : t = .whitespace ∨ Clean u t := by
  by_cases ht : t = .whitespace
  · exact .inl ht
  obtain ⟨q, hreads, -⟩ := before_iff.mp (before_of_nextToken h ht).2
  exact .inr ⟨q, (plain_of_nextToken h).symm ▸ hreads, hreads.ended hclosed ht⟩

/-! ### Keywords keep their tokens -/

theorem keyword_upper : ∀ k ∈ vclKeywords ++ vclModalities,
    k ≠ [] ∧ k.all Char.isUpper = true ∧ toUppercase k = k := by
  decide

theorem upper_range (h : d.isUpper = true) : 65 ≤ d.toNat ∧ d.toNat ≤ 90 := by
  simpa [Char.isUpper, UInt32.le_iff_toNat_le] using h

theorem not_blank_of_upper (h : d.isUpper = true) : isWhitespace d = false := by
  have hrange := upper_range h
  rw [Bool.eq_false_iff]
  intro hblank
  simp only [isWhitespace, Bool.or_eq_true, Bool.and_eq_true, decide_eq_true_eq,
    List.contains_iff_mem, List.mem_cons, List.not_mem_nil, or_false] at hblank
  omega

theorem isDigit_of_upper (h : d.isUpper = true) : d.isDigit = false := by
  have hrange := upper_range h
  rw [Bool.eq_false_iff]
  intro hdigit
  have hdigit : 48 ≤ d.toNat ∧ d.toNat ≤ 57 := Char.isDigit_iff_toNat.mp hdigit
  omega

theorem isAlphabetic_of_upper (h : d.isUpper = true) : u.isAlphabetic d = true := by
  have hrange := upper_range h
  rw [(u.ascii d (by omega)).1, Char.isAlpha, h, Bool.true_or]

theorem inWord_of_upper (h : d.isUpper = true) : inWord u d = true := by
  rw [inWord, Unicode.isAlphanumeric, isAlphabetic_of_upper h, Bool.true_or, Bool.true_or]

theorem first_of_upper (h : d.isUpper = true) : first u d = .word := by
  have hquote : ¬ (d = '\'' ∨ d = '"') := by
    rintro (rfl | rfl) <;> exact absurd h (by decide)
  rw [first, if_neg hquote, if_neg (by simp [not_blank_of_upper h]), isAlphabetic_of_upper h,
    Bool.true_or, if_pos rfl]

theorem path_of_upper {w : Str} (hne : w ≠ []) (h : w.all Char.isUpper = true) :
    w.foldlM (step u) .start = some .word := by
  obtain ⟨d, w, rfl⟩ := List.exists_cons_of_ne_nil hne
  rw [List.all_cons, Bool.and_eq_true] at h
  refine path_cons.mpr ⟨.word, congrArg some (first_of_upper h.1), ?_⟩
  induction w with
  | nil => rfl
  | cons c w ih =>
    rw [List.all_cons, Bool.and_eq_true] at h
    exact path_cons.mpr ⟨.word, if_pos (inWord_of_upper h.2.1), ih (by simp) ⟨h.1, h.2.2⟩⟩

theorem toUpper_E (h : c.toUpper = 'E') : c = 'e' ∨ c = 'E' := by
  rw [Char.toUpper] at h
  split at h
  · have hval : c.val + ('A'.val - 'a'.val) = 'e'.val + ('A'.val - 'a'.val) :=
      (congrArg Char.val h).trans (show 'E'.val = 'e'.val + ('A'.val - 'a'.val) by decide)
    exact .inl (Char.val_inj.mp ((UInt32.add_left_inj _).mp hval))
  · exact .inr h

/-- No other character has `E` first in its uppercase. -/
theorem upperChar_E {w v : Str} (h : upperChar c ++ w = 'E' :: v) : c = 'e' ∨ c = 'E' := by
  unfold upperChar at h
  split at h
  all_goals
    rw [List.cons_append, List.cons.injEq] at h
    first | exact toUpper_E h.1 | exact absurd h.1 (by decide)

theorem inWord_of_first (h : first u c = .word) : inWord u c = true := by
  unfold first at h
  split_ifs at h with _ _ hword
  rw [inWord, Unicode.isAlphanumeric]
  simp only [Bool.or_eq_true] at hword ⊢
  exact hword.imp_left .inl

/-- A number does not go on into a capital that takes the place of a letter it ends before. -/
theorem step_upper (h : step u q c = none) (hc : first u c = .word) (hd : d.isUpper = true)
    (hE : d = 'E' → c = 'e' ∨ c = 'E') : step u q d = none := by
  have hdigit := isDigit_of_upper hd
  have hne : d ≠ '.' ∧ d ≠ '+' ∧ d ≠ '-' ∧ d ≠ 'e' := by
    refine ⟨?_, ?_, ?_, ?_⟩ <;> rintro rfl <;> exact absurd hd (by decide)
  cases q with
  | start => cases h
  | inside quote =>
    rw [step] at h
    split_ifs at h
  | escaped quote => cases h
  | blank => rw [step, if_neg (by simp [not_blank_of_upper hd])]
  | word =>
    rw [step, if_pos (inWord_of_first hc)] at h
    cases h
  | minus => rw [step, if_neg (by simp [hdigit])]
  | mantissa =>
    have hcE : ¬ (c = 'e' ∨ c = 'E') := by
      intro he
      rw [step, if_pos he] at h
      split_ifs at h
    simp [step, inMantissa, hdigit, hne, mt hE hcE]
  | power => simp [step, hdigit, hne]
  | exponent => rw [step, if_neg (by simp [hdigit])]
  | closed => rfl
  | single => rfl

theorem uppercaseKeyword_cases (t : Token) : uppercaseKeyword t = t ∨
    ∃ w, t = .word w ∧ toUppercase w ∈ vclKeywords ++ vclModalities ∧
      (uppercaseKeyword t = .keyword (toUppercase w) ∨
        uppercaseKeyword t = .modality (toUppercase w)) := by
  cases t with
  | word w =>
    rw [uppercaseKeyword]
    split_ifs with hkeyword hmodality
    · exact .inr ⟨w, rfl, List.mem_append_left _ hkeyword, .inl rfl⟩
    · exact .inr ⟨w, rfl, List.mem_append_right _ hmodality, .inr rfl⟩
    · exact .inl rfl
  | _ => exact .inl rfl

/-- A keyword is read as its word was. -/
theorem reads_uppercase (hplain : t.plain = t) (h : Reads u t q) :
    Reads u (uppercaseKeyword t).plain q := by
  obtain heq | ⟨w, rfl, hmem, hupper⟩ := uppercaseKeyword_cases t
  · rwa [heq, hplain]
  obtain ⟨hne, hall, -⟩ := keyword_upper _ hmem
  obtain rfl := state_of_word h.2
  have hword : (uppercaseKeyword (.word w)).plain = .word (toUppercase w) := by
    rcases hupper with hupper | hupper <;> (rw [hupper]; rfl)
  rw [hword]
  exact ⟨path_of_upper hne hall, rfl⟩

theorem clean_uppercase (hplain : t.plain = t) (h : Clean u t) : Clean u (uppercaseKeyword t) := by
  obtain ⟨q, hreads, hq⟩ := h
  exact ⟨q, reads_uppercase hplain (hplain ▸ hreads), hq⟩

/-- What ends before a word ends before its keyword. -/
theorem step_uppercase (hplain : t.plain = t) (ht : Clean u t)
    (h : ∀ c ∈ t.text.head?, step u q c = none) :
    ∀ c ∈ (uppercaseKeyword t).text.head?, step u q c = none := by
  obtain heq | ⟨w, rfl, hmem, hupper⟩ := uppercaseKeyword_cases t
  · rwa [heq]
  obtain ⟨hne, hall, -⟩ := keyword_upper _ hmem
  have htext : (uppercaseKeyword (.word w)).text = toUppercase w := by
    rcases hupper with hupper | hupper <;> (rw [hupper]; rfl)
  rw [htext]
  intro d hd
  obtain ⟨v, hv⟩ := List.head?_eq_some_iff.mp hd
  rw [hv, List.all_cons, Bool.and_eq_true] at hall
  obtain ⟨q', hreads, -⟩ := ht
  obtain rfl := state_of_word hreads.2
  obtain ⟨c, body, rfl, hbody⟩ := exists_cons_of_path hreads.1 nofun
  exact step_upper (h c rfl) (word_of_path hbody first_ne_start) hall.1 fun hE =>
    upperChar_E (hE ▸ hv)

/-- The tokens of a query, with keywords, end before each other as they did. -/
theorem chain_of_lexes (h : Lexes (nextToken u) s ts) (hclosed : ∀ t ∈ ts, t.isClosed = true) :
    (uppercaseKeywords ts).IsChain (Adjacent u) := by
  induction h with
  | nil => exact .nil
  | @cons a ts s rest hnext hrest ih =>
    have hchain := ih fun t ht => hclosed t (List.mem_cons_of_mem _ ht)
    cases hrest with
    | nil => exact .singleton (uppercaseKeyword a)
    | @cons b ts _ rest' hnext' hrest' =>
      refine .cons_cons ?_ hchain
      by_cases ha : a = .whitespace
      · exact .inl (by rw [ha]; rfl)
      by_cases hb : b = .whitespace
      · exact .inr (.inl (by rw [hb]; rfl))
      have hplain := plain_of_nextToken hnext'
      have hclean := (clean_of_nextToken hnext' (hclosed b (by simp))).resolve_left hb
      obtain ⟨hs, -⟩ := before_of_nextToken hnext' hb
      obtain ⟨-, hbefore⟩ := before_of_nextToken hnext ha
      obtain ⟨q, hreads, hstop⟩ := before_iff.mp hbefore
      rw [hs, List.head?_append_of_ne_nil _ hclean.text_ne_nil] at hstop
      refine .inr (.inr ((touch_iff (clean_uppercase hplain hclean).text_ne_nil).mpr ⟨q, ?_, ?_⟩))
      · exact reads_uppercase (plain_of_nextToken hnext) hreads
      · exact step_uppercase hplain hclean hstop

theorem clean_of_lexes (h : Lexes (nextToken u) s ts) (hclosed : ∀ t ∈ ts, t.isClosed = true) :
    ∀ t ∈ uppercaseKeywords ts, t = .whitespace ∨ Clean u t := by
  induction h with
  | nil => nofun
  | @cons a ts s rest hnext hrest ih =>
    intro t ht
    rcases List.mem_cons.mp ht with rfl | ht
    · rcases clean_of_nextToken hnext (hclosed a List.mem_cons_self) with rfl | hclean
      · exact .inl rfl
      · exact .inr (clean_uppercase (plain_of_nextToken hnext) hclean)
    · exact ih (fun t ht => hclosed t (List.mem_cons_of_mem _ ht)) t ht

theorem plain_of_lexes (h : Lexes (nextToken u) s ts) : ∀ t ∈ ts, t.plain = t := by
  induction h with
  | nil => nofun
  | cons hnext _ ih => exact List.forall_mem_cons.mpr ⟨plain_of_nextToken hnext, ih⟩

theorem uppercaseKeyword_again (t : Token) (hplain : t.plain = t) :
    uppercaseKeyword (uppercaseKeyword t).plain = uppercaseKeyword t := by
  obtain heq | ⟨w, rfl, hmem, -⟩ := uppercaseKeyword_cases t
  · rw [heq, hplain, heq]
  obtain ⟨-, -, hagain⟩ := keyword_upper _ hmem
  rw [uppercaseKeyword]
  split_ifs with hkeyword hmodality
  · rw [Token.plain, uppercaseKeyword, hagain, if_pos hkeyword]
  · rw [Token.plain, uppercaseKeyword, hagain, if_neg hkeyword, if_pos hmodality]
  · exact absurd hmem (by simp [hkeyword, hmodality])

/-! ### Clauses keep their tokens -/

/-- The tokens of the query, without what is between them. -/
def solids (ts : List Token) : List Token := ts.filter (!isLayout ·)

theorem solids_append (as bs : List Token) : solids (as ++ bs) = solids as ++ solids bs :=
  List.filter_append ..

theorem solids_of_layout (h : ∀ t ∈ ts, isLayout t = true) : solids ts = [] :=
  List.filter_eq_nil_iff.mpr fun t ht => by simp [h t ht]

theorem solids_rdropWhile (ts : List Token) : solids (ts.rdropWhile isSpace) = solids ts := by
  induction ts using List.reverseRecOn with
  | nil => rfl
  | append_singleton ts t ih =>
    rw [List.rdropWhile_concat]
    split_ifs with ht
    · obtain rfl : t = .whitespace := of_decide_eq_true ht
      rw [ih, solids_append]
      exact (List.append_nil _).symm
    · rfl

/-- The tokens passed are in the result, and tokens next to each other there were so before. -/
structure Indented (u : Unicode) (st : Indent) : Prop where
  tokens : solids st.result = solids st.before
  chain : st.result.IsChain (Adjacent u)
  last : st.result.getLast? = st.before.getLast?
  clean : ∀ t ∈ st.result, isLayout t = true ∨ Clean u t

/-- A token is put behind those before it. -/
theorem Indented.push {before result : List Token} {first first' : Bool}
    (h : Indented u ⟨before, result, first⟩) (ht : isLayout t = true ∨ Clean u t)
    (hnext : ∀ l ∈ before.getLast?, Adjacent u l t) :
    Indented u ⟨before ++ [t], result ++ [t], first'⟩ where
  tokens := by rw [solids_append, solids_append, h.tokens]
  chain := List.isChain_append.mpr ⟨h.chain, .singleton t, fun l hl c hc => by
    obtain rfl : t = c := by simpa using hc
    exact hnext l (h.last ▸ hl)⟩
  last := by simp
  clean := by
    intro c hc
    rcases List.mem_append.mp hc with hc | hc
    · exact h.clean c hc
    · exact List.mem_singleton.mp hc ▸ ht

theorem chain_of_layout {gap : List Token} (h : ∀ g ∈ gap, isLayout g = true) :
    (gap ++ [t]).IsChain (Adjacent u) := by
  induction gap with
  | nil => exact .singleton t
  | cons g gap ih =>
    refine List.isChain_cons.mpr ⟨fun _ _ => .inl (h g List.mem_cons_self), ?_⟩
    exact ih fun g hg => h g (List.mem_cons_of_mem _ hg)

/-- Space is taken away at the end, and something else is put before the token. -/
theorem Indented.gap {before result : List Token} {first first' : Bool}
    (h : Indented u ⟨before, result, first⟩) (ht : isLayout t = true ∨ Clean u t)
    (gap : List Token) (hne : gap ≠ []) (hgap : ∀ g ∈ gap, isLayout g = true) :
    Indented u ⟨before ++ [t], result.rdropWhile isSpace ++ (gap ++ [t]), first'⟩ where
  tokens := by
    rw [solids_append, solids_append, solids_append, solids_of_layout hgap, solids_rdropWhile,
      h.tokens, List.nil_append]
  chain := by
    obtain ⟨g, gap, rfl⟩ := List.exists_cons_of_ne_nil hne
    refine List.isChain_append.mpr ⟨?_, chain_of_layout hgap, fun l _ c hc => ?_⟩
    · exact h.chain.prefix (List.rdropWhile_prefix isSpace result)
    · obtain rfl : g = c := by simpa using hc
      exact .inr (.inl (hgap g List.mem_cons_self))
  last := by simp
  clean := by
    intro c hc
    rcases List.mem_append.mp hc with hc | hc
    · exact h.clean c ((List.rdropWhile_prefix isSpace result).subset hc)
    · rcases List.mem_append.mp hc with hc | hc
      · exact .inl (hgap c hc)
      · exact List.mem_singleton.mp hc ▸ ht

theorem indented_step {st : Indent} (h : Indented u st) (ht : isLayout t = true ∨ Clean u t)
    (hnext : ∀ l ∈ st.before.getLast?, Adjacent u l t) : Indented u (indentToken st t) := by
  obtain ⟨before, result, first⟩ := st
  unfold indentToken
  split
  · split_ifs
    · exact h.push ht hnext
    · exact h.gap ht [.whitespace] (by simp) (by decide)
    · exact h.gap ht [.punctuation '\n'] (by simp) (by decide)
    · exact h.gap ht [.punctuation '\n', .word "  ".toList] (by simp) (by decide)
    · exact h.push ht hnext
  · exact h.push ht hnext

theorem indentToken_before (st : Indent) (t : Token) :
    (indentToken st t).before = st.before ++ [t] := by
  unfold indentToken
  split
  · split_ifs <;> rfl
  · rfl

theorem indented_run (h : ts.IsChain (Adjacent u)) (hclean : ∀ t ∈ ts, t = .whitespace ∨ Clean u t) :
    Indented u (ts.foldl indentToken ⟨[], [], true⟩) ∧
      (ts.foldl indentToken ⟨[], [], true⟩).before = ts := by
  induction ts using List.reverseRecOn with
  | nil => exact ⟨⟨rfl, .nil, rfl, nofun⟩, rfl⟩
  | append_singleton ts t ih =>
    obtain ⟨hchain, -, hlast⟩ := List.isChain_append.mp h
    obtain ⟨hrun, hbefore⟩ := ih hchain fun t ht => hclean t (List.mem_append_left _ ht)
    have ht : isLayout t = true ∨ Clean u t :=
      (hclean t (by simp)).imp_left fun ht => by rw [ht]; rfl
    rw [List.foldl_append, List.foldl_cons, List.foldl_nil]
    refine ⟨indented_step hrun ht fun l hl => hlast l (hbefore ▸ hl) t rfl, ?_⟩
    rw [indentToken_before, hbefore]

/-! ### Text keeps the tokens -/

/-- The tokens are written, and where the last of them is still open it is the last token. -/
structure Writing (u : Unicode) (out : Str) (ts : List Token) : Prop where
  written : ∃ last, Written (nextToken u) isWhitespace Token.text out
    ((solids ts).map Token.plain) last ∧
      ∀ l ∈ last, ∃ t ∈ ts.getLast?, isLayout t = false ∧ t.plain = l

variable {out : Str}

/-- Nothing touches what comes next. -/
theorem Writing.of_layout (ht : isLayout t = true)
    (h : Written (nextToken u) isWhitespace Token.text out ((solids ts).map Token.plain) none) :
    Writing u out (ts ++ [t]) := by
  have hnone : solids [t] = [] := by simp [solids, ht]
  refine ⟨none, ?_, nofun⟩
  rwa [solids_append, hnone, List.append_nil]

theorem Writing.token (h : Writing u out ts) (ht : Clean u t)
    (hnext : ∀ l ∈ ts.getLast?, Adjacent u l t) : Writing u (out ++ t.text) (ts ++ [t]) := by
  obtain ⟨last, hwritten, hlast⟩ := h
  have htouch : ∀ l ∈ last, ∀ s, Before (nextToken u) Token.text l (t.plain.text ++ s) := by
    intro l hl s
    obtain ⟨a, ha, hlayout, rfl⟩ := hlast l hl
    rw [plain_text]
    obtain hnone | hnone | htouch := hnext a ha
    · rw [hnone] at hlayout
      cases hlayout
    · rw [ht.not_layout] at hnone
      cases hnone
    · exact htouch s
  have hsolids : solids [t] = [t] := by simp [solids, ht.not_layout]
  refine ⟨some t.plain, ?_, fun l hl => ⟨t, by simp, ht.not_layout, Option.some.inj hl⟩⟩
  rw [solids_append, hsolids, List.map_append, ← plain_text]
  exact hwritten.token ht.solid ht.ends htouch

theorem writing_step (h : Writing u out ts) (ht : isLayout t = true ∨ Clean u t)
    (hnext : ∀ l ∈ ts.getLast?, Adjacent u l t) :
    Writing u (writeToken out t) (ts ++ [t]) := by
  rcases ht with ht | ht
  · obtain ⟨last, hwritten, -⟩ := h
    have hspace : isWhitespace ' ' = true := by decide
    rw [isLayout, Bool.or_eq_true, Bool.or_eq_true, decide_eq_true_eq, decide_eq_true_eq,
      decide_eq_true_eq] at ht
    rcases ht with (rfl | rfl) | rfl
    · refine .of_layout rfl ?_
      rw [writeToken]
      split_ifs with hpush
      · exact hwritten.blank hspace
      · refine hwritten.untouched fun c hc => ?_
        rw [Option.mem_def] at hc
        have hend : c = '\n' ∨ c = ' ' := by
          by_contra hne
          rw [not_or] at hne
          refine hpush ⟨?_, by simp [hc, hne.1], by simp [hc, hne.2]⟩
          rintro rfl
          cases hc
        rcases hend with rfl | rfl <;> decide
    · refine .of_layout rfl ?_
      rw [writeToken, if_pos rfl]
      refine hwritten.blank_again (fun c hc => ?_) (by decide)
      rw [of_decide_eq_true hc]
      decide
    · refine .of_layout (by decide) ?_
      have htwo := (hwritten.blank hspace).blank hspace
      rwa [List.append_assoc] at htwo
  · have hout : writeToken out t = out ++ t.text := by
      have hlayout := ht.not_layout
      unfold writeToken
      split
      · cases hlayout
      · rename_i c
        have hc : c ≠ '\n' := by
          rintro rfl
          cases hlayout
        rw [if_neg hc]
        rfl
      · rfl
    rw [hout]
    exact h.token ht hnext

/-- What is written, without the blanks at its ends, is read back as the tokens. -/
theorem Writing.tokenize (h : Writing u out ts) : ∃ ts', tokenize u (trim out) = some ts' ∧
    ts'.filter (· ≠ .whitespace) = (solids ts).map Token.plain := by
  obtain ⟨last, hwritten, -⟩ := h
  have hspace : ∀ t, Solid isWhitespace Token.text t → t ≠ .whitespace := by
    rintro t hsolid rfl
    exact absurd (hsolid.head ' ' rfl) (by decide)
  obtain ⟨ts', hlexes, hts'⟩ := hwritten.trim.lexes (fun c s hc => nextToken_blank s hc) hspace
  exact ⟨ts', tokenize_eq_some_iff.mpr hlexes, hts'⟩

theorem writing_run (h : ts.IsChain (Adjacent u)) (hclean : ∀ t ∈ ts, isLayout t = true ∨ Clean u t) :
    Writing u (ts.foldl writeToken []) ts := by
  induction ts using List.reverseRecOn with
  | nil => exact ⟨none, written_nil, nofun⟩
  | append_singleton ts t ih =>
    obtain ⟨hchain, -, hlast⟩ := List.isChain_append.mp h
    have hwriting := ih hchain fun t ht => hclean t (List.mem_append_left _ ht)
    rw [List.foldl_append, List.foldl_cons, List.foldl_nil]
    exact writing_step hwriting (hclean t (by simp)) fun l hl => hlast l hl t rfl

/-- Tokens of a query and tokens read back are the same to the formatter. -/
theorem read_back {ts' : List Token} (h : Lexes (nextToken u) s ts)
    (hclosed : ∀ t ∈ ts, t.isClosed = true)
    (hback : ts'.filter (· ≠ .whitespace) = (solids (uppercaseKeywords ts)).map Token.plain) :
    (uppercaseKeywords ts').filter (· ≠ .whitespace) =
      (uppercaseKeywords ts).filter (· ≠ .whitespace) := by
  have hspace (t : Token) : uppercaseKeyword t ≠ .whitespace ↔ t ≠ .whitespace := by
    obtain heq | ⟨w, rfl, -, heq | heq⟩ := uppercaseKeyword_cases t <;> simp [heq]
  have hsolids : (uppercaseKeywords ts).filter (· ≠ .whitespace) =
      solids (uppercaseKeywords ts) := by
    refine List.filter_congr fun t ht => ?_
    rcases clean_of_lexes h hclosed t ht with rfl | hclean
    · rfl
    · have hne : t ≠ .whitespace := by
        rintro rfl
        cases hclean.not_layout
      simp [hne, hclean.not_layout]
  have hagain : ∀ t ∈ solids (uppercaseKeywords ts), uppercaseKeyword t.plain = t := by
    intro t ht
    obtain ⟨t, hmem, rfl⟩ := List.mem_map.mp (List.mem_of_mem_filter ht)
    exact uppercaseKeyword_again t (plain_of_lexes h t hmem)
  calc (uppercaseKeywords ts').filter (· ≠ .whitespace)
      = (ts'.filter (· ≠ .whitespace)).map uppercaseKeyword := by
        rw [uppercaseKeywords, List.filter_map]
        simp only [Function.comp_def, hspace]
    _ = (solids (uppercaseKeywords ts)).map fun t => uppercaseKeyword t.plain := by
        rw [hback, List.map_map]
        rfl
    _ = solids (uppercaseKeywords ts) := (List.map_congr_left hagain).trans (List.map_id _)
    _ = (uppercaseKeywords ts).filter (· ≠ .whitespace) := hsolids.symm

/-- Formatting keeps every token of a query in which string literals are closed. -/
theorem format_keeps_tokens (u : Unicode) {query : Str} {tokens : List Token}
    (h : tokenize u query = some tokens) (hclosed : ∀ t ∈ tokens, t.isClosed = true) :
    ∃ formatted again, formatVcl u query = some formatted ∧ tokenize u formatted = some again ∧
      (uppercaseKeywords again).filter (· ≠ .whitespace) =
        (uppercaseKeywords tokens).filter (· ≠ .whitespace) := by
  have hlexes := tokenize_eq_some_iff.mp h
  have hchain := chain_of_lexes hlexes hclosed
  obtain ⟨hindented, hbefore⟩ := indented_run hchain (clean_of_lexes hlexes hclosed)
  obtain ⟨again, hagain, hback⟩ := (writing_run hindented.chain hindented.clean).tokenize
  rw [hindented.tokens, hbefore] at hback
  exact ⟨_, again, by rw [formatVcl, h]; rfl, hagain, read_back hlexes hclosed hback⟩

theorem format_keeps_tokens_and : ∃ formatted again,
    formatVcl asciiTables "x=1and 'a b'".toList = some formatted ∧
      tokenize asciiTables formatted = some again ∧
      (uppercaseKeywords again).filter (· ≠ .whitespace) =
        [.word "x".toList, .punctuation '=', .number "1".toList, .keyword "AND".toList,
          .stringLiteral "'a b'".toList] :=
  @format_keeps_tokens asciiTables _
    [.word "x".toList, .punctuation '=', .number "1".toList, .word "and".toList,
      .whitespace, .stringLiteral "'a b'".toList]
    (tokenize_eq_some_iff.mpr
      (.cons rfl (.cons rfl (.cons rfl (.cons rfl (.cons rfl (.cons rfl .nil)))))))
    (by decide)

/-! ### One line -/

/-- The tokens are written, with a space last where the loop takes note of one. -/
structure Compacted (u : Unicode) (st : Str × Bool) (ts : List Token) : Prop where
  writing : Writing u st.1 ts
  space : st.2 = true → st.1.getLast? = some ' '

/-- A comma is no part of the token before it. -/
theorem before_separator (h : Ends (nextToken u) isWhitespace Token.text t) (hc : c = ',' ∨ c = ';')
    (s : Str) : Before (nextToken u) Token.text t (c :: s) := by
  obtain ⟨q, hreads, hstop⟩ := before_iff.mp (h.blank ' ' [] (by decide))
  have hspace : step u q ' ' = none := hstop ' ' rfl
  have hended : q.ended = true := by
    cases q with
    | start => cases hspace
    | blank => cases hspace
    | inside quote =>
      rw [step] at hspace
      split_ifs at hspace
    | escaped quote => cases hspace
    | _ => rfl
  exact before_iff.mpr ⟨q, hreads, fun _ hd => Option.some.inj hd ▸ step_separator hended hc⟩

/-- A space before the comma is taken back, and one is put behind it. -/
theorem Writing.separator (h : Writing u out ts) (ht : Clean u (.punctuation c))
    (hc : c = ',' ∨ c = ';') :
    Writing u ((if out.getLast? = some ' ' then out.dropLast else out) ++ [c, ' '])
      (ts ++ [.punctuation c]) := by
  obtain ⟨last, hwritten, -⟩ := h
  have hspace : isWhitespace ' ' = true := by decide
  have hends : ∃ last', Written (nextToken u) isWhitespace Token.text
      (if out.getLast? = some ' ' then out.dropLast else out) ((solids ts).map Token.plain) last' ∧
      ∀ l ∈ last', Ends (nextToken u) isWhitespace Token.text l := by
    split_ifs with hlast
    · obtain ⟨o, rfl⟩ := List.getLast?_eq_some_iff.mp hlast
      rw [List.dropLast_concat]
      exact hwritten.pop hspace
    · exact ⟨last, hwritten, hwritten.ends⟩
  obtain ⟨last', hwritten', hends'⟩ := hends
  have hcomma := hwritten'.token ht.solid ht.ends fun l hl s => before_separator (hends' l hl) hc s
  have hsolids : solids [.punctuation c] = [.punctuation c] := by simp [solids, ht.not_layout]
  refine ⟨none, ?_, nofun⟩
  rw [solids_append, hsolids, List.map_append]
  have hblank := hcomma.blank hspace
  rwa [List.append_assoc] at hblank

theorem compacted_step {st : Str × Bool} (h : Compacted u st ts) (ht : t = .whitespace ∨ Clean u t)
    (hnext : ∀ l ∈ ts.getLast?, Adjacent u l t) :
    Compacted u (compactToken st t) (ts ++ [t]) := by
  obtain ⟨out, space⟩ := st
  obtain ⟨hwriting, hspace⟩ := h
  have hclean (ht : Clean u t) : Compacted u (out ++ t.text, false) (ts ++ [t]) :=
    ⟨hwriting.token ht hnext, nofun⟩
  unfold compactToken
  split
  · obtain ⟨last, hwritten, -⟩ := hwriting
    split_ifs with hpush
    · exact ⟨.of_layout rfl (hwritten.blank (by decide)), fun _ => by simp⟩
    · refine ⟨.of_layout rfl (hwritten.untouched fun c hc => ?_), hspace⟩
      cases space with
      | true =>
        rw [Option.mem_def.mp hc] at hspace
        rw [Option.some.inj (hspace rfl)]
        decide
      | false =>
        obtain rfl : out = [] := by simpa using hpush
        cases hc
  · rename_i c
    have hpunctuation := ht.resolve_left nofun
    by_cases hc : c = ',' ∨ c = ';'
    · rw [if_pos hc]
      exact ⟨hwriting.separator hpunctuation hc, fun _ => by simp⟩
    · rw [if_neg hc]
      exact hclean hpunctuation
  · rename_i hne _
    exact hclean (ht.resolve_left hne)

theorem compacted_run (h : ts.IsChain (Adjacent u))
    (hclean : ∀ t ∈ ts, t = .whitespace ∨ Clean u t) :
    Compacted u (ts.foldl compactToken ([], false)) ts := by
  induction ts using List.reverseRecOn with
  | nil => exact ⟨⟨none, written_nil, nofun⟩, nofun⟩
  | append_singleton ts t ih =>
    obtain ⟨hchain, -, hlast⟩ := List.isChain_append.mp h
    have hcompacted := ih hchain fun t ht => hclean t (List.mem_append_left _ ht)
    rw [List.foldl_append, List.foldl_cons, List.foldl_nil]
    exact compacted_step hcompacted (hclean t (by simp)) fun l hl => hlast l hl t rfl

/-- Also on one line a query keeps every token, with the spaces around its commas moved. -/
theorem compact_keeps_tokens (u : Unicode) {query : Str} {tokens : List Token}
    (h : tokenize u query = some tokens) (hclosed : ∀ t ∈ tokens, t.isClosed = true) :
    ∃ formatted again, formatVclCompact u query = some formatted ∧
      tokenize u formatted = some again ∧
      (uppercaseKeywords again).filter (· ≠ .whitespace) =
        (uppercaseKeywords tokens).filter (· ≠ .whitespace) := by
  have hlexes := tokenize_eq_some_iff.mp h
  have hcompacted := compacted_run (chain_of_lexes hlexes hclosed) (clean_of_lexes hlexes hclosed)
  obtain ⟨again, hagain, hback⟩ := hcompacted.writing.tokenize
  exact ⟨_, again, by rw [formatVclCompact, h]; rfl, hagain, read_back hlexes hclosed hback⟩

theorem compact_keeps_tokens_list : ∃ formatted again,
    formatVclCompact asciiTables "limit ,a".toList = some formatted ∧
      tokenize asciiTables formatted = some again ∧
      (uppercaseKeywords again).filter (· ≠ .whitespace) =
        [.keyword "LIMIT".toList, .punctuation ',', .word "a".toList] :=
  @compact_keeps_tokens asciiTables _
    [.word "limit".toList, .whitespace, .punctuation ',', .word "a".toList]
    (tokenize_eq_some_iff.mpr (.cons rfl (.cons rfl (.cons rfl (.cons rfl .nil))))) (by decide)

end NextgenDatabases.Repl
