import NextgenDatabases.Planner.Consistency

/-!
# Tokens and fingerprints

The tokens of a query, and which queries share their fingerprint with others that have other
tokens.
-/
namespace NextgenDatabases.Planner

open Foundations

/-! ### Tokens -/

inductive Token
  | word (text : Str)
  | symbol (c : Char)
  /-- A quoted string literal, which may lack its closing quote. -/
  | literal (quote : Char) (body : Str) (closed : Bool)
  deriving DecidableEq

def isQuote (c : Char) : Bool := c = '\'' || c = '"'

def symbols : Str := "()[]\x7b\x7d,;:.=<>!+-*/%&|^~?@#\\`".toList

/-- Punctuation. Characters that are neither this nor quotes nor whitespace make up words. -/
def isSymbol (c : Char) : Bool := symbols.contains c

/-- Where the lexer is: in a word, in a literal, or after a backslash in a literal. -/
inductive Mode
  | outside (word : Str)
  | inside (quote : Char) (body : Str)
  | escaped (quote : Char) (body : Str)

def flush (word : Str) : List Token := if word = [] then [] else [.word word]

/-- The tokens that end with a character. -/
def lexChar : Mode → Char → List Token × Mode
  | .outside word, c =>
    if isQuote c then (flush word, .inside c [])
    else if isWhitespace c then (flush word, .outside [])
    else if isSymbol c then (flush word ++ [.symbol c], .outside [])
    else ([], .outside (word ++ [c]))
  | .inside quote body, c =>
    if c = quote then ([.literal quote body true], .outside [])
    else if c = '\\' then ([], .escaped quote (body ++ [c]))
    else ([], .inside quote (body ++ [c]))
  | .escaped quote body, c => ([], .inside quote (body ++ [c]))

/-- The token that the end of the query leaves. -/
def lexEnd : Mode → List Token
  | .outside word => flush word
  | .inside quote body => [.literal quote body false]
  | .escaped quote body => [.literal quote body false]

def lexFrom (m : Mode) : Str → List Token
  | [] => lexEnd m
  | c :: s => (lexChar m c).1 ++ lexFrom (lexChar m c).2 s

def tokens (query : Str) : List Token := lexFrom (.outside []) query

/-- The tokens are equal, or the same keyword up to the case of its letters. -/
def SameToken (t t' : Token) : Prop :=
  t = t' ∨ ∃ w w', t = .word w ∧ t' = .word w' ∧ isKeyword w = true ∧ isKeyword w' = true ∧
    toLowercase w = toLowercase w'

def SameTokens (a b : Str) : Prop := List.Forall₂ SameToken (tokens a) (tokens b)

/-- Not a literal with whitespace in it, or without its closing quote. -/
def Token.Plain : Token → Prop
  | .literal _ body closed => closed = true ∧ ∀ c ∈ body, isWhitespace c = false
  | _ => True

/-! ### Words -/

section Words

def NoBlank (s : Str) : Prop := ∀ c ∈ s, isWhitespace c = false

/-- A string is a word, or starts with one and whitespace. -/
theorem words_induction {motive : Str → Prop} (word : ∀ w, NoBlank w → motive w)
    (blank : ∀ w c s, NoBlank w → isWhitespace c = true → motive s → motive (w ++ c :: s))
    (s : Str) : motive s := by
  induction hn : s.length using Nat.strong_induction_on generalizing s with
  | _ n ih =>
    have hword : NoBlank (s.takeWhile fun c => !isWhitespace c) := by
      intro c hc
      simpa using List.all_eq_true.mp List.all_takeWhile c hc
    cases hrest : s.dropWhile fun c => !isWhitespace c with
    | nil =>
      rw [← List.takeWhile_append_dropWhile (p := fun c => !isWhitespace c) (l := s), hrest,
        List.append_nil]
      exact word _ hword
    | cons c t =>
      have hsplit := List.takeWhile_append_dropWhile (p := fun c => !isWhitespace c) (l := s)
      rw [hrest] at hsplit
      have hc : isWhitespace c = true := by
        have hhead := List.head?_dropWhile_not (fun c => !isWhitespace c) s
        rw [hrest] at hhead
        simpa using hhead
      have hlength : t.length < n := by
        rw [← hn, ← hsplit, List.length_append, List.length_cons]
        omega
      rw [← hsplit]
      exact blank _ c t hword hc (ih t.length hlength t rfl)

theorem splitWhitespace_nil : splitWhitespace [] = [] := rfl

theorem splitWhitespace_word {w : Str} (hw : NoBlank w) (hne : w ≠ []) :
    splitWhitespace w = [w] := by
  rw [splitWhitespace, List.splitOnP_eq_singleton hw, List.filter_cons_of_pos (by simpa using hne)]
  rfl

theorem splitWhitespace_append {s t : Str} {c : Char} (hc : isWhitespace c = true) :
    splitWhitespace (s ++ c :: t) = splitWhitespace s ++ splitWhitespace t := by
  rw [splitWhitespace, List.splitOnP_append_cons s t hc, List.filter_append]
  rfl

theorem splitWhitespace_word_append {w t : Str} {c : Char} (hw : NoBlank w)
    (hc : isWhitespace c = true) :
    splitWhitespace (w ++ c :: t) = if w = [] then splitWhitespace t else w :: splitWhitespace t := by
  rw [splitWhitespace_append hc]
  split_ifs with hne
  · rw [hne, splitWhitespace_nil, List.nil_append]
  · rw [splitWhitespace_word hw hne, List.singleton_append]

theorem mem_splitWhitespace {s w : Str} (hw : w ∈ splitWhitespace s) : NoBlank w ∧ w ≠ [] := by
  induction s using words_induction with
  | word v hv =>
    by_cases hne : v = []
    · simp [hne, splitWhitespace_nil] at hw
    · rw [splitWhitespace_word hv hne, List.mem_singleton] at hw
      exact hw ▸ ⟨hv, hne⟩
  | blank v c t hv hc ih =>
    rw [splitWhitespace_word_append hv hc] at hw
    split_ifs at hw with hne
    · exact ih hw
    · rcases List.mem_cons.mp hw with rfl | hw
      · exact ⟨hv, hne⟩
      · exact ih hw

end Words

/-! ### Keywords -/

def capitals : Str := "ABCDEFGHIJKLMNOPQRSTUVWXYZ".toList

theorem toLower_cases (c : Char) : c.toLower = c ∨ c ∈ capitals := by
  unfold Char.toLower
  split_ifs with h
  · right
    have hle : 65 ≤ c.toNat ∧ c.toNat ≤ 90 := h
    have hc : c = Char.ofNat c.toNat := (Char.ofNat_toNat c).symm
    rw [hc]
    generalize c.toNat = n at hle
    have hall : ((List.range' 65 26).all fun n => capitals.contains (Char.ofNat n)) = true := by
      decide
    have hmem := List.all_eq_true.mp hall n (by rw [List.mem_range'_1]; omega)
    exact List.contains_iff_mem.mp hmem
  · exact .inl rfl

/-- Lowercase does not change what the uppercase is. -/
theorem upperChar_toLower (c : Char) : upperChar c.toLower = upperChar c := by
  rcases toLower_cases c with h | h
  · rw [h]
  · have hall : (capitals.all fun c => upperChar c.toLower = upperChar c) = true := by decide
    exact of_decide_eq_true (List.all_eq_true.mp hall c h)

theorem isKeyword_toLowercase (w : Str) : isKeyword (toLowercase w) = isKeyword w := by
  have hupper : toUppercase (toLowercase w) = toUppercase w := by
    rw [toUppercase, toLowercase, List.flatMap_map]
    exact List.flatMap_congr fun c _ => upperChar_toLower c
  rw [isKeyword, isKeyword, hupper]

def upperInCapitals (c : Char) : Bool := (upperChar c).all capitals.contains

/-- Characters whose uppercase is not all capitals are in no keyword. -/
theorem upperInCapitals_of_keyword {w : Str} (hw : isKeyword w = true) {c : Char} (hc : c ∈ w) :
    upperInCapitals c = true := by
  have hall : (keywords.all fun k => k.all capitals.contains) = true := by decide
  rw [isKeyword, List.contains_iff_mem] at hw
  exact List.all_eq_true.mpr fun d hd =>
    List.all_eq_true.mp (List.all_eq_true.mp hall _ hw) d (List.mem_flatMap.mpr ⟨c, hc, hd⟩)

/-- Neither a quote nor punctuation is in a keyword. -/
theorem keyword_chars {w : Str} (hw : isKeyword w = true) {c : Char} (hc : c ∈ w) :
    isQuote c = false ∧ isSymbol c = false := by
  have hupper := upperInCapitals_of_keyword hw hc
  constructor
  · by_contra hquote
    simp only [isQuote, Bool.not_eq_false, Bool.or_eq_true, decide_eq_true_eq] at hquote
    rcases hquote with rfl | rfl
    · exact absurd hupper (by decide)
    · exact absurd hupper (by decide)
  · by_contra hsymbol
    have hall : (symbols.all fun d => !upperInCapitals d) = true := by decide
    rw [Bool.not_eq_false, isSymbol, List.contains_iff_mem] at hsymbol
    have hnot := List.all_eq_true.mp hall c hsymbol
    rw [hupper] at hnot
    exact absurd hnot (by decide)

/-! ### Normalisation -/

theorem normalizeToken_ne_nil {w : Str} (hw : w ≠ []) : normalizeToken w ≠ [] := by
  unfold normalizeToken
  split_ifs
  · simpa [toLowercase] using hw
  · exact hw

theorem space_notMem_normalizeToken {w : Str} (hw : NoBlank w) : ' ' ∉ normalizeToken w := by
  have hspace : ' ' ∉ w := fun h => absurd (hw ' ' h) (by decide)
  unfold normalizeToken
  split_ifs
  · intro hmem
    obtain ⟨c, hc, hlower⟩ := List.mem_map.mp hmem
    rcases toLower_cases c with h | h
    · rw [h] at hlower
      exact hspace (hlower ▸ hc)
    · have hall : (capitals.all fun c => c.toLower ≠ ' ') = true := by decide
      exact of_decide_eq_true (List.all_eq_true.mp hall c h) hlower
  · exact hspace

theorem normalizeQuery_eq (query : Str) :
    normalizeQuery query = [' '].intercalate ((splitWhitespace query).map normalizeToken) := by
  rw [normalizeQuery]
  by_cases hne : splitWhitespace query = []
  · rw [hne]
    decide
  · rw [List.splitOn_intercalate ' ' _ hne]
    intro w hw hspace
    exact absurd ((mem_splitWhitespace hw).1 ' ' hspace) (by decide)

theorem splitOn_normalizeQuery {query : Str} (hne : splitWhitespace query ≠ []) :
    (normalizeQuery query).splitOn ' ' = (splitWhitespace query).map normalizeToken := by
  rw [normalizeQuery_eq, List.splitOn_intercalate ' ' _ (by simpa using hne)]
  intro w hw
  obtain ⟨v, hv, rfl⟩ := List.mem_map.mp hw
  exact space_notMem_normalizeToken (mem_splitWhitespace hv).1

/-- A query without words is normalised to nothing. -/
theorem normalizeQuery_eq_nil {query : Str} :
    normalizeQuery query = [] ↔ splitWhitespace query = [] := by
  constructor
  · intro hnil
    by_contra hne
    have hsplit := splitOn_normalizeQuery hne
    rw [hnil] at hsplit
    have hmem : [] ∈ (splitWhitespace query).map normalizeToken := by
      rw [← hsplit]
      exact List.mem_singleton_self _
    obtain ⟨w, hw, hnil'⟩ := List.mem_map.mp hmem
    exact normalizeToken_ne_nil (mem_splitWhitespace hw).2 hnil'
  · intro hnil
    rw [normalizeQuery_eq, hnil]
    rfl

theorem normalizeQuery_eq_iff {a b : Str} :
    normalizeQuery a = normalizeQuery b ↔
      (splitWhitespace a).map normalizeToken = (splitWhitespace b).map normalizeToken := by
  constructor
  · intro heq
    by_cases ha : splitWhitespace a = []
    · have hb := normalizeQuery_eq_nil.mp (heq ▸ normalizeQuery_eq_nil.mpr ha)
      rw [ha, hb]
    · have hb : splitWhitespace b ≠ [] := fun hb =>
        ha (normalizeQuery_eq_nil.mp (heq ▸ normalizeQuery_eq_nil.mpr hb))
      rw [← splitOn_normalizeQuery ha, ← splitOn_normalizeQuery hb, heq]
  · intro heq
    rw [normalizeQuery_eq, normalizeQuery_eq, heq]

/-! ### The lexer over words -/

section Lexer

def modeAfter (m : Mode) (s : Str) : Mode := s.foldl (fun m c => (lexChar m c).2) m

/-- The tokens that end within a string. -/
def emitted (m : Mode) : Str → List Token
  | [] => []
  | c :: s => (lexChar m c).1 ++ emitted (lexChar m c).2 s

theorem lexFrom_append (m : Mode) (s t : Str) :
    lexFrom m (s ++ t) = emitted m s ++ lexFrom (modeAfter m s) t := by
  induction s generalizing m with
  | nil => rfl
  | cons c s ih => rw [List.cons_append, lexFrom, ih, emitted, List.append_assoc]; rfl

theorem lexFrom_eq (m : Mode) (s : Str) : lexFrom m s = emitted m s ++ lexEnd (modeAfter m s) := by
  have happend := lexFrom_append m s []
  rw [List.append_nil] at happend
  exact happend

/-- In a literal, after a backslash or not. -/
def Mode.Within : Mode → Prop
  | .outside _ => False
  | _ => True

theorem isQuote_of_isWhitespace {c : Char} (hc : isWhitespace c = true) : isQuote c = false := by
  by_contra hquote
  simp only [isQuote, Bool.not_eq_false, Bool.or_eq_true, decide_eq_true_eq] at hquote
  rcases hquote with rfl | rfl <;> exact absurd hc (by decide)

theorem ne_backslash_of_isWhitespace {c : Char} (hc : isWhitespace c = true) : c ≠ '\\' := by
  rintro rfl
  exact absurd hc (by decide)

/-- The quote of a literal is one. -/
def Mode.Quoted : Mode → Prop
  | .outside _ => True
  | .inside quote _ => isQuote quote = true
  | .escaped quote _ => isQuote quote = true

theorem lexChar_quoted {m : Mode} (h : m.Quoted) (c : Char) : (lexChar m c).2.Quoted := by
  cases m with
  | outside word =>
    rw [lexChar]
    split_ifs with hquote
    · exact hquote
    all_goals trivial
  | inside quote body =>
    rw [lexChar]
    split_ifs
    · trivial
    all_goals exact h
  | escaped quote body => exact h

theorem modeAfter_quoted {m : Mode} (h : m.Quoted) (s : Str) : (modeAfter m s).Quoted := by
  induction s generalizing m with
  | nil => exact h
  | cons c s ih => exact ih (lexChar_quoted h c)

/-- Whitespace in a literal becomes part of it. -/
theorem lexChar_within {m : Mode} (hm : m.Within) (hquoted : m.Quoted) {c : Char}
    (hc : isWhitespace c = true) :
    ∃ quote body, isQuote quote = true ∧ lexEnd m = [.literal quote body false] ∧
      lexChar m c = ([], .inside quote (body ++ [c])) := by
  cases m with
  | outside word => exact hm.elim
  | inside quote body =>
    have hne : c ≠ quote := by
      rintro rfl
      exact absurd ((isQuote_of_isWhitespace hc).symm.trans hquoted) (by simp)
    exact ⟨quote, body, hquoted, rfl, by
      rw [lexChar, if_neg hne, if_neg (ne_backslash_of_isWhitespace hc)]⟩
  | escaped quote body => exact ⟨quote, body, hquoted, rfl, rfl⟩

/-- Whitespace outside of literals ends a word. -/
theorem lexFrom_blank (word : Str) {c : Char} (hc : isWhitespace c = true) (s : Str) :
    lexFrom (.outside word) (c :: s) = flush word ++ tokens s := by
  rw [lexFrom, lexChar, if_neg (by simp [isQuote_of_isWhitespace hc]), if_pos hc]
  rfl

/-- A word in which all literals that start also end. -/
def ClosedWord (w : Str) : Prop := ¬ (modeAfter (.outside []) w).Within

theorem ClosedWord.exists_outside {w : Str} (h : ClosedWord w) :
    ∃ word, modeAfter (.outside []) w = .outside word := by
  unfold ClosedWord at h
  cases hm : modeAfter (.outside []) w with
  | outside word => exact ⟨word, rfl⟩
  | inside quote body =>
    rw [hm] at h
    exact absurd trivial h
  | escaped quote body =>
    rw [hm] at h
    exact absurd trivial h

theorem ClosedWord.tokens_append {w : Str} (h : ClosedWord w) {c : Char}
    (hc : isWhitespace c = true) (s : Str) : tokens (w ++ c :: s) = tokens w ++ tokens s := by
  obtain ⟨word, hword⟩ := h.exists_outside
  have hw : tokens w = emitted (.outside []) w ++ flush word := by
    rw [tokens, lexFrom_eq, hword]
    rfl
  rw [tokens, lexFrom_append, hword, lexFrom_blank word hc, hw, List.append_assoc]

/-- The tokens are those of the words, where no literal has whitespace. -/
theorem tokens_eq {s : Str} (h : ∀ w ∈ splitWhitespace s, ClosedWord w) :
    tokens s = (splitWhitespace s).flatMap tokens := by
  induction s using words_induction with
  | word w hw =>
    by_cases hne : w = []
    · rw [hne]
      rfl
    · rw [splitWhitespace_word hw hne, List.flatMap_singleton]
  | blank w c t hw hc ih =>
    rw [splitWhitespace_word_append hw hc] at h ⊢
    split_ifs at h ⊢ with hne
    · rw [hne, List.nil_append, ← ih h]
      exact lexFrom_blank [] hc t
    · rw [List.forall_mem_cons] at h
      rw [h.1.tokens_append hc, ih h.2, List.flatMap_cons]

/-! ### Plain tokens -/

/-- A literal keeps what is in it to its end. -/
theorem not_plain_of_blank {m : Mode} (hm : (∃ quote body, (m = .inside quote body ∨
    m = .escaped quote body) ∧ ∃ c ∈ body, isWhitespace c = true)) (s : Str) :
    ∃ t ∈ lexFrom m s, ¬ t.Plain := by
  have hlit : ∀ {quote body closed}, (∃ c ∈ body, isWhitespace c = true) →
      ¬ (Token.literal quote body closed).Plain := by
    rintro quote body closed ⟨c, hc, hblank⟩ ⟨-, hplain⟩
    exact absurd ((hplain c hc).symm.trans hblank) (by simp)
  induction s generalizing m with
  | nil =>
    obtain ⟨quote, body, rfl | rfl, hblank⟩ := hm
    all_goals exact ⟨_, List.mem_singleton_self _, hlit hblank⟩
  | cons c s ih =>
    have hkeep : ∀ {body : Str} {d : Char}, (∃ c ∈ body, isWhitespace c = true) →
        ∃ c ∈ body ++ [d], isWhitespace c = true := by
      rintro body d ⟨e, he, hblank⟩
      exact ⟨e, List.mem_append_left _ he, hblank⟩
    obtain ⟨quote, body, rfl | rfl, hblank⟩ := hm
    · rw [lexFrom, lexChar]
      split_ifs
      · exact ⟨_, List.mem_append_left _ (List.mem_singleton_self _), hlit hblank⟩
      · exact ih ⟨quote, _, .inr rfl, hkeep hblank⟩
      · exact ih ⟨quote, _, .inl rfl, hkeep hblank⟩
    · exact ih ⟨quote, _, .inl rfl, hkeep hblank⟩

theorem not_plain_of_within {m : Mode} (hm : m.Within) : ∃ t ∈ lexEnd m, ¬ t.Plain := by
  cases m with
  | outside word => exact hm.elim
  | inside quote body => exact ⟨_, List.mem_singleton_self _, fun h => absurd h.1 (by simp)⟩
  | escaped quote body => exact ⟨_, List.mem_singleton_self _, fun h => absurd h.1 (by simp)⟩

/-- Where all tokens are plain, no word cuts a literal. -/
theorem closedWord_of_plain {s : Str} (h : ∀ t ∈ tokens s, t.Plain) :
    ∀ w ∈ splitWhitespace s, ClosedWord w := by
  induction s using words_induction with
  | word v hv =>
    intro w hw hwithin
    by_cases hne : v = []
    · simp [hne, splitWhitespace_nil] at hw
    · rw [splitWhitespace_word hv hne, List.mem_singleton] at hw
      subst hw
      obtain ⟨t, ht, hplain⟩ := not_plain_of_within hwithin
      refine hplain (h t ?_)
      rw [tokens, lexFrom_eq]
      exact List.mem_append_right _ ht
  | blank v c s hv hc ih =>
    have hclosed : ClosedWord v := by
      intro hwithin
      obtain ⟨quote, body, -, -, hlex⟩ := lexChar_within hwithin
        (modeAfter_quoted (m := .outside []) trivial v) hc
      have hblank : ∃ d ∈ body ++ [c], isWhitespace d = true :=
        ⟨c, List.mem_append_right _ (List.mem_singleton_self _), hc⟩
      obtain ⟨t, ht, hplain⟩ := not_plain_of_blank ⟨quote, _, .inl rfl, hblank⟩ s
      refine hplain (h t ?_)
      rw [tokens, lexFrom_append, lexFrom, hlex]
      exact List.mem_append_right _ ht
    rw [hclosed.tokens_append hc] at h
    have hrest := ih fun t ht => h t (List.mem_append_right _ ht)
    rw [splitWhitespace_word_append hv hc]
    split_ifs
    · exact hrest
    · exact List.forall_mem_cons.mpr ⟨hclosed, hrest⟩

/-- Nothing blank is in the literal that the lexer is in. -/
def Mode.Unblank : Mode → Prop
  | .outside _ => True
  | .inside _ body => NoBlank body
  | .escaped _ body => NoBlank body

theorem flush_plain {word : Str} : ∀ t ∈ flush word, t.Plain := by
  intro t ht
  unfold flush at ht
  split_ifs at ht
  · exact absurd ht (by simp)
  · rw [List.mem_singleton.mp ht]
    trivial

theorem lexChar_unblank {m : Mode} (hm : m.Unblank) {c : Char} (hc : isWhitespace c = false) :
    (∀ t ∈ (lexChar m c).1, t.Plain) ∧ (lexChar m c).2.Unblank := by
  have hsnoc : ∀ {body : Str}, NoBlank body → NoBlank (body ++ [c]) := by
    intro body hbody d hd
    rcases List.mem_append.mp hd with hd | hd
    · exact hbody d hd
    · exact List.mem_singleton.mp hd ▸ hc
  cases m with
  | outside word =>
    rw [lexChar]
    split_ifs
    · exact ⟨flush_plain, fun d hd => absurd hd (by simp)⟩
    · exact ⟨flush_plain, trivial⟩
    · refine ⟨fun t ht => ?_, trivial⟩
      rcases List.mem_append.mp ht with ht | ht
      · exact flush_plain t ht
      · rw [List.mem_singleton.mp ht]
        trivial
    · exact ⟨fun t ht => absurd ht (by simp), trivial⟩
  | inside quote body =>
    rw [lexChar]
    split_ifs
    · refine ⟨fun t ht => ?_, trivial⟩
      rw [List.mem_singleton.mp ht]
      exact ⟨rfl, hm⟩
    · exact ⟨fun t ht => absurd ht (by simp), hsnoc hm⟩
    · exact ⟨fun t ht => absurd ht (by simp), hsnoc hm⟩
  | escaped quote body => exact ⟨fun t ht => absurd ht (by simp [lexChar]), hsnoc hm⟩

theorem emitted_plain {m : Mode} (hm : m.Unblank) {s : Str} (hs : NoBlank s) :
    ∀ t ∈ emitted m s, t.Plain := by
  induction s generalizing m with
  | nil => exact fun t ht => absurd ht (by simp [emitted])
  | cons c s ih =>
    have hstep := lexChar_unblank hm (hs c List.mem_cons_self)
    intro t ht
    rcases List.mem_append.mp ht with ht | ht
    · exact hstep.1 t ht
    · exact ih hstep.2 (fun d hd => hs d (List.mem_cons_of_mem _ hd)) t ht

theorem plain_of_closedWord {s : Str} (h : ∀ w ∈ splitWhitespace s, ClosedWord w) :
    ∀ t ∈ tokens s, t.Plain := by
  rw [tokens_eq h]
  intro t ht
  obtain ⟨w, hw, ht⟩ := List.mem_flatMap.mp ht
  obtain ⟨word, hword⟩ := (h w hw).exists_outside
  rw [tokens, lexFrom_eq, hword] at ht
  rcases List.mem_append.mp ht with ht | ht
  · exact emitted_plain (m := .outside []) trivial (mem_splitWhitespace hw).1 t ht
  · exact flush_plain t ht

/-! ### Queries with the same words -/

theorem modeAfter_word {word w : Str}
    (hw : ∀ c ∈ w, isQuote c = false ∧ isWhitespace c = false ∧ isSymbol c = false) :
    emitted (.outside word) w = [] ∧ modeAfter (.outside word) w = .outside (word ++ w) := by
  induction w generalizing word with
  | nil => exact ⟨rfl, by rw [List.append_nil]; rfl⟩
  | cons c w ih =>
    obtain ⟨hquote, hblank, hsymbol⟩ := hw c List.mem_cons_self
    have hlex : lexChar (.outside word) c = ([], .outside (word ++ [c])) := by
      simp [lexChar, hquote, hblank, hsymbol]
    have hrest := @ih (word ++ [c]) fun d hd => hw d (List.mem_cons_of_mem _ hd)
    rw [List.append_assoc, List.singleton_append] at hrest
    rw [emitted, hlex, modeAfter, List.foldl_cons, hlex]
    exact hrest

theorem keyword_lex {w : Str} (hkey : isKeyword w = true) (hw : NoBlank w) :
    tokens w = [.word w] ∧ ClosedWord w := by
  obtain ⟨hemitted, hmode⟩ := @modeAfter_word [] w fun c hc =>
    ⟨(keyword_chars hkey hc).1, hw c hc, (keyword_chars hkey hc).2⟩
  have hne : w ≠ [] := by
    rintro rfl
    exact absurd hkey (by decide)
  constructor
  · rw [tokens, lexFrom_eq, hemitted, hmode]
    simp [lexEnd, flush, hne]
  · rw [ClosedWord, hmode]
    exact id

theorem normalizeToken_eq {w w' : Str} (h : normalizeToken w = normalizeToken w') :
    w = w' ∨ isKeyword w = true ∧ isKeyword w' = true ∧ toLowercase w = toLowercase w' := by
  unfold normalizeToken at h
  split_ifs at h with hw hw' hw'
  · exact .inr ⟨hw, hw', h⟩
  · rw [← h, isKeyword_toLowercase] at hw'
    exact absurd hw hw'
  · rw [h, isKeyword_toLowercase] at hw
    exact absurd hw' hw
  · exact .inl h

theorem SameToken.refl (t : Token) : SameToken t t := .inl rfl

/-- Words that are normalised alike have the same tokens, and literals end in both or in none. -/
theorem same_of_normalizeToken {w w' : Str} (hw : NoBlank w) (hw' : NoBlank w')
    (h : normalizeToken w = normalizeToken w') (hclosed : ClosedWord w) :
    List.Forall₂ SameToken (tokens w) (tokens w') ∧ ClosedWord w' := by
  rcases normalizeToken_eq h with rfl | ⟨hkey, hkey', hlower⟩
  · exact ⟨List.forall₂_same.mpr fun t _ => .refl t, hclosed⟩
  · rw [(keyword_lex hkey hw).1, (keyword_lex hkey' hw').1]
    exact ⟨.cons (.inr ⟨w, w', rfl, rfl, hkey, hkey', hlower⟩) .nil, (keyword_lex hkey' hw').2⟩

theorem sameTokens_of_words {ws ws' : List Str} (hws : ∀ w ∈ ws, NoBlank w)
    (hws' : ∀ w ∈ ws', NoBlank w) (h : ws.map normalizeToken = ws'.map normalizeToken)
    (hclosed : ∀ w ∈ ws, ClosedWord w) :
    List.Forall₂ SameToken (ws.flatMap tokens) (ws'.flatMap tokens) ∧ ∀ w ∈ ws', ClosedWord w := by
  induction ws generalizing ws' with
  | nil =>
    rw [List.map_nil, eq_comm, List.map_eq_nil_iff] at h
    rw [h]
    exact ⟨.nil, fun w hw => absurd hw (by simp)⟩
  | cons w ws ih =>
    cases ws' with
    | nil => simp at h
    | cons w' ws' =>
      rw [List.map_cons, List.map_cons, List.cons.injEq] at h
      rw [List.forall_mem_cons] at hws hws' hclosed
      obtain ⟨hsame, hclosed'⟩ := same_of_normalizeToken hws.1 hws'.1 h.1 hclosed.1
      obtain ⟨hrest, hall⟩ := ih hws.2 hws'.2 h.2 hclosed.2
      rw [List.flatMap_cons, List.flatMap_cons]
      exact ⟨List.rel_append hsame hrest, List.forall_mem_cons.mpr ⟨hclosed', hall⟩⟩

theorem sameTokens_of_normalizeQuery {a b : Str} (hclosed : ∀ w ∈ splitWhitespace a, ClosedWord w)
    (h : normalizeQuery a = normalizeQuery b) : SameTokens a b := by
  obtain ⟨hsame, hclosed'⟩ := sameTokens_of_words (fun w hw => (mem_splitWhitespace hw).1)
    (fun w hw => (mem_splitWhitespace hw).1) (normalizeQuery_eq_iff.mp h) hclosed
  rw [SameTokens, tokens_eq hclosed, tokens_eq hclosed']
  exact hsame

/-! ### Queries that share a fingerprint with others -/

/-- The literal that the lexer is in keeps its start. -/
theorem lexFrom_within (quote : Char) (s : Str) :
    (∃ rest closed ts, ∀ body, lexFrom (.inside quote body) s =
      .literal quote (body ++ rest) closed :: ts) ∧
    ∃ rest closed ts, ∀ body, lexFrom (.escaped quote body) s =
      .literal quote (body ++ rest) closed :: ts := by
  induction s with
  | nil => exact ⟨⟨[], false, [], by simp [lexFrom, lexEnd]⟩, [], false, [], by simp [lexFrom, lexEnd]⟩
  | cons c s ih =>
    obtain ⟨⟨rest, closed, ts, hinside⟩, rest', closed', ts', hescaped⟩ := ih
    constructor
    · by_cases hquote : c = quote
      · exact ⟨[], true, tokens s, fun body => by
          rw [lexFrom, lexChar, if_pos hquote, List.append_nil]; rfl⟩
      · by_cases hback : c = '\\'
        · exact ⟨c :: rest', closed', ts', fun body => by
            rw [lexFrom, lexChar, if_neg hquote, if_pos hback, List.nil_append, hescaped,
              List.append_assoc, List.singleton_append]⟩
        · exact ⟨c :: rest, closed, ts, fun body => by
            rw [lexFrom, lexChar, if_neg hquote, if_neg hback, List.nil_append, hinside,
              List.append_assoc, List.singleton_append]⟩
    · exact ⟨c :: rest, closed, ts, fun body => by
        rw [lexFrom, lexChar, List.nil_append, hinside, List.append_assoc, List.singleton_append]⟩

/-- Where a word ends within a literal. -/
theorem exists_within {s : Str} (h : ¬ ∀ w ∈ splitWhitespace s, ClosedWord w) :
    ∃ x y, s = x ++ y ∧ (y = [] ∨ ∃ c t, isWhitespace c = true ∧ y = c :: t) ∧
      (modeAfter (.outside []) x).Within := by
  induction s using words_induction with
  | word w hw =>
    obtain ⟨v, hv, hopen⟩ := not_forall₂.mp h
    have hne : w ≠ [] := by
      rintro rfl
      simp [splitWhitespace_nil] at hv
    rw [splitWhitespace_word hw hne, List.mem_singleton] at hv
    subst hv
    exact ⟨v, [], (List.append_nil v).symm, .inl rfl, not_not.mp hopen⟩
  | blank w c t hw hc ih =>
    by_cases hclosed : ClosedWord w
    · rw [splitWhitespace_word_append hw hc] at h
      have hrest : ¬ ∀ v ∈ splitWhitespace t, ClosedWord v := by
        intro hall
        split_ifs at h
        · exact h hall
        · exact h (List.forall_mem_cons.mpr ⟨hclosed, hall⟩)
      obtain ⟨x, y, rfl, hy, hwithin⟩ := ih hrest
      refine ⟨w ++ c :: x, y, by simp, hy, ?_⟩
      obtain ⟨word, hword⟩ := hclosed.exists_outside
      have hlex : (lexChar (.outside word) c).2 = .outside [] := by
        rw [lexChar, if_neg (by simp [isQuote_of_isWhitespace hc]), if_pos hc]
      have hmode : modeAfter (.outside []) (w ++ c :: x) = modeAfter (.outside []) x := by
        rw [modeAfter, List.foldl_append, List.foldl_cons]
        change modeAfter (lexChar (modeAfter (.outside []) w) c).2 x = _
        rw [hword, hlex]
      rw [hmode]
      exact hwithin
    · exact ⟨w, c :: t, rfl, .inr ⟨c, t, hc, rfl⟩, not_not.mp hclosed⟩

theorem not_same_of_append {e : List Token} {l l' : List Token}
    (h : ¬ List.Forall₂ SameToken l l') : ¬ List.Forall₂ SameToken (e ++ l) (e ++ l') := by
  intro hsame
  have hdrop := List.forall₂_drop_append (e ++ l) e l' hsame
  rw [List.drop_left] at hdrop
  exact h hdrop

theorem not_same_literal {quote : Char} {body body' : Str} {closed closed' : Bool}
    {ts ts' : List Token} (h : body ≠ body') :
    ¬ List.Forall₂ SameToken (.literal quote body closed :: ts) (.literal quote body' closed' :: ts') := by
  intro hsame
  rcases (List.forall₂_cons.mp hsame).1 with heq | ⟨w, w', hw, -⟩
  · exact h (Token.literal.inj heq).2.1
  · cases hw

/-- More whitespace where a literal has some, or lacks its end, makes another query. -/
theorem exists_collision {a : Str} (h : ¬ ∀ w ∈ splitWhitespace a, ClosedWord w) :
    ∃ b, normalizeQuery a = normalizeQuery b ∧ ¬ SameTokens a b := by
  obtain ⟨x, y, rfl, hy, hwithin⟩ := exists_within h
  have hquoted : (modeAfter (.outside []) x).Quoted := modeAfter_quoted (m := .outside []) trivial x
  have hspace : isWhitespace ' ' = true := by decide
  rcases hy with rfl | ⟨c, t, hc, rfl⟩
  · refine ⟨x ++ [' '], ?_, ?_⟩
    · rw [normalizeQuery_eq_iff, splitWhitespace_append hspace, splitWhitespace_nil, List.append_nil,
        List.append_nil]
    · obtain ⟨quote, body, -, hend, hlex⟩ := lexChar_within hwithin hquoted hspace
      rw [SameTokens, tokens, tokens, lexFrom_append, lexFrom_append, lexFrom, lexFrom, hlex, hend]
      exact not_same_of_append (not_same_literal (by simp))
  · refine ⟨x ++ c :: ' ' :: t, ?_, ?_⟩
    · rw [normalizeQuery_eq_iff, splitWhitespace_append hc, splitWhitespace_append hc]
      have hskip := splitWhitespace_append (s := []) (t := t) hspace
      rw [List.nil_append, splitWhitespace_nil, List.nil_append] at hskip
      rw [hskip]
    · obtain ⟨quote, body, hquote, -, hlex⟩ := lexChar_within hwithin hquoted hc
      obtain ⟨quote', body', -, hend, hlex'⟩ :=
        lexChar_within (m := .inside quote (body ++ [c])) trivial hquote hspace
      obtain ⟨rfl, rfl⟩ : quote = quote' ∧ body ++ [c] = body' := by simpa [lexEnd] using hend
      obtain ⟨⟨rest, closed, ts, hrest⟩, -⟩ := lexFrom_within quote t
      have hcons : ∀ u, lexFrom (modeAfter (.outside []) x) (c :: u) =
          lexFrom (.inside quote (body ++ [c])) u := by
        intro u
        rw [lexFrom, hlex]
        rfl
      have hspaced : lexFrom (.inside quote (body ++ [c])) (' ' :: t) =
          lexFrom (.inside quote (body ++ [c] ++ [' '])) t := by
        rw [lexFrom, hlex']
        rfl
      rw [SameTokens, tokens, tokens, lexFrom_append, lexFrom_append, hcons, hcons, hspaced, hrest,
        hrest]
      exact not_same_of_append (not_same_literal (by simp))

end Lexer

/-! ### The cache -/

/-- No query with other tokens has this one's fingerprint, and in no run does prepare of one return
the id of a statement that is there for this one. -/
structure Unshared (P V : Type) (lib : Lib) (a : Str) : Prop where
  fingerprint : ∀ b, fingerprint lib a = fingerprint lib b → SameTokens a b
  statement : ∀ config clock (run : List (Event P V × State P)) b stmt,
    IsRun config lib (.new P clock) run →
    (stateAfter (.new P clock) run).cache.statements.get (Planner.fingerprint lib b) = some stmt →
    stmt.originalQuery = a → SameTokens a b

/-- A query shares its fingerprint with others exactly when it has whitespace in a string literal,
or a literal without its closing quote. -/
theorem unshared_iff (P V : Type) (lib : Lib) (hsha : Function.Injective lib.sha256) (a : Str) :
    Unshared P V lib a ↔ ∀ t ∈ tokens a, t.Plain := by
  constructor
  · intro hunshared
    refine plain_of_closedWord ?_
    by_contra hopen
    obtain ⟨b, heq, hne⟩ := exists_collision hopen
    exact hne (hunshared.fingerprint b (congrArg lib.sha256 heq))
  · intro hplain
    have hsame : ∀ b, fingerprint lib a = fingerprint lib b → SameTokens a b := fun b heq =>
      sameTokens_of_normalizeQuery (closedWord_of_plain hplain) (hsha heq)
    refine ⟨hsame, ?_⟩
    rintro config clock run b stmt hrun hget rfl
    exact hsame b (keyed_stateAfter .empty hrun _ stmt hget)

theorem search_unshared : Unshared Unit Unit OneStatement.lib "search 'cat' limit 5".toList := by
  refine (unshared_iff Unit Unit OneStatement.lib (fun _ _ h => h) _).mpr ?_
  have htokens : tokens "search 'cat' limit 5".toList = [.word "search".toList,
      .literal '\'' "cat".toList true, .word "limit".toList, .word "5".toList] := by decide
  rw [htokens]
  simp only [List.forall_mem_cons, Token.Plain]
  have hcat : ("cat".toList.all fun c => !isWhitespace c) = true := by decide
  exact ⟨trivial, ⟨trivial, fun c hc => by simpa using List.all_eq_true.mp hcat c hc⟩, trivial,
    trivial, by simp⟩

/-- `'a b'` and `'a  b'` share a fingerprint. -/
theorem spaces_share : ∃ a b, fingerprint OneStatement.lib a = fingerprint OneStatement.lib b ∧
    ¬ SameTokens a b := by
  refine ⟨"'a b'".toList, "'a  b'".toList, by decide, fun hsame => ?_⟩
  have ha : tokens "'a b'".toList = [.literal '\'' "a b".toList true] := by decide
  have hb : tokens "'a  b'".toList = [.literal '\'' "a  b".toList true] := by decide
  rw [SameTokens, ha, hb] at hsame
  exact not_same_literal (by decide) hsame

end NextgenDatabases.Planner
