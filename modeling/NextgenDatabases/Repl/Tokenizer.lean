import NextgenDatabases.Foundations.Lexing
import NextgenDatabases.Planner.Prepared
import Mathlib

/-!
# The tokens of the query formatter

The shell takes a query into tokens before it formats it. The tokenizer is an automaton that looks
one character ahead.
-/
namespace NextgenDatabases.Repl

open Foundations
open Planner (Str isWhitespace toUppercase)

/-- The tables of Unicode. -/
structure Unicode where
  isAlphabetic : Char → Bool
  isNumeric : Char → Bool
  ascii : ∀ c, c.toNat < 128 → isAlphabetic c = c.isAlpha ∧ isNumeric c = c.isDigit
  blank : ∀ c, isWhitespace c = true → isAlphabetic c = false ∧ isNumeric c = false

def Unicode.isAlphanumeric (u : Unicode) (c : Char) : Bool := u.isAlphabetic c || u.isNumeric c

inductive Token
  | keyword (w : Str)
  | modality (w : Str)
  | word (w : Str)
  | stringLiteral (s : Str)
  | number (n : Str)
  | whitespace
  | punctuation (c : Char)
  deriving DecidableEq, Repr

/-- The characters of a token. -/
def Token.text : Token → Str
  | .keyword w => w
  | .modality w => w
  | .word w => w
  | .stringLiteral s => s
  | .number n => n
  | .whitespace => [' ']
  | .punctuation c => [c]

/-! ### Tokens -/

/-- The loop over a string literal, behind its first quote. A backslash at the end of the input takes
the index past the end, and the slice of the characters panics. -/
def scanLiteral (quote : Char) : Str → Option (Str × Str)
  | [] => some ([], [])
  | [c] => if c = quote then some ([c], []) else if c = '\\' then none else some ([c], [])
  | c :: d :: s =>
    if c = quote then some ([c], d :: s)
    else if c = '\\' then (scanLiteral quote s).map fun (l, rest) => (c :: d :: l, rest)
    else (scanLiteral quote (d :: s)).map fun (l, rest) => (c :: l, rest)

/-- The digits behind `e`, with a sign or without. -/
def scanExponent : Str → Str × Str
  | [] => ([], [])
  | c :: s =>
    if c = '+' ∨ c = '-' then (c :: s.takeWhile Char.isDigit, s.dropWhile Char.isDigit)
    else ((c :: s).takeWhile Char.isDigit, (c :: s).dropWhile Char.isDigit)

def inMantissa (c : Char) : Bool := c.isDigit || c = '.'

def scanNumber (s : Str) : Str × Str :=
  let mantissa := s.takeWhile inMantissa
  match s.dropWhile inMantissa with
  | [] => (mantissa, [])
  | c :: rest =>
    if c = 'e' ∨ c = 'E' then
      (mantissa ++ c :: (scanExponent rest).1, (scanExponent rest).2)
    else (mantissa, c :: rest)

section

variable (u : Unicode)

def inWord (c : Char) : Bool := u.isAlphanumeric c || c = '_'

/-- One turn of the loop of `tokenize`. -/
def nextToken : Str → Option (Token × Str)
  | [] => none
  | ch :: s =>
    if ch = '\'' ∨ ch = '"' then
      (scanLiteral ch s).map fun (l, rest) => (.stringLiteral (ch :: l), rest)
    else if isWhitespace ch then
      some (.whitespace, s.dropWhile isWhitespace)
    else if u.isAlphabetic ch || ch = '_' then
      some (.word (ch :: s.takeWhile (inWord u)), s.dropWhile (inWord u))
    else if ch.isDigit then
      some (.number (scanNumber (ch :: s)).1, (scanNumber (ch :: s)).2)
    else if ch = '-' ∧ s.head?.any Char.isDigit then
      some (.number (ch :: (scanNumber s).1), (scanNumber s).2)
    else some (.punctuation ch, s)

/-! ### The lexer as an automaton -/

/-- How far a token is read. -/
inductive State
  | start
  | blank
  | word
  | minus
  | mantissa
  | power
  | exponent
  | inside (quote : Char)
  | escaped (quote : Char)
  | closed
  | single
  deriving DecidableEq

def first (c : Char) : State :=
  if c = '\'' ∨ c = '"' then .inside c
  else if isWhitespace c then .blank
  else if u.isAlphabetic c || c = '_' then .word
  else if c.isDigit then .mantissa
  else if c = '-' then .minus
  else .single

def step : State → Char → Option State
  | .start, c => some (first u c)
  | .blank, c => if isWhitespace c then some .blank else none
  | .word, c => if inWord u c then some .word else none
  | .minus, c => if c.isDigit then some .mantissa else none
  | .mantissa, c =>
    if inMantissa c then some .mantissa else if c = 'e' ∨ c = 'E' then some .power else none
  | .power, c => if c = '+' ∨ c = '-' then some .exponent else if c.isDigit then some .exponent
    else none
  | .exponent, c => if c.isDigit then some .exponent else none
  | .inside quote, c =>
    if c = quote then some .closed else if c = '\\' then some (.escaped quote)
    else some (.inside quote)
  | .escaped quote, _ => some (.inside quote)
  | .closed, _ => none
  | .single, _ => none

end

/-- The token that ends in the state. -/
def State.token : State → Str → Option Token
  | .start, _ => none
  | .escaped _, _ => none
  | .blank, _ => some .whitespace
  | .word, w => some (.word w)
  | .mantissa, w => some (.number w)
  | .power, w => some (.number w)
  | .exponent, w => some (.number w)
  | .inside _, w => some (.stringLiteral w)
  | .closed, w => some (.stringLiteral w)
  | .minus, [c] => some (.punctuation c)
  | .minus, _ => none
  | .single, [c] => some (.punctuation c)
  | .single, _ => none

variable {u : Unicode} {c quote : Char} {s l rest : Str}

theorem scan_exponent :
    scan (step u) .exponent s = (s.takeWhile Char.isDigit, .exponent, s.dropWhile Char.isDigit) :=
  scan_while fun _ => rfl

/-- Behind `e` the automaton reads what the loop does. -/
theorem exists_scan_power (u : Unicode) (s : Str) :
    ∃ q, scan (step u) .power s = ((scanExponent s).1, q, (scanExponent s).2) ∧
      ∀ w, q.token w = some (.number w) := by
  cases s with
  | nil => exact ⟨.power, rfl, fun _ => rfl⟩
  | cons c s =>
    by_cases hsign : c = '+' ∨ c = '-'
    · have hstep : step u .power c = some .exponent := if_pos hsign
      refine ⟨.exponent, ?_, fun _ => rfl⟩
      rw [scan_cons_some hstep, scan_exponent, scanExponent, if_pos hsign]
    · rw [scanExponent, if_neg hsign]
      cases hdigit : c.isDigit with
      | true =>
        have hstep : step u .power c = some .exponent := by
          rw [step, if_neg hsign, if_pos hdigit]
        refine ⟨.exponent, ?_, fun _ => rfl⟩
        rw [scan_cons_some hstep, scan_exponent, List.takeWhile_cons_of_pos hdigit,
          List.dropWhile_cons_of_pos hdigit]
      | false =>
        have hstep : step u .power c = none := by simp [step, hsign, hdigit]
        refine ⟨.power, ?_, fun _ => rfl⟩
        rw [scan_cons_none hstep]
        simp [hdigit]

theorem exists_scan_mantissa (u : Unicode) (s : Str) :
    ∃ q, scan (step u) .mantissa s = ((scanNumber s).1, q, (scanNumber s).2) ∧
      ∀ w, q.token w = some (.number w) := by
  have hloop : scan (step u) .mantissa s = _ :=
    scan_loop (p := inMantissa) fun c hc => if_pos hc
  rw [hloop, scanNumber]
  have hhead := List.head?_dropWhile_not inMantissa s
  cases hrest : s.dropWhile inMantissa with
  | nil => exact ⟨.mantissa, by simp [scan], fun _ => rfl⟩
  | cons c rest =>
    rw [hrest] at hhead
    have hc : inMantissa c = false := by simpa using hhead
    by_cases he : c = 'e' ∨ c = 'E'
    · have hstep : step u .mantissa c = some .power := by
        rw [step, hc, if_neg Bool.false_ne_true, if_pos he]
      obtain ⟨q, hq, htoken⟩ := exists_scan_power u rest
      refine ⟨q, ?_, htoken⟩
      rw [scan_cons_some hstep, hq]
      simp only [if_pos he]
    · have hstep : step u .mantissa c = none := by simp [step, hc, he]
      refine ⟨.mantissa, ?_, fun _ => rfl⟩
      rw [scan_cons_none hstep]
      simp only [if_neg he, List.append_nil]

/-- A string literal is read to its closing quote, to the end, or to a backslash at the end. -/
theorem scan_inside (u : Unicode) (quote : Char) (s : Str) :
    (∀ l rest, scanLiteral quote s = some (l, rest) → ∃ q,
      scan (step u) (.inside quote) s = (l, q, rest) ∧ ∀ w, q.token w = some (.stringLiteral w)) ∧
    (scanLiteral quote s = none → ∃ l rest,
      scan (step u) (.inside quote) s = (l, .escaped quote, rest)) := by
  have hclosed {s : Str} : scan (step u) (.inside quote) (quote :: s) = ([quote], .closed, s) := by
    have hstep : step u (.inside quote) quote = some .closed := if_pos rfl
    have hstop : scan (step u) .closed s = ([], .closed, s) := scan_eq_iff.mpr ⟨rfl, rfl, fun _ _ => rfl⟩
    rw [scan_cons_some hstep, hstop]
  fun_induction scanLiteral quote s with
  | case1 => exact ⟨fun l rest h => ⟨.inside quote, by cases h; rfl, fun _ => rfl⟩, nofun⟩
  | case2 => exact ⟨fun l rest h => ⟨.closed, by cases h; exact hclosed, fun _ => rfl⟩, nofun⟩
  | case3 hquote =>
    have hstep : step u (.inside quote) '\\' = some (.escaped quote) := by
      rw [step, if_neg hquote, if_pos rfl]
    exact ⟨nofun, fun _ => ⟨['\\'], [], by rw [scan_cons_some hstep]; rfl⟩⟩
  | case4 c hquote hslash =>
    have hstep : step u (.inside quote) c = some (.inside quote) := by
      rw [step, if_neg hquote, if_neg hslash]
    exact ⟨fun l rest h => ⟨.inside quote, by cases h; rw [scan_cons_some hstep]; rfl, fun _ => rfl⟩,
      nofun⟩
  | case5 d s => exact ⟨fun l rest h => ⟨.closed, by cases h; exact hclosed, fun _ => rfl⟩, nofun⟩
  | case6 d s hquote ih =>
    have hstep : step u (.inside quote) '\\' = some (.escaped quote) := by
      rw [step, if_neg hquote, if_pos rfl]
    have hstep' : step u (.escaped quote) d = some (.inside quote) := rfl
    rw [scan_cons_some hstep, scan_cons_some hstep']
    refine ⟨fun l rest h => ?_, fun h => ?_⟩
    · obtain ⟨⟨l, rest⟩, hl, ⟨⟩⟩ := Option.map_eq_some_iff.mp h
      obtain ⟨q, hq, htoken⟩ := ih.1 _ _ hl
      exact ⟨q, by rw [hq], htoken⟩
    · obtain ⟨l, rest, hq⟩ := ih.2 (Option.map_eq_none_iff.mp h)
      exact ⟨'\\' :: d :: l, rest, by rw [hq]⟩
  | case7 c d s hquote hslash ih =>
    have hstep : step u (.inside quote) c = some (.inside quote) := by
      rw [step, if_neg hquote, if_neg hslash]
    rw [scan_cons_some hstep]
    refine ⟨fun l rest h => ?_, fun h => ?_⟩
    · obtain ⟨⟨l, rest⟩, hl, ⟨⟩⟩ := Option.map_eq_some_iff.mp h
      obtain ⟨q, hq, htoken⟩ := ih.1 _ _ hl
      exact ⟨q, by rw [hq], htoken⟩
    · obtain ⟨l, rest, hq⟩ := ih.2 (Option.map_eq_none_iff.mp h)
      exact ⟨c :: l, rest, by rw [hq]⟩

/-- The tokenizer reads its tokens as the automaton does. -/
theorem nextToken_eq (u : Unicode) (s : Str) : nextToken u s = lexer (step u) .start State.token s := by
  cases s with
  | nil => rfl
  | cons ch s =>
    have hstep : step u .start ch = some (first u ch) := rfl
    have hfirst : scan (step u) .start (ch :: s) = _ := scan_cons_some hstep
    rw [lexer, hfirst, nextToken, first]
    by_cases hquote : ch = '\'' ∨ ch = '"'
    · simp only [if_pos hquote]
      cases hl : scanLiteral ch s with
      | some p =>
        obtain ⟨q, hq, htoken⟩ := (scan_inside u ch s).1 _ _ hl
        simp only [hq, htoken, Option.map_some]
      | none =>
        obtain ⟨l, rest, hq⟩ := (scan_inside u ch s).2 hl
        simp only [hq, State.token, Option.map_none]
    simp only [if_neg hquote]
    cases hblank : isWhitespace ch with
    | true =>
      have hscan : scan (step u) .blank s = _ := scan_while (p := isWhitespace) fun _ => rfl
      simp only [↓reduceIte, hscan, State.token, Option.map_some]
    | false =>
    simp only [Bool.false_eq_true, ↓reduceIte]
    cases hword : (u.isAlphabetic ch || decide (ch = '_')) with
    | true =>
      have hscan : scan (step u) .word s = _ := scan_while (p := inWord u) fun _ => rfl
      simp only [↓reduceIte, hscan, State.token, Option.map_some]
    | false =>
    simp only [Bool.false_eq_true, ↓reduceIte]
    cases hdigit : ch.isDigit with
    | true =>
      obtain ⟨q, hq, htoken⟩ := exists_scan_mantissa u (ch :: s)
      have hstep : step u .mantissa ch = some .mantissa := if_pos (by simp [inMantissa, hdigit])
      rw [scan_cons_some hstep] at hq
      obtain ⟨hread, hrest⟩ := Prod.mk.inj hq
      simp only [↓reduceIte, hread, hrest, htoken, Option.map_some]
    | false =>
    simp only [Bool.false_eq_true, ↓reduceIte]
    by_cases hminus : ch = '-'
    · rw [if_pos hminus]
      cases s with
      | nil => simp [scan, State.token]
      | cons d s =>
        cases hd : d.isDigit with
        | true =>
          obtain ⟨q, hq, htoken⟩ := exists_scan_mantissa u (d :: s)
          have hstep : step u .mantissa d = some .mantissa := if_pos (by simp [inMantissa, hd])
          have hstep' : step u .minus d = some .mantissa := if_pos hd
          rw [scan_cons_some hstep] at hq
          obtain ⟨hread, hrest⟩ := Prod.mk.inj hq
          rw [scan_cons_some hstep']
          simp only [hread, hrest, htoken, Option.map_some]
          rw [if_pos ⟨hminus, by simpa using hd⟩]
        | false =>
          have hstep : step u .minus d = none := by simp [step, hd]
          rw [scan_cons_none hstep, if_neg (by simp [hd])]
          simp [State.token]
    · have hscan : scan (step u) .single s = ([], .single, s) :=
        scan_eq_iff.mpr ⟨rfl, rfl, fun _ _ => rfl⟩
      simp [hminus, hscan, State.token]

/-! ### What the lexer reads -/

/-- Whether the rest of a string literal ends with its quote, and not before. -/
def closesWith (quote : Char) : Str → Bool
  | [] => false
  | [c] => c = quote
  | c :: d :: s =>
    if c = quote then false
    else if c = '\\' then closesWith quote s
    else closesWith quote (d :: s)

/-- A string literal with its closing quote, or another token. -/
def Token.isClosed : Token → Bool
  | .stringLiteral [] => false
  | .stringLiteral (quote :: s) => closesWith quote s
  | _ => true

/-- A state in which a token is read that no blank continues. -/
def State.ended : State → Bool
  | .start => false
  | .blank => false
  | .inside _ => false
  | .escaped _ => false
  | _ => true

/-- The quote with which the literal was opened. -/
def State.opened : State → Option Char
  | .inside c => some c
  | .escaped c => some c
  | _ => none

variable {q q' : State} {d : Char} {t : Token} {w : Str}

/-- The characters of the token are read for it. -/
def Reads (u : Unicode) (t : Token) (q : State) : Prop :=
  t.text.foldlM (step u) .start = some q ∧ q.token t.text = some t

theorem token_text (h : q.token w = some t) : t = .whitespace ∨ t.text = w := by
  unfold State.token at h
  split at h <;> cases h <;> first | exact .inl rfl | exact .inr rfl

theorem state_of_word {w v : Str} (h : q.token w = some (.word v)) : q = .word := by
  unfold State.token at h
  split at h
  all_goals first | rfl | cases h

theorem before_iff {t : Token} : Before (nextToken u) Token.text t s ↔
    ∃ q, Reads u t q ∧ ∀ c ∈ s.head?, step u q c = none := by
  rw [Before, nextToken_eq, lexer_eq_some_iff]
  constructor
  · rintro ⟨w, q, hs, hq, htoken, hstop⟩
    obtain rfl := List.append_cancel_right hs
    exact ⟨q, ⟨hq, htoken⟩, hstop⟩
  · rintro ⟨q, ⟨hq, htoken⟩, hstop⟩
    exact ⟨t.text, q, rfl, hq, htoken, hstop⟩

/-- What is taken off the text is blank, or the characters of the token. -/
theorem before_of_nextToken (h : nextToken u s = some (t, rest)) (ht : t ≠ .whitespace) :
    s = t.text ++ rest ∧ Before (nextToken u) Token.text t rest := by
  have hread := h
  rw [nextToken_eq, lexer_eq_some_iff] at hread
  obtain ⟨w, q, hs, -, htoken, -⟩ := hread
  obtain rfl := (token_text htoken).resolve_left ht
  exact ⟨hs, by rw [Before, ← hs, h]⟩

theorem nextToken_length (h : nextToken u s = some (t, rest)) : rest.length < s.length := by
  rw [nextToken_eq, lexer_eq_some_iff] at h
  obtain ⟨w, q, rfl, hq, htoken, -⟩ := h
  have hne : w ≠ [] := by
    rintro rfl
    rw [← Option.some.inj hq] at htoken
    cases htoken
  rw [List.length_append]
  exact Nat.lt_add_of_pos_left (List.length_pos_iff.mpr hne)

theorem nextToken_blank (s : Str) (h : isWhitespace c = true) :
    nextToken u (c :: s) = some (.whitespace, s.dropWhile isWhitespace) := by
  have hquote : ¬ (c = '\'' ∨ c = '"') := by
    rintro (rfl | rfl) <;> exact absurd h (by decide)
  rw [nextToken, if_neg hquote, if_pos h]

/-! ### Characters -/

theorem isDigit_of_blank (h : isWhitespace c = true) : c.isDigit = false := by
  rw [Bool.eq_false_iff]
  intro hdigit
  have hrange : 48 ≤ c.toNat ∧ c.toNat ≤ 57 := Char.isDigit_iff_toNat.mp hdigit
  simp only [isWhitespace, Bool.or_eq_true, Bool.and_eq_true, decide_eq_true_eq,
    List.contains_iff_mem, List.mem_cons, List.not_mem_nil, or_false] at h
  omega

theorem isAlpha_of_blank (h : isWhitespace c = true) : c.isAlpha = false := by
  rw [Bool.eq_false_iff]
  intro halpha
  have hrange : (65 ≤ c.toNat ∧ c.toNat ≤ 90) ∨ (97 ≤ c.toNat ∧ c.toNat ≤ 122) := by
    simpa [Char.isAlpha, Char.isUpper, Char.isLower, UInt32.le_iff_toNat_le] using halpha
  simp only [isWhitespace, Bool.or_eq_true, Bool.and_eq_true, decide_eq_true_eq,
    List.contains_iff_mem, List.mem_cons, List.not_mem_nil, or_false] at h
  omega

/-- The tables of a text in ASCII. -/
def asciiTables : Unicode where
  isAlphabetic := Char.isAlpha
  isNumeric := Char.isDigit
  ascii _ _ := ⟨rfl, rfl⟩
  blank _ h := ⟨isAlpha_of_blank h, isDigit_of_blank h⟩

theorem inWord_of_blank (h : isWhitespace c = true) : inWord u c = false := by
  have hne : c ≠ '_' := by
    rintro rfl
    exact absurd h (by decide)
  simp [inWord, Unicode.isAlphanumeric, u.blank c h, hne]

/-- Such a character is in no word, number or blank. -/
theorem step_stop (h : q.ended = true) (hword : inWord u c = false) (hdigit : c.isDigit = false)
    (hc : c ∉ ['.', 'e', 'E', '+', '-']) : step u q c = none := by
  simp only [List.mem_cons, List.not_mem_nil, or_false, not_or] at hc
  cases q <;> simp_all [step, State.ended, inMantissa]

theorem step_blank (h : q.ended = true) (hc : isWhitespace c = true) : step u q c = none := by
  refine step_stop h (inWord_of_blank hc) (isDigit_of_blank hc) fun hmem => ?_
  have hnone : ∀ d ∈ ['.', 'e', 'E', '+', '-'], isWhitespace d = false := by
    simp only [List.forall_mem_cons]
    exact ⟨rfl, rfl, rfl, rfl, rfl, List.forall_mem_nil _⟩
  rw [hnone c hmem] at hc
  cases hc

theorem step_separator (h : q.ended = true) (hc : c = ',' ∨ c = ';') : step u q c = none := by
  have hword : inWord u c = false := by
    have hascii := u.ascii c (by rcases hc with rfl | rfl <;> decide)
    rw [inWord, Unicode.isAlphanumeric, hascii.1, hascii.2]
    rcases hc with rfl | rfl <;> decide
  have hdigit : c.isDigit = false := by rcases hc with rfl | rfl <;> decide
  exact step_stop h hword hdigit (by rcases hc with rfl | rfl <;> decide)

/-! ### String literals -/

theorem path_cons : (c :: w).foldlM (step u) q = some q' ↔
    ∃ q₁, step u q c = some q₁ ∧ w.foldlM (step u) q₁ = some q' := by
  rw [List.foldlM_cons]
  exact Option.bind_eq_some_iff

theorem first_of_opened (h : (first u c).opened = some d) : d = c ∧ (c = '\'' ∨ c = '"') := by
  unfold first at h
  split_ifs at h with hquote
  all_goals first | exact ⟨(Option.some.inj h).symm, hquote⟩ | cases h

theorem first_ne_start : first u c ≠ .start := by
  unfold first
  split_ifs <;> nofun

theorem step_ne_start (h : step u q c = some q') : q' ≠ .start := by
  rintro rfl
  unfold step at h
  split at h
  all_goals
    try split_ifs at h
    all_goals first | exact first_ne_start (Option.some.inj h) | cases h

/-- What a step that does not start a token carries back, the path does. -/
theorem of_path {P : State → Prop} (h : w.foldlM (step u) q = some q') (hq : q ≠ .start)
    (hP : ∀ {q c q'}, step u q c = some q' → q ≠ .start → P q' → P q) (hq' : P q') : P q := by
  induction w generalizing q with
  | nil => rwa [Option.some.inj h]
  | cons c w ih =>
    obtain ⟨q₁, hstep, hpath⟩ := path_cons.mp h
    exact hP hstep hq (ih hpath (step_ne_start hstep))

/-- A literal is read from its first character on. -/
theorem opened_of_step (h : step u q c = some q') (hq : q ≠ .start) (hd : q'.opened = some d) :
    q.opened = some d := by
  unfold step at h
  split at h
  all_goals
    try split_ifs at h
    all_goals cases h <;> first | exact absurd rfl hq | exact hd | cases hd

theorem opened_of_path (h : w.foldlM (step u) q = some q') (hq : q ≠ .start)
    (hd : q'.opened = some d) : q.opened = some d :=
  of_path (P := fun q => q.opened = some d) h hq opened_of_step hd

theorem word_of_path (h : w.foldlM (step u) q = some .word) (hq : q ≠ .start) : q = .word := by
  refine of_path (P := (· = .word)) h hq (fun {q c q'} hstep hstart hword => ?_) rfl
  subst hword
  unfold step at hstep
  split at hstep
  all_goals
    try split_ifs at hstep
    all_goals first | exact absurd rfl hstart | rfl | cases hstep

theorem ne_blank_of_path (h : w.foldlM (step u) q = some q') (hq : q ≠ .start)
    (hblank : q' ≠ .blank) : q ≠ .blank := by
  refine of_path (P := (· ≠ .blank)) h hq (fun {q c q'} hstep _ hne => ?_) hblank
  rintro rfl
  rw [step] at hstep
  split_ifs at hstep
  exact hne (Option.some.inj hstep).symm

theorem exists_cons_of_path (h : w.foldlM (step u) .start = some q) (hq : q ≠ .start) :
    ∃ c body, w = c :: body ∧ body.foldlM (step u) (first u c) = some q := by
  cases w with
  | nil => exact absurd (Option.some.inj h).symm hq
  | cons c body =>
    obtain ⟨q₁, hstep, hpath⟩ := path_cons.mp h
    exact ⟨c, body, rfl, Option.some.inj hstep ▸ hpath⟩

theorem closesWith_iff : closesWith quote w = true ↔
    w.foldlM (step u) (.inside quote) = some .closed := by
  fun_induction closesWith quote w with
  | case1 => simp
  | case2 c => by_cases hquote : c = quote <;> by_cases hslash : c = '\\' <;>
    simp [step, hquote, hslash]
  | case3 d s => simp [step]
  | case4 d s hquote ih => simp [ih, step, hquote]
  | case5 c d s hquote hslash ih => simp [ih, step, hquote, hslash]

/-- With its closing quote, a literal ends with it. -/
theorem Reads.ended (h : Reads u t q) (hclosed : t.isClosed = true) (ht : t ≠ .whitespace) :
    q.ended = true := by
  obtain ⟨hpath, htoken⟩ := h
  cases q with
  | start => cases htoken
  | blank => exact absurd (Option.some.inj htoken).symm ht
  | escaped quote => cases htoken
  | inside quote =>
    obtain ⟨c, body, htext, hbody⟩ := exists_cons_of_path hpath nofun
    obtain ⟨rfl, hquote⟩ := first_of_opened (opened_of_path hbody first_ne_start rfl)
    have hfirst : first u quote = .inside quote := if_pos hquote
    rw [← Option.some.inj htoken, htext] at hclosed
    have hend := (closesWith_iff (u := u)).mp hclosed
    rw [← hfirst, hbody] at hend
    cases hend
  | _ => rfl

theorem first_of_blank (h : isWhitespace c = true) : first u c = .blank := by
  have hquote : ¬ (c = '\'' ∨ c = '"') := by
    rintro (rfl | rfl) <;> exact absurd h (by decide)
  rw [first, if_neg hquote, if_pos h]

theorem not_blank_of_opened (h : w.foldlM (step u) .start = some q) (hd : q.opened = some d) :
    isWhitespace d = false := by
  have hq : q ≠ .start := by
    rintro rfl
    cases hd
  obtain ⟨c, body, -, hbody⟩ := exists_cons_of_path h hq
  obtain ⟨rfl, rfl | rfl⟩ := first_of_opened (opened_of_path hbody first_ne_start hd) <;> decide

/-- No token ends with a blank. -/
theorem not_blank_of_step (h : step u q' c = some q) (hq : q.ended = true)
    (hopened : ∀ d, q'.opened = some d → isWhitespace d = false) : isWhitespace c = false := by
  by_contra hc
  rw [Bool.not_eq_false] at hc
  cases q' with
  | start =>
    rw [step, first_of_blank hc] at h
    cases h
    cases hq
  | blank =>
    rw [step, if_pos hc] at h
    cases h
    cases hq
  | inside quote =>
    rw [step] at h
    split_ifs at h with hquote
    · rw [hquote, hopened quote rfl] at hc
      cases hc
    all_goals
      cases h
      cases hq
  | escaped quote =>
    cases h
    cases hq
  | _ =>
    rw [step_blank rfl hc] at h
    cases h

theorem Reads.solid (h : Reads u t q) (hq : q.ended = true) : Solid isWhitespace Token.text t := by
  have hstart : q ≠ .start := by
    rintro rfl
    cases hq
  obtain ⟨c, body, htext, hbody⟩ := exists_cons_of_path h.1 hstart
  refine ⟨by simp [htext], fun d hd => ?_, fun d hd => ?_⟩
  · obtain rfl : c = d := by simpa [htext] using hd
    by_contra hc
    refine ne_blank_of_path hbody first_ne_start ?_ (first_of_blank (by simpa using hc))
    rintro rfl
    cases hq
  · obtain ⟨w, hw⟩ := List.getLast?_eq_some_iff.mp hd
    have hpath := h.1
    rw [hw, List.foldlM_append] at hpath
    obtain ⟨q', hw', hlast⟩ := Option.bind_eq_some_iff.mp hpath
    obtain ⟨q₁, hstep, hq₁⟩ := path_cons.mp hlast
    obtain rfl := Option.some.inj hq₁
    exact not_blank_of_step hstep hq fun _ hopened => not_blank_of_opened hw' hopened

theorem Reads.ends (h : Reads u t q) (hq : q.ended = true) :
    Ends (nextToken u) isWhitespace Token.text t where
  nil := before_iff.mpr ⟨q, h, nofun⟩
  blank _ _ hc := before_iff.mpr ⟨q, h, fun _ hd => Option.some.inj hd ▸ step_blank hq hc⟩

end NextgenDatabases.Repl
