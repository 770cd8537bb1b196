import Mathlib.Data.List.Infix
import Mathlib.Data.Rat.Defs

/-!
# Parser combinators

A parser tells how many characters of its input it has consumed. The rules for reading with the
combinators follow the definitions, then those by which a parser comes to a result.
-/
namespace NextgenDatabases.Vcl

abbrev Text := List Char

structure ParseError where
  message : String
  position : ℕ
  deriving DecidableEq, Repr

/-- A parser that `diverges` calls itself for ever. -/
inductive ParseResult (α : Type)
  | ok (value : α) (consumed : ℕ)
  | error (e : ParseError)
  | diverges

abbrev Parser (α : Type) := Text → ParseResult α

namespace Parser

variable {α β : Type}

def pure (value : α) : Parser α := fun _ => .ok value 0

def fail (message : String) : Parser α := fun _ => .error ⟨message, 0⟩

def map (p : Parser α) (f : α → β) : Parser β := fun input =>
  match p input with
  | .ok value consumed => .ok (f value) consumed
  | .error e => .error e
  | .diverges => .diverges

def bind (p : Parser α) (f : α → Parser β) : Parser β := fun input =>
  match p input with
  | .ok value consumed =>
    match f value (input.drop consumed) with
    | .ok value2 consumed2 => .ok value2 (consumed + consumed2)
    | .error e => .error { e with position := e.position + consumed }
    | .diverges => .diverges
  | .error e => .error e
  | .diverges => .diverges

def orElse (p1 p2 : Parser α) : Parser α := fun input =>
  match p1 input with
  | .ok value consumed => .ok value consumed
  | .error _ => p2 input
  | .diverges => .diverges

instance : OrElse (Parser α) := ⟨fun p1 p2 => orElse p1 (p2 ())⟩

/-! ### Characters and strings -/

/-- What `trimStart` removes: white space and line terminators. -/
def isSpace (c : Char) : Bool :=
  let n := c.toNat
  (9 ≤ n && n ≤ 13) || n = 0x20 || n = 0xA0 || n = 0x1680 || (0x2000 ≤ n && n ≤ 0x200A) ||
    n = 0x2028 || n = 0x2029 || n = 0x202F || n = 0x205F || n = 0x3000 || n = 0xFEFF

def isLineTerminator (c : Char) : Bool :=
  let n := c.toNat
  n = 10 || n = 13 || n = 0x2028 || n = 0x2029

def ws : Parser Unit := fun input =>
  let trimmed := input.dropWhile isSpace
  .ok () (input.length - trimmed.length)

def lexeme (p : Parser α) : Parser α := bind p fun value => map ws fun _ => value

def string (s : String) : Parser String := fun input =>
  if s.toList <+: input then .ok s s.toList.length else .error ⟨s!"Expected \"{s}\"", 0⟩

def keyword (k : String) : Parser String := lexeme (string k)

/-! ### Regular expressions

Each pattern has a function that finds its match at the start of a text.
-/

def regex (pattern : String) (exec : Text → Option Text) : Parser String := fun input =>
  match exec input with
  | some str => .ok (String.ofList str) str.length
  | none => .error ⟨s!"Regex {pattern} failed", 0⟩

def isIdentifierStart (c : Char) : Bool := c.isAlpha || c = '_'

def isIdentifierPart (c : Char) : Bool := c.isAlphanum || c = '_'

def isHexDigit (c : Char) : Bool :=
  c.isDigit || ('a' ≤ c && c ≤ 'f') || ('A' ≤ c && c ≤ 'F')

def execIdentifier : Text → Option Text
  | c :: s => if isIdentifierStart c then some (c :: s.takeWhile isIdentifierPart) else none
  | [] => none

def execUuid (s : Text) : Option Text :=
  let str := s.take 36
  let fits := str.zipIdx.all fun (c, i) =>
    if i = 8 || i = 13 || i = 18 || i = 23 then c = '-' else isHexDigit c
  if str.length = 36 && fits then some str else none

def execDigits (s : Text) : Option Text :=
  match s.takeWhile Char.isDigit with
  | [] => none
  | digits => some digits

def execDecimal (s : Text) : Option Text :=
  match execDigits s, s.dropWhile Char.isDigit with
  | some whole, '.' :: t => (execDigits t).map fun digits => whole ++ '.' :: digits
  | _, _ => none

/-- Up to the closing quote. A backslash goes with the character after it, which is not a line
terminator. -/
def execQuoted : Text → Option Text
  | [] => none
  | '"' :: _ => some ['"']
  | ['\\'] => none
  | '\\' :: c :: s =>
    if isLineTerminator c then none else (execQuoted s).map fun t => '\\' :: c :: t
  | c :: s => (execQuoted s).map (c :: ·)

def execString : Text → Option Text
  | '"' :: s => (execQuoted s).map ('"' :: ·)
  | _ => none

def identifier : Parser String := lexeme (regex "^[a-zA-Z_][a-zA-Z0-9_]*" execIdentifier)

def uuid : Parser String :=
  let hex := "[0-9a-fA-F]"
  lexeme (regex (s!"^{hex}\x7b8\x7d-{hex}\x7b4\x7d-{hex}\x7b4\x7d-{hex}\x7b4\x7d-" ++
    s!"{hex}\x7b12\x7d") execUuid)

def ofDigits (digits : Text) : ℕ := digits.foldl (fun n c => 10 * n + (c.toNat - 48)) 0

/-- `Belt.Int.fromString` -/
def intFromString (str : String) : Option ℤ :=
  (execDigits str.toList).map fun digits => (ofDigits digits : ℤ)

/-- `Belt.Float.fromString` -/
def floatFromString (str : String) : Option ℚ :=
  (execDigits str.toList).map fun whole =>
    let digits := ((str.toList.dropWhile Char.isDigit).drop 1).takeWhile Char.isDigit
    ofDigits whole + ofDigits digits / (10 : ℚ) ^ digits.length

def integer : Parser ℤ := fun input =>
  match lexeme (regex "^[0-9]+" execDigits) input with
  | .ok str consumed =>
    match intFromString str with
    | some n => .ok n consumed
    | none => .error ⟨"Invalid integer", 0⟩
  | .error e => .error e
  | .diverges => .diverges

def float : Parser ℚ := fun input =>
  match lexeme (regex "^[0-9]+\\.[0-9]+" execDecimal) input with
  | .ok str consumed =>
    match floatFromString str with
    | some f => .ok f consumed
    | none => .error ⟨"Invalid float", 0⟩
  | .error e => .error e
  | .diverges => .diverges

def stringLiteral : Parser String := fun input =>
  match lexeme (regex "^\"([^\"\\\\]|\\\\.)*\"" execString) input with
  | .ok str consumed => .ok (String.ofList (str.toList.dropLast.drop 1)) consumed
  | .error e => .error e
  | .diverges => .diverges

/-! ### Repetition -/

def manyFrom (p : Parser α) : ℕ → Parser (List α)
  | 0 => fun _ => .diverges
  | n + 1 => fun input =>
    match p input with
    | .ok value consumed =>
      match manyFrom p n (input.drop consumed) with
      | .ok values consumed2 => .ok (value :: values) (consumed + consumed2)
      | .error _ => .ok [value] consumed
      | .diverges => .diverges
    | .error _ => .ok [] 0
    | .diverges => .diverges

/-- After more steps than there are characters, a step has consumed nothing and is repeated for
ever. -/
def many (p : Parser α) : Parser (List α) := fun input => manyFrom p (input.length + 1) input

def sepBy (p : Parser α) (sep : Parser β) : Parser (List α) := fun input =>
  match p input with
  | .ok first consumed1 =>
    match many (bind sep fun _ => p) (input.drop consumed1) with
    | .ok rest consumed2 => .ok (first :: rest) (consumed1 + consumed2)
    | .error _ => .ok [first] consumed1
    | .diverges => .diverges
  | .error e => .error e
  | .diverges => .diverges

def optional (p : Parser α) : Parser (Option α) := fun input =>
  match p input with
  | .ok value consumed => .ok (some value) consumed
  | .error _ => .ok none 0
  | .diverges => .diverges

/-! ### Reading -/

/-- The parser reads a value and leaves the rest of the text. -/
def Reads (p : Parser α) (s : Text) (a : α) (t : Text) : Prop :=
  ∃ k, p s = .ok a k ∧ t = s.drop k

section

variable {p q : Parser α} {f : α → Parser β} {g : α → β} {s t u : Text} {a a' : α} {b : β}

theorem Reads.eq (h : Reads p s a t) (h' : Reads p s a' u) : a = a' ∧ t = u := by
  obtain ⟨k, hok, rfl⟩ := h
  obtain ⟨k', hok', rfl⟩ := h'
  rw [hok] at hok'
  cases hok'
  exact ⟨rfl, rfl⟩

theorem Reads.length_le (h : Reads p s a t) : t.length ≤ s.length := by
  obtain ⟨k, -, rfl⟩ := h
  rw [List.length_drop]
  omega

theorem reads_map : Reads (map p g) s b t ↔ ∃ a, Reads p s a t ∧ g a = b := by
  unfold Reads map
  cases p s <;> simp [and_comm, eq_comm]

theorem reads_bind : Reads (bind p f) s b u ↔ ∃ a t, Reads p s a t ∧ Reads (f a) t b u := by
  unfold Reads bind
  cases h : p s with
  | ok value consumed =>
    cases h' : f value (s.drop consumed) <;> simp [h', and_comm, eq_comm]
  | error e => simp
  | diverges => simp

theorem reads_orElse : Reads (p <|> q) s a t ↔
    Reads p s a t ∨ (∃ e, p s = .error e) ∧ Reads q s a t := by
  change Reads (orElse p q) s a t ↔ _
  unfold Reads orElse
  cases p s <;> simp

theorem reads_optional {o : Option α} : Reads (optional p) s o t ↔
    (∃ a, o = some a ∧ Reads p s a t) ∨ o = none ∧ (∃ e, p s = .error e) ∧ t = s := by
  unfold Reads optional
  cases p s <;> simp [and_comm, and_left_comm, eq_comm]

theorem reads_ws {x : Unit} : Reads ws s x t ↔ t = s.dropWhile isSpace := by
  have hdrop : s.drop (s.length - (s.dropWhile isSpace).length) = s.dropWhile isSpace :=
    (List.suffix_iff_eq_drop.mp (List.dropWhile_suffix isSpace)).symm
  constructor
  · rintro ⟨k, hok, rfl⟩
    cases hok
    exact hdrop
  · rintro rfl
    exact ⟨_, rfl, hdrop.symm⟩

theorem reads_string {k x : String} :
    Reads (string k) s x t ↔ k.toList <+: s ∧ k = x ∧ t = s.drop k.toList.length := by
  unfold Reads string
  split_ifs with h <;> simp [h, and_comm, eq_comm]

theorem reads_keyword {k x : String} : Reads (keyword k) s x t ↔
    k.toList <+: s ∧ k = x ∧ t = (s.drop k.toList.length).dropWhile isSpace := by
  simp only [keyword, lexeme, reads_bind, reads_map, reads_string, reads_ws]
  constructor
  · rintro ⟨_, _, ⟨hopens, rfl, rfl⟩, _, rfl, rfl⟩
    exact ⟨hopens, rfl, rfl⟩
  · rintro ⟨hopens, rfl, rfl⟩
    exact ⟨_, _, ⟨hopens, rfl, rfl⟩, (), rfl, rfl⟩

end

theorem ne_nil_of_reads_sepBy {p : Parser α} {sep : Parser β} {s t : Text} {values : List α}
    (h : Reads (sepBy p sep) s values t) : values ≠ [] := by
  obtain ⟨k, hok, -⟩ := h
  unfold sepBy at hok
  split at hok
  · split at hok <;> cases hok <;> exact List.cons_ne_nil _ _
  · cases hok
  · cases hok

/-! ### Coming to a result -/

/-- The parser comes to a result on every text of at most `n` characters. -/
class Halts (n : ℕ) (p : Parser α) : Prop where
  ne_diverges : ∀ s : Text, s.length ≤ n → p s ≠ .diverges

/-- What is read is never empty. -/
class Consumes (p : Parser α) : Prop where
  length_lt : ∀ {s a t}, Reads p s a t → t.length < s.length

theorem consumes_keyword {k : String} (h : k.toList ≠ []) : Consumes (keyword k) := by
  constructor
  intro s a t hread
  obtain ⟨hopens, -, rfl⟩ := reads_keyword.mp hread
  have hpos : 0 < k.toList.length := List.length_pos_iff.mpr h
  have hle : k.toList.length ≤ s.length := hopens.length_le
  calc ((s.drop k.toList.length).dropWhile isSpace).length
      ≤ (s.drop k.toList.length).length := (List.dropWhile_sublist _).length_le
    _ = s.length - k.toList.length := List.length_drop
    _ < s.length := by omega

theorem manyFrom_ne_diverges {p : Parser α} [Consumes p] {n fuel : ℕ} [Halts n p] {s : Text}
    (hn : s.length ≤ n) (hfuel : s.length < fuel) : manyFrom p fuel s ≠ .diverges := by
  induction fuel generalizing s with
  | zero => omega
  | succ fuel ih =>
    unfold manyFrom
    cases hp : p s with
    | ok value consumed =>
      have hlt : (s.drop consumed).length < s.length := Consumes.length_lt ⟨consumed, hp, rfl⟩
      have hrest : manyFrom p fuel (s.drop consumed) ≠ .diverges := ih (by omega) (by omega)
      cases hmany : manyFrom p fuel (s.drop consumed) with
      | ok values consumed2 => simp [hmany]
      | error e => simp [hmany]
      | diverges => exact absurd hmany hrest
    | error e => simp
    | diverges => exact absurd hp (Halts.ne_diverges (n := n) s hn)

section

variable {p q : Parser α} {f : α → Parser β} {g : α → β} {n : ℕ}

theorem diverges_bind {s : Text} : bind p f s = .diverges ↔
    p s = .diverges ∨ ∃ a t, Reads p s a t ∧ f a t = .diverges := by
  unfold Reads bind
  cases h : p s with
  | ok value consumed =>
    cases h' : f value (s.drop consumed) <;> simp [h']
  | error e => simp
  | diverges => simp

theorem diverges_map {s : Text} : map p g s = .diverges ↔ p s = .diverges := by
  unfold map
  cases p s <;> simp

theorem diverges_optional {s : Text} : optional p s = .diverges ↔ p s = .diverges := by
  unfold optional
  cases p s <;> simp

theorem diverges_of_halts {s : Text} [Halts s.length p] : p s = .diverges ↔ False :=
  iff_of_false (Halts.ne_diverges s le_rfl) id

/-- A parser that diverges only where another one does comes to a result where that one does. -/
theorem Halts.of_diverges {r : Parser β} [Halts n p]
    (h : ∀ s, r s = .diverges → p s = .diverges) : Halts n r := by
  constructor
  intro s hs hr
  exact Halts.ne_diverges s hs (h s hr)

instance [Consumes p] : Consumes (bind p f) where
  length_lt := by
    intro s b u hread
    obtain ⟨a, t, hp, hf⟩ := reads_bind.mp hread
    exact lt_of_le_of_lt hf.length_le (Consumes.length_lt hp)

instance {k : String} : Halts n (string k) where
  ne_diverges := by
    intro s _
    unfold string
    split_ifs <;> simp

instance {pattern : String} {exec : Text → Option Text} : Halts n (regex pattern exec) where
  ne_diverges := by
    intro s _
    unfold regex
    cases exec s <;> simp

instance : Halts n ws where
  ne_diverges := by
    intro s _
    simp [ws]

instance [Halts n p] : Halts n (map p g) := by
  apply Halts.of_diverges (p := p)
  intro s h
  exact diverges_map.mp h

theorem halts_bind [Halts n p] (hf : ∀ s a t, s.length ≤ n → Reads p s a t → f a t ≠ .diverges) :
    Halts n (bind p f) := by
  constructor
  intro s hs h
  rcases diverges_bind.mp h with hp | ⟨a, t, hread, ht⟩
  · exact Halts.ne_diverges s hs hp
  · exact hf s a t hs hread ht

instance [Halts n p] [∀ a, Halts n (f a)] : Halts n (bind p f) := by
  apply halts_bind
  intro s a t hs hread
  exact Halts.ne_diverges t (hread.length_le.trans hs)

instance [Halts n p] [Halts n q] : Halts n (p <|> q) where
  ne_diverges := by
    intro s hs
    have hp := Halts.ne_diverges (p := p) s hs
    have hq := Halts.ne_diverges (p := q) s hs
    change orElse p q s ≠ .diverges
    unfold orElse
    cases h : p s <;> simp_all

instance [Halts n p] : Halts n (lexeme p) := by
  unfold lexeme
  infer_instance

instance {k : String} : Halts n (keyword k) := by
  unfold keyword
  infer_instance

instance [Halts n p] : Halts n (optional p) := by
  apply Halts.of_diverges (p := p)
  intro s h
  exact diverges_optional.mp h

instance [Halts n p] [Consumes p] : Halts n (many p) where
  ne_diverges := fun s hs => manyFrom_ne_diverges hs (Nat.lt_succ_self s.length)

instance {sep : Parser β} [Halts n p] [Halts n sep] [Consumes sep] : Halts n (sepBy p sep) where
  ne_diverges := by
    intro s hs
    have hp := Halts.ne_diverges (p := p) s hs
    unfold sepBy
    cases h : p s with
    | ok value consumed =>
      have hread : Reads p s value (s.drop consumed) := ⟨consumed, h, rfl⟩
      have hmany := Halts.ne_diverges (p := many (bind sep fun _ => p)) (s.drop consumed)
        (hread.length_le.trans hs)
      cases h' : many (bind sep fun _ => p) (s.drop consumed) <;> simp_all
    | error e => simp
    | diverges => exact absurd h hp

instance : Halts n identifier := by
  unfold identifier
  infer_instance

instance : Halts n uuid := by
  unfold uuid
  infer_instance

instance : Halts n integer := by
  apply Halts.of_diverges (p := lexeme (regex "^[0-9]+" execDigits))
  intro s h
  unfold integer at h
  split at h
  · split at h <;> cases h
  · cases h
  · assumption

instance : Halts n float := by
  apply Halts.of_diverges (p := lexeme (regex "^[0-9]+\\.[0-9]+" execDecimal))
  intro s h
  unfold float at h
  split at h
  · split at h <;> cases h
  · cases h
  · assumption

instance : Halts n stringLiteral := by
  apply Halts.of_diverges
    (p := lexeme (regex "^\"([^\"\\\\]|\\\\.)*\"" execString))
  intro s h
  unfold stringLiteral at h
  split at h
  · cases h
  · cases h
  · assumption

instance : Consumes (keyword ",") := consumes_keyword (by decide)

instance : Consumes (keyword "AND") := consumes_keyword (by decide)

end

end Parser

end NextgenDatabases.Vcl
