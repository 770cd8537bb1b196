import NextgenDatabases.Foundations.Bytes
import NextgenDatabases.Foundations.Json

/-!
# Texts of JSON

A reader for JSON texts, and rules for texts that are put together piece by piece: what a piece
says is read from it whatever comes next.
-/
namespace NextgenDatabases.Foundations.JsonText

/-! ### The reader -/

def IsSpace (c : Char) : Prop := c = ' ' ∨ c = '\t' ∨ c = '\n' ∨ c = '\r'

instance (c : Char) : Decidable (IsSpace c) :=
  inferInstanceAs (Decidable (c = ' ' ∨ c = '\t' ∨ c = '\n' ∨ c = '\r'))

def skipSpace (s : List Char) : List Char := s.dropWhile fun c => decide (IsSpace c)

def hexValue (c : Char) : Option ℕ :=
  if c.isDigit then some (c.toNat - 48)
  else if 'a' ≤ c ∧ c ≤ 'f' then some (c.toNat - 87)
  else if 'A' ≤ c ∧ c ≤ 'F' then some (c.toNat - 55)
  else none

/-- The four digits behind `\u`. -/
def codeUnit : List Char → Option (ℕ × List Char)
  | a :: b :: c :: d :: s => do
    let a ← hexValue a
    let b ← hexValue b
    let c ← hexValue c
    let d ← hexValue d
    return (((a * 16 + b) * 16 + c) * 16 + d, s)
  | _ => none

/-- A code unit outside the surrogates is a character, and a high surrogate needs a low one. -/
def unicode (s : List Char) : Option (Char × List Char) := do
  let (unit, s) ← codeUnit s
  if unit < 0xD800 ∨ 0xE000 ≤ unit then return (.ofNat unit, s)
  guard (unit < 0xDC00)
  match s with
  | '\\' :: 'u' :: s => do
    let (low, s) ← codeUnit s
    guard (0xDC00 ≤ low ∧ low < 0xE000)
    return (.ofNat (0x10000 + (unit - 0xD800) * 0x400 + (low - 0xDC00)), s)
  | _ => none

def escaped (c : Char) : Option Char :=
  [('"', '"'), ('\\', '\\'), ('/', '/'), ('b', '\x08'), ('f', '\x0C'), ('n', '\n'), ('r', '\r'),
    ('t', '\t')].lookup c

/-- A character behind a backslash. -/
def escape : List Char → Option (Char × List Char)
  | [] => none
  | e :: s => if e = 'u' then unicode s else (escaped e).map fun c => (c, s)

/-- One character of a string. -/
def character : List Char → Option (Char × List Char)
  | [] => none
  | c :: s =>
    if c = '\\' then escape s
    else if c = '"' ∨ c.toNat < 0x20 then none
    else some (c, s)

/-- The characters up to the closing quote. -/
def characters : ℕ → List Char → Option (List Char × List Char)
  | 0, _ => none
  | fuel + 1, s =>
    if s.head? = some '"' then some ([], s.tail)
    else do
      let (c, s) ← character s
      let (cs, s) ← characters fuel s
      return (c :: cs, s)

/-- A string behind its opening quote. -/
def string (s : List Char) : Option (String × List Char) :=
  (characters (s.length + 1) s).map fun (cs, s) => (.ofList cs, s)

/-- At least one digit. -/
def digits (s : List Char) : Option (List Char × List Char) :=
  if s.takeWhile Char.isDigit = [] then none
  else some (s.takeWhile Char.isDigit, s.dropWhile Char.isDigit)

def fraction : List Char → Option (List Char × List Char)
  | '.' :: s => digits s
  | s => some ([], s)

def exponent (s : List Char) : Option (ℤ × List Char) :=
  match s with
  | [] => some (0, [])
  | c :: s =>
    if c = 'e' ∨ c = 'E' then
      match s with
      | '-' :: s => (digits s).map fun (ds, s) => (-Nat.ofDigitChars 10 ds 0, s)
      | '+' :: s => (digits s).map fun (ds, s) => (Nat.ofDigitChars 10 ds 0, s)
      | s => (digits s).map fun (ds, s) => (Nat.ofDigitChars 10 ds 0, s)
    else some (0, c :: s)

/-- A number without its sign. No zero stands in front of another digit. -/
def unsigned (s : List Char) : Option (ℚ × List Char) := do
  let (whole, s) ← digits s
  guard (whole.head? = some '0' → whole = ['0'])
  let (frac, s) ← fraction s
  let (exp, s) ← exponent s
  return (Nat.ofDigitChars 10 (whole ++ frac) 0 * 10 ^ (exp - frac.length), s)

def number (s : List Char) : Option (ℚ × List Char) :=
  match s with
  | '-' :: s => (unsigned s).map fun (q, s) => (-q, s)
  | s => unsigned s

def literal (word : String) (value : Json) (s : List Char) : Option (Json × List Char) :=
  if word.toList <+: s then some (value, s.drop word.length) else none

mutual

/-- A value with the space before it. -/
def value : ℕ → List Char → Option (Json × List Char)
  | 0, _ => none
  | fuel + 1, s =>
    match skipSpace s with
    | [] => none
    | c :: s =>
      if c = '\x7b' then
        if (skipSpace s).head? = some '\x7d' then some (.object [], (skipSpace s).tail)
        else (members fuel s).map fun (fields, s) => (.object fields, s)
      else if c = '[' then
        if (skipSpace s).head? = some ']' then some (.array [], (skipSpace s).tail)
        else (elements fuel s).map fun (items, s) => (.array items, s)
      else if c = '"' then (string s).map fun (text, s) => (.string text, s)
      else if c = 't' then literal "true" (.boolean true) (c :: s)
      else if c = 'f' then literal "false" (.boolean false) (c :: s)
      else if c = 'n' then literal "null" .null (c :: s)
      else (number (c :: s)).map fun (q, s) => (.number q, s)

/-- The items of an array up to its closing bracket. -/
def elements : ℕ → List Char → Option (List Json × List Char)
  | 0, _ => none
  | fuel + 1, s => do
    let (item, s) ← value fuel s
    match skipSpace s with
    | ']' :: s => return ([item], s)
    | ',' :: s => do
      let (items, s) ← elements fuel s
      return (item :: items, s)
    | _ => none

/-- The fields of an object up to its closing brace. -/
def members : ℕ → List Char → Option (List (String × Json) × List Char)
  | 0, _ => none
  | fuel + 1, s =>
    match skipSpace s with
    | '"' :: s => do
      let (key, s) ← string s
      match skipSpace s with
      | ':' :: s => do
        let (item, s) ← value fuel s
        match skipSpace s with
        | '\x7d' :: s => return ([(key, item)], s)
        | ',' :: s => do
          let (fields, s) ← members fuel s
          return ((key, item) :: fields, s)
        | _ => none
      | _ => none
    | _ => none

end

/-- A value takes at most two steps for each character, and one more. -/
def parse (s : List Char) : Option Json := do
  let (json, s) ← value (2 * s.length + 1) s
  guard (skipSpace s = [])
  return json

/-- The value of a text in UTF-8. -/
def read (bytes : Bytes) : Option Json :=
  (String.fromUTF8? ⟨bytes.toArray⟩).bind fun text => parse text.toList

/-! ### Strings -/

/-- The piece stands for the character in a string. -/
structure Spells (piece : List Char) (c : Char) : Prop where
  ne_nil : piece ≠ []
  no_quote : piece.head? ≠ some '"'
  character : ∀ rest, character (piece ++ rest) = some (c, rest)

theorem spells_plain {c : Char} (hquote : c ≠ '"') (hslash : c ≠ '\\') (hc : 0x20 ≤ c.toNat) :
    Spells [c] c where
  ne_nil := by simp
  no_quote := by simpa using hquote
  character rest := by
    have hplain : ¬ (c = '"' ∨ c.toNat < 0x20) := not_or.mpr ⟨hquote, not_lt.mpr hc⟩
    rw [List.singleton_append, JsonText.character, if_neg hslash, if_neg hplain]

theorem spells_escaped {e c : Char} (hu : e ≠ 'u') (h : escaped e = some c) :
    Spells ['\\', e] c where
  ne_nil := by simp
  no_quote := by simp
  character rest := by
    rw [List.cons_append, List.singleton_append, JsonText.character, if_pos rfl, escape,
      if_neg hu, h]
    rfl

/-- A character below `2 ^ 8` by its two hexadecimal digits. -/
theorem spells_unicode {hi lo : ℕ} (hhi : hi < 16) (hlo : lo < 16) :
    Spells ['\\', 'u', '0', '0', Nat.digitChar hi, Nat.digitChar lo] (.ofNat (hi * 16 + lo)) where
  ne_nil := by simp
  no_quote := by simp
  character rest := by
    have hdigit : ∀ d < 16, hexValue (Nat.digitChar d) = some d := by decide
    have hunit : codeUnit ('0' :: '0' :: Nat.digitChar hi :: Nat.digitChar lo :: rest) =
        some (hi * 16 + lo, rest) := by
      rw [codeUnit, hdigit hi hhi, hdigit lo hlo, hexValue, if_pos (by decide)]
      simp [Option.bind_some]
    have hlow : hi * 16 + lo < 0xD800 ∨ 0xE000 ≤ hi * 16 + lo := by omega
    have hunicode : unicode ('0' :: '0' :: Nat.digitChar hi :: Nat.digitChar lo :: rest) =
        some (.ofNat (hi * 16 + lo), rest) := by
      rw [unicode, hunit]
      simp [hlow]
    exact hunicode

theorem characters_spelled {pieces : List (List Char)} {cs : List Char}
    (h : List.Forall₂ Spells pieces cs) (rest : List Char) {fuel : ℕ}
    (hfuel : pieces.length < fuel) :
    characters fuel (pieces.flatten ++ '"' :: rest) = some (cs, rest) := by
  induction h generalizing fuel with
  | nil =>
    obtain ⟨fuel, rfl⟩ := Nat.exists_eq_add_of_lt hfuel
    rfl
  | @cons piece c pieces cs hpiece _ ih =>
    obtain ⟨fuel, rfl⟩ : ∃ n, fuel = n + 1 := ⟨fuel - 1, by omega⟩
    have hhead : ((piece :: pieces).flatten ++ '"' :: rest).head? ≠ some '"' := by
      rw [List.flatten_cons, List.append_assoc, List.head?_append_of_ne_nil _ hpiece.ne_nil]
      exact hpiece.no_quote
    rw [characters, if_neg hhead, List.flatten_cons, List.append_assoc, hpiece.character]
    simp only [bind, Option.bind]
    rw [ih (by simpa using hfuel)]
    rfl

theorem length_le_flatten {pieces : List (List Char)} (h : ∀ piece ∈ pieces, piece ≠ []) :
    pieces.length ≤ pieces.flatten.length := by
  induction pieces with
  | nil => rfl
  | cons piece pieces ih =>
    have hpiece := List.length_pos_iff.mpr (h piece List.mem_cons_self)
    have hrest := ih fun p hp => h p (List.mem_cons_of_mem _ hp)
    rw [List.length_cons, List.flatten_cons, List.length_append]
    omega

theorem string_spelled {pieces : List (List Char)} {cs : List Char}
    (h : List.Forall₂ Spells pieces cs) (rest : List Char) :
    string (pieces.flatten ++ '"' :: rest) = some (.ofList cs, rest) := by
  have hne : ∀ piece ∈ pieces, piece ≠ [] := by
    intro piece hpiece
    obtain ⟨i, hi, rfl⟩ := List.getElem_of_mem hpiece
    exact (h.get hi (h.length_eq ▸ hi)).ne_nil
  have hlen := length_le_flatten hne
  rw [string, characters_spelled h rest (by rw [List.length_append]; omega)]
  rfl

/-- Most characters stand for themselves. -/
theorem spelled_plain {cs : List Char}
    (h : ∀ c ∈ cs, c ≠ '"' ∧ c ≠ '\\' ∧ 0x20 ≤ c.toNat) :
    List.Forall₂ Spells (cs.map fun c => [c]) cs := by
  rw [List.forall₂_map_left_iff]
  exact List.forall₂_same.mpr fun c hc => spells_plain (h c hc).1 (h c hc).2.1 (h c hc).2.2

/-! ### Values -/

/-- No number goes on here. -/
def Ends (s : List Char) : Prop :=
  ∀ c ∈ s.head?, c.isDigit = false ∧ c ≠ '.' ∧ c ≠ 'e' ∧ c ≠ 'E'

theorem ends_nil : Ends [] := by simp [Ends]

theorem ends_cons {c : Char} (h : c ∈ [',', ']', '\x7d']) (s : List Char) : Ends (c :: s) := by
  intro d hd
  obtain rfl : c = d := by simpa using hd
  simp only [List.mem_cons, List.not_mem_nil, or_false] at h
  obtain rfl | rfl | rfl := h <;> decide

/-- The text stands for the value. -/
def Reads (s : List Char) (json : Json) : Prop :=
  ∀ fuel rest, 2 * s.length < fuel → Ends rest → value fuel (s ++ rest) = some (json, rest)

theorem Reads.parse {s : List Char} {json : Json} (h : Reads s json) : parse s = some json := by
  have hvalue := h (2 * s.length + 1) [] (Nat.lt_succ_self _) ends_nil
  rw [List.append_nil] at hvalue
  rw [JsonText.parse, hvalue]
  rfl

theorem skipSpace_cons {c : Char} (h : ¬ IsSpace c) (s : List Char) :
    skipSpace (c :: s) = c :: s := by
  rw [skipSpace, List.dropWhile_cons_of_neg (by simpa using h)]

theorem reads_string {pieces : List (List Char)} {cs : List Char}
    (h : List.Forall₂ Spells pieces cs) :
    Reads ('"' :: (pieces.flatten ++ ['"'])) (.string (.ofList cs)) := by
  intro fuel rest hfuel _
  obtain ⟨fuel, rfl⟩ : ∃ n, fuel = n + 1 := ⟨fuel - 1, by omega⟩
  have htext : '"' :: (pieces.flatten ++ ['"']) ++ rest = '"' :: (pieces.flatten ++ '"' :: rest) := by
    simp
  rw [htext, value, skipSpace_cons (by decide)]
  simp [string_spelled h]

/-! ### Numbers -/

theorem takeWhile_digits (n : ℕ) {rest : List Char} (h : Ends rest) :
    (Nat.toDigits 10 n ++ rest).takeWhile Char.isDigit = Nat.toDigits 10 n ∧
      (Nat.toDigits 10 n ++ rest).dropWhile Char.isDigit = rest := by
  have hall : ∀ c ∈ Nat.toDigits 10 n, c.isDigit = true :=
    fun c hc => Nat.isDigit_of_mem_toDigits (by decide) (by decide) hc
  have hrest : rest.takeWhile Char.isDigit = [] ∧ rest.dropWhile Char.isDigit = rest := by
    cases rest with
    | nil => exact ⟨rfl, rfl⟩
    | cons c rest =>
      have hc : c.isDigit = false := (h c rfl).1
      simp [hc]
  rw [List.takeWhile_append_of_pos hall, List.dropWhile_append_of_pos hall, hrest.1, hrest.2]
  exact ⟨List.append_nil _, rfl⟩

/-- No zero in front of the digits of a number. -/
theorem head_toDigits (n : ℕ) (h : (Nat.toDigits 10 n).head? = some '0') :
    Nat.toDigits 10 n = ['0'] := by
  induction n using Nat.strongRecOn with
  | ind n ih =>
    by_cases hn : n < 10
    · rw [Nat.toDigits_of_lt_base hn] at h ⊢
      simpa using h
    · rw [Nat.toDigits_of_base_le (by decide) (not_lt.mp hn),
        List.head?_append_of_ne_nil _ Nat.toDigits_ne_nil] at h
      have hprefix := ih (n / 10) (by omega) h
      have hvalue := congrArg (fun ds => Nat.ofDigitChars 10 ds 0) hprefix
      simp only [Nat.ofDigitChars_ten_toDigits] at hvalue
      have hzero : n / 10 = 0 := hvalue
      omega

theorem fraction_ends {rest : List Char} (h : Ends rest) : fraction rest = some ([], rest) := by
  unfold fraction
  split
  · exact absurd rfl (h '.' rfl).2.1
  · rfl

theorem exponent_ends {rest : List Char} (h : Ends rest) : exponent rest = some (0, rest) := by
  cases rest with
  | nil => rfl
  | cons c rest =>
    obtain ⟨-, -, he, hE⟩ := h c rfl
    rw [exponent.eq_def]
    simp [he, hE]

theorem unsigned_toDigits (n : ℕ) {rest : List Char} (h : Ends rest) :
    unsigned (Nat.toDigits 10 n ++ rest) = some ((n : ℚ), rest) := by
  obtain ⟨htake, hdrop⟩ := takeWhile_digits n h
  rw [unsigned, digits, htake, hdrop, if_neg Nat.toDigits_ne_nil]
  simp only [Option.bind_eq_bind, Option.bind_some]
  rw [guard, if_pos (head_toDigits n)]
  simp [fraction_ends h, exponent_ends h]

theorem reads_number (n : ℕ) : Reads (Nat.toDigits 10 n) (.number n) := by
  intro fuel rest hfuel hrest
  obtain ⟨fuel, rfl⟩ : ∃ n, fuel = n + 1 := ⟨fuel - 1, by omega⟩
  have hnumber := unsigned_toDigits n hrest
  have hdigit : ∀ c ∈ Nat.toDigits 10 n, c.isDigit = true :=
    fun c hc => Nat.isDigit_of_mem_toDigits (by decide) (by decide) hc
  obtain ⟨c, cs, hcs⟩ := List.exists_cons_of_ne_nil (@Nat.toDigits_ne_nil n 10)
  rw [hcs] at hnumber hdigit ⊢
  have hc : c.isDigit = true := hdigit c List.mem_cons_self
  have hne (d : Char) (hd : d.isDigit = false) : c ≠ d := by
    rintro rfl
    rw [hc] at hd
    cases hd
  have hspace : ¬ IsSpace c := by
    rintro (rfl | rfl | rfl | rfl) <;> exact absurd hc (by decide)
  have hsign : number (c :: (cs ++ rest)) = unsigned (c :: (cs ++ rest)) := by
    unfold number
    split
    · next s heq => exact absurd (List.cons.inj heq).1 (hne '-' (by decide))
    · rfl
  rw [List.cons_append, value, skipSpace_cons hspace]
  rw [List.cons_append] at hnumber
  simp only [hne _ (show '\x7b'.isDigit = false by decide),
    hne _ (show '['.isDigit = false by decide), hne _ (show '"'.isDigit = false by decide),
    hne _ (show 't'.isDigit = false by decide), hne _ (show 'f'.isDigit = false by decide),
    hne _ (show 'n'.isDigit = false by decide), if_false, hsign, hnumber]
  rfl

/-! ### Arrays and objects -/

theorem intercalate_cons (sep piece next : List Char) (pieces : List (List Char)) :
    List.intercalate sep (piece :: next :: pieces) =
      piece ++ (sep ++ List.intercalate sep (next :: pieces)) := by
  simp [List.intercalate]

theorem skipSpace_head {c : Char} {s : List Char} (h : s.head? = some c) (hc : ¬ IsSpace c) :
    skipSpace s = s := by
  obtain ⟨s, rfl⟩ : ∃ t, s = c :: t := ⟨s.tail, List.eq_cons_of_mem_head? h⟩
  exact skipSpace_cons hc s

theorem elements_read {pieces : List (List Char)} {items : List Json}
    (h : List.Forall₂ Reads pieces items) (hne : pieces ≠ []) {fuel : ℕ} {rest : List Char}
    (hfuel : 2 * (List.intercalate [','] pieces).length + 1 < fuel) :
    elements fuel (List.intercalate [','] pieces ++ ']' :: rest) = some (items, rest) := by
  induction h generalizing fuel with
  | nil => exact absurd rfl hne
  | @cons piece item pieces items hpiece hpieces ih =>
    obtain ⟨fuel, rfl⟩ : ∃ n, fuel = n + 1 := ⟨fuel - 1, by omega⟩
    rw [elements]
    cases hpieces with
    | nil =>
      have htext : List.intercalate [','] [piece] = piece := by simp [List.intercalate]
      rw [htext] at hfuel ⊢
      rw [hpiece fuel _ (by omega) (ends_cons (by decide) rest)]
      rfl
    | @cons next item' pieces items hnext hrest =>
      rw [intercalate_cons] at hfuel ⊢
      simp only [List.length_append, List.length_singleton] at hfuel
      rw [List.append_assoc, List.append_assoc, List.singleton_append,
        hpiece fuel _ (by omega) (ends_cons (by decide) _)]
      simp only [Option.bind_eq_bind, Option.bind_some, skipSpace_cons (show ¬ IsSpace ',' by decide)]
      rw [ih (List.cons_ne_nil _ _) (by omega)]
      rfl

/-- The text of an array is read as its items. -/
theorem reads_array {pieces : List (List Char)} {items : List Json}
    (h : List.Forall₂ Reads pieces items)
    (hhead : ∀ piece ∈ pieces, ∃ c, piece.head? = some c ∧ c ≠ ']' ∧ ¬ IsSpace c) :
    Reads ('[' :: (List.intercalate [','] pieces ++ [']'])) (.array items) := by
  intro fuel rest hfuel _
  obtain ⟨fuel, rfl⟩ : ∃ n, fuel = n + 1 := ⟨fuel - 1, by omega⟩
  simp only [List.length_cons, List.length_append, List.length_nil] at hfuel
  rw [List.cons_append, List.append_assoc, List.singleton_append, value,
    skipSpace_cons (by decide)]
  dsimp only
  rw [if_neg (by decide), if_pos rfl]
  cases h with
  | nil => rfl
  | @cons piece item pieces items hpiece hpieces =>
    obtain ⟨c, hc, hne, hspace⟩ := hhead piece List.mem_cons_self
    have hfirst : (List.intercalate [','] (piece :: pieces) ++ ']' :: rest).head? = some c := by
      have hnil : piece ≠ [] := fun hnil => by simp [hnil] at hc
      cases pieces with
      | nil =>
        rw [show List.intercalate [','] [piece] = piece by simp [List.intercalate],
          List.head?_append_of_ne_nil _ hnil, hc]
      | cons next pieces =>
        rw [intercalate_cons, List.append_assoc, List.head?_append_of_ne_nil _ hnil, hc]
    have hclosed : ¬ some c = some ']' := fun heq => hne (Option.some.inj heq)
    rw [skipSpace_head hfirst hspace, hfirst, if_neg hclosed,
      elements_read (.cons hpiece hpieces) (List.cons_ne_nil _ _) (by omega)]
    rfl

/-- The text of a field. -/
structure ReadsField (s : List Char) (field : String × Json) : Prop where
  parts : ∃ pieces cs text, List.Forall₂ Spells pieces cs ∧ field.1 = .ofList cs ∧
    Reads text field.2 ∧ s = '"' :: (pieces.flatten ++ '"' :: ':' :: text)

theorem readsField_plain {name : String} {text : List Char} {item : Json}
    (hname : ∀ c ∈ name.toList, c ≠ '"' ∧ c ≠ '\\' ∧ 0x20 ≤ c.toNat) (h : Reads text item) :
    ReadsField ('"' :: (name.toList ++ '"' :: ':' :: text)) (name, item) where
  parts := by
    refine ⟨_, name.toList, text, spelled_plain hname, String.ofList_toList.symm, h, ?_⟩
    rw [← List.flatMap_def]
    exact congrArg (fun cs => '"' :: (cs ++ '"' :: ':' :: text))
      (List.flatMap_singleton' name.toList).symm

theorem members_read {pieces : List (List Char)} {fields : List (String × Json)}
    (h : List.Forall₂ ReadsField pieces fields) (hne : pieces ≠ []) {fuel : ℕ} {rest : List Char}
    (hfuel : 2 * (List.intercalate [','] pieces).length < fuel) :
    members fuel (List.intercalate [','] pieces ++ '\x7d' :: rest) = some (fields, rest) := by
  induction h generalizing fuel with
  | nil => exact absurd rfl hne
  | @cons piece field pieces fields hpiece hpieces ih =>
    obtain ⟨key, item⟩ := field
    obtain ⟨keys, cs, text, hkeys, hkey, htext, rfl⟩ := hpiece.parts
    obtain ⟨fuel, rfl⟩ : ∃ n, fuel = n + 1 := ⟨fuel - 1, by omega⟩
    dsimp only at hkey htext
    subst hkey
    have hstart (tail : List Char) : members (fuel + 1)
        ('"' :: (keys.flatten ++ '"' :: ':' :: text) ++ tail) = (do
          let (item, s) ← value fuel (text ++ tail)
          match skipSpace s with
          | '\x7d' :: s => return ([(.ofList cs, item)], s)
          | ',' :: s => do
            let (fields, s) ← members fuel s
            return ((.ofList cs, item) :: fields, s)
          | _ => none) := by
      rw [List.cons_append, List.append_assoc, List.cons_append, List.cons_append, members,
        skipSpace_cons (by decide)]
      simp only [string_spelled hkeys, Option.bind_eq_bind, Option.bind_some,
        skipSpace_cons (show ¬ IsSpace ':' by decide)]
    cases hpieces with
    | nil =>
      simp only [List.intercalate, List.intersperse_singleton, List.flatten_cons, List.flatten_nil,
        List.append_nil, List.length_cons, List.length_append] at hfuel ⊢
      rw [hstart, htext fuel _ (by omega) (ends_cons (by decide) rest)]
      rfl
    | @cons next field' pieces fields hnext hrest =>
      rw [intercalate_cons] at hfuel ⊢
      simp only [List.length_append, List.length_cons, List.length_nil] at hfuel
      rw [List.append_assoc, List.append_assoc, List.singleton_append, hstart,
        htext fuel _ (by omega) (ends_cons (by decide) _)]
      simp only [Option.bind_eq_bind, Option.bind_some, skipSpace_cons (show ¬ IsSpace ',' by decide)]
      rw [ih (List.cons_ne_nil _ _) (by omega)]
      rfl

/-- The text of an object is read as its fields. -/
theorem reads_object {pieces : List (List Char)} {fields : List (String × Json)}
    (h : List.Forall₂ ReadsField pieces fields) (hne : pieces ≠ []) :
    Reads ('\x7b' :: (List.intercalate [','] pieces ++ ['\x7d'])) (.object fields) := by
  intro fuel rest hfuel _
  obtain ⟨fuel, rfl⟩ : ∃ n, fuel = n + 1 := ⟨fuel - 1, by omega⟩
  simp only [List.length_cons, List.length_append, List.length_nil] at hfuel
  have hread : members fuel (List.intercalate [','] pieces ++ '\x7d' :: rest) =
      some (fields, rest) := members_read h hne (by omega)
  have hfirst : (List.intercalate [','] pieces ++ '\x7d' :: rest).head? = some '"' := by
    cases h with
    | nil => exact absurd rfl hne
    | @cons piece field pieces fields hpiece hpieces =>
      obtain ⟨keys, cs, text, -, -, -, rfl⟩ := hpiece.parts
      cases pieces with
      | nil => simp [List.intercalate]
      | cons next pieces => rw [intercalate_cons]; rfl
  rw [List.cons_append, List.append_assoc, List.singleton_append, value,
    skipSpace_cons (by decide)]
  dsimp only
  rw [if_pos rfl, skipSpace_head hfirst (by decide), hfirst, if_neg (by decide), hread]
  rfl

/-! ### Texts in bytes -/

/-- The bytes of characters below `2 ^ 7`. -/
def ascii (s : List Char) : Bytes := s.map fun c => .ofNat c.toNat

theorem utf8Encode_ascii {s : List Char} (h : ∀ c ∈ s, c.toNat < 128) :
    s.utf8Encode.data = (ascii s).toArray := by
  have hchar (c : Char) (hc : c ∈ s) : String.utf8EncodeChar c = [.ofNat c.toNat] := by
    have hle : c.val ≤ 127 := UInt32.le_iff_toNat_le.mpr (Nat.le_of_lt_succ (h c hc))
    rw [String.utf8EncodeChar_eq_singleton (Char.utf8Size_eq_one_iff.mpr hle)]
    rfl
  rw [List.utf8Encode, List.data_toByteArray, List.flatMap_congr hchar, ascii]
  congr 1
  exact List.flatMap_pure_eq_map ..

/-- They are the characters in UTF-8. -/
theorem read_ascii {s : List Char} (h : ∀ c ∈ s, c.toNat < 128) : read (ascii s) = parse s := by
  have hbytes : (⟨(ascii s).toArray⟩ : ByteArray) = (String.ofList s).toByteArray := by
    rw [String.toByteArray_ofList, ← utf8Encode_ascii h]
  have hvalid : String.fromUTF8? (String.ofList s).toByteArray = some (.ofList s) := by
    rw [String.fromUTF8?, dif_pos (String.ofList s).isValidUTF8]
    rfl
  rw [read, hbytes, hvalid, Option.bind_some, String.toList_ofList]

end NextgenDatabases.Foundations.JsonText
