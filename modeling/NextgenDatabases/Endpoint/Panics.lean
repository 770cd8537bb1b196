import NextgenDatabases.Endpoint.Statements

/-!
# Panics of the endpoint

A query makes the endpoint panic when a single quote character stands where a value is read, or
when the text after `VALUES` does not begin at a character.
-/
namespace NextgenDatabases.Endpoint

open Foundations
open Planner (Str isWhitespace upperChar)

/-! ### Outcomes -/

section outcomes

variable {α β : Type} {x : Outcome α} {f : α → Outcome β}

def Safe (x : Outcome α) : Prop := x ≠ .error .panic

theorem safe_ok (a : α) : Safe (.ok a : Outcome α) := by
  intro h
  cases h

theorem safe_pure (a : α) : Safe (pure a : Outcome α) := safe_ok a

theorem safe_badRequest (message : String) : Safe (.error (.badRequest message) : Outcome α) := by
  intro h
  cases h

theorem safe_bind : Safe (x >>= f) ↔ Safe x ∧ ∀ a, x = .ok a → Safe (f a) := by
  cases x with
  | error e =>
    constructor
    · intro h
      refine ⟨fun hx => h ?_, fun a ha => ?_⟩
      · cases hx
        rfl
      · cases ha
    · intro h hx
      apply h.1
      cases hx
      rfl
  | ok a =>
    constructor
    · intro h
      refine ⟨safe_ok a, fun b hb => ?_⟩
      cases hb
      exact h
    · intro h
      exact h.2 a rfl

/-- What never panics itself is safe after what is safe. -/
theorem safe_bind_of_safe (h : ∀ a, Safe (f a)) : Safe (x >>= f) ↔ Safe x := by
  rw [safe_bind]
  exact ⟨fun hx => hx.1, fun hx => ⟨hx, fun a _ => h a⟩⟩

theorem safe_map {g : α → β} : Safe (x.map g) ↔ Safe x := by
  cases x with
  | error e =>
    constructor
    · intro h hx
      apply h
      cases hx
      rfl
    · intro h hx
      apply h
      cases hx
      rfl
  | ok a => exact ⟨fun _ => safe_ok a, fun _ => safe_ok (g a)⟩

end outcomes

/-! ### Quotes -/

/-- A token that is one quote character. -/
def Lone (token : Str) : Prop := token = ['\''] ∨ token = ['"']

instance : DecidablePred Lone := fun token =>
  inferInstanceAs (Decidable (token = ['\''] ∨ token = ['"']))

theorem unquote_quoted {q : Char} (hq : q = '\'' ∨ q = '"') (s : Str) :
    unquote (q :: s ++ [q]) = .ok s := by
  have hsize : Utf8.size [q] = 1 := by
    cases hq with
    | inl h => rw [h]; rfl
    | inr h => rw [h]; rfl
  have hslice := Utf8.slice_append [q] s [q]
  have hend : Utf8.size ([q] ++ s) = Utf8.size (q :: s ++ [q]) - 1 := by
    rw [Utf8.size_append _ [q], hsize, Nat.add_sub_cancel]
    rfl
  rw [hend, hsize] at hslice
  rw [unquote, if_pos]
  · exact congrArg index hslice
  · rw [List.getLast?_concat]
    cases hq with
    | inl h => exact .inl ⟨congrArg some h, congrArg some h⟩
    | inr h => exact .inr ⟨congrArg some h, congrArg some h⟩

/-- Quotes are stripped from any token but a lone quote. -/
theorem safe_unquote (token : Str) : Safe (unquote token) ↔ ¬ Lone token := by
  by_cases h : token.head? = some '\'' ∧ token.getLast? = some '\'' ∨
      token.head? = some '"' ∧ token.getLast? = some '"'
  case neg =>
    rw [unquote, if_neg h]
    refine ⟨fun _ hlone => h ?_, fun _ => safe_ok token⟩
    cases hlone with
    | inl heq => subst heq; exact .inl ⟨rfl, rfl⟩
    | inr heq => subst heq; exact .inr ⟨rfl, rfl⟩
  obtain ⟨q, hq, hhead, hlast⟩ : ∃ q, (q = '\'' ∨ q = '"') ∧ token.head? = some q ∧
      token.getLast? = some q := by
    cases h with
    | inl h => exact ⟨_, .inl rfl, h⟩
    | inr h => exact ⟨_, .inr rfl, h⟩
  cases token with
  | nil => cases hhead
  | cons c rest =>
    obtain rfl : c = q := Option.some.inj hhead
    cases rest using List.reverseRecOn with
    | nil =>
      have hlone : Lone [c] := by
        cases hq with
        | inl heq => exact .inl (by rw [heq])
        | inr heq => exact .inr (by rw [heq])
      have hpanic : unquote [c] = .error .panic := by
        cases hq with
        | inl heq => subst heq; rfl
        | inr heq => subst heq; rfl
      exact ⟨fun hsafe => absurd hpanic hsafe, fun hnot => absurd hlone hnot⟩
    | append_singleton mid d =>
      have hd : d = c := by
        rw [← List.cons_append, List.getLast?_concat] at hlast
        exact Option.some.inj hlast
      subst hd
      rw [← List.cons_append, unquote_quoted hq]
      refine ⟨fun _ hlone => ?_, fun _ => safe_ok mid⟩
      have hlen : (d :: mid ++ [d]).length = 1 := by
        cases hlone with
        | inl heq => rw [heq]; rfl
        | inr heq => rw [heq]; rfl
      simp at hlen

theorem exists_unquote {token : Str} (h : ¬ Lone token) : ∃ s, unquote token = .ok s := by
  have hsafe := (safe_unquote token).mpr h
  unfold unquote at hsafe ⊢
  split_ifs at hsafe ⊢
  · cases hslice : Utf8.slice token 1 (Utf8.size token - 1) with
    | none =>
      rw [hslice] at hsafe
      exact absurd rfl hsafe
    | some s => exact ⟨s, rfl⟩
  · exact ⟨token, rfl⟩

/-! ### Conditions and limits -/

section conditions

variable {F : Type} {tables : Tables F}

/-- The value of the first complete condition. -/
def whereValue (tables : Tables F) : List Str → Option Str
  | [] => none
  | token :: rest =>
    if StartsWhereId tables token rest then
      match rest[2]? with
      | some val => some val
      | none => whereValue tables rest
    else whereValue tables rest

theorem findWhereId_eq (tokens : List Str) : findWhereId tables tokens =
    match whereValue tables tokens with
    | some val => (unquote val).map some
    | none => .ok none := by
  induction tokens with
  | nil => rfl
  | cons token rest ih =>
    rw [findWhereId, whereValue]
    by_cases h : StartsWhereId tables token rest
    · rw [if_pos h, if_pos h]
      cases rest[2]? with
      | none => exact ih
      | some val => rfl
    · rw [if_neg h, if_neg h]
      exact ih

theorem safe_findWhereId (tokens : List Str) : Safe (findWhereId tables tokens) ↔
    ∀ v ∈ (whereValue tables tokens).toList, ¬ Lone v := by
  rw [findWhereId_eq]
  cases whereValue tables tokens with
  | none =>
    have hsafe := safe_ok (none : Option Str)
    simpa using hsafe
  | some val =>
    rw [safe_map, safe_unquote]
    simp

theorem Tables.Is.ne {token : Str} {keyword other : String} (h : tables.Is token keyword)
    (hne : keyword.toList ≠ other.toList) : ¬ tables.Is token other := by
  rw [Tables.Is, h]
  exact hne

theorem parseLimitFrom_le (tables : Tables F) (i : ℕ) (tokens : List Str) :
    i ≤ (parseLimitFrom tables i tokens).2 ∧
      (parseLimitFrom tables i tokens).2 ≤ i + tokens.length := by
  induction tokens generalizing i with
  | nil => exact ⟨le_rfl, le_rfl⟩
  | cons token rest ih =>
    have hrest := ih (i + 1)
    rw [parseLimitFrom, List.length_cons]
    split
    · split
      · exact ⟨le_rfl, Nat.le_add_right i _⟩
      · omega
    · omega

/-- The keyword of a limit comes after the first two tokens of a search. -/
theorem two_le_parseLimit {first kind : Str} (rest : List Str)
    (hfirst : tables.Is first "SEARCH") (hkind : tables.Is kind "VECTOR") :
    2 ≤ (parseLimit tables (first :: kind :: rest)).2 := by
  have hfirst' : ¬ tables.Is first "LIMIT" := hfirst.ne (by decide)
  have hkind' : ¬ tables.Is kind "LIMIT" := hkind.ne (by decide)
  rw [parseLimit, parseLimitFrom, if_neg hfirst', parseLimitFrom, if_neg hkind']
  exact (parseLimitFrom_le tables 2 rest).1

end conditions

/-! ### The text of an explained query -/

section explained

variable {F : Type} {tables : Tables F}

theorem utf8Size_of_toUpper {c : Char} (h : c.toUpper.toNat < 128) : c.utf8Size = 1 := by
  have hlt : c.toNat < 128 := by
    by_cases hlower : 'a'.val ≤ c.val ∧ c.val ≤ 'z'.val
    · have hle : c.val.toNat ≤ 'z'.val.toNat := hlower.2
      exact lt_of_le_of_lt hle (by decide)
    · rwa [Char.toUpper, dif_neg hlower] at h
  rw [Char.utf8Size_eq_one_iff, UInt32.le_iff_toNat_le]
  exact Nat.le_of_lt_succ hlt

/-- A character with one of the other letters as its uppercase has one byte. -/
theorem utf8Size_of_upperChar {c d : Char} {s t : Str} (h : upperChar c ++ s = d :: t)
    (hascii : d.toNat < 128) (hd : d ∉ ['I', 'S', 'F']) : s = t ∧ c.utf8Size = 1 := by
  unfold upperChar at h
  split at h
  all_goals
    rw [List.cons_append, List.cons.injEq] at h
    first
    | exact absurd (h.1 ▸ by decide) hd
    | exact ⟨h.2, utf8Size_of_toUpper (h.1 ▸ hascii)⟩

/-- Two characters have the uppercase `I`, of one and of two bytes. -/
theorem utf8Size_of_upperChar_I {c : Char} {s t : Str} (h : upperChar c ++ s = 'I' :: t) :
    s = t ∧ (c.utf8Size = 1 ∨ c.utf8Size = 2) := by
  unfold upperChar at h
  split at h
  all_goals
    rw [List.cons_append, List.cons.injEq] at h
    first
    | exact absurd h.1 (by decide)
    | exact ⟨h.2, .inr rfl⟩
    | exact ⟨h.2, .inl (utf8Size_of_toUpper (h.1 ▸ by decide))⟩

theorem toUppercase_eq {t : Str} (h : ∀ d ∈ tables.toUppercase t, d.toNat < 128) :
    tables.toUppercase t = Planner.toUppercase t := by
  rw [Tables.toUppercase, Planner.toUppercase]
  apply List.flatMap_congr
  intro c hc
  exact tables.upper_of_ascii c fun d hd => h d (List.mem_flatMap.mpr ⟨c, hc, hd⟩)

theorem exists_cons_of_toUppercase {t w : Str} {d : Char}
    (h : Planner.toUppercase t = d :: w) :
    ∃ c t', t = c :: t' ∧ upperChar c ++ Planner.toUppercase t' = d :: w := by
  cases t with
  | nil => cases h
  | cons c t' => exact ⟨c, t', rfl, h⟩

theorem exists_cons_of_letter {t w : Str} {d : Char} (h : Planner.toUppercase t = d :: w)
    (hascii : d.toNat < 128) (hd : d ∉ ['I', 'S', 'F']) :
    ∃ c t', t = c :: t' ∧ c.utf8Size = 1 ∧ Planner.toUppercase t' = w := by
  obtain ⟨c, t', ht, hc⟩ := exists_cons_of_toUppercase h
  obtain ⟨hw, hsize⟩ := utf8Size_of_upperChar hc hascii hd
  exact ⟨c, t', ht, hsize, hw⟩

/-- The seventh byte of the keyword is a boundary, also when it is written with a dotless `i`. -/
theorem exists_seven_bytes {t : Str} (h : tables.Is t "EXPLAIN") :
    ∃ p r, t = p ++ r ∧ Utf8.size p = 7 := by
  have hupper : Planner.toUppercase t = ['E', 'X', 'P', 'L', 'A', 'I', 'N'] := by
    rw [← @toUppercase_eq F tables t (by rw [h]; exact Utf8.forall_of_all (by decide)), h]
    rfl
  obtain ⟨e, t, rfl, he, hupper⟩ := exists_cons_of_letter hupper (by decide) (by decide)
  obtain ⟨x, t, rfl, hx, hupper⟩ := exists_cons_of_letter hupper (by decide) (by decide)
  obtain ⟨p, t, rfl, hp, hupper⟩ := exists_cons_of_letter hupper (by decide) (by decide)
  obtain ⟨l, t, rfl, hl, hupper⟩ := exists_cons_of_letter hupper (by decide) (by decide)
  obtain ⟨a, t, rfl, ha, hupper⟩ := exists_cons_of_letter hupper (by decide) (by decide)
  obtain ⟨i, t, rfl, hcons⟩ := exists_cons_of_toUppercase hupper
  obtain ⟨hupper, hi⟩ := utf8Size_of_upperChar_I hcons
  obtain ⟨n, t, rfl, hn, -⟩ := exists_cons_of_letter hupper (by decide) (by decide)
  cases hi with
  | inl hi =>
    refine ⟨[e, x, p, l, a, i, n], t, rfl, ?_⟩
    simp [he, hx, hp, hl, ha, hi, hn]
  | inr hi =>
    refine ⟨[e, x, p, l, a, i], n :: t, rfl, ?_⟩
    simp [he, hx, hp, hl, ha, hi]

theorem tokenizeFrom_prefix {current input t : Str} {single double : Bool} {ts : List Str}
    (hcurrent : current ≠ []) (h : tokenizeFrom current single double input = t :: ts) :
    t <+: current ++ input := by
  induction input generalizing current single double with
  | nil =>
    rw [tokenizeFrom, if_neg hcurrent] at h
    cases h
    rw [List.append_nil]
  | cons ch rest ih =>
    have hnext : current ++ ch :: rest = current ++ [ch] ++ rest := by simp
    rw [tokenizeFrom] at h
    split_ifs at h
    · exact hnext ▸ ih (by simp) h
    · exact hnext ▸ ih (by simp) h
    · cases h
      exact List.prefix_append t _
    · exact hnext ▸ ih (by simp) h

/-- The first token is the beginning of a text that does not begin with whitespace. -/
theorem tokenize_prefix {raw t : Str} {ts : List Str}
    (hhead : ∀ c s, raw = c :: s → isWhitespace c = false) (h : tokenize raw = t :: ts) :
    t <+: raw := by
  cases raw with
  | nil => cases h
  | cons c s =>
    have hc := hhead c s rfl
    have hseparator : c ∉ [' ', '\t', '\n'] := by
      intro hmem
      have hwhite : ∀ d ∈ [' ', '\t', '\n'], isWhitespace d = true :=
        Utf8.forall_of_all (by decide)
      rw [hwhite c hmem] at hc
      cases hc
    have hne : [] ++ [c] ≠ [] := by simp
    rw [tokenize, tokenizeFrom] at h
    rw [if_neg (c := c ∈ [' ', '\t', '\n'] ∧ _) fun hwhite => hseparator hwhite.1] at h
    split_ifs at h
    · exact tokenizeFrom_prefix hne h
    · exact tokenizeFrom_prefix hne h
    · exact tokenizeFrom_prefix hne h

theorem exists_innerQuery {query first : Str} {rest : List Str}
    (h : tokenize (statement query) = first :: rest) (hfirst : tables.Is first "EXPLAIN") :
    ∃ inner, innerQuery tables (statement query) = .ok inner := by
  have hhead : ∀ c s, statement query = c :: s → isWhitespace c = false :=
    fun c s hc => Utf8.head_trim hc
  obtain ⟨x, hx⟩ := tokenize_prefix hhead h
  obtain ⟨p, r, rfl, hsize⟩ := exists_seven_bytes hfirst
  have hprefix : "EXPLAIN".toList <+: tables.toUppercase (statement query) := by
    rw [← hx, Tables.toUppercase, List.flatMap_append]
    exact hfirst ▸ List.prefix_append _ _
  have hdrop : Utf8.dropBytes (statement query) 7 = some (r ++ x) := by
    rw [← hx, ← hsize, List.append_assoc]
    exact Utf8.dropBytes_append p (r ++ x)
  refine ⟨Utf8.trim isWhitespace (r ++ x), ?_⟩
  have hrest : index (Utf8.dropBytes (statement query) (0 + 7)) = .ok (r ++ x) := by
    rw [hdrop, index]
  rw [innerQuery, Utf8.find_of_prefix hprefix]
  simp only [index, bind, Except.bind] at hrest ⊢
  rw [hrest]
  rfl

end explained

/-! ### The tokens that are read as values -/

section values

variable {F : Type} {tables : Tables F} {vectorDimension : ℕ} {tokens : List Str} {raw : Str}

def searchValues (tables : Tables F) (tokens : List Str) : List Str :=
  match tokens with
  | _ :: kind :: value :: _ =>
    if tables.Is kind "TEXT" then [value]
    else if tables.Is kind "RELATED" then
      value :: (predicateToken tables tokens).toList
    else []
  | _ => []

def insertValues (tables : Tables F) (raw : Str) : List Str :=
  if "INSERT INTO".toList <+: tables.toUppercase raw then
    match valuesPart tables raw with
    | .ok part => (tokenize (Utf8.replace ',' ' ' part)).take 2
    | .error _ => []
  else
    match tokenize raw with
    | _ :: first :: second :: _ => [first, second]
    | _ => []

def explainValues (tables : Tables F) (tokens : List Str) (raw : Str) : List Str :=
  match innerQuery tables raw with
  | .ok inner => if tokens.length < 2 then [] else (whereValue tables (tokenize inner)).toList
  | .error _ => []

/-- The tokens that a statement reads as values. -/
def values (tables : Tables F) (raw : Str) : List Str :=
  match tokenize raw with
  | [] => []
  | first :: rest =>
    if tables.Is first "SELECT" then (whereValue tables (first :: rest)).toList
    else if tables.Is first "SEARCH" then searchValues tables (first :: rest)
    else if tables.Is first "INSERT" then insertValues tables raw
    else if tables.Is first "DELETE" then (whereValue tables (first :: rest)).toList
    else if tables.Is first "EXPLAIN" then explainValues tables (first :: rest) raw
    else []

/-- The end of the first `VALUES` in the uppercased text is a boundary of characters in the text
itself. -/
def Aligned (tables : Tables F) (raw : Str) : Prop :=
  ∀ i, Utf8.find "VALUES".toList (tables.toUppercase raw) = some i →
    ∃ p t, raw = p ++ t ∧ Utf8.size p = i + 6

/-- An insertion with a list of values. -/
def InsertsInto (tables : Tables F) (raw : Str) : Prop :=
  (∃ first rest, tokenize raw = first :: rest ∧ tables.Is first "INSERT") ∧
    "INSERT INTO".toList <+: tables.toUppercase raw

theorem safe_executeSelect : Safe (executeSelect tables tokens) ↔
    ∀ v ∈ (whereValue tables tokens).toList, ¬ Lone v := by
  rw [← safe_findWhereId, executeSelect]
  apply safe_bind_of_safe
  intro whereId
  cases whereId with
  | none => exact safe_ok _
  | some id => exact safe_ok _

theorem safe_executeDelete : Safe (executeDelete tables tokens : Outcome (Request F)) ↔
    ∀ v ∈ (whereValue tables tokens).toList, ¬ Lone v := by
  rw [← safe_findWhereId, executeDelete]
  apply safe_bind_of_safe
  intro whereId
  cases whereId with
  | none => exact safe_badRequest _
  | some id => exact safe_ok _

theorem safe_executeShow (tokens : List Str) :
    Safe (executeShow tables tokens : Outcome (Request F)) := by
  unfold executeShow
  split
  · split_ifs
    · exact safe_ok _
    · exact safe_ok _
    · exact safe_ok _
    · exact safe_ok _
    · exact safe_badRequest _
  · exact safe_badRequest _

theorem safe_parseVector (s : Str) : Safe (parseVector tables s) := by
  rw [parseVector]
  split
  · exact safe_ok _
  · exact safe_badRequest _

theorem safe_searchVector {first kind : Str} {rest : List Str} (hfirst : tables.Is first "SEARCH")
    (hkind : tables.Is kind "VECTOR") :
    Safe (searchVector tables vectorDimension (first :: kind :: rest)) := by
  have hlow := two_le_parseLimit rest hfirst hkind
  have hhigh := (parseLimitFrom_le tables 0 (first :: kind :: rest)).2
  rw [Nat.zero_add] at hhigh
  have hrange : Safe (tokenRange (first :: kind :: rest) 2
      (parseLimit tables (first :: kind :: rest)).2) := by
    rw [tokenRange, if_pos ⟨hlow, hhigh⟩]
    exact safe_ok _
  rw [searchVector, safe_bind]
  refine ⟨hrange, fun components _ => safe_bind.mpr ⟨safe_parseVector _, fun vector _ => ?_⟩⟩
  split
  · exact safe_badRequest _
  · exact safe_ok _

theorem safe_searchRelated (tokens : List Str) (value : Str) :
    Safe (searchRelated tables tokens value : Outcome (Request F)) ↔
      ∀ v ∈ value :: (predicateToken tables tokens).toList, ¬ Lone v := by
  rw [searchRelated, safe_bind, safe_unquote, List.forall_mem_cons]
  apply and_congr_right
  intro hvalue
  obtain ⟨id, hid⟩ := exists_unquote hvalue
  cases predicateToken tables tokens with
  | none => simp [safe_ok]
  | some token =>
    simp only [hid, safe_map, safe_unquote, Option.toList_some, List.mem_singleton, forall_eq]
    simp

theorem safe_executeSearch {first : Str} {rest : List Str} (hfirst : tables.Is first "SEARCH") :
    Safe (executeSearch tables vectorDimension (first :: rest)) ↔
      ∀ v ∈ searchValues tables (first :: rest), ¬ Lone v := by
  match rest with
  | [] => simp [executeSearch, searchValues, safe_badRequest]
  | [kind] => simp [executeSearch, searchValues, safe_badRequest]
  | kind :: value :: rest =>
    unfold executeSearch searchValues
    by_cases htext : tables.Is kind "TEXT"
    · simp only [htext, if_true, safe_map, safe_unquote, List.mem_singleton, forall_eq]
    by_cases hvector : tables.Is kind "VECTOR"
    · have hrelated : ¬ tables.Is kind "RELATED" := hvector.ne (by decide)
      simp [htext, hvector, hrelated, safe_searchVector hfirst hvector]
    by_cases hrelated : tables.Is kind "RELATED"
    · simp only [htext, hvector, hrelated, if_true, if_false, safe_searchRelated]
    · simp [htext, hvector, hrelated, safe_badRequest]

/-- Whatever is read first, a second value is read after it. -/
theorem safe_unquote_bind {α : Type} {token : Str} {f : Str → Outcome α} {P : Prop}
    (h : ∀ s, Safe (f s) ↔ P) : Safe (unquote token >>= f) ↔ ¬ Lone token ∧ P := by
  rw [safe_bind, safe_unquote]
  apply and_congr_right
  intro htoken
  obtain ⟨s, hs⟩ := exists_unquote htoken
  constructor
  · intro hall
    exact (h s).mp (hall s hs)
  · intro hP t _
    exact (h t).mpr hP

theorem safe_valuesPart : Safe (valuesPart tables raw) ↔ Aligned tables raw := by
  rw [valuesPart]
  cases hfind : Utf8.find "VALUES".toList (tables.toUppercase raw) with
  | none =>
    refine ⟨fun _ i hi => ?_, fun _ => safe_badRequest _⟩
    rw [hfind] at hi
    cases hi
  | some i =>
    change Safe (_ >>= _) ↔ _
    rw [safe_bind_of_safe fun _ => safe_pure _]
    cases hdrop : Utf8.dropBytes raw (i + 6) with
    | none =>
      refine ⟨fun h => absurd rfl h, fun h => ?_⟩
      obtain ⟨p, t, hp⟩ := h i hfind
      rw [Utf8.dropBytes_eq_some_iff.mpr ⟨p, hp⟩] at hdrop
      cases hdrop
    | some t =>
      refine ⟨fun _ j hj => ?_, fun _ => safe_ok _⟩
      obtain rfl := Option.some.inj (hfind.symm.trans hj)
      obtain ⟨p, hp⟩ := Utf8.dropBytes_eq_some_iff.mp hdrop
      exact ⟨p, t, hp⟩

theorem safe_parseInsertValues {part : Str} (h : valuesPart tables raw = .ok part) :
    Safe (parseInsertValues tables raw) ↔
      ∀ v ∈ (tokenize (Utf8.replace ',' ' ' part)).take 2, ¬ Lone v := by
  rw [parseInsertValues, h]
  change Safe (unquoteOrDefault _ >>= _) ↔ _
  match tokenize (Utf8.replace ',' ' ' part) with
  | [] =>
    change Safe (.ok ([], [])) ↔ _
    simp [safe_ok]
  | [title] =>
    change Safe (unquote title >>= _) ↔ _
    rw [safe_unquote_bind (P := True) fun _ => ?_]
    · simp
    · exact iff_true_intro (safe_ok _)
  | title :: body :: rest =>
    change Safe (unquote title >>= _) ↔ _
    rw [safe_unquote_bind (P := ¬ Lone body) fun _ => ?_]
    · simp
    · change Safe (unquote body >>= _) ↔ _
      rw [safe_unquote_bind (P := True) fun _ => iff_true_intro (safe_pure _), and_true]

theorem safe_executeInsert : Safe (executeInsert tables raw : Outcome (Request F)) ↔
    (∀ v ∈ insertValues tables raw, ¬ Lone v) ∧
      ("INSERT INTO".toList <+: tables.toUppercase raw → Aligned tables raw) := by
  rw [executeInsert, insertValues]
  by_cases hinto : "INSERT INTO".toList <+: tables.toUppercase raw
  · simp only [hinto, if_true, true_implies]
    rw [safe_bind_of_safe fun _ => safe_pure _, ← safe_valuesPart]
    cases hpart : valuesPart tables raw with
    | ok part =>
      rw [safe_parseInsertValues hpart]
      exact (and_iff_left (safe_ok part)).symm
    | error e =>
      have hparse : parseInsertValues tables raw = .error e := by
        rw [parseInsertValues, hpart]
        rfl
      rw [hparse]
      cases e with
      | panic => exact ⟨fun h => absurd rfl h, fun h => absurd rfl h.2⟩
      | badRequest message => simp [safe_badRequest]
  · simp only [hinto, if_false, false_implies, and_true]
    cases tokenize raw with
    | nil => simp [safe_badRequest]
    | cons keyword values =>
      cases values with
      | nil => simp [safe_badRequest]
      | cons first values =>
        cases values with
        | nil => simp [safe_badRequest]
        | cons second values =>
          change Safe (unquote first >>= _) ↔ _
          rw [safe_unquote_bind (P := ¬ Lone second) fun _ => ?_]
          · simp
          · rw [safe_unquote_bind (P := True) fun _ => iff_true_intro (safe_pure _), and_true]

theorem safe_executeExplain {query first : Str} {rest : List Str}
    (h : tokenize (statement query) = first :: rest) (hfirst : tables.Is first "EXPLAIN") :
    Safe (executeExplain tables (first :: rest) (statement query) : Outcome (Request F)) ↔
      ∀ v ∈ explainValues tables (first :: rest) (statement query), ¬ Lone v := by
  obtain ⟨inner, hinner⟩ := exists_innerQuery h hfirst
  rw [executeExplain, explainValues, hinner]
  by_cases hlen : (first :: rest).length < 2
  · simp only [if_pos hlen]
    simp [safe_badRequest]
  · simp only [if_neg hlen]
    change Safe (match tokenize inner with | [] => _ | _ :: _ => _) ↔ _
    cases tokenize inner with
    | nil => simp [whereValue, safe_badRequest]
    | cons token tokens => simp only [safe_map, safe_findWhereId]

theorem insertsInto_iff {first : Str} {rest : List Str} (h : tokenize raw = first :: rest) :
    InsertsInto tables raw ↔
      tables.Is first "INSERT" ∧ "INSERT INTO".toList <+: tables.toUppercase raw := by
  constructor
  · intro hinto
    obtain ⟨⟨first', rest', htokens, hfirst⟩, hprefix⟩ := hinto
    rw [h] at htokens
    cases htokens
    exact ⟨hfirst, hprefix⟩
  · intro hinto
    exact ⟨⟨first, rest, h, hinto.1⟩, hinto.2⟩

/-- The endpoint does not panic just when no value is a lone quote and the values of an insertion
begin at a character. -/
theorem never_panics_iff (tables : Tables F) (vectorDimension : ℕ) (query : Str) :
    Safe (vclExecuteHandler tables vectorDimension query) ↔
      (∀ v ∈ values tables (statement query), ¬ Lone v) ∧
      (InsertsInto tables (statement query) → Aligned tables (statement query)) := by
  rw [vclExecuteHandler]
  by_cases hempty : Utf8.trim isWhitespace query = []
  · have hstatement : statement query = [] := by
      rw [statement, hempty]
      rfl
    rw [if_pos hempty, hstatement]
    refine iff_of_true (safe_badRequest _) ⟨fun v hv => absurd hv List.not_mem_nil, fun h => ?_⟩
    obtain ⟨⟨first, rest, htokens, -⟩, -⟩ := h
    cases htokens
  rw [if_neg hempty]
  simp only [values]
  cases htokens : tokenize (statement query) with
  | nil =>
    refine iff_of_true (safe_badRequest _) ⟨fun v hv => absurd hv List.not_mem_nil, fun h => ?_⟩
    obtain ⟨⟨first, rest, htokens', -⟩, -⟩ := h
    rw [htokens] at htokens'
    cases htokens'
  | cons first rest =>
    simp only [insertsInto_iff htokens]
    by_cases hselect : tables.Is first "SELECT"
    · have hinsert : ¬ tables.Is first "INSERT" := hselect.ne (by decide)
      simp only [hselect, hinsert, if_true, safe_executeSelect, false_and, false_implies, and_true]
    by_cases hsearch : tables.Is first "SEARCH"
    · have hinsert : ¬ tables.Is first "INSERT" := hsearch.ne (by decide)
      simp only [hselect, hsearch, hinsert, if_true, if_false, safe_executeSearch hsearch,
        false_and, false_implies, and_true]
    by_cases hinsert : tables.Is first "INSERT"
    · simp only [hselect, hsearch, hinsert, if_true, if_false, safe_executeInsert, true_and]
    simp only [hselect, hsearch, hinsert, if_false, false_and, false_implies, and_true]
    by_cases hdelete : tables.Is first "DELETE"
    · simp only [hdelete, if_true, safe_executeDelete]
    by_cases hexplain : tables.Is first "EXPLAIN"
    · have hshow : ¬ tables.Is first "SHOW" := hexplain.ne (by decide)
      have hcount : ¬ tables.Is first "COUNT" := hexplain.ne (by decide)
      simp only [hdelete, hshow, hcount, hexplain, if_true, if_false,
        safe_executeExplain htokens hexplain]
    simp only [hdelete, hexplain, if_false, List.not_mem_nil, false_implies, implies_true, iff_true]
    split_ifs
    · exact safe_executeShow _
    · exact safe_ok _
    · exact safe_badRequest _

/-- A query that ends in the opening quote of its text. -/
theorem lone_quote : ¬ Safe (vclExecuteHandler plain 0 "SEARCH TEXT '".toList) := by
  have hpanic : vclExecuteHandler plain 0 "SEARCH TEXT '".toList = .error .panic := by
    decide +kernel
  exact fun hsafe => hsafe hpanic

end values

end NextgenDatabases.Endpoint
