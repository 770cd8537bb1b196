import NextgenDatabases.Endpoint.Panics

/-!
# Filters of a statement

When a `SELECT` or a `DELETE` with a `WHERE` acts on the octad that the condition names, or is
rejected.
-/
namespace NextgenDatabases.Endpoint

open Foundations
open Planner (Str isWhitespace upperChar)

/-! ### Keywords outside of quotes -/

/-- A character that words are made of. -/
def isWordChar (c : Char) : Bool :=
  c.isAlphanum || c = '_' || (decide (128 ≤ c.toNat) && !isWhitespace c)

/-- The text with a quote character for everything that is quoted. -/
def bare (inSingleQuote inDoubleQuote : Bool) : Str → Str
  | [] => []
  | ch :: rest =>
    if ch = '\'' ∧ inDoubleQuote = false then '\'' :: bare (!inSingleQuote) inDoubleQuote rest
    else if ch = '"' ∧ inSingleQuote = false then '\'' :: bare inSingleQuote (!inDoubleQuote) rest
    else if inSingleQuote = true ∨ inDoubleQuote = true then
      '\'' :: bare inSingleQuote inDoubleQuote rest
    else ch :: bare inSingleQuote inDoubleQuote rest

/-- The words outside of quotes. -/
def words (s : Str) : List Str := (bare false false s).splitOnP fun c => !isWordChar c

section filters

variable {F : Type} {tables : Tables F} {vectorDimension : ℕ} {tokens : List Str} {id : Str}

/-- A text with the keyword `WHERE` outside of quotes. -/
def HasWhere (tables : Tables F) (s : Str) : Prop := ∃ w ∈ words s, tables.Is w "WHERE"

/-- A quoted value without the quote character in it, or one without quotes. -/
def Names (value id : Str) : Prop :=
  (∃ q, (q = '\'' ∨ q = '"') ∧ q ∉ id ∧ value = q :: id ++ [q]) ∨
    (value = id ∧ '\'' ∉ id ∧ '"' ∉ id)

/-- Nothing but a limit. -/
def OnlyLimit (tables : Tables F) (tokens : List Str) : Prop :=
  tokens = [] ∨ ∃ keyword n, tokens = [keyword, n] ∧ tables.Is keyword "LIMIT" ∧
    (Wal.parseU64 n).isSome

/-- The only `WHERE` is that of the complete condition for an id, with nothing but a limit after
it. -/
def Filtered (tables : Tables F) (tokens : List Str) (id : Str) : Prop :=
  ∃ before keyword name value after,
    tokens = before ++ keyword :: name :: "=".toList :: value :: after ∧
    (∀ token ∈ before, ¬ HasWhere tables token) ∧ tables.Is keyword "WHERE" ∧
    tables.toLowercase name = "id".toList ∧ Names value id ∧ OnlyLimit tables after

/-- A complete condition for an id. -/
def HasCondition (tables : Tables F) (tokens : List Str) : Prop :=
  ∃ before keyword name value after,
    tokens = before ++ keyword :: name :: "=".toList :: value :: after ∧
    tables.Is keyword "WHERE" ∧ tables.toLowercase name = "id".toList

/-- The statement is a `SELECT` or a `DELETE`. -/
def Handled (tables : Tables F) (query : Str) : Prop :=
  ∃ first rest, tokenize (statement query) = first :: rest ∧
    (tables.Is first "SELECT" ∨ tables.Is first "DELETE")

/-- The filter of a statement is honoured, or the statement is rejected. -/
def Honoured (tables : Tables F) (vectorDimension : ℕ) (query : Str) : Prop :=
  (∃ message, vclExecuteHandler tables vectorDimension query = .error (.badRequest message)) ∨
    ∃ id, Filtered tables (tokenize (statement query)) id ∧
      (vclExecuteHandler tables vectorDimension query = .ok (.get id) ∨
        vclExecuteHandler tables vectorDimension query = .ok (.delete id))

/-! ### The condition that is found -/

theorem isAlphanum_of_toUpper {c d : Char} (h : c.toUpper = d) (hd : d.isAlphanum = true) :
    c.isAlphanum = true := by
  by_cases hlower : c.isLower = true
  · simp [Char.isAlphanum, Char.isAlpha, hlower]
  · have hsame : c.toUpper = c := by
      rw [Char.toUpper, dif_neg]
      simpa [Char.isLower] using hlower
    rwa [← hsame, h]

/-- The keyword is spelled with letters of ASCII. -/
theorem isAlphanum_of_is_where {token : Str} (h : tables.Is token "WHERE") :
    ∀ c ∈ token, c.isAlphanum = true := by
  have hletters : ∀ d ∈ "WHERE".toList, d.toNat < 128 ∧ d.isAlphanum = true ∧
      d ∉ ['I', 'S', 'F'] := Utf8.forall_of_all (by decide)
  have hmem : ∀ c ∈ token, ∀ d ∈ tables.upper c, d ∈ "WHERE".toList := by
    intro c hc d hd
    rw [← h]
    exact List.mem_flatMap.mpr ⟨c, hc, hd⟩
  intro c hc
  have hupper := tables.upper_of_ascii c fun d hd => (hletters d (hmem c hc d hd)).1
  have hmem' := hmem c hc
  rw [hupper] at hmem'
  unfold upperChar at hmem'
  split at hmem'
  all_goals
    have hhead := hletters _ (hmem' _ List.mem_cons_self)
    first
    | exact isAlphanum_of_toUpper rfl hhead.2.1
    | exact absurd (by decide) hhead.2.2

theorem bare_eq {s : Str} (h : ∀ c ∈ s, c ≠ '\'' ∧ c ≠ '"') : bare false false s = s := by
  induction s with
  | nil => rfl
  | cons c s ih =>
    have hc := h c List.mem_cons_self
    have hs := ih fun d hd => h d (List.mem_cons_of_mem c hd)
    simp [bare, hc.1, hc.2, hs]

theorem hasWhere_of_is {token : Str} (h : tables.Is token "WHERE") : HasWhere tables token := by
  have hletters := isAlphanum_of_is_where h
  have hquotes : ∀ c ∈ token, c ≠ '\'' ∧ c ≠ '"' := by
    intro c hc
    constructor
    · intro heq
      exact absurd (heq ▸ hletters c hc) (by decide)
    · intro heq
      exact absurd (heq ▸ hletters c hc) (by decide)
  have hword : ∀ c ∈ token, (!isWordChar c) = false := by
    intro c hc
    simp [isWordChar, hletters c hc]
  refine ⟨token, ?_, h⟩
  rw [words, bare_eq hquotes, List.splitOnP_eq_singleton hword]
  exact List.mem_singleton_self token

theorem unquote_of_names {value id : Str} (h : Names value id) : unquote value = .ok id := by
  cases h with
  | inl hquoted =>
    obtain ⟨q, hq, -, rfl⟩ := hquoted
    exact unquote_quoted hq id
  | inr hbare =>
    obtain ⟨rfl, hsingle, hdouble⟩ := hbare
    rw [unquote, if_neg]
    intro hquotes
    cases hquotes with
    | inl h => exact hsingle (List.mem_of_mem_head? h.1)
    | inr h => exact hdouble (List.mem_of_mem_head? h.1)

theorem findWhereId_of_filtered (h : Filtered tables tokens id) :
    findWhereId tables tokens = .ok (some id) := by
  obtain ⟨before, keyword, name, value, after, rfl, hbefore, hkeyword, hname, hvalue, -⟩ := h
  induction before with
  | nil =>
    have hstarts : StartsWhereId tables keyword (name :: "=".toList :: value :: after) :=
      ⟨hkeyword, congrArg some hname, rfl⟩
    rw [List.nil_append, findWhereId, if_pos hstarts]
    change (unquote value).map some = _
    rw [unquote_of_names hvalue]
    rfl
  | cons token before ih =>
    have htoken : ¬ tables.Is token "WHERE" :=
      fun his => hbefore token List.mem_cons_self (hasWhere_of_is his)
    rw [List.cons_append, findWhereId, if_neg fun hstarts => htoken hstarts.1]
    exact ih fun token' htoken' => hbefore token' (List.mem_cons_of_mem token htoken')

theorem HasCondition.cons (token : Str) (h : HasCondition tables tokens) :
    HasCondition tables (token :: tokens) := by
  obtain ⟨before, keyword, name, value, after, rfl, hcondition⟩ := h
  exact ⟨token :: before, keyword, name, value, after, rfl, hcondition⟩

theorem hasCondition_of_whereValue {value : Str} (h : whereValue tables tokens = some value) :
    HasCondition tables tokens := by
  induction tokens with
  | nil => cases h
  | cons token rest ih =>
    rw [whereValue] at h
    by_cases hstarts : StartsWhereId tables token rest
    · rw [if_pos hstarts] at h
      obtain ⟨hkeyword, hname, heq⟩ := hstarts
      cases rest with
      | nil => cases hname
      | cons name rest =>
        cases rest with
        | nil => cases heq
        | cons eq rest =>
          cases rest with
          | nil => exact (ih h).cons token
          | cons value after =>
            obtain rfl := Option.some.inj heq
            exact ⟨[], token, name, value, after, rfl, hkeyword, Option.some.inj hname⟩
    · rw [if_neg hstarts] at h
      exact (ih h).cons token

theorem whereValue_ne_none (h : HasCondition tables tokens) : whereValue tables tokens ≠ none := by
  obtain ⟨before, keyword, name, value, after, rfl, hkeyword, hname⟩ := h
  induction before with
  | nil =>
    have hstarts : StartsWhereId tables keyword (name :: "=".toList :: value :: after) :=
      ⟨hkeyword, congrArg some hname, rfl⟩
    rw [List.nil_append, whereValue, if_pos hstarts]
    exact Option.some_ne_none value
  | cons token before ih =>
    rw [List.cons_append, whereValue]
    split
    · split
      · exact Option.some_ne_none _
      · exact ih
    · exact ih

/-! ### Selections and deletions -/

theorem vclExecuteHandler_eq {query first : Str} {rest : List Str}
    (h : tokenize (statement query) = first :: rest) :
    Utf8.trim isWhitespace query ≠ [] ∧
    (tables.Is first "SELECT" → vclExecuteHandler tables vectorDimension query =
      executeSelect tables (first :: rest)) ∧
    (tables.Is first "DELETE" → vclExecuteHandler tables vectorDimension query =
      executeDelete tables (first :: rest)) := by
  have hne : Utf8.trim isWhitespace query ≠ [] := by
    intro hempty
    rw [statement, hempty] at h
    cases h
  refine ⟨hne, fun hselect => ?_, fun hdelete => ?_⟩
  · simp only [vclExecuteHandler, if_neg hne, h, if_pos hselect]
  · have hselect : ¬ tables.Is first "SELECT" := hdelete.ne (by decide)
    have hsearch : ¬ tables.Is first "SEARCH" := hdelete.ne (by decide)
    have hinsert : ¬ tables.Is first "INSERT" := hdelete.ne (by decide)
    simp only [vclExecuteHandler, if_neg hne, h, if_neg hselect, if_neg hsearch, if_neg hinsert,
      if_pos hdelete]

theorem findWhereId_none (h : ¬ HasCondition tables tokens) :
    findWhereId tables tokens = .ok none := by
  rw [findWhereId_eq]
  cases hvalue : whereValue tables tokens with
  | none => rfl
  | some value => exact absurd (hasCondition_of_whereValue hvalue) h

theorem findWhereId_some (h : HasCondition tables tokens) :
    findWhereId tables tokens = .error .panic ∨
      ∃ id, findWhereId tables tokens = .ok (some id) := by
  rw [findWhereId_eq]
  cases hvalue : whereValue tables tokens with
  | none => exact absurd hvalue (whereValue_ne_none h)
  | some value =>
    by_cases hlone : Lone value
    · left
      have hpanic : unquote value = .error .panic := by
        by_contra hsafe
        exact (safe_unquote value).mp hsafe hlone
      simp only [hpanic]
      rfl
    · right
      obtain ⟨s, hs⟩ := exists_unquote hlone
      exact ⟨s, by simp only [hs]; rfl⟩

/-- A selection is never rejected. -/
theorem executeSelect_ne (message : String) :
    executeSelect tables tokens ≠ .error (.badRequest message) := by
  intro h
  rw [executeSelect] at h
  by_cases hcondition : HasCondition tables tokens
  · obtain hpanic | ⟨id, hid⟩ := findWhereId_some hcondition
    · rw [hpanic] at h
      cases h
    · rw [hid] at h
      cases h
  · rw [findWhereId_none hcondition] at h
    cases h

/-- A deletion is rejected when it has no complete condition. -/
theorem executeDelete_badRequest_iff : (∃ message, (executeDelete tables tokens :
    Outcome (Request F)) = .error (.badRequest message)) ↔ ¬ HasCondition tables tokens := by
  rw [executeDelete]
  constructor
  · intro h hcondition
    obtain ⟨message, hmessage⟩ := h
    obtain hpanic | ⟨id, hid⟩ := findWhereId_some hcondition
    · rw [hpanic] at hmessage
      cases hmessage
    · rw [hid] at hmessage
      cases hmessage
  · intro hcondition
    rw [findWhereId_none hcondition]
    exact ⟨_, rfl⟩

theorem honoured_iff {query first : Str} {rest : List Str}
    (h : tokenize (statement query) = first :: rest)
    (hfirst : tables.Is first "SELECT" ∨ tables.Is first "DELETE") :
    Honoured tables vectorDimension query ↔
      tables.Is first "DELETE" ∧ ¬ HasCondition tables (first :: rest) ∨
        ∃ id, Filtered tables (first :: rest) id := by
  obtain ⟨hselect, hdelete⟩ := (@vclExecuteHandler_eq F tables vectorDimension query first rest h).2
  rw [Honoured, h]
  constructor
  · intro hhonoured
    cases hhonoured with
    | inr hacts =>
      obtain ⟨id, hfiltered, -⟩ := hacts
      exact .inr ⟨id, hfiltered⟩
    | inl hrejected =>
      cases hfirst with
      | inl his =>
        obtain ⟨message, hmessage⟩ := hrejected
        rw [hselect his] at hmessage
        exact absurd hmessage (executeSelect_ne message)
      | inr his =>
        rw [hdelete his] at hrejected
        exact .inl ⟨his, executeDelete_badRequest_iff.mp hrejected⟩
  · intro hcondition
    cases hcondition with
    | inl hdeletes =>
      rw [hdelete hdeletes.1]
      exact .inl (executeDelete_badRequest_iff.mpr hdeletes.2)
    | inr hfilters =>
      obtain ⟨id, hfiltered⟩ := hfilters
      have hfind := findWhereId_of_filtered hfiltered
      refine .inr ⟨id, hfiltered, ?_⟩
      cases hfirst with
      | inl his =>
        left
        rw [hselect his, executeSelect, hfind]
        rfl
      | inr his =>
        right
        rw [hdelete his, executeDelete, hfind]
        rfl

/-- The filter of every selection and deletion that has one is honoured. -/
def HonoursFilters (tables : Tables F) (vectorDimension : ℕ) (query : Str) : Prop :=
  Handled tables query → HasWhere tables (statement query) →
    Honoured tables vectorDimension query

/-- A filter is honoured just when it is the complete condition for an id, alone but for a limit,
or when it has no such condition and the statement is a deletion. -/
theorem honours_filters_iff (tables : Tables F) (vectorDimension : ℕ) (query : Str) :
    HonoursFilters tables vectorDimension query ↔
      ∀ first rest, tokenize (statement query) = first :: rest →
        tables.Is first "SELECT" ∨ tables.Is first "DELETE" → HasWhere tables (statement query) →
          tables.Is first "DELETE" ∧ ¬ HasCondition tables (first :: rest) ∨
            ∃ id, Filtered tables (first :: rest) id := by
  constructor
  · intro h first rest htokens hfirst hwhere
    exact (honoured_iff htokens hfirst).mp (h ⟨first, rest, htokens, hfirst⟩ hwhere)
  · intro h hhandled hwhere
    obtain ⟨first, rest, htokens, hfirst⟩ := hhandled
    exact (honoured_iff htokens hfirst).mpr (h first rest htokens hfirst hwhere)

/-- A selection without spaces around its equals sign. -/
def unspaced : Str := "SELECT * FROM octads WHERE id='x'".toList

/-- All octads are listed. -/
theorem unspaced_listed : vclExecuteHandler plain 0 unspaced = .ok (.list 100) ∧
    ¬ HonoursFilters plain 0 unspaced := by
  have hlist : vclExecuteHandler plain 0 unspaced = .ok (.list 100) := by decide +kernel
  have hwords : words (statement unspaced) =
      ["SELECT", "", "", "FROM", "octads", "WHERE", "id", "", "", "", ""].map String.toList := by
    decide +kernel
  have htokens : tokenize (statement unspaced) =
      ["SELECT", "*", "FROM", "octads", "WHERE", "id='x'"].map String.toList := by
    decide +kernel
  refine ⟨hlist, fun h => ?_⟩
  have hhandled : Handled plain unspaced := ⟨_, _, htokens, .inl (by decide)⟩
  have hwhere : HasWhere plain (statement unspaced) :=
    ⟨"WHERE".toList, by rw [hwords]; decide, by decide⟩
  obtain ⟨message, hmessage⟩ | ⟨id, -, hget | hdelete⟩ := h hhandled hwhere
  · rw [hlist] at hmessage
    cases hmessage
  · rw [hlist] at hget
    cases hget
  · rw [hlist] at hdelete
    cases hdelete

end filters

end NextgenDatabases.Endpoint
