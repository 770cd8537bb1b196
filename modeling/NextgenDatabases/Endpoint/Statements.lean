import NextgenDatabases.Foundations.Utf8
import NextgenDatabases.Planner.Prepared
import NextgenDatabases.Wal.Segment

/-!
# Statements of the endpoint

The text of a VCL query, its tokens, and the call of the octad store that a statement makes.
-/
namespace NextgenDatabases.Endpoint

open Foundations (Utf8.size Utf8.dropBytes Utf8.slice Utf8.find Utf8.trim Utf8.replace)
open Planner (Str isWhitespace upperChar)
open Wal (parseU64)

/-- The tables of Unicode, and 32-bit floats as they are read from a text. -/
structure Tables (F : Type) where
  upper : Char → Str
  toLowercase : Str → Str
  parseF32 : Str → Option F
  upper_ascii : ∀ c, c.toNat < 128 → upper c = upperChar c
  upper_of_ascii : ∀ c, (∀ d ∈ upper c, d.toNat < 128) → upper c = upperChar c

/-- The tables on the characters whose uppercase is in ASCII, and no floats. -/
def plain : Tables Empty where
  upper := upperChar
  toLowercase s := s.map Char.toLower
  parseF32 _ := none
  upper_ascii _ _ := rfl
  upper_of_ascii _ _ := rfl

inductive Fault
  | panic
  | badRequest (message : String)
  deriving DecidableEq

abbrev Outcome := Except Fault

/-- A slice or an index that is out of range is a panic. -/
def index {α : Type} : Option α → Outcome α
  | some a => .ok a
  | none => .error .panic

namespace Tables

variable {F : Type} (tables : Tables F)

def toUppercase (s : Str) : Str := s.flatMap tables.upper

/-- The comparison of an uppercased token with a keyword. -/
def Is (token : Str) (keyword : String) : Prop := tables.toUppercase token = keyword.toList

instance (token : Str) (keyword : String) : Decidable (tables.Is token keyword) :=
  inferInstanceAs (Decidable (_ = _))

end Tables

/-! ### Tokens -/

/-- `current` is the token so far, and the flags say in which quotes it is. -/
def tokenizeFrom (current : Str) (inSingleQuote inDoubleQuote : Bool) : Str → List Str
  | [] => if current = [] then [] else [current]
  | ch :: rest =>
    if ch = '\'' ∧ inDoubleQuote = false then
      tokenizeFrom (current ++ [ch]) (!inSingleQuote) inDoubleQuote rest
    else if ch = '"' ∧ inSingleQuote = false then
      tokenizeFrom (current ++ [ch]) inSingleQuote (!inDoubleQuote) rest
    else if ch ∈ [' ', '\t', '\n'] ∧ inSingleQuote = false ∧ inDoubleQuote = false then
      if current = [] then tokenizeFrom [] inSingleQuote inDoubleQuote rest
      else current :: tokenizeFrom [] inSingleQuote inDoubleQuote rest
    else tokenizeFrom (current ++ [ch]) inSingleQuote inDoubleQuote rest

def tokenize (input : Str) : List Str := tokenizeFrom [] false false input

def unquote (s : Str) : Outcome Str :=
  if s.head? = some '\'' ∧ s.getLast? = some '\'' ∨ s.head? = some '"' ∧ s.getLast? = some '"' then
    index (Utf8.slice s 1 (Utf8.size s - 1))
  else .ok s

section tokens

variable {F : Type} (tables : Tables F)

/-- The limit, and the index of its keyword among the tokens from `i` on. -/
def parseLimitFrom (i : ℕ) : List Str → ℕ × ℕ
  | [] => (100, i)
  | token :: rest =>
    if tables.Is token "LIMIT" then
      match rest[0]?.bind parseU64 with
      | some n => (min n.toNat 1000, i)
      | none => parseLimitFrom (i + 1) rest
    else parseLimitFrom (i + 1) rest

def parseLimit (tokens : List Str) : ℕ × ℕ := parseLimitFrom tables 0 tokens

/-- A token and the ones after it are a complete condition but for its value. -/
def StartsWhereId (token : Str) (rest : List Str) : Prop :=
  tables.Is token "WHERE" ∧ rest[0]?.map tables.toLowercase = some "id".toList ∧
    rest[1]? = some "=".toList

instance (token : Str) (rest : List Str) : Decidable (StartsWhereId tables token rest) :=
  inferInstanceAs (Decidable (_ ∧ _ ∧ _))

def findWhereId : List Str → Outcome (Option Str)
  | [] => .ok none
  | token :: rest =>
    if StartsWhereId tables token rest then
      match rest[2]? with
      | some val => (unquote val).map some
      | none => findWhereId rest
    else findWhereId rest

end tokens

/-! ### Statements -/

/-- What an `EXPLAIN` reports. -/
inductive Plan
  | pointLookup
  | sequentialScan (limit : ℕ)
  | fullTextSearch (limit : ℕ)
  | approximateNearestNeighbor (limit : ℕ)
  | graphTraversal
  | unknownSearchType
  | multiModalInsert
  | multiModalDelete
  | unrecognized (statementType : Str)
  deriving DecidableEq

/-- The call that a statement makes. -/
inductive Request (F : Type)
  | get (id : Str)
  | list (limit : ℕ)
  | searchText (query : Str) (limit : ℕ)
  | searchSimilar (vector : List F) (limit : ℕ)
  | queryRelated (id predicate : Str)
  | create (title body : Str)
  | delete (id : Str)
  | showStatus
  | showDrift
  | showNormalizer
  | count (limit : ℕ)
  | explain (query : Str) (plan : Plan)
  deriving DecidableEq

section statements

variable {F : Type} (tables : Tables F) (vectorDimension : ℕ)

def executeSelect (tokens : List Str) : Outcome (Request F) := do
  let limit := (parseLimit tables tokens).1
  match ← findWhereId tables tokens with
  | some id => return .get id
  | none => return .list limit

def parseVector (s : Str) : Outcome (List F) :=
  let cleaned := Utf8.replace ',' ' '
    (((Utf8.trim isWhitespace s).dropWhile (· = '[')).rdropWhile (· = ']'))
  match (Planner.splitWhitespace cleaned).mapM tables.parseF32 with
  | some vector => .ok vector
  | none => .error (.badRequest "Invalid vector: invalid float literal")

/-- `&tokens[a..b]` -/
def tokenRange (tokens : List Str) (a b : ℕ) : Outcome (List Str) :=
  index (if a ≤ b ∧ b ≤ tokens.length then some ((tokens.take b).drop a) else none)

def searchVector (tokens : List Str) : Outcome (Request F) := do
  let components ← tokenRange tokens 2 (parseLimit tables tokens).2
  let vector ← parseVector tables ([' '].intercalate components)
  if vector.length ≠ vectorDimension then
    .error (.badRequest ("Vector dimension mismatch: expected " ++ toString vectorDimension ++
      ", got " ++ toString vector.length))
  else .ok (.searchSimilar vector (parseLimit tables tokens).1)

/-- The token after the first `BY`. -/
def predicateToken (tokens : List Str) : Option Str :=
  (tokens.findIdx? fun token => tables.Is token "BY").bind fun i => tokens[i + 1]?

def searchRelated (tokens : List Str) (value : Str) : Outcome (Request F) := do
  let id ← unquote value
  match predicateToken tables tokens with
  | some token => (unquote token).map (.queryRelated id)
  | none => .ok (.queryRelated id "related".toList)

def executeSearch (tokens : List Str) : Outcome (Request F) :=
  match tokens with
  | _ :: kind :: value :: _ =>
    if tables.Is kind "TEXT" then
      (unquote value).map fun queryText => .searchText queryText (parseLimit tables tokens).1
    else if tables.Is kind "VECTOR" then searchVector tables vectorDimension tokens
    else if tables.Is kind "RELATED" then searchRelated tables tokens value
    else .error (.badRequest ("Unknown SEARCH type: '" ++ String.ofList (tables.toUppercase kind) ++
      "'. Use TEXT, VECTOR, or RELATED."))
  | _ => .error (.badRequest
    "SEARCH requires at least: SEARCH TEXT '<query>' or SEARCH VECTOR [...]")

/-- The text after the keyword `VALUES`, which is looked for in the uppercased text. -/
def valuesPart (raw : Str) : Outcome Str :=
  match Utf8.find "VALUES".toList (tables.toUppercase raw) with
  | some valuesIdx => do
    let rest ← index (Utf8.dropBytes raw (valuesIdx + 6))
    return ((Utf8.trim isWhitespace rest).dropWhile (· = '(')).rdropWhile (· = ')')
  | none => .error (.badRequest "INSERT INTO requires a VALUES clause")

def unquoteOrDefault : Option Str → Outcome Str
  | some token => unquote token
  | none => .ok []

def parseInsertValues (raw : Str) : Outcome (Str × Str) := do
  let part ← valuesPart tables raw
  let valueTokens := tokenize (Utf8.replace ',' ' ' part)
  let title ← unquoteOrDefault valueTokens[0]?
  let body ← unquoteOrDefault valueTokens[1]?
  return (title, body)

def executeInsert (raw : Str) : Outcome (Request F) :=
  if "INSERT INTO".toList <+: tables.toUppercase raw then do
    let (title, body) ← parseInsertValues tables raw
    return .create title body
  else
    match tokenize raw with
    | _ :: first :: second :: _ => do
      let title ← unquote first
      let body ← unquote second
      return .create title body
    | _ => .error (.badRequest
      "INSERT requires: INSERT INTO octads (title, body) VALUES ('<title>', '<body>')")

def executeDelete (tokens : List Str) : Outcome (Request F) := do
  match ← findWhereId tables tokens with
  | some id => return .delete id
  | none => throw (.badRequest "DELETE requires: DELETE FROM octads WHERE id = '<id>'")

def executeShow (tokens : List Str) : Outcome (Request F) :=
  match tokens with
  | _ :: target :: _ =>
    if tables.Is target "STATUS" ∨ tables.Is target "HEALTH" then .ok .showStatus
    else if tables.Is target "DRIFT" then .ok .showDrift
    else if tables.Is target "NORMALIZER" then .ok .showNormalizer
    else if tables.Is target "OCTADS" then .ok (.list (parseLimit tables tokens).1)
    else .error (.badRequest ("Unknown SHOW target: '" ++
      String.ofList (tables.toUppercase target) ++ "'. Use STATUS, DRIFT, NORMALIZER, or OCTADS."))
  | _ => .error (.badRequest
    "SHOW requires: SHOW STATUS | SHOW DRIFT | SHOW NORMALIZER | SHOW OCTADS")

def explainPlan (innerTokens : List Str) (statementType : Str) (limit : ℕ)
    (whereId : Option Str) : Plan :=
  if statementType = "SELECT".toList then
    if whereId.isSome then .pointLookup else .sequentialScan limit
  else if statementType = "SEARCH".toList then
    let searchType := (innerTokens[1]?.map tables.toUppercase).getD []
    if searchType = "TEXT".toList then .fullTextSearch limit
    else if searchType = "VECTOR".toList then .approximateNearestNeighbor limit
    else if searchType = "RELATED".toList then .graphTraversal
    else .unknownSearchType
  else if statementType = "INSERT".toList then .multiModalInsert
  else if statementType = "DELETE".toList then .multiModalDelete
  else .unrecognized statementType

/-- The query that an `EXPLAIN` is about. Its keyword is looked for in the uppercased text. -/
def innerQuery (raw : Str) : Outcome Str := do
  let position ← index (Utf8.find "EXPLAIN".toList (tables.toUppercase raw))
  let rest ← index (Utf8.dropBytes raw (position + 7))
  return Utf8.trim isWhitespace rest

def executeExplain (tokens : List Str) (raw : Str) : Outcome (Request F) :=
  if tokens.length < 2 then .error (.badRequest "EXPLAIN requires a query to explain")
  else do
    let inner ← innerQuery tables raw
    match tokenize inner with
    | [] => .error (.badRequest "EXPLAIN requires a query")
    | first :: rest =>
      let innerTokens := first :: rest
      let limit := (parseLimit tables innerTokens).1
      (findWhereId tables innerTokens).map fun whereId =>
        .explain inner (explainPlan tables innerTokens (tables.toUppercase first) limit whereId)

/-- The statement without the semicolons at its end. -/
def statement (query : Str) : Str :=
  Utf8.trim isWhitespace ((Utf8.trim isWhitespace query).rdropWhile (· = ';'))

def vclExecuteHandler (query : Str) : Outcome (Request F) :=
  if Utf8.trim isWhitespace query = [] then .error (.badRequest "Empty query")
  else
    let raw := statement query
    let tokens := tokenize raw
    match tokens with
    | [] => .error (.badRequest "Empty query after parsing")
    | first :: _ =>
      if tables.Is first "SELECT" then executeSelect tables tokens
      else if tables.Is first "SEARCH" then executeSearch tables vectorDimension tokens
      else if tables.Is first "INSERT" then executeInsert tables raw
      else if tables.Is first "DELETE" then executeDelete tables tokens
      else if tables.Is first "SHOW" then executeShow tables tokens
      else if tables.Is first "COUNT" then .ok (.count 1000)
      else if tables.Is first "EXPLAIN" then executeExplain tables tokens raw
      else .error (.badRequest ("Unknown VCL statement: '" ++
        String.ofList (tables.toUppercase first) ++
        "'. Supported: SELECT, SEARCH, INSERT, DELETE, SHOW, COUNT, EXPLAIN"))

end statements

end NextgenDatabases.Endpoint
