import Mathlib.Data.List.Basic
import Mathlib.Data.List.Infix

/-!
# GQL statements

The tokens of a GQL text and the parsers of its statements, each on what the one before has left.
The table of a provenance clause lies where the next turn of its loop looks for tokens, so the
clause is read only when there is nothing between its braces.
-/
namespace NextgenDatabases.Lithoglyph.Gql

/-! ### Syntax trees -/

/-- A JSON object, as its entries. -/
abbrev Document : Type := List (String × String)

/-- An operator, or only the first character of one. -/
inductive Operator
  | text (s : String)
  | char (c : Char)
  deriving DecidableEq

structure Comparison where
  field : String
  op : Operator
  value : String
  deriving DecidableEq

structure WhereClause where
  expression : Comparison
  deriving DecidableEq

variable {N : Type}

structure EdgeClause (N : Type) where
  type : String
  direction : String
  depth : Option N

structure LimitClause (N : Type) where
  limit : Option N
  offset : Option N

structure GqlSelect (N : Type) where
  fields : List String
  collection : String
  whereClause : Option WhereClause
  edgeClause : Option (EdgeClause N)
  limitClause : Option (LimitClause N)
  withProvenance : Bool

/-- What an INTROSPECT asks about its target. -/
inductive Argument (N : Type)
  | none
  | number (n : N)
  | name (s : String)

inductive Statement (N : Type)
  | insert (collection : String) (document : Document) (provenance : Option Document)
  | select (query : GqlSelect N)
  | update (collection : String) (assignments : List (String × String))
      (whereClause : Option WhereClause) (provenance : Option Document)
  | delete (collection : String) (whereClause : Option WhereClause) (provenance : Option Document)
  | create (collection : String) (fields : List (String × String)) (schema : Option Document)
  | drop (collection : String) (provenance : Option Document)
  | explain (inner : Statement N) (analyze verbose : Bool)
  | introspect (target : String) (arg : Argument N)

/-! ### Tokens -/

abbrev Tokens : Type := List String

/-- The words of the library on strings and numbers: upper case, the number that a text writes,
and the index that a number gives. -/
structure Words (N : Type) where
  upper : String → String
  stringToNumber : String → Option N
  toIndex : N → ℕ

/-- A line up to its comment. -/
def stripComment : List Char → List Char
  | '-' :: '-' :: _ => []
  | c :: cs => c :: stripComment cs
  | [] => []

def isBlank (c : Char) : Bool := c = ' ' ∨ c = '\t' ∨ c = '\n' ∨ c = '\r'

def splitTokens (cs : List Char) : Tokens :=
  (((cs.splitOnP isBlank).filter (· ≠ [])).map String.ofList).filter (· ≠ ",")

/-- The tokens of a text, without its last semicolon and its comments. -/
def tokens (s : String) : Tokens :=
  let cs := if s.toList.getLast? = some ';' then s.toList.dropLast else s.toList
  splitTokens (List.intercalate [' '] ((cs.splitOn '\n').map stripComment))

inductive GqlError
  | parseError (message : String)
  | boundsError
  | noMethod
  deriving DecidableEq

abbrev Parse (α : Type) : Type := Except GqlError α

def peekToken (ts : Tokens) : Option String := ts.head?

def consumeToken : Tokens → Parse (Tokens × String)
  | [] => .error .boundsError
  | t :: ts => .ok (ts, t)

namespace Words

variable (words : Words N)

def keyword (t : String) : Bool :=
  words.upper t ∈ ["SELECT", "FROM", "WHERE", "INSERT", "INTO", "UPDATE",
    "DELETE", "SET", "CREATE", "DROP", "COLLECTION",
    "WITH", "PROVENANCE", "LIMIT", "OFFSET",
    "TRAVERSE", "OUTBOUND", "INBOUND", "ANY", "DEPTH",
    "EXPLAIN", "INTROSPECT", "SCHEMA", "CONSTRAINTS",
    "JOURNAL", "SINCE", "COLLECTIONS",
    "AND", "OR", "NOT", "NULL", "TRUE", "FALSE",
    "STRING", "INTEGER", "FLOAT", "BOOLEAN", "TIMESTAMP",
    "JSON", "PROMPT_SCORE", "UNIQUE", "CHECK", "REFERENCES",
    "LIKE", "IN", "CONTAINS"]

def expectToken (ts : Tokens) (expected : String) : Parse Tokens :=
  match ts with
  | t :: rest =>
    if words.upper expected = words.upper t then .ok rest
    else .error (.parseError ("Expected '" ++ words.upper expected ++ "'"))
  | [] => .error (.parseError ("Expected '" ++ words.upper expected ++ "'"))

def tryConsume (ts : Tokens) (expected : String) : Tokens × Bool :=
  match ts with
  | t :: rest => if words.upper expected = words.upper t then (rest, true) else (ts, false)
  | [] => ([], false)

theorem length_tryConsume (ts : Tokens) (expected : String) :
    (words.tryConsume ts expected).1.length ≤ ts.length := by
  cases ts with
  | nil => exact Nat.le_refl _
  | cons t ts =>
    simp only [tryConsume]
    split_ifs
    · exact Nat.le_succ _
    · exact Nat.le_refl _

/-! ### Clauses -/

def parseIdentifier (ts : Tokens) : Parse (Tokens × String) := do
  let (rest, t) ← consumeToken ts
  if words.keyword t then .error (.parseError "Unexpected keyword") else .ok (rest, t)

def parseCollectionName (ts : Tokens) : Parse (Tokens × String) := words.parseIdentifier ts

/-- The second `consume-token` is applied to the operator and takes its first character. -/
def parseWhereClause (ts : Tokens) : Parse (Tokens × Option WhereClause) :=
  match words.tryConsume ts "WHERE" with
  | (ts, true) => do
    let (ts, field) ← words.parseIdentifier ts
    let (ts, op) ← consumeToken ts
    match op.toList with
    | c :: rest => .ok (ts, some ⟨⟨field, .char c, String.ofList rest⟩⟩)
    | [] => .error .boundsError
  | (ts, false) => .ok (ts, none)

def parseEdgeClause [OfNat N 1] (ts : Tokens) : Parse (Tokens × Option (EdgeClause N)) :=
  match words.tryConsume ts "TRAVERSE" with
  | (ts, true) => do
    let (ts, type) ← words.parseIdentifier ts
    let (ts, direction) ← consumeToken ts
    match words.tryConsume ts "DEPTH" with
    | (ts, true) => do
      let (ts, depth) ← consumeToken ts
      .ok (ts, some ⟨type, words.upper direction, words.stringToNumber depth⟩)
    | (ts, false) => .ok (ts, some ⟨type, words.upper direction, some 1⟩)
  | (_, false) => .ok (ts, none)

def parseLimitClause [OfNat N 0] (ts : Tokens) : Parse (Tokens × Option (LimitClause N)) :=
  match words.tryConsume ts "LIMIT" with
  | (ts, true) => do
    let (ts, limit) ← consumeToken ts
    match words.tryConsume ts "OFFSET" with
    | (ts, true) => do
      let (ts, offset) ← consumeToken ts
      .ok (ts, some ⟨words.stringToNumber limit, words.stringToNumber offset⟩)
    | (ts, false) => .ok (ts, some ⟨words.stringToNumber limit, some 0⟩)
  | (_, false) => .ok (ts, none)

/-- Where the first turn of the loop is made, the next finds the table in the place of the tokens,
which has no method for it. -/
def parseProvenanceClause (ts : Tokens) : Parse (Tokens × Option Document) :=
  match words.tryConsume ts "WITH" with
  | (ts, true) => do
    let ts ← words.expectToken ts "PROVENANCE"
    let (ts, _) ← consumeToken ts
    if peekToken ts = some "\x7d" then do
      let (ts, _) ← consumeToken ts
      .ok (ts, some [])
    else do
      let _ ← consumeToken ts
      .error .noMethod
  | (ts, false) => .ok (ts, none)

end Words

/-! ### Lists between clauses -/

/-- The rest behind a comma, where there is one. -/
def skipComma (ts : Tokens) : Tokens := if peekToken ts = some "," then ts.tail else ts

theorem length_skipComma (ts : Tokens) : (skipComma ts).length ≤ ts.length := by
  unfold skipComma
  split_ifs
  · rw [List.length_tail]
    exact Nat.sub_le _ _
  · exact Nat.le_refl _

def parseFieldList : Tokens → Parse (Tokens × List String)
  | [] => .error .boundsError
  | t :: ts =>
    if t = "FROM" then .ok (t :: ts, [])
    else do
      let (rest, fields) ← parseFieldList (skipComma ts)
      .ok (rest, t :: fields)
termination_by ts => ts.length
decreasing_by exact Nat.lt_succ_of_le (length_skipComma ts)

def parseFields (ts : Tokens) : Parse (Tokens × List String) :=
  if peekToken ts = some "*" then do
    let (ts, _) ← consumeToken ts
    .ok (ts, ["*"])
  else parseFieldList ts

/-- What comes behind the next closing brace. -/
def skipDocument : Tokens → Parse Tokens
  | [] => .error .boundsError
  | t :: ts => if t = "\x7d" then .ok ts else skipDocument ts

namespace Words

variable (words : Words N)

def parseAssignments : Tokens → Parse (Tokens × List (String × String))
  | [] => .error .boundsError
  | field :: ts =>
    if field = "WHERE" then .ok (field :: ts, [])
    else if words.keyword field then .error (.parseError "Unexpected keyword")
    else
      match ts with
      | _ :: value :: ts => do
        let (rest, assignments) ← parseAssignments (skipComma ts)
        .ok (rest, (field, value) :: assignments)
      | _ => .error .boundsError
termination_by ts => ts.length
decreasing_by
  have hle := length_skipComma ts
  simp only [List.length_cons]
  omega

def parseFieldDefs : Tokens → Parse (Tokens × List (String × String))
  | [] => .error .boundsError
  | field :: ts =>
    if field = ")" then .ok (ts, [])
    else if words.keyword field then .error (.parseError "Unexpected keyword")
    else
      match ts with
      | type :: ts => do
        let (rest, defs) ← parseFieldDefs (skipComma ts)
        .ok (rest, (field, type) :: defs)
      | [] => .error .boundsError
termination_by ts => ts.length
decreasing_by
  have hle := length_skipComma ts
  simp only [List.length_cons]
  omega

def parseFieldDefinitions (ts : Tokens) : Parse (Tokens × List (String × String)) :=
  if peekToken ts = some "(" then do
    let (ts, _) ← consumeToken ts
    words.parseFieldDefs ts
  else .ok (ts, [])

/-! ### Statements -/

/-- The tokens of the document are skipped, and it stays empty. -/
def parseInsert (ts : Tokens) : Parse (Tokens × Statement N) := do
  let ts ← words.expectToken ts "INTO"
  let (ts, collection) ← words.parseCollectionName ts
  let (ts, _) ← consumeToken ts
  let ts ← skipDocument ts
  let (ts, prov) ← words.parseProvenanceClause ts
  .ok (ts, .insert collection [] prov)

/-- The clauses behind the collection are not read. -/
def parseSelect (ts : Tokens) : Parse (Tokens × Statement N) := do
  let (ts, fields) ← parseFields ts
  let ts ← words.expectToken ts "FROM"
  let (ts, collection) ← words.parseCollectionName ts
  .ok (ts, .select ⟨fields, collection, none, none, none, false⟩)

def parseUpdate (ts : Tokens) : Parse (Tokens × Statement N) := do
  let (ts, collection) ← words.parseCollectionName ts
  let ts ← words.expectToken ts "SET"
  let (ts, assignments) ← words.parseAssignments ts
  let (ts, where_) ← words.parseWhereClause ts
  let (ts, prov) ← words.parseProvenanceClause ts
  .ok (ts, .update collection assignments where_ prov)

def parseDelete (ts : Tokens) : Parse (Tokens × Statement N) := do
  let ts ← words.expectToken ts "FROM"
  let (ts, collection) ← words.parseCollectionName ts
  let (ts, where_) ← words.parseWhereClause ts
  let (ts, prov) ← words.parseProvenanceClause ts
  .ok (ts, .delete collection where_ prov)

def parseCreate (ts : Tokens) : Parse (Tokens × Statement N) := do
  let ts ← words.expectToken ts "COLLECTION"
  let (ts, collection) ← words.parseCollectionName ts
  let (ts, fields) ← words.parseFieldDefinitions ts
  match words.tryConsume ts "WITH" with
  | (ts, true) => do
    let ts ← words.expectToken ts "SCHEMA"
    .ok (ts, .create collection fields (some []))
  | (ts, false) => .ok (ts, .create collection fields none)

def parseDrop (ts : Tokens) : Parse (Tokens × Statement N) := do
  let ts ← words.expectToken ts "COLLECTION"
  let (ts, collection) ← words.parseCollectionName ts
  let (ts, prov) ← words.parseProvenanceClause ts
  .ok (ts, .drop collection prov)

variable [OfNat N 0]

def parseIntrospect (ts : Tokens) : Parse (Tokens × Statement N) := do
  let (ts, raw) ← consumeToken ts
  let target := words.upper raw
  if target = "JOURNAL" then
    match words.tryConsume ts "SINCE" with
    | (ts, true) => do
      let (ts, since) ← consumeToken ts
      match words.stringToNumber since with
      | some n => .ok (ts, .introspect target (.number n))
      | none => .ok (ts, .introspect target .none)
    | (ts, false) => .ok (ts, .introspect target (.number 0))
  else if target = "SCHEMA" ∨ target = "CONSTRAINTS" then
    match ts with
    | next :: rest =>
      if words.keyword next then .ok (ts, .introspect target .none)
      else .ok (rest, .introspect target (.name next))
    | [] => .ok ([], .introspect target .none)
  else .ok (ts, .introspect target .none)

def parseStatement : Tokens → Parse (Tokens × Statement N)
  | [] => .error .boundsError
  | t :: ts =>
    if words.upper t = "INSERT" then words.parseInsert ts
    else if words.upper t = "SELECT" then words.parseSelect ts
    else if words.upper t = "UPDATE" then words.parseUpdate ts
    else if words.upper t = "DELETE" then words.parseDelete ts
    else if words.upper t = "CREATE" then words.parseCreate ts
    else if words.upper t = "DROP" then words.parseDrop ts
    else if words.upper t = "EXPLAIN" then do
      let (ts', inner) ← parseStatement
        (words.tryConsume (words.tryConsume ts "ANALYZE").1 "VERBOSE").1
      .ok (ts', .explain inner (words.tryConsume ts "ANALYZE").2
        (words.tryConsume (words.tryConsume ts "ANALYZE").1 "VERBOSE").2)
    else if words.upper t = "INTROSPECT" then words.parseIntrospect ts
    else .error (.parseError "Unknown statement type")
termination_by ts => ts.length
decreasing_by
  have hanalyze := words.length_tryConsume ts "ANALYZE"
  have hverbose := words.length_tryConsume (words.tryConsume ts "ANALYZE").1 "VERBOSE"
  simp only [List.length_cons]
  omega

def parseGql (s : String) : Parse (Statement N) := do
  let (_, ast) ← words.parseStatement (tokens s)
  .ok ast

end Words

/-! ### Rows -/

/-- Strings have no order, and no string is an element of one. -/
def matchWhere (doc : Document) : Option WhereClause → Parse Bool
  | none => .ok true
  | some clause =>
    let comp := clause.expression
    let actual := doc.lookup comp.field
    match comp.op with
    | .char _ => .ok false
    | .text op =>
      if op = "=" then .ok (actual = some comp.value)
      else if op = "!=" then .ok (actual ≠ some comp.value)
      else if op ∈ [">", "<", ">=", "<="] then .error .noMethod
      else if op = "LIKE" then .ok (comp.value.toList <:+: (actual.getD "").toList)
      else .ok false

structure SelectResult where
  status : String
  collection : String
  count : ℕ
  rows : List (List (String × Option String))
  provenanceEnabled : Bool

def headClamp (docs : List Document) (n : Option ℕ) : List Document :=
  n.elim docs fun n => docs.take n

def tailClamp (docs : List Document) (n : Option ℕ) : List Document :=
  n.elim docs fun n => docs.drop n

def project (fields : List String) (doc : Document) : List (String × Option String) :=
  if fields = ["*"] then doc.map fun entry => (entry.1, some entry.2)
  else fields.map fun field => (field, doc.lookup field)

def filterWhere (clause : Option WhereClause) : List Document → Parse (List Document)
  | [] => .ok []
  | doc :: docs => do
    let keep ← matchWhere doc clause
    let rest ← filterWhere clause docs
    .ok (if keep then doc :: rest else rest)

namespace Words

variable (words : Words N)

/-- `docs` are the documents of the collection. Some words are read as meant: `head-clamp` and
`tail-clamp` take and drop that many documents if a number is given, `lim` is applied to the
filtered documents, which the source does not push for it, and `map>alist` pairs the fields with
their values. -/
def executeSelect (query : GqlSelect N) (docs : List Document) : Parse SelectResult := do
  let filtered ← filterWhere query.whereClause docs
  let limited := query.limitClause.elim filtered fun lim =>
    tailClamp (headClamp filtered (lim.limit.map words.toIndex)) (lim.offset.map words.toIndex)
  let projected := limited.map (project query.fields)
  .ok ⟨"ok", query.collection, projected.length, projected, query.withProvenance⟩

end Words

end NextgenDatabases.Lithoglyph.Gql
