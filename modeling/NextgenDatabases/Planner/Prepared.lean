import NextgenDatabases.Foundations.SortedMaps
import NextgenDatabases.Planner.Plan
import Mathlib.Data.Char
import Mathlib.Data.List.Sort

/-!
# Prepared statements

The plan cache: fingerprints of queries, statements under them, and calls that run their sections
under the two locks in any order.
-/
namespace NextgenDatabases.Planner

open Foundations

/-- The characters of a string, ordered as its UTF-8 bytes are. -/
abbrev Str : Type := List Char

/-- What comes from sha2, as hex, and from the tables of Unicode. -/
structure Lib where
  sha256 : Str → Str
  isAlphanumeric : Char → Bool

/-! ### Fingerprints -/

/-- `White_Space` -/
def isWhitespace (c : Char) : Bool :=
  (9 ≤ c.toNat && c.toNat ≤ 13) || (0x2000 ≤ c.toNat && c.toNat ≤ 0x200A) ||
    [0x20, 0x85, 0xA0, 0x1680, 0x2028, 0x2029, 0x202F, 0x205F, 0x3000].contains c.toNat

def splitWhitespace (s : Str) : List Str := (s.splitOnP isWhitespace).filter (· ≠ [])

/-- The uppercase of the characters whose uppercase is in ASCII. Others have none of its capitals
and are left as they are. -/
def upperChar (c : Char) : Str :=
  match c with
  | 'ı' => ['I']
  | 'ſ' => ['S']
  | 'ß' => ['S', 'S']
  | 'ﬀ' => ['F', 'F']
  | 'ﬁ' => ['F', 'I']
  | 'ﬂ' => ['F', 'L']
  | 'ﬃ' => ['F', 'F', 'I']
  | 'ﬄ' => ['F', 'F', 'L']
  | 'ﬅ' => ['S', 'T']
  | 'ﬆ' => ['S', 'T']
  | c => [c.toUpper]

def toUppercase (token : Str) : Str := token.flatMap upperChar

/-- The lowercase of a token whose uppercase is in ASCII. -/
def toLowercase (token : Str) : Str := token.map Char.toLower

def keywords : List Str :=
  ["SELECT", "WHERE", "FROM", "SEARCH", "LIMIT", "ORDER", "BY", "GROUP",
    "AND", "OR", "NOT", "JOIN", "ON", "AS", "HAVING", "INSERT", "UPDATE",
    "DELETE", "SET", "INTO", "VALUES", "WITH", "UNION", "INTERSECT", "EXCEPT",
    "EXISTS", "BETWEEN", "LIKE", "IN", "IS", "NULL", "TRUE", "FALSE",
    "ASC", "DESC", "DISTINCT", "ALL", "ANY", "SOME", "CASE", "WHEN", "THEN",
    "ELSE", "END",
    "PROOF", "VERIFY", "DRIFT", "OCTAD", "MODALITY", "TYPE",
    "GRAPH", "VECTOR", "TENSOR", "SEMANTIC", "DOCUMENT", "TEMPORAL"].map String.toList

def isKeyword (token : Str) : Bool := keywords.contains (toUppercase token)

def normalizeToken (token : Str) : Str := if isKeyword token then toLowercase token else token

def normalizeQuery (query : Str) : Str :=
  let collapsed := [' '].intercalate (splitWhitespace query)
  [' '].intercalate ((collapsed.splitOn ' ').map normalizeToken)

def fingerprint (lib : Lib) (query : Str) : Str := lib.sha256 (normalizeQuery query)

/-! ### Parameters -/

def addParameter (params : List Str) (name : Str) : List Str :=
  if 1 < name.length ∧ name ∉ params then params ++ [name] else params

/-- The loop over the characters, within a name or not. -/
def parametersFrom (lib : Lib) : Option Str → List Str → Str → List Str
  | none, params, [] => params
  | some name, params, [] => addParameter params name
  | none, params, c :: chars =>
    if c = '$' then parametersFrom lib (some ['$']) params chars
    else parametersFrom lib none params chars
  | some name, params, c :: chars =>
    if lib.isAlphanumeric c || c = '_' then parametersFrom lib (some (name ++ [c])) params chars
    else if c = '$' then parametersFrom lib (some ['$']) (addParameter params name) chars
    else parametersFrom lib none (addParameter params name) chars

def extractParameters (lib : Lib) (query : Str) : List Str := parametersFrom lib none [] query

/-! ### The cache -/

/-- The hex of a fingerprint, or any string of a client. -/
abbrev PreparedId : Type := Str

structure CacheConfig where
  maxEntries : ℕ
  ttlSeconds : BitVec 64

/-- Times are in nanoseconds. -/
structure PreparedStatement (P : Type) where
  id : PreparedId
  originalQuery : Str
  parameterNames : List Str
  logicalPlan : LogicalPlan
  cachedPhysicalPlan : Option P
  createdAt : ℤ
  lastUsed : ℤ
  useCount : ℕ

inductive CacheError
  | notFound (id : PreparedId)
  | parameterMismatch (expected provided : List Str)
  | expired (id : PreparedId)

/-- Hash maps, whose order is looked at only where an order is chosen below. -/
structure PlanCache (P : Type) where
  statements : SortedMap PreparedId (PreparedStatement P)
  fingerprints : SortedMap Str PreparedId

/-- The duration of `ttl_seconds as i64`, if it is not out of bounds. -/
def CacheConfig.ttl (config : CacheConfig) : Option ℤ :=
  if config.ttlSeconds.toInt.natAbs ≤ 9223372036854775 then some (config.ttlSeconds.toInt * 1000000000)
  else none

namespace PlanCache

variable {P V : Type} (config : CacheConfig) (lib : Lib)

def new : PlanCache P := ⟨.empty, .empty⟩

/-- Nothing where the duration panics. -/
def isExpired (now : ℤ) (stmt : PreparedStatement P) : Option Bool :=
  config.ttl.map fun ttl => ttl < now - stmt.createdAt

/-- The statement is removed, and its fingerprint with it. -/
def remove (self : PlanCache P) (id : PreparedId) : PlanCache P :=
  match self.statements.get id with
  | some stmt =>
    { statements := self.statements.remove id
      fingerprints := self.fingerprints.remove (fingerprint lib stmt.originalQuery) }
  | none => self

/-- An id with the oldest `last_used`. Any of them may come first in a hash map. -/
def IsOldest (self : PlanCache P) (id : PreparedId) : Prop :=
  self.statements.entries ≠ [] →
    ∃ stmt, self.statements.get id = some stmt ∧
      ∀ a ∈ self.statements.entries, stmt.lastUsed ≤ a.2.lastUsed

/-- `evict_lru_inner`, with the id that it finds. -/
def evictLruInner (self : PlanCache P) (oldest : PreparedId) : PlanCache P :=
  if self.statements.entries = [] then self else self.remove lib oldest

/-! ### Sections of prepare -/

def isPrepared (self : PlanCache P) (query : Str) : Bool :=
  (self.statements.get (fingerprint lib query)).isSome

/-- The statement is used now, if it is still there. -/
def refresh (self : PlanCache P) (now : ℤ) (query : Str) : PlanCache P :=
  match self.statements.get (fingerprint lib query) with
  | some stmt =>
    { self with
      statements := self.statements.insert (fingerprint lib query) { stmt with lastUsed := now } }
  | none => self

def statement (query : Str) (plan : LogicalPlan) (now : ℤ) : PreparedStatement P where
  id := fingerprint lib query
  originalQuery := query
  parameterNames := extractParameters lib query
  logicalPlan := plan
  cachedPhysicalPlan := none
  createdAt := now
  lastUsed := now
  useCount := 0

def insert (self : PlanCache P) (query : Str) (plan : LogicalPlan) (now : ℤ) (oldest : PreparedId) :
    PlanCache P :=
  let fp := fingerprint lib query
  let cache :=
    if config.maxEntries ≤ self.statements.entries.length then self.evictLruInner lib oldest else self
  { statements := cache.statements.insert fp (statement lib query plan now)
    fingerprints := cache.fingerprints.insert fp fp }

/-! ### Other calls -/

/-- Nothing where it panics. -/
def get (self : PlanCache P) (now : ℤ) (id : PreparedId) : Option (Option (PreparedStatement P)) :=
  match self.statements.get id with
  | some stmt => (isExpired config now stmt).map fun expired => if expired then none else some stmt
  | none => some none

/-- The names of the parameters are those provided, if it has any. -/
def Matching (stmt : PreparedStatement P) (params : SortedMap Str V) : Prop :=
  stmt.parameterNames ≠ [] →
    stmt.parameterNames.insertionSort (· ≤ ·) = params.entries.map (·.1)

instance (stmt : PreparedStatement P) (params : SortedMap Str V) :
    Decidable (Matching stmt params) :=
  inferInstanceAs (Decidable (_ → _))

/-- Nothing where it panics, otherwise the answer and the cache after it. -/
def executePrepared (self : PlanCache P) (now : ℤ) (id : PreparedId) (params : SortedMap Str V) :
    Option (Except CacheError (PreparedStatement P) × PlanCache P) :=
  match self.statements.get id with
  | none => some (.error (.notFound id), self)
  | some stmt =>
    (isExpired config now stmt).map fun expired =>
      if expired then
        (.error (.expired id), { self with statements := self.statements.remove id })
      else if Matching stmt params then
        let stmt := { stmt with useCount := stmt.useCount + 1, lastUsed := now }
        (.ok stmt, { self with statements := self.statements.insert id stmt })
      else
        (.error (.parameterMismatch stmt.parameterNames (params.entries.map (·.1))), self)

def invalidate (self : PlanCache P) (id : PreparedId) : Bool × PlanCache P :=
  ((self.statements.get id).isSome, self.remove lib id)

def invalidateAll (_self : PlanCache P) : PlanCache P := ⟨.empty, .empty⟩

def lookupByQuery (self : PlanCache P) (query : Str) : Option PreparedId :=
  self.fingerprints.get (fingerprint lib query)

def cachePlan (self : PlanCache P) (id : PreparedId) (plan : P) : PlanCache P :=
  match self.statements.get id with
  | some stmt =>
    { self with
      statements := self.statements.insert id { stmt with cachedPhysicalPlan := some plan } }
  | none => self

/-- The ids whose statements are older than the TTL. -/
def expiredIds (self : PlanCache P) (now ttl : ℤ) : List PreparedId :=
  (self.statements.entries.filter fun a => ttl < now - a.2.createdAt).map (·.1)

def evictExpired (self : PlanCache P) (now ttl : ℤ) : ℕ × PlanCache P :=
  ((self.expiredIds now ttl).length, (self.expiredIds now ttl).foldl (remove lib) self)

def evictLru (self : PlanCache P) (oldest : PreparedId) : PlanCache P :=
  if self.statements.entries.length ≤ config.maxEntries then self else self.evictLruInner lib oldest

end PlanCache

/-! ### Calls in any order -/

/-- Where a call is that takes more than one section, or reads the clock before its section. -/
inductive Pending
  | preparing (query : Str) (plan : LogicalPlan)
  | found (query : Str)
  | missed (query : Str) (plan : LogicalPlan)
  | stamped (query : Str) (plan : LogicalPlan) (now : ℤ)
  | evicting (now ttl : ℤ)

structure State (P : Type) where
  clock : ℤ
  cache : PlanCache P
  calls : ℕ → Option Pending

def State.new (P : Type) (clock : ℤ) : State P := ⟨clock, .new, fun _ => none⟩

/-- A section of a call. Those of prepare and evict_expired name their call. -/
inductive Event (P V : Type)
  | wait (nanoseconds : ℕ)
  | callPrepare (call : ℕ) (query : Str) (plan : LogicalPlan)
  | checkPrepared (call : ℕ)
  | refreshPrepared (call : ℕ)
  | stampPrepared (call : ℕ)
  | insertPrepared (call : ℕ) (oldest : PreparedId)
  | get (id : PreparedId)
  | executePrepared (id : PreparedId) (params : SortedMap Str V)
  | cachePlan (id : PreparedId) (plan : P)
  | invalidate (id : PreparedId)
  | invalidateAll
  | lookupByQuery (query : Str)
  | callEvictExpired (call : ℕ)
  | evictExpired (call : ℕ)
  | evictLru (oldest : PreparedId)

section Steps

variable {P V : Type} (config : CacheConfig) (lib : Lib)

def State.setCall (s : State P) (call : ℕ) (pending : Option Pending) : State P :=
  { s with calls := Function.update s.calls call pending }

def State.setCache (s : State P) (cache : PlanCache P) : State P := { s with cache := cache }

/-- What a section may do. A panic leaves the cache as it is and ends the call. -/
inductive Step : State P → Event P V → State P → Prop
  | wait {s} (nanoseconds : ℕ) : Step s (.wait nanoseconds) { s with clock := s.clock + nanoseconds }
  | callPrepare {s call query plan} : s.calls call = none →
      Step s (.callPrepare call query plan) (s.setCall call (some (.preparing query plan)))
  | checkFound {s call query plan} : s.calls call = some (.preparing query plan) →
      s.cache.isPrepared lib query = true →
      Step s (.checkPrepared call) (s.setCall call (some (.found query)))
  | checkMissed {s call query plan} : s.calls call = some (.preparing query plan) →
      s.cache.isPrepared lib query = false →
      Step s (.checkPrepared call) (s.setCall call (some (.missed query plan)))
  | refreshPrepared {s call query} : s.calls call = some (.found query) →
      Step s (.refreshPrepared call)
        ((s.setCache (s.cache.refresh lib s.clock query)).setCall call none)
  | stampPrepared {s call query plan} : s.calls call = some (.missed query plan) →
      Step s (.stampPrepared call) (s.setCall call (some (.stamped query plan s.clock)))
  | insertPrepared {s call query plan now oldest} : s.calls call = some (.stamped query plan now) →
      s.cache.IsOldest oldest →
      Step s (.insertPrepared call oldest)
        ((s.setCache (s.cache.insert config lib query plan now oldest)).setCall call none)
  | get {s id} : Step s (.get id) s
  | executePrepared {s id params answer cache} :
      s.cache.executePrepared config s.clock id params = some (answer, cache) →
      Step s (.executePrepared id params) (s.setCache cache)
  | executePanics {s id params} : s.cache.executePrepared config s.clock id params = none →
      Step s (.executePrepared id params) s
  | cachePlan {s id plan} : Step s (.cachePlan id plan) (s.setCache (s.cache.cachePlan id plan))
  | invalidate {s id} : Step s (.invalidate id) (s.setCache (s.cache.invalidate lib id).2)
  | invalidateAll {s} : Step s .invalidateAll (s.setCache s.cache.invalidateAll)
  | lookupByQuery {s query} : Step s (.lookupByQuery query) s
  | callEvictExpired {s call ttl} : s.calls call = none → config.ttl = some ttl →
      Step s (.callEvictExpired call) (s.setCall call (some (.evicting s.clock ttl)))
  | callEvictPanics {s call} : s.calls call = none → config.ttl = none →
      Step s (.callEvictExpired call) s
  | evictExpired {s call now ttl} : s.calls call = some (.evicting now ttl) →
      Step s (.evictExpired call)
        ((s.setCache (s.cache.evictExpired lib now ttl).2).setCall call none)
  | evictLru {s oldest} : s.cache.IsOldest oldest →
      Step s (.evictLru oldest) (s.setCache (s.cache.evictLru config lib oldest))

end Steps

end NextgenDatabases.Planner
