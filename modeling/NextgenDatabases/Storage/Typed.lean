import NextgenDatabases.Foundations.SortedMaps
import Mathlib.Data.Char

/-!
# Typed stores

Key-value backends in memory and in redb, and the typed stores that share one of them under keys
that start with the store's namespace. Values are written by a codec that loses nothing, as
`serde_json` does but for the last digits of floats.
-/
namespace NextgenDatabases.Storage

open Foundations

/-- A string. Its UTF-8 bytes are ordered as its characters are, and start with the bytes of
another string when it starts with that string. -/
abbrev Str : Type := List Char

/-! ### Backends -/

inductive Backend
  | inMemory
  | redb

namespace Backend

variable {W : Type}

/-- The loop of the scan in redb. -/
def scanEntries (p : Str) (limit : ℕ) : List (Str × W) → List (Str × W) → List (Str × W)
  | [], results => results
  | (k, v) :: iter, results =>
    if ¬ p.isPrefixOf k then results
    else if limit ≤ (results ++ [(k, v)]).length then results ++ [(k, v)]
    else scanEntries p limit iter (results ++ [(k, v)])

def scanPrefix (b : Backend) (data : SortedMap Str W) (p : Str) (limit : ℕ) : List (Str × W) :=
  match b with
  | .inMemory => ((data.range p).takeWhile fun a => p.isPrefixOf a.1).take limit
  | .redb => scanEntries p limit (data.range p) []

end Backend

/-! ### Typed stores over a backend -/

/-- The call of the store with this namespace. -/
inductive Call (V : Type)
  | put (ns key : Str) (value : V)
  | get (ns key : Str)
  | delete (ns key : Str)
  | scanPrefix (ns keyPrefix : Str) (limit : ℕ)

inductive Answer (V : Type)
  | done
  | value (value : Option V)
  | deleted (existed : Bool)
  | entries (results : List (Str × V))
  | serializationError (key : Str)
  deriving DecidableEq

namespace TypedStore

variable {V W : Type} (codec : Codec V W)

def prefixedKey (ns key : Str) : Str := ns ++ ':' :: key

def prefixBytes (ns : Str) : Str := ns ++ [':']

def logicalKey (ns rawKey : Str) : Str :=
  if (prefixBytes ns).length ≤ rawKey.length then rawKey.drop (prefixBytes ns).length else rawKey

def get (data : SortedMap Str W) (ns key : Str) : Answer V :=
  match data.get (prefixedKey ns key) with
  | some bytes =>
    match codec.deserialise bytes with
    | some v => .value (some v)
    | none => .serializationError key
  | none => .value none

def put (data : SortedMap Str W) (ns key : Str) (value : V) : SortedMap Str W :=
  data.insert (prefixedKey ns key) (codec.serialise value)

def delete (data : SortedMap Str W) (ns key : Str) : Bool × SortedMap Str W :=
  ((data.get (prefixedKey ns key)).isSome, data.remove (prefixedKey ns key))

/-- The entries that were scanned, or the key of the first whose value cannot be read. -/
def typedEntries (ns : Str) : List (Str × W) → Except Str (List (Str × V))
  | [] => .ok []
  | (rawKey, rawValue) :: raw =>
    match codec.deserialise rawValue with
    | some v => (typedEntries ns raw).map ((logicalKey ns rawKey, v) :: ·)
    | none => .error (logicalKey ns rawKey)

def scanPrefix (b : Backend) (data : SortedMap Str W) (ns keyPrefix : Str) (limit : ℕ) : Answer V :=
  match typedEntries codec ns (b.scanPrefix data (prefixedKey ns keyPrefix) limit) with
  | .ok results => .entries results
  | .error key => .serializationError key

end TypedStore

variable {V W : Type}

/-- The answer to a call and what the shared backend holds after it. -/
def step (b : Backend) (codec : Codec V W) (data : SortedMap Str W) :
    Call V → Answer V × SortedMap Str W
  | .put ns key value => (.done, TypedStore.put codec data ns key value)
  | .get ns key => (TypedStore.get codec data ns key, data)
  | .delete ns key =>
    (.deleted (TypedStore.delete data ns key).1, (TypedStore.delete data ns key).2)
  | .scanPrefix ns keyPrefix limit => (TypedStore.scanPrefix codec b data ns keyPrefix limit, data)

/-! ### Stores of their own -/

/-- A sorted map for each namespace. -/
abbrev Own (V : Type) : Type := Str → SortedMap Str V

def ownScan (own : Own V) (ns keyPrefix : Str) : List (Str × V) :=
  (own ns).entries.filter fun a => keyPrefix.isPrefixOf a.1

def ownStep (own : Own V) : Call V → Answer V × Own V
  | .put ns key value => (.done, Function.update own ns ((own ns).insert key value))
  | .get ns key => (.value ((own ns).get key), own)
  | .delete ns key =>
    (.deleted ((own ns).get key).isSome, Function.update own ns ((own ns).remove key))
  | .scanPrefix ns keyPrefix limit => (.entries ((ownScan own ns keyPrefix).take limit), own)

def answers {S : Type} (step : S → Call V → Answer V × S) (s : S) : List (Call V) → List (Answer V)
  | [] => []
  | c :: calls => (step s c).1 :: answers step (step s c).2 calls

/-! ### Calls that keep to their own keys -/

/-- A store of another namespace has an entry under this key of the backend. -/
def HeldElsewhere (own : Own V) (ns fullKey : Str) : Prop :=
  ∃ ns' k, ns' ≠ ns ∧ ((own ns').get k).isSome ∧ TypedStore.prefixedKey ns' k = fullKey

/-- A put overwrites no entry of another store. -/
def PutApart (own : Own V) : Call V → Prop
  | .put ns key _ => ¬ HeldElsewhere own ns (TypedStore.prefixedKey ns key)
  | _ => True

/-- A get or delete names no entry of another store. A scan has none among the entries it may
return, and one in redb with limit 0 has no entry to return at all. -/
def ReadApart (b : Backend) (own : Own V) : Call V → Prop
  | .put _ _ _ => True
  | .get ns key => ¬ HeldElsewhere own ns (TypedStore.prefixedKey ns key)
  | .delete ns key => ¬ HeldElsewhere own ns (TypedStore.prefixedKey ns key)
  | .scanPrefix ns keyPrefix limit =>
    (∀ fullKey, HeldElsewhere own ns fullKey → TypedStore.prefixedKey ns keyPrefix <+: fullKey →
      limit ≤ (ownScan own ns keyPrefix).countP (TypedStore.prefixedKey ns ·.1 < fullKey)) ∧
    (b = .redb → limit = 0 → ownScan own ns keyPrefix = [] ∧
      ∀ fullKey, HeldElsewhere own ns fullKey → ¬ TypedStore.prefixedKey ns keyPrefix <+: fullKey)

/-- Each call of a run meets a condition on the stores before it. -/
def Throughout (P : Own V → Call V → Prop) (own : Own V) : List (Call V) → Prop
  | [] => True
  | c :: calls => P own c ∧ Throughout P (ownStep own c).2 calls

end NextgenDatabases.Storage
