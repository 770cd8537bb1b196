import NextgenDatabases.Storage.Namespaces
import NextgenDatabases.Foundations.WriteThrough
import NextgenDatabases.Foundations.Edits
import NextgenDatabases.Foundations.Runs
import NextgenDatabases.Foundations.Traverse
import NextgenDatabases.Verisim.Data

/-!
# Stores in redb with a cache

The tensor, spatial and vector stores put into redb first and into their cache then. When a store
is opened, its cache is what redb has.
-/
namespace NextgenDatabases.Storage

open Foundations

/-- `serde_json::to_vec` and `serde_json::from_slice`. Without `float_roundtrip` a float may come back
with another last digit, so a run says of each value that is put that it is read back as it is. -/
structure Serde (V W : Type) where
  toVec : V → W
  fromSlice : W → Option V

/-- A kind of store: its namespace, the check before a put and the one when a value is loaded. -/
structure Kind (P V : Type) where
  ns : Str
  accepts : P → V → Bool
  keeps : P → V → Bool
  keeps_of_accepts : ∀ p v, accepts p v = true → keeps p v = true

def scanLimit : ℕ := 1000000

variable {P V W : Type}

/-- One value of the scan, or the key at which it fails. -/
def readEntry (serde : Serde V W) (a : Str × W) : Except Str (Str × V) :=
  match serde.fromSlice a.2 with
  | some v => .ok (a.1, v)
  | none => .error a.1

/-- `open`: the cache, or the key of a value that cannot be read. -/
def openStore (kind : Kind P V) (serde : Serde V W) (p : P) (data : SortedMap Str W) :
    Except Str (Str → Option V) :=
  match TypedStore.scanPrefix (.verbatim W) .redb data kind.ns [] scanLimit with
  | .entries raw =>
    (raw.mapM (readEntry serde)).map fun entries =>
      putAll (fun _ => none) (entries.filter fun a => kind.keeps p a.2)
  | .serializationError key => .error key
  | _ => .error []

structure CachedStore (P V W : Type) where
  settings : P
  data : SortedMap Str W
  cache : Str → Option V
  /-- The puts and deletes that redb has and the cache does not have yet. -/
  calls : ℕ → Option (Str × Option V)

inductive CachedStore.Event (P V : Type)
  /-- The check and the put into redb, which may fail. -/
  | put (id : ℕ) (key : Str) (value : V) (ok : Bool)
  | delete (id : ℕ) (key : Str) (ok : Bool)
  /-- The call that has changed redb changes the cache and returns. -/
  | finish (id : ℕ)
  /-- The process stops and the store is opened again. -/
  | reopen (settings : P)

namespace CachedStore

/-- A store opened on a new file. -/
def new (p : P) : CachedStore P V W where
  settings := p
  data := .empty
  cache _ := none
  calls _ := none

def step (kind : Kind P V) (serde : Serde V W) (s : CachedStore P V W) :
    Event P V → Option (CachedStore P V W)
  | .put id key value ok =>
    if (s.calls id).isSome then none
    -- an error is returned from the check or from redb
    else if !kind.accepts s.settings value || !ok then some s
    else some { s with
      data := TypedStore.put (.verbatim W) s.data kind.ns key (serde.toVec value)
      calls := Function.update s.calls id (some (key, some value)) }
  | .delete id key ok =>
    if (s.calls id).isSome then none
    else if !ok then some s
    else some { s with
      data := (TypedStore.delete s.data kind.ns key).2
      calls := Function.update s.calls id (some (key, none)) }
  | .finish id =>
    match s.calls id with
    | some (key, value) => some { s with
        cache := Function.update s.cache key value
        calls := Function.update s.calls id none }
    | none => none
  | .reopen p =>
    match openStore kind serde p s.data with
    | .ok cache => some ⟨p, s.data, cache, fun _ => none⟩
    | .error _ => none

end CachedStore

/-! ### The three stores -/

structure Tensor where
  id : Str
  shape : List ℕ
  data : List Verisim.F64
  deriving DecidableEq

/-- `RedbTensorStore`; tensors are put under their id. -/
def redbTensorStore : Kind Unit Tensor where
  ns := ['t', 'e', 'n', 's', 'o', 'r']
  accepts _ _ := true
  keeps _ _ := true
  keeps_of_accepts _ _ _ := rfl

/-- `RedbSpatialStore`: no coordinates out of range are indexed. -/
def redbSpatialStore : Kind Unit Verisim.OctadSpatialInput where
  ns := ['s', 'p', 'a', 't', 'i', 'a', 'l']
  accepts _ data := data.latitude.inRange (-90) 90 && data.longitude.inRange (-180) 180
  keeps _ _ := true
  keeps_of_accepts _ _ _ := rfl

structure Embedding where
  id : Str
  vector : List Verisim.F64
  deriving DecidableEq

/-- `RedbVectorStore`, opened for a dimension; embeddings are put under their id. -/
def redbVectorStore : Kind ℕ Embedding where
  ns := ['v', 'e', 'c']
  accepts dimension embedding := embedding.vector.length = dimension
  keeps dimension embedding := embedding.vector.length = dimension
  keeps_of_accepts _ _ h := h

end NextgenDatabases.Storage
