import NextgenDatabases.Foundations.Json
import NextgenDatabases.Foundations.StableSort

/-!
# The federation registry

The stores of the federation with their trust and response times, the choice of a store for a
modality, and reads from several stores.
-/
namespace NextgenDatabases.Federation

open Foundations (Dict toFloat toInt stableSortBy)

inductive ModalityType
  | graph | vector | tensor | semantic | document | temporal | provenance | spatial
  deriving DecidableEq, Repr

/-- A point in time, in milliseconds. -/
structure Time where
  ms : ℤ
  bound : |ms| ≤ 8640000000000000
  deriving DecidableEq

/-- `Js.Date.t`, where `none` is the invalid date. -/
abbrev Date : Type := Option Time

structure StoreLocation where
  storeId : String
  endpoint : String
  modalities : List ModalityType
  trustLevel : ℚ
  lastSeen : Date
  responseTimeMs : Option Int32
  deriving DecidableEq

structure HexadMapping where
  hexadId : String
  locations : Dict StoreLocation
  primaryStore : Option String
  created : Date
  modified : Date

inductive ConsistencyMode
  | strong | eventual | quorum
  deriving DecidableEq, Repr

structure RegistryConfig where
  minTrustLevel : ℚ
  maxStoreDowntimeMs : Int32
  replicationFactor : Int32
  consistencyMode : ConsistencyMode
  deriving DecidableEq, Repr

structure RegistryState where
  mappings : Dict HexadMapping
  stores : Dict StoreLocation
  config : RegistryConfig

def defaultConfig : RegistryConfig where
  minTrustLevel := 1 / 2
  maxStoreDowntimeMs := 300000
  replicationFactor := 3
  consistencyMode := .quorum

/-! ### The choice of a store -/

def StoreLocation.offers (store : StoreLocation) (modality : ModalityType) : Bool :=
  store.modalities.any (· == modality)

def findStoresByModality (registry : RegistryState) (modality : ModalityType) :
    List StoreLocation :=
  registry.stores.values.filter (·.offers modality)

def responseScore (store : StoreLocation) : ℚ :=
  match store.responseTimeMs with
  | none => 1 / 2
  | some ms => 1 - min (toFloat ms / 1000) 1

def score (store : StoreLocation) : ℚ :=
  store.trustLevel * (7 / 10) + responseScore store * (3 / 10)

/-- Scores in descending order, by whole thousandths. -/
def compareScores (a b : StoreLocation × ℚ) : ℤ := (toInt ((b.2 - a.2) * 1000)).toInt

def selectBestStore (registry : RegistryState) (modality : ModalityType) : Option StoreLocation :=
  let candidates := findStoresByModality registry modality
  if candidates.length = 0 then none
  else
    let scored := candidates.map fun store => (store, score store)
    let sorted := stableSortBy compareScores scored.reverse
    sorted[0]?.map Prod.fst

/-! ### Reads from several stores -/

structure ConsensusResult (α : Type) where
  value : α
  agreement : ℚ
  participants : List String
  deriving DecidableEq

def quorumThreshold (mode : ConsistencyMode) (stores : ℕ) : ℕ :=
  match mode with
  | .strong => stores
  | .quorum => stores / 2 + 1
  | .eventual => 1

/-- `results` are the listed stores with what each has returned, in the order of the list. -/
def achieveConsensus {α : Type} (registry : RegistryState) (results : List (String × Option α)) :
    Option (ConsensusResult α) :=
  let successful := results.filterMap fun r => r.2.map fun val => (r.1, val)
  let totalResponders := successful.length
  match successful with
  | [] => none
  | (_, firstValue) :: _ =>
    if totalResponders ≥ quorumThreshold registry.config.consistencyMode results.length then
      some
        { value := firstValue
          agreement := (totalResponders : ℚ) / results.length
          participants := successful.map Prod.fst }
    else none

end NextgenDatabases.Federation
