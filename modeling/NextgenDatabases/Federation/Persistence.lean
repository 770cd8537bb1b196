import NextgenDatabases.Federation.Registry
import NextgenDatabases.Foundations.Calendar

/-!
# Persistence of the registry

The JSON form of the registry. A registry is read back as it was written when its dates are valid.
-/
namespace NextgenDatabases.Federation

open Foundations (Dict Json toFloat toInt)
open Foundations.Calendar (isoText parseIso parseIso_isoText)
open Foundations.Json (decodeArray decodeObject decodeString stringAt numberAt objectAt)

/-- How a text that `toISOString` does not give is read as a date, and the current date. -/
structure Dates where
  other : String → Date
  now : Date

def toISOString (t : Time) : String := String.ofList (isoText t.ms)

def fromTime (ms : ℤ) : Date := if h : |ms| ≤ 8640000000000000 then some ⟨ms, h⟩ else none

def Dates.fromString (dates : Dates) (s : String) : Date :=
  match parseIso s.toList with
  | some ms => fromTime ms
  | none => dates.other s

def modalityToString : ModalityType → String
  | .graph => "graph"
  | .vector => "vector"
  | .tensor => "tensor"
  | .semantic => "semantic"
  | .document => "document"
  | .temporal => "temporal"
  | .provenance => "provenance"
  | .spatial => "spatial"

def modalityFromString : String → Option ModalityType
  | "graph" => some .graph
  | "vector" => some .vector
  | "tensor" => some .tensor
  | "semantic" => some .semantic
  | "document" => some .document
  | "temporal" => some .temporal
  | "provenance" => some .provenance
  | "spatial" => some .spatial
  | _ => none

def consistencyModeToString : ConsistencyMode → String
  | .strong => "strong"
  | .eventual => "eventual"
  | .quorum => "quorum"

def consistencyModeFromString : Option String → ConsistencyMode
  | some "strong" => .strong
  | some "eventual" => .eventual
  | _ => .quorum

def int (i : Int32) : Json := .number (toFloat i)

/-- `none` stands for the exception that an invalid date raises. -/
def dateToJson (date : Date) : Option Json := date.map fun t => .string (toISOString t)

def serializeStoreLocation (store : StoreLocation) : Option Json := do
  let lastSeen ← dateToJson store.lastSeen
  return .ofDict (.fromArray
    [("storeId", .string store.storeId), ("endpoint", .string store.endpoint),
      ("modalities", .array (store.modalities.map fun m => .string (modalityToString m))),
      ("trustLevel", .number store.trustLevel), ("lastSeen", lastSeen),
      ("responseTimeMs", (store.responseTimeMs.map int).getD .null)])

def serializeMapping (mapping : HexadMapping) : Option Json := do
  let locsJson ← mapping.locations.traverse fun _ => serializeStoreLocation
  let created ← dateToJson mapping.created
  let modified ← dateToJson mapping.modified
  return .ofDict (.fromArray
    [("hexadId", .string mapping.hexadId), ("locations", .ofDict locsJson),
      ("primaryStore", (mapping.primaryStore.map Json.string).getD .null), ("created", created),
      ("modified", modified)])

def serializeConfig (config : RegistryConfig) : Json :=
  .ofDict (.fromArray
    [("minTrustLevel", .number config.minTrustLevel),
      ("maxStoreDowntimeMs", int config.maxStoreDowntimeMs),
      ("replicationFactor", int config.replicationFactor),
      ("consistencyMode", .string (consistencyModeToString config.consistencyMode))])

def serializeRegistry (registry : RegistryState) : Option Json := do
  let storesJson ← registry.stores.traverse fun _ => serializeStoreLocation
  let mappingsJson ← registry.mappings.traverse fun _ => serializeMapping
  return .ofDict (.fromArray
    [("stores", .ofDict storesJson), ("mappings", .ofDict mappingsJson),
      ("config", serializeConfig registry.config)])

section deserialize

variable (dates : Dates)

/-- A date that is missing is the current one. -/
def dateAt (obj : Dict Json) (key : String) : Date :=
  match stringAt obj key with
  | some s => dates.fromString s
  | none => dates.now

def deserializeStoreLocation (json : Json) : Option StoreLocation := do
  let obj ← json.decodeObject
  let storeId ← stringAt obj "storeId"
  let endpoint ← stringAt obj "endpoint"
  let items := (obj.get "modalities" >>= decodeArray).getD []
  return {
    storeId
    endpoint
    modalities := items.filterMap fun item => decodeString item >>= modalityFromString
    trustLevel := (numberAt obj "trustLevel").getD 1
    lastSeen := dateAt dates obj "lastSeen"
    responseTimeMs := (numberAt obj "responseTimeMs").map toInt }

def deserializeMapping (id : String) (mapJson : Json) : Option HexadMapping := do
  let mapObj ← mapJson.decodeObject
  return {
    hexadId := (stringAt mapObj "hexadId").getD id
    locations := ((objectAt mapObj "locations").map
      (Dict.filterMap fun _ => deserializeStoreLocation dates)).getD .empty
    primaryStore := stringAt mapObj "primaryStore"
    created := dateAt dates mapObj "created"
    modified := dateAt dates mapObj "modified" }

def deserializeConfig (obj : Dict Json) : RegistryConfig where
  minTrustLevel := (numberAt obj "minTrustLevel").getD (1 / 2)
  maxStoreDowntimeMs := ((numberAt obj "maxStoreDowntimeMs").map toInt).getD 300000
  replicationFactor := ((numberAt obj "replicationFactor").map toInt).getD 3
  consistencyMode := consistencyModeFromString (stringAt obj "consistencyMode")

def deserializeRegistry (json : Json) : Option RegistryState := do
  let root ← json.decodeObject
  return {
    mappings := ((objectAt root "mappings").map
      (Dict.filterMap (deserializeMapping dates))).getD .empty
    stores := ((objectAt root "stores").map
      (Dict.filterMap fun _ => deserializeStoreLocation dates)).getD .empty
    config := ((objectAt root "config").map deserializeConfig).getD defaultConfig }

end deserialize

/-! ### What is read back -/

section read

variable {dates : Dates}

-- Members of objects are looked up in the lists that the serializers write.
attribute [local simp] stringAt numberAt objectAt dateAt Dict.get_fromArray List.lookup

@[simp] theorem modalityFromString_modalityToString (m : ModalityType) :
    modalityFromString (modalityToString m) = some m := by
  cases m <;> rfl

@[simp] theorem consistencyModeFromString_toString (mode : ConsistencyMode) :
    consistencyModeFromString (some (consistencyModeToString mode)) = mode := by
  cases mode <;> rfl

@[simp] theorem toInt_int (i : Int32) : (int i).decodeNumber = some (toFloat i) := rfl

theorem fromTime_ms (t : Time) : fromTime t.ms = some t := by
  rw [fromTime, dif_pos t.bound]

theorem fromString_toISOString (t : Time) : dates.fromString (toISOString t) = some t := by
  have hparse : parseIso (toISOString t).toList = some t.ms := by
    rw [toISOString, String.toList_ofList, parseIso_isoText t.bound]
  unfold Dates.fromString
  simp only [hparse, fromTime_ms]

theorem exists_dateToJson (dates : Dates) {date : Date} (h : date ≠ none) :
    ∃ s, dateToJson date = some (.string s) ∧ dates.fromString s = date := by
  obtain ⟨t, rfl⟩ := Option.ne_none_iff_exists'.mp h
  exact ⟨toISOString t, rfl, fromString_toISOString t⟩

theorem storeLocation_round_trip {store : StoreLocation} (h : store.lastSeen ≠ none) :
    ∃ json, serializeStoreLocation store = some json ∧
      deserializeStoreLocation dates json = some store := by
  obtain ⟨s, hs, hdate⟩ := exists_dateToJson dates h
  refine ⟨_, by rw [serializeStoreLocation, hs]; rfl, ?_⟩
  have hresponse : ((((store.responseTimeMs.map int).getD .null).decodeNumber).map toInt) =
      store.responseTimeMs := by
    cases store.responseTimeMs with
    | none => rfl
    | some ms => simp
  simp [deserializeStoreLocation, List.filterMap_map, Function.comp_def, hdate, hresponse]

/-- The dates of a mapping and of its locations are valid. -/
structure HexadMapping.Dated (mapping : HexadMapping) : Prop where
  locations : ∀ e ∈ mapping.locations.entries, e.2.lastSeen ≠ none
  created : mapping.created ≠ none
  modified : mapping.modified ≠ none

theorem mapping_round_trip {mapping : HexadMapping} (id : String) (h : mapping.Dated) :
    ∃ json, serializeMapping mapping = some json ∧
      deserializeMapping dates id json = some mapping := by
  obtain ⟨locsJson, hlocs, hback⟩ := Dict.exists_traverse
    (f := fun _ => serializeStoreLocation) (g := fun _ => deserializeStoreLocation dates)
    fun e he => storeLocation_round_trip (h.locations e he)
  obtain ⟨created, hcreated, hcreated'⟩ := exists_dateToJson dates h.created
  obtain ⟨modified, hmodified, hmodified'⟩ := exists_dateToJson dates h.modified
  refine ⟨_, by rw [serializeMapping, hlocs, hcreated, hmodified]; rfl, ?_⟩
  have hprimary : ((mapping.primaryStore.map Json.string).getD .null).decodeString =
      mapping.primaryStore := by
    cases mapping.primaryStore <;> rfl
  simp [deserializeMapping, hback, hcreated', hmodified', hprimary]

theorem config_round_trip (config : RegistryConfig) :
    ((serializeConfig config).decodeObject).map deserializeConfig = some config := by
  simp [serializeConfig, deserializeConfig]

/-- All dates of a registry are valid. -/
structure RegistryState.Dated (registry : RegistryState) : Prop where
  stores : ∀ e ∈ registry.stores.entries, e.2.lastSeen ≠ none
  mappings : ∀ e ∈ registry.mappings.entries, e.2.Dated

theorem registry_round_trip {registry : RegistryState} (h : registry.Dated) :
    ∃ json, serializeRegistry registry = some json ∧
      deserializeRegistry dates json = some registry := by
  obtain ⟨storesJson, hstores, hstores'⟩ := Dict.exists_traverse
    (f := fun _ => serializeStoreLocation) (g := fun _ => deserializeStoreLocation dates)
    fun e he => storeLocation_round_trip (h.stores e he)
  obtain ⟨mappingsJson, hmappings, hmappings'⟩ := Dict.exists_traverse
    (f := fun _ => serializeMapping) (g := deserializeMapping dates)
    fun e he => mapping_round_trip e.1 (h.mappings e he)
  refine ⟨_, by rw [serializeRegistry, hstores, hmappings]; rfl, ?_⟩
  have hconfig := config_round_trip registry.config
  simp [deserializeRegistry, hstores', hmappings', hconfig]

/-- A store that has not responded yet. -/
def newStore : StoreLocation where
  storeId := "store-1"
  endpoint := "http://store-1"
  modalities := [.graph, .vector]
  trustLevel := 1
  lastSeen := some ⟨0, by decide⟩
  responseTimeMs := none

def usedStore : StoreLocation where
  storeId := "store-2"
  endpoint := "http://store-2"
  modalities := [.document]
  trustLevel := 3 / 4
  lastSeen := some ⟨951782400000, by decide⟩
  responseTimeMs := some 12

def mappedHexad : HexadMapping where
  hexadId := "hexad-1"
  locations := .fromArray [("graph", newStore), ("document", usedStore)]
  primaryStore := some "store-2"
  created := some ⟨-1, by decide⟩
  modified := some ⟨951782400000, by decide⟩

/-- Two stores and an octad that is kept by both. -/
def usedRegistry : RegistryState where
  mappings := .fromArray [("hexad-1", mappedHexad)]
  stores := .fromArray [("store-1", newStore), ("store-2", usedStore)]
  config := defaultConfig

theorem registry_round_trip_used :
    usedRegistry.Dated ∧ ∃ json, serializeRegistry usedRegistry = some json ∧
      deserializeRegistry ⟨fun _ => none, none⟩ json = some usedRegistry := by
  have hdated : usedRegistry.Dated := by
    constructor
    · intro e he
      have hentries : usedRegistry.stores.entries =
          [("store-1", newStore), ("store-2", usedStore)] := rfl
      rw [hentries] at he
      rcases List.mem_pair.mp he with rfl | rfl
      · exact Option.some_ne_none _
      · exact Option.some_ne_none _
    · intro e he
      have hentries : usedRegistry.mappings.entries = [("hexad-1", mappedHexad)] := rfl
      rw [hentries, List.mem_singleton] at he
      subst he
      refine ⟨fun f hf => ?_, Option.some_ne_none _, Option.some_ne_none _⟩
      have hlocations : mappedHexad.locations.entries =
          [("graph", newStore), ("document", usedStore)] := rfl
      rw [hlocations] at hf
      rcases List.mem_pair.mp hf with rfl | rfl
      · exact Option.some_ne_none _
      · exact Option.some_ne_none _
  exact ⟨hdated, registry_round_trip hdated⟩

end read

end NextgenDatabases.Federation
