import NextgenDatabases.Verisim.World

/-!
# Create, update and delete

The calls of an octad store as programs over its operations. What the environment
decides during a call (identifiers, clock readings, failures of the stores and of the
log) is a parameter of the call; serialization and case folding are those of the runtime.
-/
namespace NextgenDatabases.Verisim

open Wal (DateTime WalEntry WalOperation WalModality WalWriter)
open Foundations (Bytes Prog)
open Foundations.Prog (perform)

/-- The library functions that a call uses. -/
structure Runtime where
  /-- `serde_json::to_vec` -/
  toVec : OctadInput → Option Bytes
  /-- `serde_json::from_slice` -/
  fromSlice : Bytes → Option OctadInput
  /-- `str::to_lowercase` -/
  toLowercase : String → String

/-- What a reading of the clock stamps. -/
inductive Reading
  | call | intent | begin | undo (modality : Modality) | annotated | event | snapshot
  | version | finish | marker | checkpoint

structure Env where
  uuid : String
  txn : Uuid
  clock : Reading → DateTime
  /-- The failure of the `k`-th write to a modality store. -/
  fault : Modality → ℕ → Option String
  /-- The failure of a deletion from a modality store. -/
  deleteFault : Modality → Option String
  intent : Option WalFault
  marker : Option WalFault
  checkpoint : Option WalFault

/-- The message of a validation error, before it is formatted. -/
inductive Invalid
  | vectorDimension (expected got : ℕ)
  | latitude (value : F64)
  | longitude (value : F64)
  | notANumber
  deriving DecidableEq

inductive OctadError
  | notFound (id : String)
  | modalityError (modality message : String)
  | consistencyViolation (message : String)
  | validationError (reason : Invalid)
  deriving DecidableEq

/-! ### Processing one modality -/

inductive Attempt
  /-- The input is refused. -/
  | refuse (error : OctadError)
  | write (modality : Modality) (op : StoreOp) (fault : Option String)

/-- A process function: its attempts in order, and what it returns from the value of the
last one if they all succeed. -/
structure Process (α : Type) where
  attempts : List Attempt
  result : ℕ → α

namespace Process

def skip : Process (α → α) := ⟨[], fun _ a => a⟩

def map {α β : Type} (f : α → β) (p : Process α) : Process β := ⟨p.attempts, f ∘ p.result⟩

end Process

def trimEndMatches (c : Char) (s : String) : String :=
  String.ofList (s.toList.reverse.dropWhile (· = c)).reverse

def toIri (base id : String) : String := trimEndMatches '/' base ++ "/" ++ id

section process

variable (rt : Runtime) (config : OctadConfig) (env : Env) (id : String)

def processGraph (input : OctadGraphInput) : Process String where
  attempts := input.relationships.zipIdx.map fun r =>
    .write .graph (.graphInsert {
      subject := toIri config.baseIri id
      predicate := config.baseIri ++ "/" ++ r.1.1
      object := config.baseIri ++ "/" ++ r.1.2 }) (env.fault .graph r.2)
  result _ := toIri config.baseIri id

def processVector (input : OctadVectorInput) : Process Embedding where
  attempts :=
    if input.embedding.length ≠ config.vectorDimension then
      [.refuse (.validationError
        (.vectorDimension config.vectorDimension input.embedding.length))]
    else [.write .vector (.vectorUpsert ⟨id, input.embedding⟩) (env.fault .vector 0)]
  result _ := ⟨id, input.embedding⟩

def processDocument (input : OctadDocumentInput) : Process Document :=
  let doc := ⟨id, input.title, input.body, input.fields⟩
  { attempts := [.write .document (.documentIndex doc) (env.fault .document 0),
      .write .document .documentCommit (env.fault .document 1)]
    result := fun _ => doc }

/-- The message of `Tensor::new`; the product of the shape wraps at 64 bits. -/
def tensorMismatch (input : OctadTensorInput) : Option String :=
  let expectedLen := input.shape.prod % 2 ^ 64
  if input.data.length ≠ expectedLen then
    some ("Invalid operation: Data length " ++ toString input.data.length ++
      " doesn't match shape [" ++ ", ".intercalate (input.shape.map toString) ++
      "] (expected " ++ toString expectedLen ++ ")")
  else none

def processTensor (input : OctadTensorInput) : Process Tensor where
  attempts :=
    match tensorMismatch input with
    | some message => [.refuse (.modalityError "tensor" message)]
    | none =>
      [.write .tensor (.tensorPut ⟨id, input.shape, input.data⟩) (env.fault .tensor 0)]
  result _ := ⟨id, input.shape, input.data⟩

def processSemantic (input : OctadSemanticInput) : Process SemanticAnnotation :=
  let annotation := {
    entityId := id
    types := input.types
    properties := input.properties.map fun p =>
      (p.1, ⟨p.2, "https://www.w3.org/2001/XMLSchema#string"⟩)
    createdAt := env.clock .annotated }
  { attempts := [.write .semantic (.semanticAnnotate annotation) (env.fault .semantic 0)]
    result := fun _ => annotation }

def eventType (text : String) : ProvenanceEventType :=
  match rt.toLowercase text with
  | "created" => .created
  | "modified" => .modified
  | "imported" => .imported
  | "normalized" => .normalized
  | "drift_repaired" => .driftRepaired
  | "deleted" => .deleted
  | "merged" => .merged
  | other => .custom other

/-- The length of the chain that is read back. -/
def processProvenance (input : OctadProvenanceInput) : Process ℕ where
  attempts := [
    .write .provenance (.provenanceRecordEvent {
      eventType := eventType rt input.eventType
      actor := input.actor
      timestamp := env.clock .event
      source := input.source
      description := input.description }) (env.fault .provenance 0),
    .write .provenance .provenanceGetChain (env.fault .provenance 1)]
  result length := length

/-- `Coordinates::new` -/
def newCoordinates (latitude longitude : F64) (altitude : Option F64) :
    Except Invalid Coordinates :=
  if ¬ latitude.inRange (-90) 90 then .error (.latitude latitude)
  else if ¬ longitude.inRange (-180) 180 then .error (.longitude longitude)
  else if latitude = .nan ∨ longitude = .nan then .error .notANumber
  else .ok ⟨latitude, longitude, altitude⟩

def geometryType : Option String → GeometryType
  | some "LineString" => .lineString
  | some "Polygon" => .polygon
  | some "MultiPoint" => .multiPoint
  | some "MultiPolygon" => .multiPolygon
  | _ => .point

def spatialDataOf (input : OctadSpatialInput) (coordinates : Coordinates) : SpatialData where
  coordinates := coordinates
  geometryType := geometryType input.geometryType
  srid := input.srid.getD 4326
  properties := input.properties

def processSpatial (input : OctadSpatialInput) : Process (Option SpatialData) :=
  match newCoordinates input.latitude input.longitude input.altitude with
  | .error reason => ⟨[.refuse (.validationError reason)], fun _ => none⟩
  | .ok coordinates =>
    let data := spatialDataOf input coordinates
    ⟨[.write .spatial (.spatialIndex data) (env.fault .spatial 0)], fun _ => some data⟩

end process

/-- What the processed modalities contribute to the octad that a call returns. -/
structure Parts where
  graphNode : Option String := none
  embedding : Option Embedding := none
  document : Option Document := none
  tensor : Option Tensor := none
  semantic : Option SemanticAnnotation := none
  provenanceChainLength : ℕ := 0
  spatialData : Option SpatialData := none

section programs

variable (rt : Runtime) (config : OctadConfig) (env : Env)

/-- The process function of a modality that the input supplies. -/
def process (id : String) (input : OctadInput) : Modality → Process (Parts → Parts)
  | .graph => input.graph.elim .skip fun i =>
    (processGraph config env id i).map fun node parts => { parts with graphNode := some node }
  | .vector => input.vector.elim .skip fun i =>
    (processVector config env id i).map fun e parts => { parts with embedding := some e }
  | .document => input.document.elim .skip fun i =>
    (processDocument env id i).map fun doc parts => { parts with document := some doc }
  | .tensor => input.tensor.elim .skip fun i =>
    (processTensor env id i).map fun t parts => { parts with tensor := some t }
  | .semantic => input.semantic.elim .skip fun i =>
    (processSemantic env id i).map fun a parts => { parts with semantic := some a }
  | .provenance => input.provenance.elim .skip fun i =>
    (processProvenance rt env i).map fun n parts => { parts with provenanceChainLength := n }
  | .spatial => input.spatial.elim .skip fun i =>
    (processSpatial env i).map fun data parts => { parts with spatialData := data }
  | .temporal => .skip

/-! ### Programs -/

abbrev Call := Prog Op.Res

def readStatus (id : String) : Call (Option OctadStatus) := perform (Op.status id)

def insertStatus (id : String) (status : OctadStatus) : Call Unit :=
  perform (Op.insertStatus id status)

def removeStatus (id : String) : Call Unit := perform (Op.removeStatus id)

def walAppend (entry : WalEntry) (fault : Option WalFault) : Call (Except String Unit) :=
  perform (Op.walAppend entry fault)

def beginTxn (txn : Uuid) (level : IsolationLevel) (now : DateTime) : Call Unit :=
  perform (Op.begin txn level now)

def acquireLock (txn : Uuid) (id modality : String) (lockType : LockType) :
    Call (Except TransactionError Unit) := perform (Op.acquireLock txn id modality lockType)

def recordUndo (txn : Uuid) (id modality : String) (previousVersion : ℕ) (now : DateTime) :
    Call (Except TransactionError Unit) :=
  perform (Op.recordUndo txn id modality previousVersion now)

def commitTxn (txn : Uuid) (now : DateTime) : Call (Except TransactionError Unit) :=
  perform (Op.commit txn now)

def rollbackTxn (txn : Uuid) (now : DateTime) :
    Call (Except TransactionError (List UndoEntry)) := perform (Op.rollback txn now)

def onStore (id : String) (op : StoreOp) (fault : Option String) : Call (Except String ℕ) :=
  perform (Op.store id op fault)

/-- Make the attempts in order, up to the first that fails. -/
def attempt (id : String) : List Attempt → ℕ → Call (Except OctadError ℕ)
  | [], value => pure (.ok value)
  | .refuse error :: _, _ => pure (.error error)
  | .write modality op fault :: rest, _ => do
    match ← onStore id op fault with
    | .error message => pure (.error (.modalityError modality.name message))
    | .ok value => attempt id rest value

/-- Acquire exclusive locks on the modalities, or roll back. -/
def acquireAll (id suffix : String) : List Modality → Call (Except OctadError Unit)
  | [] => pure (.ok ())
  | modality :: rest => do
    match ← acquireLock env.txn id modality.name .exclusive with
    | .error e => do
      let _ ← rollbackTxn env.txn (env.clock .finish)
      pure (.error (.consistencyViolation
        ("Failed to acquire lock on " ++ modality.name ++ suffix ++ ": " ++ e.text)))
    | .ok () => acquireAll id suffix rest

/-- Delete what was written, ignoring a failure. -/
def deleteWritten (id : String) (op : StoreOp) (fault : Option String) (written : Bool) :
    Call Unit :=
  if written then do
    let _ ← onStore id op fault
    pure ()
  else pure ()

/-- `rollback_create`, on the modalities that are marked as written. -/
def rollbackCreate (id : String) (written : ModalityStatus) : Call Unit := do
  deleteWritten id .vectorDelete (env.deleteFault .vector) written.vector
  deleteWritten id .documentDelete (env.deleteFault .document) written.document
  deleteWritten id .tensorDelete (env.deleteFault .tensor) written.tensor

/-- In what create and update differ. -/
structure Write where
  operation : WalOperation
  id : String
  /-- The flags before the call. -/
  status : ModalityStatus
  /-- The version that undo entries record. -/
  previousVersion : ℕ
  /-- What is done about the written modalities after a failure. -/
  compensate : ModalityStatus → Call Unit
  message : String
  /-- The flags after the snapshot, from those before. -/
  finish : ModalityStatus → ModalityStatus
  createdAt : DateTime
  /-- The observation time before the call. -/
  observedAt : Option DateTime
  versionCount : ℕ → ℕ

/-- Write the modalities in order. A failure undoes what the call undoes and ends the
transaction. -/
def writeModalities (w : Write) (input : OctadInput) :
    List Modality → Parts → ModalityStatus → Call (Except OctadError (Parts × ModalityStatus))
  | [], parts, status => pure (.ok (parts, status))
  | modality :: rest, parts, status => do
    let p := process rt config env w.id input modality
    match ← attempt w.id p.attempts 0 with
    | .error e => do
      w.compensate status
      let _ ← rollbackTxn env.txn (env.clock .finish)
      pure (.error e)
    | .ok value => do
      let _ ← recordUndo env.txn w.id modality.name w.previousVersion
        (env.clock (.undo modality))
      writeModalities w input rest (p.result value parts) (status.mark modality)

/-- The intent of a call in the log. -/
def intentEntry (operation : WalOperation) (id : String) (payload : Bytes) : WalEntry where
  sequence := 0
  timestamp := env.clock .intent
  operation := operation
  modality := .all
  entityId := id
  payload := payload

def committedPayload : Bytes := Wal.asBytes "COMMITTED"

/-- The marker that a call leaves in the log when it is complete. -/
def markerEntry (id : String) : WalEntry where
  sequence := 0
  timestamp := env.clock .marker
  operation := .checkpoint
  modality := .all
  entityId := id
  payload := committedPayload

/-- The payload of an intent that carries an input. -/
def inputPayload (input : OctadInput) : Bytes := (rt.toVec input).getD []

/-- `wal_append` of the intent. -/
def appendIntent (operation : WalOperation) (id : String) (payload : Bytes) :
    Call (Except OctadError Unit) := do
  match ← walAppend (intentEntry env operation id payload) env.intent with
  | .error message => pure (.error (.modalityError "wal" ("WAL append failed: " ++ message)))
  | .ok () => pure (.ok ())

/-- The marker and the checkpoint behind it, whose failures are ignored. -/
def appendMarker (id : String) : Call Unit := do
  let _ ← walAppend (markerEntry env id) env.marker
  let _ ← walAppend (WalWriter.checkpointEntry (env.clock .checkpoint)) env.checkpoint

def createSnapshot (id : String) (input : OctadInput) (status : ModalityStatus) :
    OctadSnapshot where
  id := id
  input := input
  modalityStatus := status
  timestamp := env.clock .snapshot

/-- The status that a call registers. -/
def Write.registered (w : Write) (input : OctadInput) (version : ℕ) (status : ModalityStatus) :
    OctadStatus where
  id := w.id
  createdAt := w.createdAt
  modifiedAt := env.clock .call
  observedAt := input.observedAt.or w.observedAt
  version := version
  modalityStatus := status

/-- What create and update have in common. -/
def writeOctad (w : Write) (input : OctadInput) : Call (Except OctadError Octad) := do
  match ← appendIntent env w.operation w.id (inputPayload rt input) with
  | .error e => pure (.error e)
  | .ok () => do
  beginTxn env.txn .readCommitted (env.clock .begin)
  match ← acquireAll env w.id "" input.modalityNames with
  | .error e => pure (.error e)
  | .ok () => do
  match ← writeModalities rt config env w input input.supplied {} w.status with
  | .error e => pure (.error e)
  | .ok (parts, written) => do
  let snapshot := createSnapshot env w.id input written
  match ← onStore w.id (.temporalAppend snapshot (env.clock .version) "system"
      (some w.message)) (env.fault .temporal 0) with
  | .error message => do
    w.compensate written
    let _ ← rollbackTxn env.txn (env.clock .finish)
    pure (.error (.modalityError "temporal" message))
  | .ok version => do
  let status := w.finish written
  match ← commitTxn env.txn (env.clock .finish) with
  | .error e => do
    w.compensate status
    pure (.error (.consistencyViolation ("Transaction commit failed: " ++ e.text)))
  | .ok () => do
  let registered := w.registered env input version status
  insertStatus w.id registered
  appendMarker env w.id
  pure (.ok {
    id := w.id
    status := registered
    graphNode := parts.graphNode
    embedding := parts.embedding
    tensor := parts.tensor
    semantic := parts.semantic
    document := parts.document
    versionCount := w.versionCount version
    provenanceChainLength := parts.provenanceChainLength
    spatialData := parts.spatialData })

def createWrite : Write where
  operation := .insert
  id := env.uuid
  status := {}
  previousVersion := 0
  compensate := rollbackCreate env env.uuid
  message := "Initial creation"
  finish status := status.mark .temporal
  createdAt := env.clock .call
  observedAt := none
  versionCount _ := 1

def create (input : OctadInput) : Call (Except OctadError Octad) :=
  writeOctad rt config env (createWrite env) input

def updateWrite (id : String) (existing : OctadStatus) : Write where
  operation := .update
  id := id
  status := existing.modalityStatus
  previousVersion := existing.version
  compensate _ := pure ()
  message := "Update"
  finish status := status
  createdAt := existing.createdAt
  observedAt := existing.observedAt
  versionCount version := version

def update (id : String) (input : OctadInput) : Call (Except OctadError Octad) := do
  match ← readStatus id with
  | none => pure (.error (.notFound id))
  | some existing => writeOctad rt config env (updateWrite id existing) input

/-- The modalities that a delete locks. -/
def populated (status : ModalityStatus) : List Modality :=
  OctadInput.processed.filter status.get ++ [.temporal]

/-- Record an undo entry for every modality. -/
def recordUndos (id : String) (version : ℕ) : List Modality → Call Unit
  | [] => pure ()
  | modality :: rest => do
    let _ ← recordUndo env.txn id modality.name version (env.clock (.undo modality))
    recordUndos id version rest

def delete (id : String) : Call (Except OctadError Unit) := do
  match ← readStatus id with
  | none => pure (.error (.notFound id))
  | some existing => do
  match ← appendIntent env .delete id [] with
  | .error e => pure (.error e)
  | .ok () => do
  beginTxn env.txn .readCommitted (env.clock .begin)
  match ← acquireAll env id " for delete" (populated existing.modalityStatus) with
  | .error e => pure (.error e)
  | .ok () => do
  recordUndos env id existing.version (populated existing.modalityStatus)
  let _ ← onStore id .vectorDelete (env.deleteFault .vector)
  let _ ← onStore id .documentDelete (env.deleteFault .document)
  let _ ← onStore id .tensorDelete (env.deleteFault .tensor)
  match ← commitTxn env.txn (env.clock .finish) with
  | .error e =>
    pure (.error (.consistencyViolation ("Transaction commit failed during delete: " ++ e.text)))
  | .ok () => do
  removeStatus id
  appendMarker env id
  pure (.ok ())

end programs

/-! ### Requests -/

inductive Request
  | create (input : OctadInput)
  | update (id : String) (input : OctadInput)
  | delete (id : String)
  deriving DecidableEq

/-- A request and what the environment does while it is served. -/
structure Job where
  request : Request
  env : Env

/-- The program of a request, returning the octad of a create or an update. -/
def Job.program (rt : Runtime) (config : OctadConfig) (job : Job) :
    Call (Except OctadError (Option Octad)) :=
  match job.request with
  | .create input => do return (← create rt config job.env input).map some
  | .update id input => do return (← update rt config job.env id input).map some
  | .delete id => do return (← delete job.env id).map fun _ => none

/-! ### A sample runtime -/

/-- Serialization by a table of inputs and their texts. -/
def Runtime.table (texts : List (OctadInput × String)) : Runtime where
  toVec input := (texts.lookup input).map Wal.asBytes
  fromSlice bytes := (texts.find? fun entry => Wal.asBytes entry.2 = bytes).map Prod.fst
  toLowercase := String.toLower

def epoch : DateTime := DateTime.unixEpoch

/-- An environment in which nothing fails. -/
def Env.quiet (uuid : String) (txn : Uuid) : Env where
  uuid := uuid
  txn := txn
  clock _ := epoch
  fault _ _ := none
  deleteFault _ := none
  intent := none
  marker := none
  checkpoint := none

def OctadConfig.standard : OctadConfig := ⟨"https://verisim.db/entity", 384⟩

/-- An input with a document. -/
def note : OctadInput := { document := some ⟨"note", "text", []⟩ }

/-- An input with a relationship and a vector of the wrong dimension. -/
def citation : OctadInput := { graph := some ⟨[("cites", "e2")]⟩, vector := some ⟨[], none⟩ }

/-- An input with nothing but a vector of the wrong dimension. -/
def misfit : OctadInput := { vector := some ⟨[], none⟩ }

def Runtime.sample : Runtime := .table [
  (note, "\x7b\"graph\":null,\"vector\":null,\"tensor\":null,\"semantic\":null,\"document\":" ++
    "\x7b\"title\":\"note\",\"body\":\"text\",\"fields\":\x7b\x7d\x7d,\"temporal\":null," ++
    "\"provenance\":null,\"spatial\":null,\"metadata\":\x7b\x7d\x7d"),
  (citation, "\x7b\"graph\":\x7b\"relationships\":[[\"cites\",\"e2\"]]\x7d,\"vector\":" ++
    "\x7b\"embedding\":[],\"model\":null\x7d,\"tensor\":null,\"semantic\":null," ++
    "\"document\":null,\"temporal\":null,\"provenance\":null,\"spatial\":null," ++
    "\"metadata\":\x7b\x7d\x7d"),
  (misfit, "\x7b\"graph\":null,\"vector\":\x7b\"embedding\":[],\"model\":null\x7d," ++
    "\"tensor\":null,\"semantic\":null,\"document\":null,\"temporal\":null," ++
    "\"provenance\":null,\"spatial\":null,\"metadata\":\x7b\x7d\x7d")]

end NextgenDatabases.Verisim
