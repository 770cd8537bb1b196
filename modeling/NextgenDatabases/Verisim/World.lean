import NextgenDatabases.Foundations.Programs
import NextgenDatabases.Verisim.Transactions
import NextgenDatabases.Wal.Writer

/-!
# The state of an octad store and the operations on it

The registry, the transaction manager, the write-ahead log and the eight stores, and
one operation for each await point of `create`, `update` and `delete`. An operation of a
store or of the log fails when its environment says so; a store operation that fails
leaves the store as it was.

The identifiers of entities are the texts of UUIDs, which the store generates.
-/
namespace NextgenDatabases.Verisim

open Wal (DateTime WalEntry WalOperation WalModality)
open Foundations (Bytes Prog)

/-! ### One entity in the stores -/

structure GraphEdge where
  subject : String
  predicate : String
  object : String
  deriving DecidableEq

/-- What the eight stores hold for one entity. -/
structure Contents where
  /-- The edges that leave the node of the entity. -/
  graph : List GraphEdge := []
  vector : Option Embedding := none
  document : Option Document := none
  /-- The copies of its documents that the full-text index holds, published or to be published by
  the next commit. `delete_term` takes none of them away: it looks for the whole identifier among
  the tokens of the `id` field, and no token has a hyphen. -/
  indexed : List Document := []
  tensor : Option Tensor := none
  semantic : Option SemanticAnnotation := none
  provenance : List ProvenanceRecord := []
  spatial : Option SpatialData := none
  versions : List Version := []
  deriving DecidableEq

/-- The calls that an octad store makes to a modality store. -/
inductive StoreOp
  | graphInsert (edge : GraphEdge)
  | vectorUpsert (embedding : Embedding)
  | vectorDelete
  | documentIndex (doc : Document)
  | documentCommit
  | documentDelete
  | tensorPut (tensor : Tensor)
  | tensorDelete
  | semanticAnnotate ( annotation : SemanticAnnotation)
  | provenanceRecordEvent (record : ProvenanceRecord)
  | provenanceGetChain
  | spatialIndex (data : SpatialData)
  | temporalAppend (data : OctadSnapshot) (timestamp : DateTime) (author : String)
      (message : Option String)
  deriving DecidableEq

namespace StoreOp

def modality : StoreOp → Modality
  | graphInsert _ => .graph
  | vectorUpsert _ | vectorDelete => .vector
  | documentIndex _ | documentCommit | documentDelete => .document
  | tensorPut _ | tensorDelete => .tensor
  | semanticAnnotate _ => .semantic
  | provenanceRecordEvent _ | provenanceGetChain => .provenance
  | spatialIndex _ => .spatial
  | temporalAppend .. => .temporal

def isAppend : StoreOp → Bool
  | temporalAppend .. => true
  | _ => false

def isDelete : StoreOp → Bool
  | vectorDelete | documentDelete | tensorDelete => true
  | _ => false

/-- The calls that add to a history: a document is added to the index, a provenance event, or a
snapshot. -/
def grows : StoreOp → Bool
  | documentIndex _ | provenanceRecordEvent _ | temporalAppend .. => true
  | _ => false

/-- The calls that change nothing: the commit of an index, which publishes what it holds, and a
read. -/
def isRead : StoreOp → Bool
  | documentCommit | provenanceGetChain => true
  | _ => false

end StoreOp

namespace Contents

/-- The version that the next snapshot gets. -/
def nextVersion (c : Contents) : ℕ := (c.versions.getLast?.map fun v => v.version + 1).getD 1

def apply (c : Contents) : StoreOp → Contents
  | .graphInsert edge => if edge ∈ c.graph then c else { c with graph := c.graph ++ [edge] }
  | .vectorUpsert embedding => { c with vector := some embedding }
  | .vectorDelete => { c with vector := none }
  | .documentIndex doc => { c with document := some doc, indexed := c.indexed ++ [doc] }
  | .documentCommit => c
  | .documentDelete => { c with document := none }
  | .tensorPut tensor => { c with tensor := some tensor }
  | .tensorDelete => { c with tensor := none }
  | .semanticAnnotate annotation => { c with semantic := some annotation }
  | .provenanceRecordEvent record => { c with provenance := c.provenance ++ [record] }
  | .provenanceGetChain => c
  | .spatialIndex data => { c with spatial := some data }
  | .temporalAppend data timestamp author message =>
    { c with versions := c.versions ++ [⟨c.nextVersion, timestamp, data, author, message⟩] }

/-- The number that a call returns: a chain length, a version, or zero. -/
def value (c : Contents) : StoreOp → ℕ
  | .provenanceGetChain => c.provenance.length
  | .temporalAppend .. => c.nextVersion
  | _ => 0

end Contents

/-! ### The whole state -/

structure World where
  registry : String → Option OctadStatus
  transactions : TransactionManager
  /-- The entries whose whole frames the log holds; none if the log is disabled. -/
  wal : Option (List WalEntry)
  stores : String → Contents

/-- A fresh store, with or without a log. -/
def World.new (logged : Bool) : World where
  registry _ := none
  transactions := .new
  wal := if logged then some [] else none
  stores _ := {}

/-- How an append to the log fails: before or after its whole frame has reached the file. -/
inductive WalFault
  | lost (message : String)
  | kept (message : String)
  deriving DecidableEq

inductive Op
  | status (id : String)
  | insertStatus (id : String) (status : OctadStatus)
  | removeStatus (id : String)
  | walAppend (entry : WalEntry) (fault : Option WalFault)
  | begin (txn : Uuid) (level : IsolationLevel) (now : DateTime)
  | acquireLock (txn : Uuid) (id modality : String) (lockType : LockType)
  | recordUndo (txn : Uuid) (id modality : String) (previousVersion : ℕ) (now : DateTime)
  | commit (txn : Uuid) (now : DateTime)
  | rollback (txn : Uuid) (now : DateTime)
  | store (id : String) (op : StoreOp) (fault : Option String)

abbrev Op.Res : Op → Type
  | status _ => Option OctadStatus
  | insertStatus .. | removeStatus _ | begin .. => Unit
  | walAppend .. => Except String Unit
  | acquireLock .. | recordUndo .. | commit .. => Except TransactionError Unit
  | rollback .. => Except TransactionError (List UndoEntry)
  | store .. => Except String ℕ

/-- The entries that an operation leaves in the log. -/
def Op.logged : Op → List WalEntry
  | walAppend entry none => [entry]
  | walAppend entry (some (.kept _)) => [entry]
  | _ => []

/-- The effect of an operation on the stores. -/
def Op.stored : Op → List StoreOp
  | store _ op none => [op]
  | _ => []

namespace World

/-- Perform an operation. -/
def exec (w : World) : (op : Op) → op.Res × World
  | .status id => (w.registry id, w)
  | .insertStatus id status =>
    ((), { w with registry := Function.update w.registry id (some status) })
  | .removeStatus id => ((), { w with registry := Function.update w.registry id none })
  | .walAppend entry fault =>
    match w.wal with
    | none => (.ok (), w)
    | some log =>
      match fault with
      | none => (.ok (), { w with wal := some (log ++ [entry]) })
      | some (.lost message) => (.error message, w)
      | some (.kept message) => (.error message, { w with wal := some (log ++ [entry]) })
  | .begin txn level now => ((), { w with transactions := w.transactions.begin txn level now })
  | .acquireLock txn id modality lockType =>
    let r := w.transactions.acquireLock txn id modality lockType
    (r.1, { w with transactions := r.2 })
  | .recordUndo txn id modality previousVersion now =>
    let r := w.transactions.recordUndo txn id modality none previousVersion now
    (r.1, { w with transactions := r.2 })
  | .commit txn now =>
    let r := w.transactions.commit txn now
    (r.1, { w with transactions := r.2 })
  | .rollback txn now =>
    let r := w.transactions.rollback txn now
    (r.1, { w with transactions := r.2 })
  | .store id op fault =>
    match fault with
    | some message => (.error message, w)
    | none =>
      (.ok ((w.stores id).value op),
        { w with stores := Function.update w.stores id ((w.stores id).apply op) })

end World

end NextgenDatabases.Verisim
