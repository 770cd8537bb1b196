import Mathlib.Data.Finmap
import Mathlib.Data.List.Induction
import Mathlib.Data.Multiset.Replicate
import NextgenDatabases.Lithoglyph.Bridge

/-!
# Storage backends

The backend in memory keeps documents by collection under the ids it writes into them. The bridge
keeps every document in a block of its own, and no block knows its collection. Reads and writes of
the database do not fail, and memory lasts.
-/
namespace NextgenDatabases.Lithoglyph.Backends

open Foundations (Bytes)

variable {V : Type}

/-- A hash table of JSON values. -/
abbrev Document (V : Type) : Type := Finmap fun _ : String => V

/-- The words of a storage backend, of type `σ`. An update or a deletion gives nothing where it
throws. -/
structure StorageBackend (σ V : Type) where
  getCollection : String → σ → List (Document V)
  setCollection : List (Document V) → String → σ → σ
  deleteCollection : String → σ → σ
  insert : Document V → String → σ → σ × ℕ
  update : Document V → ℕ → String → σ → σ × Option Bool
  delete : ℕ → String → σ → σ × Option Bool

/-- JSON: the text of a document, the document that is read from what the library lists of a
payload, strings, objects, and the object that is listed for a block. -/
structure Json (V : Type) where
  write : Document V → Bytes
  read : Content → Option (Document V)
  string : String → V
  object : Document V → V
  listed : ℕ × Content → Document V

/-! ### Memory -/

structure MemoryBackend (V : Type) where
  collections : String → Option (List (Document V))
  nextId : ℕ

namespace MemoryBackend

def empty : MemoryBackend V := ⟨fun _ => none, 1⟩

def getCollection (name : String) (backend : MemoryBackend V) : List (Document V) :=
  (backend.collections name).getD []

def setCollection (data : List (Document V)) (name : String) (backend : MemoryBackend V) :
    MemoryBackend V :=
  { backend with collections := Function.update backend.collections name (some data) }

def deleteCollection (name : String) (backend : MemoryBackend V) : MemoryBackend V :=
  { backend with collections := Function.update backend.collections name none }

variable (json : Json V)

def insert (doc : Document V) (collection : String) (backend : MemoryBackend V) :
    MemoryBackend V × ℕ :=
  let id := backend.nextId
  let backend := { backend with nextId := id + 1 }
  let doc := doc.insert "_id" (json.string (toString id))
  let coll := backend.getCollection collection
  (backend.setCollection (coll ++ [doc]) collection, id)

variable [DecidableEq V]

def hasId (id : ℕ) (doc : Document V) : Bool :=
  doc.lookup "_id" = some (json.string (toString id))

def update (doc : Document V) (id : ℕ) (collection : String) (backend : MemoryBackend V) :
    MemoryBackend V × Option Bool :=
  let coll := backend.getCollection collection
  (backend.setCollection (coll.map fun d => if hasId json id d then doc else d) collection,
    some (coll.any (hasId json id)))

def delete (id : ℕ) (collection : String) (backend : MemoryBackend V) :
    MemoryBackend V × Option Bool :=
  let coll := backend.getCollection collection
  let newColl := coll.filter fun d => !hasId json id d
  (backend.setCollection newColl collection, some (newColl.length < coll.length))

def backend : StorageBackend (MemoryBackend V) V where
  getCollection := getCollection
  setCollection := setCollection
  deleteCollection := deleteCollection
  insert := insert json
  update := update json
  delete := delete json

end MemoryBackend

/-! ### Bridge -/

namespace BridgeBackend

variable (json : Json V)

/-- `parse-block-results`: the object of a block is put into the document that its data give. -/
def parseBlock (block : ℕ × Content) : Document V :=
  match json.read block.2 with
  | some doc => doc.insert "data" (json.object (json.listed block))
  | none => json.listed block

/-- All documents, whatever the collection. -/
def getCollection (_name : String) (db : DbState) : List (Document V) :=
  (db.readBlocks .document).map (parseBlock json)

/-- A commit that meets no fault. -/
def commit (db : DbState) : DbState := settled (db.commit .none 0)

/-- The answer is 0 where the library refuses the text. -/
def withBridgeTxn (docJson : Bytes) (db : DbState) : DbState × ℕ :=
  match (db.begin 0 .readWrite).apply .lasts 0 docJson with
  | .ok (blockId, db) => (commit db, blockId)
  | .error (_, db) => (commit db, 0)

/-- The documents are added to those that are there. -/
def setCollection (data : List (Document V)) (_name : String) (db : DbState) : DbState :=
  data.foldl (fun db doc => (withBridgeTxn (json.write doc) db).1) db

def deleteCollection (_name : String) (db : DbState) : DbState := db

def insert (doc : Document V) (_collection : String) (db : DbState) : DbState × ℕ :=
  withBridgeTxn (json.write doc) db

/-- Where the library refuses `operation` the transaction is left open, which nobody notices. -/
def withTxn (operation : TxnState → Except LgError TxnState) (db : DbState) :
    DbState × Option Bool :=
  let opened := db.begin 0 .readWrite
  match (opened.txnRegistry 0).map operation with
  | some (.ok state) =>
    (commit { opened with txnRegistry := Function.update opened.txnRegistry 0 (some state) },
      some true)
  | _ => (db, none)

def update (doc : Document V) (id : ℕ) (_collection : String) : DbState → DbState × Option Bool :=
  withTxn fun state => state.updateBlock id (json.write doc)

def delete (id : ℕ) (_collection : String) : DbState → DbState × Option Bool :=
  withTxn fun state => state.deleteBlock id

def backend : StorageBackend DbState V where
  getCollection := getCollection json
  setCollection := setCollection json
  deleteCollection := deleteCollection
  insert := insert json
  update := update json
  delete := delete

end BridgeBackend

/-! ### Calls -/

/-- The calls of a client, which knows documents by the ids that its inserts were answered. -/
inductive Call (V : Type)
  | getCollection (name : String)
  | setCollection (data : List (Document V)) (name : String)
  | deleteCollection (name : String)
  | insert (doc : Document V) (collection : String)
  | update (doc : Document V) (nth : ℕ) (collection : String)
  | delete (nth : ℕ) (collection : String)

namespace Call

def collection : Call V → String
  | getCollection name => name
  | setCollection _ name => name
  | deleteCollection name => name
  | insert _ collection => collection
  | update _ _ collection => collection
  | delete _ collection => collection

def documents : Call V → List (Document V)
  | setCollection data _ => data
  | insert doc _ => [doc]
  | update doc _ _ => [doc]
  | _ => []

variable {σ : Type} (backend : StorageBackend σ V)

/-- The store and the ids that the inserts were answered, in order. -/
def run (s : σ × List ℕ) : Call V → σ × List ℕ
  | getCollection _ => s
  | setCollection data name => (backend.setCollection data name s.1, s.2)
  | deleteCollection name => (backend.deleteCollection name s.1, s.2)
  | insert doc collection =>
    let (store, id) := backend.insert doc collection s.1
    (store, s.2 ++ [id])
  | update doc nth collection =>
    match s.2[nth]? with
    | some id => ((backend.update doc id collection s.1).1, s.2)
    | none => s
  | delete nth collection =>
    match s.2[nth]? with
    | some id => ((backend.delete id collection s.1).1, s.2)
    | none => s

def runAll (s : σ × List ℕ) (calls : List (Call V)) : σ × List ℕ := calls.foldl (run backend) s

theorem runAll_concat (s : σ × List ℕ) (calls : List (Call V)) (c : Call V) :
    runAll backend s (calls ++ [c]) = run backend (runAll backend s calls) c := by
  rw [runAll, List.foldl_concat]
  rfl

end Call

end NextgenDatabases.Lithoglyph.Backends
