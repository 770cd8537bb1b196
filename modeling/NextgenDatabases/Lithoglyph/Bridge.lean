import NextgenDatabases.Foundations.Runs
import NextgenDatabases.Lithoglyph.Storage

/-!
# The transaction bridge

Transactions of one open database. A transaction buffers what it writes and deletes; `commit`
appends the journal entries, writes the blocks, frees the deleted ones and stores the superblock.
Memory may run out in `lith_apply`, which has then reserved an id; a `begin`, `update` or `delete`
without memory changes nothing and is left out.
-/
namespace NextgenDatabases.Lithoglyph

open Foundations (Bytes)
open Function (update)

inductive LgStatus
  | ok | errInternal | errNotFound | errInvalidArgument | errOutOfMemory | errNotImplemented
  | errTxnNotActive | errTxnAlreadyCommitted
  deriving DecidableEq

structure LgError where
  status : LgStatus
  message : String

inductive LgTxnMode
  | readOnly | readWrite
  deriving DecidableEq

structure PendingWrite where
  blockId : ℕ
  data : Bytes
  journalMsg : String
  isNew : Bool

structure TxnState where
  mode : LgTxnMode
  isActive : Bool
  sequence : ℕ
  pendingWrites : List PendingWrite
  pendingDeletes : List ℕ

/-- Which reads and writes of a commit fail, by the position of the journal entry, of the pending
write and of the pending deletion. -/
structure CommitFaults where
  journal : ℕ → JournalFaults
  data : ℕ → Option WriteFault
  free : ℕ → FreeFaults
  flush : Option WriteFault

def CommitFaults.none : CommitFaults where
  journal _ := ⟨.none, .none, false, .none, .none⟩
  data _ := .none
  free _ := ⟨false, .none, .none⟩
  flush := .none

/-- Whether memory lasts for `lith_apply`: it runs out before the write is buffered, or when the
result is copied. -/
inductive Memory
  | lasts | noBuffer | noResult
  deriving DecidableEq

namespace TxnState

def journal (self : TxnState) : List String :=
  self.pendingWrites.map (·.journalMsg)
    ++ self.pendingDeletes.map fun blockId => s!"DELETE block_id={blockId}"

/-- `lith_apply` once the id is reserved -/
def insertBlock (self : TxnState) (blockId : ℕ) (op : Bytes) : TxnState :=
  { self with pendingWrites := self.pendingWrites ++
    [⟨blockId, op, s!"INSERT block_id={blockId} size={op.length}", true⟩] }

/-- `lith_update_block` -/
def updateBlock (self : TxnState) (blockId : ℕ) (data : Bytes) : Except LgError TxnState :=
  if !self.isActive || self.mode ≠ .readWrite then
    .error ⟨.errTxnNotActive, "Transaction not active or read-only"⟩
  else if data.length > payloadSize then .error ⟨.errInvalidArgument, "Payload too large"⟩
  else .ok { self with pendingWrites := self.pendingWrites ++
    [⟨blockId, data, s!"UPDATE block_id={blockId} size={data.length}", false⟩] }

/-- `lith_delete_block` -/
def deleteBlock (self : TxnState) (blockId : ℕ) : Except LgError TxnState :=
  if !self.isActive || self.mode ≠ .readWrite then
    .error ⟨.errTxnNotActive, "Transaction not active or read-only"⟩
  else .ok { self with pendingDeletes := self.pendingDeletes ++ [blockId] }

end TxnState

/-- `catch {}` and `catch continue` -/
def caught {α : Type*} : Except α α → α
  | .ok a | .error a => a

namespace BlockStorage

/-- The journal entries of a commit, from the `j`-th on. -/
def appendAll (faults : ℕ → JournalFaults) :
    ℕ → BlockStorage → List String → Except BlockStorage BlockStorage
  | _, self, [] => .ok self
  | j, self, msg :: msgs => do
    let self ← self.appendJournal (faults j) msg
    appendAll faults (j + 1) self msgs

/-- The pending writes of a commit, from the `i`-th on. -/
def writeAll (faults : ℕ → Option WriteFault) (sequence : ℕ) :
    ℕ → BlockStorage → List PendingWrite → Except BlockStorage BlockStorage
  | _, self, [] => .ok self
  | i, self, pw :: pws =>
    -- a payload that does not fit is skipped
    if pw.data.length > payloadSize then writeAll faults sequence (i + 1) self pws
    else do
      let block := (Stored.init .document pw.blockId sequence).setPayload (.data pw.data)
      let self ← self.writeBlock (faults i) pw.blockId block
      writeAll faults sequence (i + 1) self pws

/-- The pending deletions of a commit, from the `k`-th on. -/
def freeAll (faults : ℕ → FreeFaults) : ℕ → BlockStorage → List ℕ → BlockStorage
  | _, self, [] => self
  | k, self, blockId :: blockIds =>
    freeAll faults (k + 1) (caught (self.freeBlock (faults k) blockId)) blockIds

end BlockStorage

/-- An open database with the registry of its transactions. -/
structure DbState where
  storage : BlockStorage
  txnRegistry : ℕ → Option TxnState

namespace DbState

/-- `lith_db_open` of a new file -/
def create : DbState where
  storage := .create
  txnRegistry _ := none

/-- `lith_txn_begin`, with `txn` the address of the new state -/
def begin (self : DbState) (txn : ℕ) (mode : LgTxnMode) : DbState :=
  let state : TxnState :=
    { mode
      isActive := true
      sequence := self.storage.superblock.journalHead + 1
      pendingWrites := []
      pendingDeletes := [] }
  { self with txnRegistry := update self.txnRegistry txn (some state) }

/-- `lith_apply` -/
def apply (self : DbState) (memory : Memory) (txn : ℕ) (op : Bytes) :
    Except (LgError × DbState) (ℕ × DbState) :=
  match self.txnRegistry txn with
  | none => .error (⟨.errInvalidArgument, "Transaction not registered"⟩, self)
  | some state =>
    if !state.isActive then .error (⟨.errTxnNotActive, "Transaction not active"⟩, self)
    else if state.mode ≠ .readWrite then
      .error (⟨.errInvalidArgument, "Read-only transaction"⟩, self)
    else if op.length > payloadSize then
      .error (⟨.errInvalidArgument, "Payload too large for single block"⟩, self)
    else
      let (blockId, storage) := self.storage.reserveBlockId
      let buffered : DbState :=
        { storage
          txnRegistry := update self.txnRegistry txn (some (state.insertBlock blockId op)) }
      match memory with
      | .lasts => .ok (blockId, buffered)
      | .noBuffer => .error (⟨.errOutOfMemory, ""⟩, { self with storage })
      | .noResult => .error (⟨.errOutOfMemory, ""⟩, buffered)

/-- `lith_txn_commit` -/
def commit (self : DbState) (faults : CommitFaults) (txn : ℕ) :
    Except (LgError × DbState) DbState :=
  match self.txnRegistry txn with
  | none => .error (⟨.errInvalidArgument, "Transaction handle not registered"⟩, self)
  | some state =>
    if !state.isActive then
      .error (⟨.errTxnAlreadyCommitted, "Transaction already committed"⟩, self)
    else
      match self.storage.appendAll faults.journal 0 state.journal with
      | .error storage =>
        .error (⟨.errInternal, "Journal write failed during commit"⟩, { self with storage })
      | .ok storage =>
        match storage.writeAll faults.data state.sequence 0 state.pendingWrites with
        | .error storage =>
          .error (⟨.errInternal, "Block write failed during commit"⟩, { self with storage })
        | .ok storage =>
          let storage := storage.freeAll faults.free 0 state.pendingDeletes
          .ok
            { storage := caught (storage.flushSuperblock faults.flush)
              txnRegistry := update self.txnRegistry txn none }

/-- `lith_txn_abort` -/
def abort (self : DbState) (txn : ℕ) : LgStatus × DbState :=
  match self.txnRegistry txn with
  | none => (.errInvalidArgument, self)
  | some _ => (.ok, { self with txnRegistry := update self.txnRegistry txn none })

/-- `lith_read_blocks`: the id and the payload of each block that is reported. -/
def readBlocks (self : DbState) (blockType : BlockType) : List (ℕ × Content) :=
  (List.range' 1 (self.storage.superblock.blockCount - 1)).filterMap fun blockId =>
    match self.storage.file blockId with
    | none => none
    | some block =>
      if block.blockType ≠ blockType then none
      else if block.deleted then none
      else some (block.blockId, block.content)

end DbState

/-! ### Runs -/

inductive Call
  | begin (txn : ℕ) (mode : LgTxnMode)
  | apply (memory : Memory) (txn : ℕ) (op : Bytes)
  | update (txn blockId : ℕ) (data : Bytes)
  | delete (txn blockId : ℕ)
  | read (blockType : BlockType)
  | commit (faults : CommitFaults) (txn : ℕ)
  | abort (txn : ℕ)

/-- The database after a commit, failed or not. -/
def settled : Except (LgError × DbState) DbState → DbState
  | .ok db => db
  | .error (_, db) => db

/-- What a call leaves behind. A new transaction is not at the address of one that is open, and
no update or deletion is made with the handle of a transaction that has ended. -/
def DbState.next (self : DbState) : Call → Option DbState
  | .begin txn mode =>
    match self.txnRegistry txn with
    | none => some (self.begin txn mode)
    | some _ => none
  | .apply memory txn op =>
    match self.apply memory txn op with
    | .ok (_, db) => some db
    | .error (_, db) => some db
  | .update txn blockId data =>
    (self.txnRegistry txn).map fun state =>
      match state.updateBlock blockId data with
      | .ok state => { self with txnRegistry := Function.update self.txnRegistry txn (some state) }
      | .error _ => self
  | .delete txn blockId =>
    (self.txnRegistry txn).map fun state =>
      match state.deleteBlock blockId with
      | .ok state => { self with txnRegistry := Function.update self.txnRegistry txn (some state) }
      | .error _ => self
  | .read _ => some self
  | .commit faults txn => some (settled (self.commit faults txn))
  | .abort txn => some (self.abort txn).2

/-- A call that panics leaves no database. -/
def DbState.step (self : DbState) (call : Call) : Option DbState :=
  (self.next call).filter fun db => !db.storage.panicked

end NextgenDatabases.Lithoglyph
