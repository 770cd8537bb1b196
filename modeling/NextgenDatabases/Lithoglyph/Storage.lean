import NextgenDatabases.Lithoglyph.Blocks
import Mathlib.Logic.Function.Basic

/-!
# Block storage

The file of a database as numbered blocks, with the superblock that is kept in memory. Any read
or write can fail, and a write that fails may have changed its block. Ids and offsets have 64 bits:
an overflow is a panic, which the storage only notes.
-/
namespace NextgenDatabases.Lithoglyph

open Foundations (Bytes)
open Function (update)

/-- The fields of the superblock that change. -/
structure Superblock where
  blockCount : ℕ
  freeListHead : ℕ
  journalHead : ℕ
  journalTail : ℕ
  deriving DecidableEq

inductive Content
  | data (bytes : Bytes)
  | text (msg : String)
  | superblock (sb : Superblock)

/-- A block that passes its check. -/
structure Stored where
  blockType : BlockType
  blockId : ℕ
  sequence : ℕ
  prevBlockId : ℕ
  deleted : Bool
  content : Content

def Stored.init (blockType : BlockType) (blockId sequence : ℕ) : Stored where
  blockType := blockType
  blockId := blockId
  sequence := sequence
  prevBlockId := 0
  deleted := false
  content := .data []

def Stored.setPayload (self : Stored) (content : Content) : Stored := { self with content }

namespace Superblock

def init : Superblock := ⟨1, 0, 0, 0⟩

def toBlock (self : Superblock) : Stored :=
  (Stored.init .superblock 0 0).setPayload (.superblock self)

end Superblock

/-- `file` has no block where there is none or one that fails its check. -/
structure BlockStorage where
  file : ℕ → Option Stored
  superblock : Superblock
  panicked : Bool

/-- How the write of a block fails. -/
inductive WriteFault
  /-- Nothing is written. -/
  | unwritten
  /-- A part is written, and with its first sector the header. The block fails its check, or it
  passes it with the payload `left`. -/
  | torn (left : Option Content)
  /-- The block is written, but not synced. -/
  | unsynced

/-- Which of the reads and writes of `appendJournal` fail. -/
structure JournalFaults where
  count : Option WriteFault
  create : Option WriteFault
  read : Bool
  write : Option WriteFault
  pointers : Option WriteFault

/-- Which of the reads and writes of `freeBlock` fail. -/
structure FreeFaults where
  read : Bool
  write : Option WriteFault
  superblock : Option WriteFault

/-- What is in a block when a write of `block` has failed. -/
def WriteFault.leave (fault : WriteFault) (old : Option Stored) (block : Stored) : Option Stored :=
  match fault with
  | .unwritten => old
  | .torn left => left.map block.setPayload
  | .unsynced => some block

/-- The number does not fit into 64 bits. -/
def overflows (n : ℕ) : Bool := UInt64.size ≤ n

namespace BlockStorage

/-- A new database. -/
def create : BlockStorage where
  file := update (fun _ => none) 0 (some Superblock.init.toBlock)
  superblock := .init
  panicked := false

/-- The offset of a block is computed. -/
def seekTo (self : BlockStorage) (blockId : ℕ) : BlockStorage :=
  { self with panicked := self.panicked || overflows (blockId * blockSize) }

def readBlock (self : BlockStorage) (fault : Bool) (blockId : ℕ) :
    Except BlockStorage (Stored × BlockStorage) :=
  let self := self.seekTo blockId
  match self.file blockId with
  | none => .error self
  | some block => if fault then .error self else .ok (block, self)

def writeBlock (self : BlockStorage) (fault : Option WriteFault) (blockId : ℕ) (block : Stored) :
    Except BlockStorage BlockStorage :=
  let self := self.seekTo blockId
  match fault with
  | none => .ok { self with file := update self.file blockId (some block) }
  | some fault =>
    let left := fault.leave (self.file blockId) block
    .error { self with file := update self.file blockId left }

def flushSuperblock (self : BlockStorage) (fault : Option WriteFault) :
    Except BlockStorage BlockStorage :=
  self.writeBlock fault 0 self.superblock.toBlock

def reserveBlockId (self : BlockStorage) : ℕ × BlockStorage :=
  let newId := self.superblock.blockCount
  (newId,
    { self with
      superblock := { self.superblock with blockCount := newId + 1 }
      panicked := self.panicked || overflows (newId + 1) })

def allocateBlock (self : BlockStorage) (countFault createFault : Option WriteFault)
    (blockType : BlockType) : Except BlockStorage (ℕ × BlockStorage) := do
  let (newId, self) := self.reserveBlockId
  let self ← self.flushSuperblock countFault
  let self ← self.writeBlock createFault newId
    (.init blockType newId (self.superblock.journalHead + 1))
  return (newId, self)

def appendJournal (self : BlockStorage) (faults : JournalFaults) (msg : String) :
    Except BlockStorage BlockStorage := do
  let (journalId, self) ← self.allocateBlock faults.count faults.create .journalSegment
  let (block, self) ← self.readBlock faults.read journalId
  let block :=
    { block.setPayload (.text msg) with
      prevBlockId := self.superblock.journalTail
      sequence := self.superblock.journalHead + 1 }
  let self ← self.writeBlock faults.write journalId block
  let sb := self.superblock
  let self := { self with superblock :=
    { sb with
      journalTail := journalId
      -- the first entry sets the head, then every entry counts it up
      journalHead := (if sb.journalHead = 0 then journalId else sb.journalHead) + 1 } }
  self.flushSuperblock faults.pointers

def freeBlock (self : BlockStorage) (faults : FreeFaults) (blockId : ℕ) :
    Except BlockStorage BlockStorage := do
  if blockId = 0 then throw self
  let (block, self) ← self.readBlock faults.read blockId
  let block :=
    { block with
      blockType := .free
      prevBlockId := self.superblock.freeListHead
      deleted := true }
  let self ← self.writeBlock faults.write blockId block
  let self := { self with superblock := { self.superblock with freeListHead := blockId } }
  self.flushSuperblock faults.superblock

/-- The payload of a block that `lith_read_blocks` reports as a document. -/
def document : Option Stored → Option Content
  | none => none
  | some block =>
    if block.blockType ≠ .document then none
    else if block.deleted then none
    else some block.content

/-- The documents among the blocks that are counted. -/
def docs (self : BlockStorage) (id : ℕ) : Option Content :=
  if 1 ≤ id ∧ id < self.superblock.blockCount then document (self.file id) else none

end BlockStorage

end NextgenDatabases.Lithoglyph
