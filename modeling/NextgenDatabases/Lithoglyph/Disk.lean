import NextgenDatabases.Foundations.Stateful
import NextgenDatabases.Lithoglyph.Blocks

/-!
# Block storage

The file of the Zig storage: the superblock in block 0, blocks read and written by their id, and
the operations of the storage manager on an open file.
-/
namespace NextgenDatabases.Lithoglyph.Disk

open Foundations Stateful

/-! ### Files -/

/-- The file after bytes are written at an offset. A gap before them reads as zeros. -/
def overwrite (file : Bytes) (off : ℕ) (bytes : Bytes) : Bytes :=
  file.take off ++ List.replicate (off - file.length) 0 ++ bytes ++ file.drop (off + bytes.length)

section overwrite

variable {file bytes : Bytes} {off : ℕ}

theorem overwrite_eq (h : off ≤ file.length) :
    overwrite file off bytes = file.take off ++ (bytes ++ file.drop (off + bytes.length)) := by
  rw [overwrite, Nat.sub_eq_zero_of_le h, List.replicate_zero, List.append_nil, List.append_assoc]

theorem length_overwrite (h : off ≤ file.length) :
    (overwrite file off bytes).length = max file.length (off + bytes.length) := by
  rw [overwrite_eq h]
  simp only [List.length_append, List.length_take, List.length_drop]
  omega

theorem slice_overwrite (h : off ≤ file.length) :
    slice (overwrite file off bytes) off bytes.length = bytes := by
  have hlen : (file.take off).length = off := List.length_take_of_le h
  rw [overwrite_eq h, slice_of_append hlen.le]
  exact slice_head (by omega) rfl

theorem slice_overwrite_of_disjoint {off' len : ℕ} (h : off ≤ file.length)
    (hdisj : off' + len ≤ off ∨ off + bytes.length ≤ off') :
    slice (overwrite file off bytes) off' len = slice file off' len := by
  have hlen : (file.take off).length = off := List.length_take_of_le h
  rw [overwrite_eq h]
  cases hdisj with
  | inl hbefore => rw [slice_append_left (by omega), slice_take hbefore]
  | inr hafter =>
    rw [slice_of_append (by omega), slice_of_append (by omega), slice, slice, List.drop_drop, hlen]
    congr 2
    omega

end overwrite

/-! ### The superblock -/

inductive StorageError
  | block (error : BlockError)
  | notSuperblock | invalidSuperblock | invalidDatabase | invalidBlock | cannotFreeSuperblock
  | overflow -- a panic
  deriving DecidableEq

structure Superblock where
  version : UInt32
  blockCount : UInt64
  freeListHead : UInt64
  journalHead : UInt64
  journalTail : UInt64
  rootCollectionId : UInt64
  flags : UInt32
  createdAt : UInt64
  lastCheckpoint : UInt64
  reserved : Bytes
  length_reserved : reserved.length = 3968

namespace Superblock

/-- The reserved bytes are whatever the memory holds. -/
def init (now : UInt64) (reserved : Bytes) (h : reserved.length = 3968) : Superblock where
  version := 1
  blockCount := 1
  freeListHead := 0
  journalHead := 0
  journalTail := 0
  rootCollectionId := 0
  flags := 0
  createdAt := now
  lastCheckpoint := now
  reserved := reserved
  length_reserved := h

def asBytes (self : Superblock) : Bytes :=
  toLe 4 self.version.toNat ++ (toLe 8 self.blockCount.toNat ++ (toLe 8 self.freeListHead.toNat ++
    (toLe 8 self.journalHead.toNat ++ (toLe 8 self.journalTail.toNat ++
      (toLe 8 self.rootCollectionId.toNat ++ (toLe 4 self.flags.toNat ++
        (toLe 8 self.createdAt.toNat ++ (toLe 8 self.lastCheckpoint.toNat ++ self.reserved))))))))

def ofBytes (bytes : Bytes) (h : bytes.length = payloadSize) : Superblock where
  version := .ofNat (ofLe (slice bytes 0 4))
  blockCount := .ofNat (ofLe (slice bytes 4 8))
  freeListHead := .ofNat (ofLe (slice bytes 12 8))
  journalHead := .ofNat (ofLe (slice bytes 20 8))
  journalTail := .ofNat (ofLe (slice bytes 28 8))
  rootCollectionId := .ofNat (ofLe (slice bytes 36 8))
  flags := .ofNat (ofLe (slice bytes 44 4))
  createdAt := .ofNat (ofLe (slice bytes 48 8))
  lastCheckpoint := .ofNat (ofLe (slice bytes 56 8))
  reserved := slice bytes 64 3968
  length_reserved := length_slice (by rw [h]; decide)

@[simp] theorem length_asBytes (self : Superblock) : self.asBytes.length = payloadSize := by
  simp [asBytes, self.length_reserved, payloadSize, blockSize, headerSize]

/-- Where the fields of a superblock stand. -/
theorem slice_asBytes (self : Superblock) :
    slice self.asBytes 0 4 = toLe 4 self.version.toNat ∧
    slice self.asBytes 4 8 = toLe 8 self.blockCount.toNat ∧
    slice self.asBytes 12 8 = toLe 8 self.freeListHead.toNat ∧
    slice self.asBytes 20 8 = toLe 8 self.journalHead.toNat ∧
    slice self.asBytes 28 8 = toLe 8 self.journalTail.toNat ∧
    slice self.asBytes 36 8 = toLe 8 self.rootCollectionId.toNat ∧
    slice self.asBytes 44 4 = toLe 4 self.flags.toNat ∧
    slice self.asBytes 48 8 = toLe 8 self.createdAt.toNat ∧
    slice self.asBytes 56 8 = toLe 8 self.lastCheckpoint.toNat ∧
    slice self.asBytes 64 3968 = self.reserved := by
  unfold asBytes
  have hlen := self.length_reserved
  refine ⟨?_, ?_, ?_, ?_, ?_, ?_, ?_, ?_, ?_, ?_⟩ <;>
    repeat' first
      | exact slice_head (by simp) (by simp)
      | exact slice_whole (by simp) (by simpa)
      | rw [slice_of_append (by simp)]

theorem ofBytes_asBytes (self : Superblock) : ofBytes self.asBytes self.length_asBytes = self := by
  obtain ⟨hversion, hcount, hfree, hhead, htail, hroot, hflags, hcreated, hcheckpoint, hreserved⟩ :=
    self.slice_asBytes
  have h32 : ∀ x : UInt32, UInt32.ofNat (ofLe (toLe 4 x.toNat)) = x := by
    intro x
    rw [ofLe_toLe_of_lt x.toNat_lt, UInt32.ofNat_toNat]
  have h64 : ∀ x : UInt64, UInt64.ofNat (ofLe (toLe 8 x.toNat)) = x := by
    intro x
    rw [ofLe_toLe_of_lt x.toNat_lt, UInt64.ofNat_toNat]
  simp only [ofBytes, hversion, hcount, hfree, hhead, htail, hroot, hflags, hcreated, hcheckpoint,
    hreserved, h32, h64]

def toBlock (self : Superblock) (now : UInt64) : Except BlockError Block :=
  (Block.init .superblock 0 0 now).setPayload self.asBytes now

theorem length_getPayload_le (block : Block) : block.getPayload.length ≤ payloadSize := by
  rw [Block.getPayload, List.length_take, block.length_payload]
  exact min_le_right ..

def fromBlock (block : Block) : Except StorageError Superblock :=
  if block.header.blockType ≠ BlockType.superblock.toInt then .error .notSuperblock
  else if h : block.getPayload.length < payloadSize then .error .invalidSuperblock
  else .ok (ofBytes block.getPayload ((length_getPayload_le block).antisymm (not_lt.mp h)))

theorem ofBytes_eq (self : Superblock) {bytes : Bytes} {h : bytes.length = payloadSize}
    (hbytes : bytes = self.asBytes) : ofBytes bytes h = self := by
  subst hbytes
  exact self.ofBytes_asBytes

/-- A superblock is read from its block. -/
theorem exists_toBlock (self : Superblock) (now : UInt64) :
    ∃ block, self.toBlock now = .ok block ∧ block.validate = .ok () ∧
      fromBlock block = .ok self := by
  have hlen := self.length_asBytes
  have hok : ∃ block, self.toBlock now = .ok block ∧ block.getPayload = self.asBytes ∧
      block.header.blockType = BlockType.superblock.toInt := by
    rw [toBlock, Block.setPayload, dif_neg (by omega)]
    refine ⟨_, rfl, ?_, rfl⟩
    have hpad : Block.padded self.asBytes = self.asBytes := by
      rw [Block.padded, hlen, Nat.sub_self, List.replicate_zero, List.append_nil]
    rw [Block.getPayload]
    simp only [hpad, hlen]
    exact List.take_of_length_le hlen.le
  obtain ⟨block, hblock, hpayload, htype⟩ := hok
  refine ⟨block, hblock, Block.validate_setPayload rfl rfl hblock, ?_⟩
  rw [fromBlock, if_neg (not_not.mpr htype), dif_neg (by rw [hpayload, hlen]; omega)]
  rw [ofBytes_eq self hpayload]

end Superblock

/-! ### Blocks in a file -/

def readAt (file : Bytes) (blockId : UInt64) : Except StorageError Block :=
  let bytes := slice file (blockId.toNat * blockSize) blockSize
  if h : bytes.length = blockSize then (Block.fromBytes bytes h).mapError .block
  else .error .invalidBlock

section readAt

variable {file : Bytes} {id id' : UInt64} {block block' : Block}

theorem readAt_eq (hbytes : slice file (id.toNat * blockSize) blockSize = block.toBytes)
    (hvalid : block.validate = .ok ()) : readAt file id = .ok block := by
  unfold readAt
  simp only [hbytes, block.length_toBytes, dif_pos]
  rw [Block.fromBytes_toBytes block hvalid]
  rfl

theorem length_of_readAt (h : readAt file id = .ok block) :
    (id.toNat + 1) * blockSize ≤ file.length := by
  simp only [readAt] at h
  split_ifs at h with hlen
  rw [slice, List.length_take, List.length_drop] at hlen
  rw [blockSize] at hlen ⊢
  omega

/-- The block that has been written is read back. -/
theorem readAt_overwrite (hin : id.toNat * blockSize ≤ file.length)
    (hvalid : block.validate = .ok ()) :
    readAt (overwrite file (id.toNat * blockSize) block.toBytes) id = .ok block := by
  have hslice := @slice_overwrite file block.toBytes _ hin
  rw [block.length_toBytes] at hslice
  exact readAt_eq hslice hvalid

/-- The other blocks stay. -/
theorem readAt_overwrite_of_ne (hin : id.toNat * blockSize ≤ file.length) (hne : id' ≠ id) :
    readAt (overwrite file (id.toNat * blockSize) block.toBytes) id' = readAt file id' := by
  have hne' : id'.toNat ≠ id.toNat := fun h => hne (UInt64.toNat_inj.mp h)
  have hslice : slice (overwrite file (id.toNat * blockSize) block.toBytes)
      (id'.toNat * blockSize) blockSize = slice file (id'.toNat * blockSize) blockSize := by
    apply slice_overwrite_of_disjoint hin
    rw [block.length_toBytes, blockSize]
    omega
  rw [readAt, readAt]
  simp only [hslice]

end readAt

/-! ### The storage manager -/

/-- An open storage. -/
structure BlockStorage where
  file : Bytes
  superblock : Superblock

namespace BlockStorage

/-- Changes before an error stay. -/
abbrev Call (α : Type) := EStateM StorageError BlockStorage α

/-- `+ 1` -/
def succ (n : UInt64) : Call UInt64 :=
  if n.toNat + 1 < 2 ^ 64 then return n + 1 else throw .overflow

def offset (blockId : UInt64) : Call ℕ :=
  if blockId.toNat * blockSize < 2 ^ 64 then return blockId.toNat * blockSize else throw .overflow

def setPayload (block : Block) (data : Bytes) (now : UInt64) : Call Block :=
  match block.setPayload data now with
  | .ok block => return block
  | .error e => throw (.block e)

def readBlock (blockId : UInt64) : Call Block := do
  let _ ← offset blockId
  match readAt (← get).file blockId with
  | .ok block => return block
  | .error e => throw e

def writeBlock (blockId : UInt64) (block : Block) : Call Unit := do
  let offset ← offset blockId
  modify fun self => { self with file := overwrite self.file offset block.toBytes }

def flushSuperblock (now : UInt64) : Call Unit := do
  match (← get).superblock.toBlock now with
  | .ok sbBlock => writeBlock 0 sbBlock
  | .error e => throw (.block e)

def allocateBlock (blockType : BlockType) (now : UInt64) : Call UInt64 := do
  let newId := (← get).superblock.blockCount
  let blockCount ← succ newId
  modify fun self => { self with superblock := { self.superblock with blockCount } }
  flushSuperblock now
  let sequence ← succ (← get).superblock.journalHead
  writeBlock newId (.init blockType newId sequence now)
  return newId

/-- The links of a journal entry. -/
def link (block : Block) (prevBlockId sequence : UInt64) : Block :=
  { block with header := { block.header with prevBlockId, sequence } }

/-- The journal pointers of the superblock after an entry. -/
def updatePointers (journalId : UInt64) : Call Unit := do
  modify fun self =>
    if self.superblock.journalHead = 0 then
      { self with superblock := { self.superblock with journalHead := journalId } }
    else self
  modify fun self => { self with superblock := { self.superblock with journalTail := journalId } }
  let journalHead ← succ (← get).superblock.journalHead
  modify fun self => { self with superblock := { self.superblock with journalHead } }

def appendJournal (entryData : Bytes) (now : UInt64) : Call UInt64 := do
  let journalId ← allocateBlock .journalSegment now
  let block ← readBlock journalId
  let block ← setPayload block entryData now
  let sequence ← succ (← get).superblock.journalHead
  writeBlock journalId (link block (← get).superblock.journalTail sequence)
  updatePointers journalId
  flushSuperblock now
  return journalId

/-- A freed block. The flag `deleted` is the fourth bit. -/
def free (block : Block) (freeListHead : UInt64) : Block :=
  { block with header :=
    { block.header with
      blockType := BlockType.free.toInt
      prevBlockId := freeListHead
      flags := block.header.flags ||| 8 } }

def freeBlock (blockId now : UInt64) : Call Unit :=
  if blockId = 0 then throw .cannotFreeSuperblock
  else do
    let block ← readBlock blockId
    writeBlock blockId (free block (← get).superblock.freeListHead)
    modify fun self => { self with superblock := { self.superblock with freeListHead := blockId } }
    flushSuperblock now

/-- Open a file, or create it where there is none. -/
def openFile (file : Option Bytes) (now : UInt64) (reserved : Bytes) (h : reserved.length = 3968) :
    Except StorageError BlockStorage :=
  match file with
  | none =>
    let sb := Superblock.init now reserved h
    match sb.toBlock now with
    | .ok sbBlock => .ok ⟨sbBlock.toBytes, sb⟩
    | .error e => .error (.block e)
  | some file => do
    if file.length < blockSize then throw .invalidDatabase
    let sbBlock ← readAt file 0
    let sb ← Superblock.fromBlock sbBlock
    return ⟨file, sb⟩

/-! ### What the calls do -/

variable {α β : Type} {s s' : BlockStorage}

/-- The call ends in a panic. -/
def Panics (x : Call α) (s : BlockStorage) : Prop := ∃ s', x.run s = .error .overflow s'

theorem run_get_bind {f : BlockStorage → Call β} : (get >>= f).run s = (f s).run s := rfl

theorem run_modify_bind {g : BlockStorage → BlockStorage} {f : PUnit → Call β} :
    (modify g >>= f).run s = (f ()).run (g s) := rfl

theorem run_succ {n : UInt64} (h : n.toNat + 1 < 2 ^ 64) : (succ n).run s = .ok (n + 1) s := by
  rw [succ, if_pos h]
  rfl

theorem run_succ_error {n : UInt64} (h : ¬ n.toNat + 1 < 2 ^ 64) :
    (succ n).run s = .error .overflow s := by
  rw [succ, if_neg h]
  rfl

theorem toNat_succ {n : UInt64} (h : n.toNat + 1 < 2 ^ 64) : (n + 1).toNat = n.toNat + 1 := by
  rw [UInt64.toNat_add, UInt64.toNat_one, Nat.mod_eq_of_lt h]

theorem run_offset {id : UInt64} (h : id.toNat * blockSize < 2 ^ 64) :
    (offset id).run s = .ok (id.toNat * blockSize) s := by
  rw [offset, if_pos h]
  rfl

theorem run_offset_error {id : UInt64} (h : ¬ id.toNat * blockSize < 2 ^ 64) :
    (offset id).run s = .error .overflow s := by
  rw [offset, if_neg h]
  rfl

theorem run_writeBlock {id : UInt64} {block : Block} (h : id.toNat * blockSize < 2 ^ 64) :
    (writeBlock id block).run s =
      .ok () { s with file := overwrite s.file (id.toNat * blockSize) block.toBytes } := by
  rw [writeBlock, run_bind_ok (run_offset h)]
  rfl

theorem run_writeBlock_error {id : UInt64} {block : Block} (h : ¬ id.toNat * blockSize < 2 ^ 64) :
    (writeBlock id block).run s = .error .overflow s := by
  rw [writeBlock, run_bind_error (run_offset_error h)]

theorem run_readBlock {id : UInt64} {block : Block} (h : id.toNat * blockSize < 2 ^ 64)
    (hread : readAt s.file id = .ok block) : (readBlock id).run s = .ok block s := by
  rw [readBlock, run_bind_ok (run_offset h), run_get_bind, hread]
  rfl

/-- A block that cannot be read leaves the storage as it is. -/
theorem run_readBlock_error {id : UInt64} {e : StorageError} (h : id.toNat * blockSize < 2 ^ 64)
    (hread : readAt s.file id = .error e) : (readBlock id).run s = .error e s := by
  rw [readBlock, run_bind_ok (run_offset h), run_get_bind, hread]
  rfl

/-- The file holds the blocks that the superblock counts, and the superblock itself. -/
structure Consistent (s : BlockStorage) : Prop where
  length : s.file.length = s.superblock.blockCount.toNat * blockSize
  superblock : ∃ block, readAt s.file 0 = .ok block ∧
    Superblock.fromBlock block = .ok s.superblock
  bound : s.superblock.blockCount.toNat * blockSize ≤ 2 ^ 64

theorem Consistent.count_pos (h : s.Consistent) : 0 < s.superblock.blockCount.toNat := by
  obtain ⟨block, hread, -⟩ := h.superblock
  have hle := length_of_readAt hread
  have hzero : (0 : UInt64).toNat = 0 := rfl
  rw [h.length, hzero] at hle
  by_contra hcount
  rw [Nat.eq_zero_of_not_pos hcount, blockSize] at hle
  omega

theorem Consistent.blockCount_ne_zero (h : s.Consistent) : s.superblock.blockCount ≠ 0 := by
  intro hzero
  have hpos := h.count_pos
  rw [hzero] at hpos
  exact absurd hpos (by decide)

/-- Two files have the same blocks, but for the superblock and one more. -/
def SameBut (id : UInt64) (file file' : Bytes) : Prop :=
  ∀ id', id' ≠ 0 → id' ≠ id → readAt file' id' = readAt file id'

theorem run_flushSuperblock (now : UInt64) (h : blockSize ≤ s.file.length) :
    ∃ file, (flushSuperblock now).run s = .ok () { s with file } ∧ file.length = s.file.length ∧
      (∃ block, readAt file 0 = .ok block ∧ Superblock.fromBlock block = .ok s.superblock) ∧
      ∀ id, id ≠ 0 → readAt file id = readAt s.file id := by
  obtain ⟨block, hblock, hvalid, hfrom⟩ := s.superblock.exists_toBlock now
  have hin : (0 : UInt64).toNat * blockSize ≤ s.file.length := Nat.zero_le _
  refine ⟨overwrite s.file ((0 : UInt64).toNat * blockSize) block.toBytes, ?_, ?_,
    ⟨block, readAt_overwrite hin hvalid, hfrom⟩, fun id hid => readAt_overwrite_of_ne hin hid⟩
  · rw [flushSuperblock, run_get_bind, hblock]
    exact run_writeBlock (by decide)
  · rw [length_overwrite hin, block.length_toBytes]
    exact max_eq_left (by simpa using h)

/-- The storage of one block more. -/
def grown (s : BlockStorage) (file : Bytes) : BlockStorage :=
  ⟨file, { s.superblock with blockCount := s.superblock.blockCount + 1 }⟩

/-- A new block is written behind all others. -/
theorem grown_spec (h : s.Consistent) {file : Bytes} {block : Block}
    (hlen : file.length = s.file.length)
    (hsuper : ∃ block, readAt file 0 = .ok block ∧
      Superblock.fromBlock block = .ok (s.grown file).superblock)
    (hsame : ∀ id, id ≠ 0 → readAt file id = readAt s.file id)
    (hcount : s.superblock.blockCount.toNat + 1 < 2 ^ 64)
    (hoffset : s.superblock.blockCount.toNat * blockSize < 2 ^ 64)
    (hvalid : block.validate = .ok ()) :
    let file' := overwrite file (s.superblock.blockCount.toNat * blockSize) block.toBytes
    (s.grown file').Consistent ∧ readAt file' s.superblock.blockCount = .ok block ∧
      SameBut s.superblock.blockCount s.file file' := by
  have hin : s.superblock.blockCount.toNat * blockSize ≤ file.length := by rw [hlen, h.length]
  have hne := h.blockCount_ne_zero.symm
  refine ⟨⟨?_, ?_, ?_⟩, readAt_overwrite hin hvalid, ?_⟩
  · rw [grown, length_overwrite hin, hlen, h.length, block.length_toBytes, toNat_succ hcount,
      max_eq_right (Nat.le_add_right _ _), add_mul, one_mul]
  · obtain ⟨sbBlock, hread, hfrom⟩ := hsuper
    exact ⟨sbBlock, by rw [grown, readAt_overwrite_of_ne hin hne, hread], hfrom⟩
  · rw [grown, toNat_succ hcount]
    rw [blockSize] at hoffset ⊢
    omega
  · intro id hzero hid
    rw [readAt_overwrite_of_ne hin hid, hsame id hzero]

theorem validate_init (blockType : BlockType) (id sequence now : UInt64) :
    (Block.init blockType id sequence now).validate = .ok () := by
  refine (Block.validate_ok_iff _).mpr ⟨rfl, ?_⟩
  have htake : (Block.init blockType id sequence now).payload.take (0 : UInt32).toNat = [] := rfl
  change crc32c (Block.init blockType id sequence now).payload 0 = 0
  rw [crc32c, htake]
  rfl

/-- The next sequence and the offset of the next block are 64-bit integers. -/
structure Fits (s : BlockStorage) : Prop where
  head : s.superblock.journalHead.toNat + 1 < 2 ^ 64
  offset : s.superblock.blockCount.toNat * blockSize < 2 ^ 64

theorem Fits.count (h : s.Fits) : s.superblock.blockCount.toNat + 1 < 2 ^ 64 := by
  have hoffset := h.offset
  rw [blockSize] at hoffset
  omega

theorem exists_flushSuperblock (h : s.Consistent) (now : UInt64) :
    ∃ file, (flushSuperblock now).run (s.grown s.file) = .ok () (s.grown file) ∧
      file.length = s.file.length ∧
      (∃ block, readAt file 0 = .ok block ∧
        Superblock.fromBlock block = .ok (s.grown file).superblock) ∧
      ∀ id, id ≠ 0 → readAt file id = readAt s.file id := by
  have hle : blockSize ≤ s.file.length := by
    rw [h.length]
    exact Nat.le_mul_of_pos_left _ h.count_pos
  exact run_flushSuperblock (s := s.grown s.file) now hle

theorem run_allocateBlock_eq (hcount : s.superblock.blockCount.toNat + 1 < 2 ^ 64)
    {file : Bytes} {blockType : BlockType} {now : UInt64}
    (hflush : (flushSuperblock now).run (s.grown s.file) = .ok () (s.grown file)) :
    (allocateBlock blockType now).run s =
      (do
        let sequence ← succ s.superblock.journalHead
        writeBlock s.superblock.blockCount
          (.init blockType s.superblock.blockCount sequence now)
        return s.superblock.blockCount : Call UInt64).run (s.grown file) := by
  rw [allocateBlock, run_get_bind, run_bind_ok (run_succ hcount), run_modify_bind]
  exact run_bind_ok hflush

theorem run_allocateBlock (h : s.Consistent) (hfits : s.Fits) (blockType : BlockType)
    (now : UInt64) :
    ∃ file, (allocateBlock blockType now).run s = .ok s.superblock.blockCount (s.grown file) ∧
      (s.grown file).Consistent ∧
      readAt file s.superblock.blockCount = .ok (.init blockType s.superblock.blockCount
        (s.superblock.journalHead + 1) now) ∧
      SameBut s.superblock.blockCount s.file file := by
  obtain ⟨file, hflush, hlen, hsuper, hsame⟩ := exists_flushSuperblock h now
  rw [run_allocateBlock_eq hfits.count hflush, run_bind_ok (run_succ hfits.head),
    run_bind_ok (run_writeBlock hfits.offset)]
  obtain ⟨hconsistent, hread, hbut⟩ := grown_spec h hlen hsuper hsame hfits.count hfits.offset
    (validate_init blockType s.superblock.blockCount (s.superblock.journalHead + 1) now)
  exact ⟨_, rfl, hconsistent, hread, hbut⟩

theorem panics_allocateBlock (h : s.Consistent) (hfits : ¬ s.Fits) (blockType : BlockType)
    (now : UInt64) : Panics (allocateBlock blockType now) s := by
  by_cases hcount : s.superblock.blockCount.toNat + 1 < 2 ^ 64
  case neg =>
    rw [Panics, allocateBlock, run_get_bind]
    exact ⟨_, run_bind_error (run_succ_error hcount)⟩
  obtain ⟨file, hflush, -⟩ := exists_flushSuperblock h now
  rw [Panics, run_allocateBlock_eq hcount hflush]
  by_cases hhead : s.superblock.journalHead.toNat + 1 < 2 ^ 64
  case neg => exact ⟨_, run_bind_error (run_succ_error hhead)⟩
  rw [run_bind_ok (run_succ hhead)]
  have hoffset : ¬ s.superblock.blockCount.toNat * blockSize < 2 ^ 64 :=
    fun hoffset => hfits ⟨hhead, hoffset⟩
  exact ⟨_, run_bind_error (run_writeBlock_error hoffset)⟩

/-- A block that exists is written over. -/
theorem run_writeBlock_consistent {id : UInt64} (block : Block) (h : s.Consistent) (hid : id ≠ 0)
    (hlt : id.toNat < s.superblock.blockCount.toNat) :
    ∃ file, (writeBlock id block).run s = .ok () { s with file } ∧
      ({ s with file } : BlockStorage).Consistent ∧
      (block.validate = .ok () → readAt file id = .ok block) ∧ SameBut id s.file file := by
  have hbound := h.bound
  have hlength := h.length
  have hpos : 0 < blockSize := by decide
  have hend : id.toNat * blockSize + blockSize ≤ s.superblock.blockCount.toNat * blockSize := by
    rw [← Nat.succ_mul]
    exact Nat.mul_le_mul_right _ hlt
  have hin : id.toNat * blockSize ≤ s.file.length := by omega
  rw [run_writeBlock (by omega)]
  refine ⟨_, rfl, ⟨?_, ?_, hbound⟩, readAt_overwrite hin, fun id' _ => readAt_overwrite_of_ne hin⟩
  · change (overwrite _ _ _).length = _
    rw [length_overwrite hin, block.length_toBytes, hlength, max_eq_left hend]
  · obtain ⟨sbBlock, hread, hfrom⟩ := h.superblock
    exact ⟨sbBlock, by rw [readAt_overwrite_of_ne hin hid.symm, hread], hfrom⟩

/-- A superblock with the same number of blocks is written. -/
theorem run_flushSuperblock_consistent (superblock : Superblock) (h : s.Consistent)
    (hcount : superblock.blockCount = s.superblock.blockCount) (now : UInt64) :
    ∃ file, (flushSuperblock now).run { s with superblock } = .ok () ⟨file, superblock⟩ ∧
      (⟨file, superblock⟩ : BlockStorage).Consistent ∧
      ∀ id, id ≠ 0 → readAt file id = readAt s.file id := by
  have hle : blockSize ≤ s.file.length := by
    rw [h.length]
    exact Nat.le_mul_of_pos_left _ h.count_pos
  obtain ⟨file, hflush, hlen, hsuper, hsame⟩ :=
    run_flushSuperblock (s := { s with superblock }) now hle
  refine ⟨file, hflush, ⟨?_, hsuper, ?_⟩, hsame⟩
  · rw [hcount, ← h.length]
    exact hlen
  · rw [hcount]
    exact h.bound

end BlockStorage

end NextgenDatabases.Lithoglyph.Disk
