import Mathlib
import NextgenDatabases.Foundations.JsonText
import NextgenDatabases.Lithoglyph.Journal

/-!
# The listing of blocks

The text of `lith_read_blocks`, and what a client reads from it.
-/
namespace NextgenDatabases.Lithoglyph.Disk

open Foundations Stateful JsonText

namespace BlockStorage

/-! ### The listing -/

/-- `readBlock` with `catch continue`, which does not catch a panic. -/
def tryRead (blockId : UInt64) : Call (Option Block) :=
  tryCatch (some <$> readBlock blockId) fun e => if e = .overflow then throw e else return none

/-- `std.fmt.bufPrint` into a buffer of `size` bytes -/
def bufPrint (size : ℕ) (text : Bytes) : Option Bytes :=
  if text.length ≤ size then some text else none

/-- `{x:0>4}` -/
def hexText (byte : UInt8) : List Char :=
  let digits := Nat.toDigits 16 byte.toNat
  List.replicate (4 - digits.length) '0' ++ digits

def appendByte (result : Bytes) (byte : UInt8) : Bytes :=
  if byte = 0x22 then result ++ ascii ['\\', '"']
  else if byte = 0x5C then result ++ ascii ['\\', '\\']
  else if byte = 0x0A then result ++ ascii ['\\', 'n']
  else if byte = 0x0D then result ++ ascii ['\\', 'r']
  else if byte = 0x09 then result ++ ascii ['\\', 't']
  else if 0x20 ≤ byte ∧ byte < 0x7F then result ++ [byte]
  else
    match bufPrint 6 (ascii (['\\', 'u'] ++ hexText byte)) with
    | some hexStr => result ++ hexStr
    | none => result

/-- The text before the quoted payload. -/
def headerText (header : BlockHeader) : List Char :=
  "\x7b\"block_id\":".toList ++ (Nat.toDigits 10 header.blockId.toNat ++ (",\"size\":".toList ++
    (Nat.toDigits 10 header.payloadLen.toNat ++ ",\"data\":".toList)))

structure Listing where
  result : Bytes
  first : Bool

def Listing.append (self : Listing) (blockType : UInt16) (block : Block) : Listing :=
  if block.header.blockType ≠ blockType then self
  else if block.header.flags &&& 0x08 ≠ 0 then self
  else
    let result := if self.first then self.result else self.result ++ ascii [',']
    match bufPrint 80 (ascii (headerText block.header)) with
    | none => ⟨result, false⟩
    | some headerStr =>
      let result := result ++ headerStr ++ ascii ['"']
      let result := block.getPayload.foldl appendByte result
      ⟨result ++ ascii ['"', '\x7d'], false⟩

/-- A round of the loop. -/
def Listing.visit (blockType : UInt16) (self : Listing) (blockId : ℕ) : Call Listing := do
  match ← tryRead (.ofNat blockId) with
  | none => return self
  | some block => return self.append blockType block

/-- `lith_read_blocks`, where memory lasts: a piece of the text that found none would be left out. -/
def readBlocks (blockType : UInt16) : Call Bytes := do
  let blockCount := (← get).superblock.blockCount
  let ids := List.range' 1 (blockCount.toNat - 1)
  let listing ← ids.foldlM (Listing.visit blockType) ⟨ascii ['['], true⟩
  return listing.result ++ ascii [']']

/-! ### Stored blocks -/

/-- A document is written by a commit. -/
def writeDocument (blockId sequence : UInt64) (data : Bytes) (now : UInt64) : Call Unit := do
  let block ← setPayload (.init .document blockId sequence now) data now
  writeBlock blockId block

inductive Operation
  | flushSuperblock (now : UInt64)
  | allocateBlock (blockType : BlockType) (now : UInt64)
  | appendJournal (entryData : Bytes) (now : UInt64)
  | writeDocument (blockId sequence : UInt64) (data : Bytes) (now : UInt64)
  | freeBlock (blockId now : UInt64)

def Operation.perform : Operation → Call Unit
  | .flushSuperblock now => BlockStorage.flushSuperblock now
  | .allocateBlock blockType now => discard (BlockStorage.allocateBlock blockType now)
  | .appendJournal entryData now => discard (BlockStorage.appendJournal entryData now)
  | .writeDocument blockId sequence data now =>
    BlockStorage.writeDocument blockId sequence data now
  | .freeBlock blockId now => BlockStorage.freeBlock blockId now

/-- A storage that is opened, written to and opened again. Ids are reserved without a write, and
operations may fail. -/
inductive Stored : BlockStorage → Prop
  | create {now : UInt64} {reserved : Bytes} {h : reserved.length = 3968} {s : BlockStorage} :
      openFile none now reserved h = .ok s → Stored s
  | reopen {now : UInt64} {reserved : Bytes} {h : reserved.length = 3968} {s s' : BlockStorage} :
      Stored s → openFile (some s.file) now reserved h = .ok s' → Stored s'
  | reserve {s : BlockStorage} : Stored s → Stored
      { s with superblock := { s.superblock with blockCount := s.superblock.blockCount + 1 } }
  | ok {s s' : BlockStorage} {operation : Operation} :
      Stored s → operation.perform.run s = .ok () s' → Stored s'
  | error {s s' : BlockStorage} {operation : Operation} {e : StorageError} :
      Stored s → operation.perform.run s = .error e s' → Stored s'

/-! ### Blocks carry their ids -/

/-- The file is whole blocks, and each that can be read carries its own id. -/
structure Owned (s : BlockStorage) : Prop where
  whole : blockSize ∣ s.file.length
  id : ∀ id block, readAt s.file id = .ok block → block.header.blockId = id

theorem readAt_zeros {file : Bytes} {id : UInt64} {n : ℕ}
    (hbytes : slice file (id.toNat * blockSize) blockSize = List.replicate n 0) (block : Block) :
    readAt file id ≠ .ok block := by
  intro h
  simp only [readAt] at h
  split_ifs at h with hlen
  rw [Block.fromBytes_eq] at h
  have hn : n = blockSize := by rw [← hlen, hbytes, List.length_replicate]
  have hmagic : (Block.ofBytes _ hlen).header.magic = 0 := by
    change UInt32.ofNat (ofLe (slice (List.take headerSize _) 0 4)) = 0
    rw [hbytes, hn, slice_take (by decide)]
    decide
  have hvalid : (Block.ofBytes _ hlen).validate = .error .invalidMagic := by
    rw [Block.validate, BlockHeader.validate, if_pos (by rw [hmagic]; decide)]
    rfl
  rw [hvalid] at h
  cases h

/-- Zeros behind the last block are no blocks. -/
theorem readAt_append_zeros {file : Bytes} {id : UInt64} {block : Block} {n : ℕ}
    (hwhole : blockSize ∣ file.length)
    (h : readAt (file ++ List.replicate n 0) id = .ok block) : readAt file id = .ok block := by
  obtain ⟨count, hcount⟩ := hwhole
  by_cases hid : id.toNat < count
  · have hle : id.toNat * blockSize + blockSize ≤ file.length := by
      rw [hcount, mul_comm blockSize, ← Nat.succ_mul]
      exact Nat.mul_le_mul_right _ hid
    have hslice := @slice_append_left _ (List.replicate n 0) _ _ hle
    unfold readAt at h ⊢
    simpa only [hslice] using h
  · have hle : file.length ≤ id.toNat * blockSize := by
      rw [hcount, mul_comm]
      exact Nat.mul_le_mul_right _ (not_lt.mp hid)
    have hslice : slice (file ++ List.replicate n 0) (id.toNat * blockSize) blockSize =
        List.replicate (min blockSize (n - (id.toNat * blockSize - file.length))) 0 := by
      rw [slice_of_append hle, slice, List.drop_replicate, List.take_replicate]
    exact absurd h (readAt_zeros hslice block)

theorem overwrite_gap {file bytes : Bytes} {off : ℕ} (h : file.length < off) :
    overwrite file off bytes =
      overwrite (file ++ List.replicate (off - file.length) 0) off bytes := by
  have hlen : (file ++ List.replicate (off - file.length) 0).length = off := by
    rw [List.length_append, List.length_replicate]
    omega
  rw [overwrite, overwrite, hlen, Nat.sub_self, List.replicate_zero, List.append_nil,
    List.take_of_length_le h.le, List.take_of_length_le hlen.le, List.drop_of_length_le (by omega),
    List.drop_of_length_le (by omega)]

theorem Owned.write {file : Bytes} {superblock superblock' : Superblock}
    (h : Owned ⟨file, superblock⟩) {id : UInt64} {block : Block} (hid : block.header.blockId = id) :
    Owned ⟨overwrite file (id.toNat * blockSize) block.toBytes, superblock'⟩ := by
  have hwrite (file : Bytes) (hin : id.toNat * blockSize ≤ file.length)
      (h : Owned ⟨file, superblock⟩) :
      Owned ⟨overwrite file (id.toNat * blockSize) block.toBytes, superblock'⟩ := by
    constructor
    · change blockSize ∣ (overwrite _ _ _).length
      rw [length_overwrite hin, block.length_toBytes]
      have hdvd : blockSize ∣ id.toNat * blockSize + blockSize := ⟨id.toNat + 1, by ring⟩
      rcases max_cases file.length (id.toNat * blockSize + blockSize) with ⟨hmax, -⟩ | ⟨hmax, -⟩
      · rw [hmax]
        exact h.whole
      · rw [hmax]
        exact hdvd
    · intro id' block' hread
      by_cases hne : id' = id
      · subst hne
        have hslice := @slice_overwrite file block.toBytes _ hin
        rw [block.length_toBytes] at hslice
        simp only [readAt, hslice, block.length_toBytes, dif_pos, Block.fromBytes_eq,
          Block.ofBytes_toBytes] at hread
        cases hvalid : block.validate with
        | error e =>
          rw [hvalid] at hread
          cases hread
        | ok u =>
          rw [hvalid] at hread
          cases hread
          exact hid
      · exact h.id id' block' (by rwa [readAt_overwrite_of_ne hin hne] at hread)
  by_cases hin : id.toNat * blockSize ≤ file.length
  · exact hwrite file hin h
  · rw [overwrite_gap (not_le.mp hin)]
    refine hwrite _ ?_ ⟨?_, ?_⟩
    · rw [List.length_append, List.length_replicate]
      omega
    · refine ⟨id.toNat, ?_⟩
      dsimp only
      rw [List.length_append, List.length_replicate, mul_comm blockSize]
      omega
    · exact fun id' block' hread => h.id id' block' (readAt_append_zeros h.whole hread)

theorem keeps_writeBlock {s : BlockStorage} (h : Owned s) {id : UInt64} {block : Block}
    (hid : block.header.blockId = id) : Keeps Owned (writeBlock id block) s := by
  by_cases hoffset : id.toNat * blockSize < 2 ^ 64
  · rw [Keeps, run_writeBlock hoffset]
    exact h.write hid
  · rw [Keeps, run_writeBlock_error hoffset]
    exact h

theorem keeps_readBlock {s : BlockStorage} (h : Owned s) (id : UInt64) :
    Keeps Owned (readBlock id) s ∧ ∀ block s', (readBlock id).run s = .ok block s' →
      block.header.blockId = id := by
  by_cases hoffset : id.toNat * blockSize < 2 ^ 64
  · cases hread : readAt s.file id with
    | ok block =>
      have hrun := run_readBlock hoffset hread
      refine ⟨by rwa [Keeps, hrun], fun block' s' hrun' => ?_⟩
      rw [hrun] at hrun'
      cases hrun'
      exact h.id id block hread
    | error e =>
      have hrun := run_readBlock_error hoffset hread
      refine ⟨by rwa [Keeps, hrun], fun block' s' hrun' => ?_⟩
      rw [hrun] at hrun'
      cases hrun'
  · have hrun : (readBlock id).run s = .error .overflow s := by
      rw [readBlock, run_bind_error (run_offset_error hoffset)]
    refine ⟨by rwa [Keeps, hrun], fun block' s' hrun' => ?_⟩
    rw [hrun] at hrun'
    cases hrun'

theorem header_of_setPayload {block block' : Block} {data : Bytes} {now : UInt64}
    (h : block.setPayload data now = .ok block') : block'.header.blockId = block.header.blockId ∧
      block'.header.blockType = block.header.blockType ∧
      block'.header.flags = block.header.flags := by
  unfold Block.setPayload at h
  split_ifs at h
  cases h
  exact ⟨rfl, rfl, rfl⟩

theorem keeps_flushSuperblock {s : BlockStorage} (h : Owned s) (now : UInt64) :
    Keeps Owned (flushSuperblock now) s := by
  obtain ⟨block, hblock, -, -⟩ := s.superblock.exists_toBlock now
  refine .get_bind ?_
  rw [hblock]
  exact keeps_writeBlock h (header_of_setPayload hblock).1

theorem keeps_succ {s : BlockStorage} (h : Owned s) (n : UInt64) : Keeps Owned (succ n) s := by
  by_cases hn : n.toNat + 1 < 2 ^ 64
  · rwa [Keeps, run_succ hn]
  · rwa [Keeps, run_succ_error hn]

/-- The superblock in memory is no part of the file. -/
theorem Owned.memory {s : BlockStorage} (h : Owned s) (superblock : Superblock) :
    Owned { s with superblock } := ⟨h.whole, h.id⟩

theorem keeps_writeNext {s : BlockStorage} (h : Owned s) {id : UInt64} (block : UInt64 → Block)
    (hid : ∀ sequence, (block sequence).header.blockId = id) :
    Keeps Owned (do
      let sequence ← succ (← get).superblock.journalHead
      writeBlock id (block sequence)
      return id) s := by
  refine .get_bind ((keeps_succ h _).bind fun sequence s₁ _ h₁ => ?_)
  exact (keeps_writeBlock h₁ (hid sequence)).bind fun _ _ _ h₂ => h₂

theorem keeps_allocateBlock {s : BlockStorage} (h : Owned s) (blockType : BlockType)
    (now : UInt64) : Keeps Owned (allocateBlock blockType now) s := by
  unfold allocateBlock
  refine .get_bind ?_
  refine (keeps_succ h s.superblock.blockCount).bind fun blockCount s₁ _ h₁ => .modify_bind ?_
  have hflush := keeps_flushSuperblock (h₁.memory { s₁.superblock with blockCount }) now
  refine hflush.bind fun _ s₂ _ h₂ => ?_
  exact keeps_writeNext h₂ (fun sequence => .init blockType s.superblock.blockCount sequence now)
    fun _ => rfl

theorem keeps_setPayload {s : BlockStorage} (h : Owned s) (block : Block) (data : Bytes)
    (now : UInt64) : Keeps Owned (setPayload block data now) s ∧
      ∀ block' s', (setPayload block data now).run s = .ok block' s' →
        block'.header.blockId = block.header.blockId := by
  unfold setPayload
  cases hset : block.setPayload data now with
  | ok block' =>
    refine ⟨h, fun block'' s' hrun => ?_⟩
    cases hrun
    exact (header_of_setPayload hset).1
  | error e =>
    refine ⟨h, fun block'' s' hrun => ?_⟩
    cases hrun

theorem keeps_updatePointers {s : BlockStorage} (h : Owned s) (journalId : UInt64) :
    Keeps Owned (updatePointers journalId) s := by
  refine .modify_bind (.modify_bind (.get_bind ?_))
  split_ifs
  · exact (keeps_succ (h.memory _) _).bind fun _ _ _ h' => h'.memory _
  · exact (keeps_succ (h.memory _) _).bind fun _ _ _ h' => h'.memory _

theorem keeps_appendJournal {s : BlockStorage} (h : Owned s) (entryData : Bytes) (now : UInt64) :
    Keeps Owned (appendJournal entryData now) s := by
  refine (keeps_allocateBlock h _ now).bind fun journalId s₁ _ h₁ => ?_
  obtain ⟨hkeeps, hread⟩ := keeps_readBlock h₁ journalId
  refine hkeeps.bind fun block s₂ hrun h₂ => ?_
  obtain ⟨hset, hid⟩ := keeps_setPayload h₂ block entryData now
  refine hset.bind fun block' s₃ hrun' h₃ => .get_bind ?_
  have hblock : block'.header.blockId = journalId :=
    (hid _ _ hrun').trans (hread _ _ hrun)
  refine (keeps_succ h₃ _).bind fun sequence s₄ _ h₄ => .get_bind ?_
  refine Keeps.bind (keeps_writeBlock h₄ hblock) fun _ s₅ _ h₅ => ?_
  refine (keeps_updatePointers h₅ journalId).bind fun _ s₆ _ h₆ => ?_
  exact (keeps_flushSuperblock h₆ now).bind fun _ _ _ h₇ => h₇

theorem keeps_freeBlock {s : BlockStorage} (h : Owned s) (id now : UInt64) :
    Keeps Owned (freeBlock id now) s := by
  unfold freeBlock
  split_ifs
  · exact h
  · obtain ⟨hkeeps, hread⟩ := keeps_readBlock h id
    refine hkeeps.bind fun block s₁ hrun h₁ => .get_bind ?_
    have hid := hread _ _ hrun
    have hfree : (free block s₁.superblock.freeListHead).header.blockId = id := hid
    refine (keeps_writeBlock h₁ hfree).bind fun _ s₂ _ h₂ => .modify_bind ?_
    exact keeps_flushSuperblock (h₂.memory _) now

theorem keeps_writeDocument {s : BlockStorage} (h : Owned s) (id sequence : UInt64) (data : Bytes)
    (now : UInt64) : Keeps Owned (writeDocument id sequence data now) s := by
  obtain ⟨hset, hid⟩ := keeps_setPayload h (.init .document id sequence now) data now
  exact hset.bind fun block s₁ hrun h₁ => keeps_writeBlock h₁ (hid _ _ hrun)

theorem keeps_perform {s : BlockStorage} (h : Owned s) (operation : Operation) :
    Keeps Owned operation.perform s := by
  cases operation with
  | flushSuperblock now => exact keeps_flushSuperblock h now
  | allocateBlock blockType now => exact (keeps_allocateBlock h blockType now).discard
  | appendJournal entryData now => exact (keeps_appendJournal h entryData now).discard
  | writeDocument blockId sequence data now =>
    exact keeps_writeDocument h blockId sequence data now
  | freeBlock blockId now => exact keeps_freeBlock h blockId now

theorem owned_create {s : BlockStorage} {now : UInt64} {reserved : Bytes}
    {hreserved : reserved.length = 3968} (h : openFile none now reserved hreserved = .ok s) :
    Owned s := by
  obtain ⟨block, hblock, -, -⟩ := (Superblock.init now reserved hreserved).exists_toBlock now
  simp only [openFile, hblock, Except.ok.injEq] at h
  subst h
  have hnone : Owned ⟨[], .init now reserved hreserved⟩ := by
    refine ⟨dvd_zero _, fun id block hread => absurd hread (readAt_zeros (n := 0) ?_ block)⟩
    rw [slice, List.drop_nil, List.take_nil, List.replicate_zero]
  have hid : block.header.blockId = 0 := (header_of_setPayload hblock).1
  have hwrite : Owned ⟨overwrite [] ((0 : UInt64).toNat * blockSize) block.toBytes,
      .init now reserved hreserved⟩ := hnone.write hid
  have hoff : (0 : UInt64).toNat * blockSize = 0 := Nat.zero_mul _
  rwa [hoff, overwrite_eq (Nat.zero_le _), List.take_zero, List.nil_append, List.drop_nil,
    List.append_nil] at hwrite

theorem file_openFile {file : Bytes} {s : BlockStorage} {now : UInt64} {reserved : Bytes}
    {hreserved : reserved.length = 3968} (h : openFile (some file) now reserved hreserved = .ok s) :
    s.file = file := by
  simp only [openFile, bind, Except.bind] at h
  split at h
  · cases h
  · split at h
    · cases h
    · split at h
      · cases h
      · cases h
        rfl

/-- In a storage that has been written to every block carries its own id. -/
theorem Stored.owned {s : BlockStorage} (h : Stored s) : Owned s := by
  induction h with
  | create hopen => exact owned_create hopen
  | @reopen _ _ _ s s' _ hopen ih =>
    have hfile := file_openFile hopen
    exact ⟨hfile ▸ ih.whole, fun id block hread => ih.id id block (hfile ▸ hread)⟩
  | reserve _ ih => exact ih.memory _
  | ok _ hrun ih => exact (keeps_perform ih _).ok hrun
  | error _ hrun ih => exact (keeps_perform ih _).error hrun

/-! ### What a client reads -/

/-- A byte as the code point with its number. -/
def codePoint (byte : UInt8) : Char := .ofNat byte.toNat

def textOf (bytes : Bytes) : String := .ofList (bytes.map codePoint)

/-- Each code point below 256 taken as one byte. -/
def bytesOf (text : String) : Option Bytes :=
  text.toList.mapM fun c => if c.toNat < 256 then some (.ofNat c.toNat) else none

theorem toNat_codePoint (byte : UInt8) : (codePoint byte).toNat = byte.toNat := by
  have hlt := byte.toNat_lt
  have hvalid : byte.toNat.isValidChar := .inl (by omega)
  rw [codePoint, Char.toNat_ofNat, if_pos hvalid]

theorem bytesOf_textOf (bytes : Bytes) : bytesOf (textOf bytes) = some bytes := by
  rw [bytesOf, textOf, String.toList_ofList]
  induction bytes with
  | nil => rfl
  | cons byte bytes ih =>
    have hlt : (codePoint byte).toNat < 256 := by
      rw [toNat_codePoint]
      exact byte.toNat_lt
    rw [List.map_cons, List.mapM_cons, ih, if_pos hlt, toNat_codePoint, UInt8.ofNat_toNat]
    rfl

theorem hexText_eq (byte : UInt8) : hexText byte =
    ['0', '0', Nat.digitChar (byte.toNat / 16), Nat.digitChar (byte.toNat % 16)] := by
  have hlt := byte.toNat_lt
  by_cases h : byte.toNat < 16
  · rw [hexText, Nat.toDigits_of_lt_base h, Nat.div_eq_of_lt h, Nat.mod_eq_of_lt h]
    rfl
  · rw [hexText, Nat.toDigits_of_base_le (by decide) (not_lt.mp h),
      Nat.toDigits_of_lt_base (n := byte.toNat / 16) (by omega)]
    rfl

theorem exists_escaped {byte : UInt8} (e c : Char) (hbyte : byte.toNat = c.toNat)
    (hu : e ≠ 'u') (he : e.toNat < 128) (hescaped : escaped e = some c)
    (happend : ∀ result, appendByte result byte = result ++ ascii ['\\', e]) :
    ∃ piece, Spells piece (codePoint byte) ∧ (∀ c ∈ piece, c.toNat < 128) ∧
      ∀ result, appendByte result byte = result ++ ascii piece := by
  have hcode : codePoint byte = c := by rw [codePoint, hbyte, Char.ofNat_toNat]
  rw [hcode]
  exact ⟨_, spells_escaped hu hescaped, by simp [he], happend⟩

/-- What is appended for a byte. -/
theorem exists_appendByte (byte : UInt8) : ∃ piece, Spells piece (codePoint byte) ∧
    (∀ c ∈ piece, c.toNat < 128) ∧ ∀ result, appendByte result byte = result ++ ascii piece := by
  by_cases hquote : byte = 0x22
  · exact exists_escaped '"' '"' (by rw [hquote]; rfl) (by decide) (by decide) (by decide)
      fun _ => by rw [appendByte, if_pos hquote]
  by_cases hslash : byte = 0x5C
  · exact exists_escaped '\\' '\\' (by rw [hslash]; rfl) (by decide) (by decide) (by decide)
      fun _ => by rw [appendByte, if_neg hquote, if_pos hslash]
  by_cases hline : byte = 0x0A
  · exact exists_escaped 'n' '\n' (by rw [hline]; rfl) (by decide) (by decide) (by decide)
      fun _ => by rw [appendByte, if_neg hquote, if_neg hslash, if_pos hline]
  by_cases hreturn : byte = 0x0D
  · exact exists_escaped 'r' '\r' (by rw [hreturn]; rfl) (by decide) (by decide) (by decide)
      fun _ => by rw [appendByte, if_neg hquote, if_neg hslash, if_neg hline, if_pos hreturn]
  by_cases htab : byte = 0x09
  · exact exists_escaped 't' '\t' (by rw [htab]; rfl) (by decide) (by decide) (by decide)
      fun _ => by
        rw [appendByte, if_neg hquote, if_neg hslash, if_neg hline, if_neg hreturn, if_pos htab]
  by_cases hplain : 0x20 ≤ byte ∧ byte < 0x7F
  · have hcode := toNat_codePoint byte
    have hlow : 0x20 ≤ byte.toNat := UInt8.le_iff_toNat_le.mp hplain.1
    have hhigh : byte.toNat < 0x7F := UInt8.lt_iff_toNat_lt.mp hplain.2
    have hne {c : Char} {b : UInt8} (hb : b.toNat = c.toNat) (h : byte ≠ b) :
        codePoint byte ≠ c := by
      rintro rfl
      rw [hcode] at hb
      exact h (UInt8.toNat_inj.mp hb.symm)
    refine ⟨[codePoint byte], spells_plain (hne rfl hquote) (hne rfl hslash) (by omega), ?_, ?_⟩
    · intro c hc
      rw [List.mem_singleton.mp hc, hcode]
      omega
    · intro result
      rw [appendByte, if_neg hquote, if_neg hslash, if_neg hline, if_neg hreturn, if_neg htab,
        if_pos hplain, ascii, List.map_singleton, hcode, UInt8.ofNat_toNat]
  · have hlt := byte.toNat_lt
    have hhi : byte.toNat / 16 < 16 := by omega
    have hlo : byte.toNat % 16 < 16 := by omega
    have hspells := spells_unicode hhi hlo
    rw [Nat.div_add_mod' byte.toNat 16] at hspells
    have hdigit : ∀ d < 16, (Nat.digitChar d).toNat < 128 := by decide
    refine ⟨_, hspells, ?_, fun result => ?_⟩
    · simp [hdigit _ hhi, hdigit _ hlo]
    · rw [appendByte, if_neg hquote, if_neg hslash, if_neg hline, if_neg hreturn, if_neg htab,
        if_neg hplain, hexText_eq, bufPrint, if_pos (by simp [ascii])]
      rfl

theorem exists_foldl_appendByte (payload : Bytes) : ∃ pieces,
    List.Forall₂ Spells pieces (payload.map codePoint) ∧
      (∀ c ∈ pieces.flatten, c.toNat < 128) ∧
      ∀ result, payload.foldl appendByte result = result ++ ascii pieces.flatten := by
  induction payload with
  | nil => exact ⟨[], .nil, by simp, fun result => (List.append_nil result).symm⟩
  | cons byte payload ih =>
    obtain ⟨piece, hspells, hascii, happend⟩ := exists_appendByte byte
    obtain ⟨pieces, hpieces, hrest, hfoldl⟩ := ih
    refine ⟨piece :: pieces, .cons hspells hpieces, ?_, fun result => ?_⟩
    · intro c hc
      rw [List.flatten_cons, List.mem_append] at hc
      exact hc.elim (hascii c) (hrest c)
    · rw [List.foldl_cons, happend, hfoldl, List.flatten_cons, ascii, ascii, ascii,
        List.map_append, List.append_assoc]

/-- The object of a block. -/
def Block.toJson (block : Block) : Json :=
  .object [("block_id", .number block.header.blockId.toNat),
    ("size", .number block.getPayload.length), ("data", .string (textOf block.getPayload))]

theorem length_parts {a m b n c : List Char} (ha : a.length = 12) (hm : m.length ≤ 20)
    (hb : b.length = 8) (hn : n.length ≤ 10) (hc : c.length = 8) :
    (ascii (a ++ (m ++ (b ++ (n ++ c))))).length ≤ 80 := by
  simp only [ascii, List.length_map, List.length_append]
  omega

theorem length_headerText (header : BlockHeader) : (ascii (headerText header)).length ≤ 80 := by
  have hid : header.blockId.toNat < 10 ^ 20 := header.blockId.toNat_lt.trans (by norm_num)
  have hlen : header.payloadLen.toNat < 10 ^ 10 := header.payloadLen.toNat_lt.trans (by norm_num)
  exact length_parts (by decide) ((Nat.length_toDigits_le_iff (by decide) (by decide)).mpr hid)
    (by decide) ((Nat.length_toDigits_le_iff (by decide) (by decide)).mpr hlen) (by decide)

/-- The text of an object with its three fields. -/
def objectText (id size data : List Char) : List Char :=
  '\x7b' :: (List.intercalate [',']
    ['"' :: ("block_id".toList ++ '"' :: ':' :: id), '"' :: ("size".toList ++ '"' :: ':' :: size),
      '"' :: ("data".toList ++ '"' :: ':' :: ('"' :: (data ++ ['"'])))] ++ ['\x7d'])

theorem objectText_eq (id size data : List Char) : objectText id size data =
    ("\x7b\"block_id\":".toList ++ (id ++ (",\"size\":".toList ++
      (size ++ ",\"data\":".toList)))) ++ (['"'] ++ (data ++ ['"', '\x7d'])) := by
  simp [objectText, List.intercalate]

theorem objectText_ascii {id size data : List Char} (hid : ∀ c ∈ id, c.toNat < 128)
    (hsize : ∀ c ∈ size, c.toNat < 128) (hdata : ∀ c ∈ data, c.toNat < 128) :
    ∀ c ∈ objectText id size data, c.toNat < 128 := by
  rw [objectText_eq]
  simp only [List.forall_mem_append]
  exact ⟨⟨by simp, hid, by simp, hsize, by simp⟩, by simp, hdata, by simp⟩

theorem toDigits_ascii (n : ℕ) : ∀ c ∈ Nat.toDigits 10 n, c.toNat < 128 := by
  intro c hc
  have hdigit := Nat.isDigit_of_mem_toDigits (by decide) (by decide) hc
  simp only [Char.isDigit, Bool.and_eq_true, decide_eq_true_eq] at hdigit
  exact lt_of_le_of_lt (UInt32.le_iff_toNat_le.mp hdigit.2) (by decide)

theorem ascii_quoted (result : Bytes) (header data : List Char) :
    result ++ ascii header ++ ascii ['"'] ++ ascii data ++ ascii ['"', '\x7d'] =
      result ++ ascii (header ++ (['"'] ++ (data ++ ['"', '\x7d']))) := by
  simp only [ascii, List.map_append, List.append_assoc]

/-- What is appended for a block. -/
theorem exists_object {block : Block} (h : block.header.payloadLen.toNat ≤ payloadSize) :
    ∃ text, Reads text (Block.toJson block) ∧ (∀ c ∈ text, c.toNat < 128) ∧
      text.head? = some '\x7b' ∧
      ∀ result, block.getPayload.foldl appendByte
        (result ++ ascii (headerText block.header) ++ ascii ['"']) ++ ascii ['"', '\x7d'] =
          result ++ ascii text := by
  obtain ⟨pieces, hpieces, hascii, hfoldl⟩ := exists_foldl_appendByte block.getPayload
  have hlen : block.getPayload.length = block.header.payloadLen.toNat := by
    rw [Block.getPayload, List.length_take, block.length_payload]
    exact min_eq_left h
  refine ⟨objectText (Nat.toDigits 10 block.header.blockId.toNat)
    (Nat.toDigits 10 block.header.payloadLen.toNat) pieces.flatten, ?_,
    objectText_ascii (toDigits_ascii _) (toDigits_ascii _) hascii, rfl, fun result => ?_⟩
  · rw [Block.toJson, hlen]
    exact reads_object (.cons (readsField_plain (by simp) (reads_number _))
      (.cons (readsField_plain (by simp) (reads_number _))
        (.cons (readsField_plain (by simp) (reads_string hpieces)) .nil))) (List.cons_ne_nil _ _)
  · rw [hfoldl, ascii_quoted, objectText_eq]
    rfl

/-! ### The loop -/

/-- The block that is listed at an id. -/
def liveAt (s : BlockStorage) (blockType : UInt16) (id : ℕ) : Option Block :=
  match readAt s.file (.ofNat id) with
  | .error _ => none
  | .ok block =>
    if block.header.blockType = blockType ∧ block.header.flags &&& 0x08 = 0 then some block
    else none

theorem readAt_ne_overflow (file : Bytes) (id : UInt64) : readAt file id ≠ .error .overflow := by
  intro h
  simp only [readAt] at h
  split_ifs at h with hlen
  · cases hblock : Block.fromBytes _ hlen with
    | ok block =>
      rw [hblock] at h
      cases h
    | error e =>
      rw [hblock] at h
      cases h
  · cases h

theorem run_tryRead {s : BlockStorage} {id : UInt64} (h : id.toNat * blockSize < 2 ^ 64) :
    (tryRead id).run s = .ok (readAt s.file id).toOption s := by
  cases hread : readAt s.file id with
  | ok block =>
    have hrun : (some <$> readBlock id).run s = .ok (some block) s := by
      rw [map_eq_pure_bind, run_bind_ok (run_readBlock h hread)]
      rfl
    change EStateM.tryCatch _ _ s = _
    rw [EStateM.tryCatch, show (some <$> readBlock id) s = _ from hrun]
    rfl
  | error e =>
    have hne : e ≠ .overflow := fun heq => readAt_ne_overflow s.file id (heq ▸ hread)
    have hrun : (some <$> readBlock id).run s = .error e s := by
      rw [map_eq_pure_bind, run_bind_error (run_readBlock_error h hread)]
    change EStateM.tryCatch _ _ s = _
    rw [EStateM.tryCatch, show (some <$> readBlock id) s = _ from hrun]
    simp only [if_neg hne]
    rfl

/-- The listing with one more object. -/
def Listing.object (self : Listing) (text : List Char) : Listing where
  result := (if self.first then self.result else self.result ++ ascii [',']) ++ ascii text
  first := false

theorem append_eq {block : Block} {blockType : UInt16} {text : List Char}
    (htype : block.header.blockType = blockType) (hflag : block.header.flags &&& 0x08 = 0)
    (htext : ∀ result, block.getPayload.foldl appendByte
      (result ++ ascii (headerText block.header) ++ ascii ['"']) ++ ascii ['"', '\x7d'] =
        result ++ ascii text) (self : Listing) : self.append blockType block = self.object text := by
  rw [Listing.append, if_neg (not_not.mpr htype), if_neg (not_not.mpr hflag), bufPrint,
    if_pos (length_headerText block.header), Listing.object, ← htext]

theorem append_skipped {block : Block} {blockType : UInt16}
    (h : ¬ (block.header.blockType = blockType ∧ block.header.flags &&& 0x08 = 0))
    (self : Listing) : self.append blockType block = self := by
  rw [Listing.append]
  by_cases htype : block.header.blockType = blockType
  · have hflag : block.header.flags &&& 0x08 ≠ 0 := fun hflag => h ⟨htype, hflag⟩
    rw [if_neg (not_not.mpr htype), if_pos hflag]
  · rw [if_pos htype]

/-- A text that is read as the value, in ASCII and with a brace in front. -/
structure Object (text : List Char) (json : Json) : Prop where
  reads : Reads text json
  ascii : ∀ c ∈ text, c.toNat < 128
  head : text.head? = some '\x7b'

theorem payloadLen_le_of_readAt {file : Bytes} {id : UInt64} {block : Block}
    (h : readAt file id = .ok block) : block.header.payloadLen.toNat ≤ payloadSize := by
  simp only [readAt] at h
  split_ifs at h with hlen
  cases hblock : Block.fromBytes _ hlen with
  | error e =>
    rw [hblock] at h
    cases h
  | ok block' =>
    rw [hblock] at h
    cases h
    obtain ⟨hvalid, rfl⟩ := Block.eq_of_fromBytes hblock
    exact Block.payloadLen_le hvalid

theorem exists_visits (s : BlockStorage) (blockType : UInt16) (ids : List ℕ)
    (hfits : ∀ id ∈ ids, (UInt64.ofNat id).toNat * blockSize < 2 ^ 64) :
    ∃ texts, List.Forall₂ Object texts
        ((ids.filterMap (s.liveAt blockType)).map Block.toJson) ∧
      ∀ listing, (ids.foldlM (Listing.visit blockType) listing).run s =
        .ok (texts.foldl Listing.object listing) s := by
  induction ids with
  | nil => exact ⟨[], .nil, fun _ => rfl⟩
  | cons id ids ih =>
    obtain ⟨texts, htexts, hrest⟩ := ih fun id hid => hfits id (List.mem_cons_of_mem _ hid)
    have hrun := run_tryRead (s := s) (hfits id List.mem_cons_self)
    have hvisit (listing : Listing) : (Listing.visit blockType listing id).run s =
        .ok (match (readAt s.file (.ofNat id)).toOption with
          | none => listing
          | some block => listing.append blockType block) s := by
      rw [Listing.visit, run_bind_ok hrun]
      cases (readAt s.file (.ofNat id)).toOption <;> rfl
    have hskip (hnone : s.liveAt blockType id = none)
        (hsame : ∀ listing : Listing, (match (readAt s.file (.ofNat id)).toOption with
          | none => listing
          | some block => listing.append blockType block) = listing) :
        ∃ texts, List.Forall₂ Object texts
            (((id :: ids).filterMap (s.liveAt blockType)).map Block.toJson) ∧
          ∀ listing, ((id :: ids).foldlM (Listing.visit blockType) listing).run s =
            .ok (texts.foldl Listing.object listing) s := by
      refine ⟨texts, by rwa [List.filterMap_cons_none hnone], fun listing => ?_⟩
      rw [List.foldlM_cons, run_bind_ok (hvisit listing), hsame]
      exact hrest listing
    cases hread : readAt s.file (.ofNat id) with
    | error e =>
      refine hskip ?_ ?_
      · rw [liveAt, hread]
      · intro listing
        rw [hread]
        rfl
    | ok block =>
      by_cases hlive : block.header.blockType = blockType ∧ block.header.flags &&& 0x08 = 0
      · obtain ⟨text, hreads, hascii, hhead, htext⟩ := exists_object (payloadLen_le_of_readAt hread)
        have hsome : s.liveAt blockType id = some block := by
          rw [liveAt, hread]
          exact if_pos hlive
        refine ⟨text :: texts, ?_, fun listing => ?_⟩
        · rw [List.filterMap_cons_some hsome, List.map_cons]
          exact .cons ⟨hreads, hascii, hhead⟩ htexts
        · rw [List.foldlM_cons, run_bind_ok (hvisit listing), hread]
          change (ids.foldlM (Listing.visit blockType) (listing.append blockType block)).run s = _
          rw [append_eq hlive.1 hlive.2 htext]
          exact hrest _
      · refine hskip ?_ ?_
        · rw [liveAt, hread]
          exact if_neg hlive
        · intro listing
          rw [hread]
          exact append_skipped hlive listing

/-- Separated by commas, the first one as the listing stands. -/
theorem foldl_object (texts : List (List Char)) (result : Bytes) :
    texts.foldl Listing.object ⟨result, false⟩ =
      ⟨result ++ ascii (texts.flatMap (',' :: ·)), false⟩ := by
  induction texts generalizing result with
  | nil => simp [ascii]
  | cons text texts ih =>
    rw [List.foldl_cons, Listing.object, ih]
    simp [ascii]

theorem intercalate_eq (text : List Char) (texts : List (List Char)) :
    List.intercalate [','] (text :: texts) = text ++ texts.flatMap (',' :: ·) := by
  induction texts generalizing text with
  | nil => simp [List.intercalate]
  | cons next texts ih =>
    rw [intercalate_cons, ih, List.flatMap_cons]
    rfl

theorem result_foldl_object (texts : List (List Char)) :
    (texts.foldl Listing.object ⟨ascii ['['], true⟩).result ++ ascii [']'] =
      ascii ('[' :: (List.intercalate [','] texts ++ [']'])) := by
  cases texts with
  | nil => rfl
  | cons text texts =>
    rw [List.foldl_cons, Listing.object, foldl_object, intercalate_eq]
    simp [ascii]

/-- The blocks that are listed. -/
def live (s : BlockStorage) (blockType : UInt16) : List Block :=
  (List.range' 1 (s.superblock.blockCount.toNat - 1)).filterMap (s.liveAt blockType)

theorem toNat_of_mem_ids {s : BlockStorage} {id : ℕ}
    (h : id ∈ List.range' 1 (s.superblock.blockCount.toNat - 1)) :
    (UInt64.ofNat id).toNat = id ∧ 0 < id ∧ id < s.superblock.blockCount.toNat := by
  obtain ⟨i, hi, rfl⟩ := List.mem_range'.mp h
  have hlt := s.superblock.blockCount.toNat_lt
  exact ⟨UInt64.toNat_ofNat_of_lt' (by rw [UInt64.size]; omega), by omega, by omega⟩

/-- The text is read as an array of the objects. -/
theorem readBlocks_read {s : BlockStorage}
    (hfits : s.superblock.blockCount.toNat * blockSize ≤ 2 ^ 64) (blockType : UInt16) :
    ∃ bytes, (readBlocks blockType).run s = .ok bytes s ∧
      read bytes = some (.array ((s.live blockType).map Block.toJson)) := by
  have hids : ∀ id ∈ List.range' 1 (s.superblock.blockCount.toNat - 1),
      (UInt64.ofNat id).toNat * blockSize < 2 ^ 64 := by
    intro id hid
    obtain ⟨hnat, -, hlt⟩ := toNat_of_mem_ids hid
    rw [hnat]
    rw [blockSize] at hfits ⊢
    omega
  obtain ⟨texts, htexts, hrun⟩ := exists_visits s blockType _ hids
  have hobject : ∀ text ∈ texts, ∃ json, Object text json := by
    intro text htext
    obtain ⟨i, hi, rfl⟩ := List.getElem_of_mem htext
    exact ⟨_, htexts.get hi (htexts.length_eq ▸ hi)⟩
  refine ⟨(texts.foldl Listing.object ⟨ascii ['['], true⟩).result ++ ascii [']'], ?_, ?_⟩
  · rw [readBlocks, run_get_bind, run_bind_ok (hrun _)]
    rfl
  · have hascii : ∀ c ∈ '[' :: (List.intercalate [','] texts ++ [']']), c.toNat < 128 := by
      rw [List.forall_mem_cons, List.forall_mem_append]
      refine ⟨by decide, ?_, by simp⟩
      cases texts with
      | nil => simp [List.intercalate]
      | cons text texts =>
        rw [intercalate_eq, List.forall_mem_append, List.forall_mem_flatMap]
        have hall (text' : List Char) (htext : text' ∈ text :: texts) :
            ∀ c ∈ text', c.toNat < 128 := by
          obtain ⟨json, hjson⟩ := hobject text' htext
          exact hjson.ascii
        refine ⟨hall text List.mem_cons_self, fun text' htext => ?_⟩
        rw [List.forall_mem_cons]
        exact ⟨by decide, hall text' (List.mem_cons_of_mem _ htext)⟩
    rw [result_foldl_object, read_ascii hascii]
    refine Reads.parse (reads_array (htexts.imp fun _ _ h => h.reads) fun text htext => ?_)
    obtain ⟨json, hjson⟩ := hobject text htext
    exact ⟨_, hjson.head, by decide, by decide⟩

/-- A block that is stored and not deleted. -/
structure Live (s : BlockStorage) (blockType : UInt16) (block : Block) : Prop where
  pos : 0 < block.header.blockId
  counted : block.header.blockId < s.superblock.blockCount
  stored : readAt s.file block.header.blockId = .ok block
  type : block.header.blockType = blockType
  flag : block.header.flags &&& 0x08 = 0

theorem liveAt_eq_some {s : BlockStorage} {blockType : UInt16} {id : ℕ} {block : Block} :
    s.liveAt blockType id = some block ↔ readAt s.file (.ofNat id) = .ok block ∧
      block.header.blockType = blockType ∧ block.header.flags &&& 0x08 = 0 := by
  unfold liveAt
  cases hread : readAt s.file (.ofNat id) with
  | error e => simp
  | ok block' =>
    dsimp only
    constructor
    · intro h
      split_ifs at h with hlive
      cases h
      exact ⟨rfl, hlive⟩
    · rintro ⟨h, hlive⟩
      cases h
      exact if_pos hlive

theorem mem_live {s : BlockStorage} (h : Owned s) {blockType : UInt16} {block : Block} :
    block ∈ s.live blockType ↔ s.Live blockType block := by
  rw [live, List.mem_filterMap]
  constructor
  · rintro ⟨id, hid, hsome⟩
    obtain ⟨hread, htype, hflag⟩ := liveAt_eq_some.mp hsome
    obtain ⟨hnat, hpos, hlt⟩ := toNat_of_mem_ids hid
    have hown := h.id _ _ hread
    refine ⟨?_, ?_, by rwa [hown], htype, hflag⟩
    · rw [hown, UInt64.lt_iff_toNat_lt, hnat]
      exact hpos
    · rwa [hown, UInt64.lt_iff_toNat_lt, hnat]
  · intro hlive
    have hpos := UInt64.lt_iff_toNat_lt.mp hlive.pos
    have hcounted := UInt64.lt_iff_toNat_lt.mp hlive.counted
    rw [UInt64.toNat_zero] at hpos
    have hmem : block.header.blockId.toNat ∈ List.range' 1 (s.superblock.blockCount.toNat - 1) :=
      List.mem_range'.mpr ⟨block.header.blockId.toNat - 1, by omega, by omega⟩
    refine ⟨_, hmem, liveAt_eq_some.mpr ⟨?_, hlive.type, hlive.flag⟩⟩
    rw [UInt64.ofNat_toNat]
    exact hlive.stored

theorem live_increasing {s : BlockStorage} (h : Owned s) (blockType : UInt16) :
    ((s.live blockType).map fun block => block.header.blockId).Pairwise (· < ·) := by
  rw [live, List.pairwise_map, List.pairwise_filterMap]
  refine List.Pairwise.imp_of_mem ?_ List.pairwise_lt_range'
  intro id id' hid hid' hlt block hblock block' hblock'
  rw [h.id _ _ (liveAt_eq_some.mp hblock).1, h.id _ _ (liveAt_eq_some.mp hblock').1,
    UInt64.lt_iff_toNat_lt, (toNat_of_mem_ids hid).1, (toNat_of_mem_ids hid').1]
  exact hlt

/-- The text of a listing is an array with an object for each live block, in the order of the ids,
and the payloads are read back from it. -/
theorem listing_lossless {s : BlockStorage} (h : Stored s)
    (hfits : s.superblock.blockCount.toNat * blockSize ≤ 2 ^ 64) (blockType : UInt16) :
    ∃ (bytes : Bytes) (blocks : List Block), (readBlocks blockType).run s = .ok bytes s ∧
      read bytes = some (.array (blocks.map Block.toJson)) ∧
      (blocks.map fun block => block.header.blockId).Pairwise (· < ·) ∧
      (∀ block, block ∈ blocks ↔ s.Live blockType block) ∧
      ∀ block ∈ blocks, bytesOf (textOf block.getPayload) = some block.getPayload := by
  obtain ⟨bytes, hrun, hread⟩ := readBlocks_read hfits blockType
  exact ⟨bytes, s.live blockType, hrun, hread, live_increasing h.owned blockType,
    fun _ => mem_live h.owned, fun _ _ => bytesOf_textOf _⟩

/-- A document whose payload is a quote and a byte above the ASCII range. -/
theorem exists_document : ∃ s block, Stored s ∧ s.superblock.blockCount = 2 ∧
    s.Live BlockType.document.toInt block ∧ block.getPayload = [0x22, 0xFF] := by
  obtain ⟨s, hopen, hjournal, hcount, -⟩ := openFile_new 0 (List.replicate 3968 0)
    List.length_replicate
  have hlen : s.file.length = 4096 := by
    rw [hjournal.consistent.length, hcount]
    rfl
  obtain ⟨block, hset, hpayload⟩ := Block.exists_setPayload (.init .document 1 1 0) 0
    (show ([0x22, 0xFF] : Bytes).length ≤ payloadSize by decide)
  have hvalid : block.validate = .ok () := Block.validate_setPayload rfl rfl hset
  have hstored := (Stored.create hopen).reserve
  rw [hcount] at hstored
  have hrun : (Operation.writeDocument 1 1 [0x22, 0xFF] 0).perform.run
      { s with superblock := { s.superblock with blockCount := 1 + 1 } } = .ok ()
        ⟨overwrite s.file ((1 : UInt64).toNat * blockSize) block.toBytes,
          { s.superblock with blockCount := 1 + 1 }⟩ := by
    have hpay : (setPayload (.init .document 1 1 0) [0x22, 0xFF] 0).run
        { s with superblock := { s.superblock with blockCount := 1 + 1 } } =
          .ok block { s with superblock := { s.superblock with blockCount := 1 + 1 } } := by
      rw [setPayload, hset]
      rfl
    exact (run_bind_ok hpay).trans (run_writeBlock (by decide))
  have hin : (1 : UInt64).toNat * blockSize ≤ s.file.length := by
    rw [hlen]
    decide
  obtain ⟨hid, htype, hflags⟩ := header_of_setPayload hset
  have hid : block.header.blockId = 1 := hid
  refine ⟨_, block, hstored.ok hrun, rfl, ⟨?_, ?_, ?_, htype, ?_⟩, hpayload⟩
  · rw [hid]
    decide
  · rw [hid]
    exact (by decide : (1 : UInt64) < 1 + 1)
  · rw [hid]
    exact readAt_overwrite hin hvalid
  · rw [hflags]
    exact (by decide : (0 : UInt32) &&& 0x08 = 0)

/-- The quote is escaped, and the byte above the ASCII range is written with four digits. -/
theorem listing_lossless_document : ∃ s, Stored s ∧ ∃ (bytes : Bytes) (blocks : List Block),
    (readBlocks BlockType.document.toInt).run s = .ok bytes s ∧
      read bytes = some (.array (blocks.map Block.toJson)) ∧
      (blocks.map fun block => block.header.blockId).Pairwise (· < ·) ∧
      (∀ block, block ∈ blocks ↔ s.Live BlockType.document.toInt block) ∧
      (∃ block ∈ blocks, block.getPayload = [0x22, 0xFF]) ∧
      ∀ block ∈ blocks, bytesOf (textOf block.getPayload) = some block.getPayload := by
  obtain ⟨s, block, hstored, hcount, hlive, hpayload⟩ := exists_document
  have hfits : s.superblock.blockCount.toNat * blockSize ≤ 2 ^ 64 := by
    rw [hcount]
    decide
  obtain ⟨bytes, blocks, hrun, hread, horder, hmem, hback⟩ :=
    listing_lossless hstored hfits BlockType.document.toInt
  have hlisted : block ∈ blocks := (hmem block).mpr hlive
  exact ⟨s, hstored, bytes, blocks, hrun, hread, horder, hmem, ⟨block, hlisted, hpayload⟩, hback⟩

end BlockStorage

end NextgenDatabases.Lithoglyph.Disk
