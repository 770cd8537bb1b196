import NextgenDatabases.Foundations.Crc

/-!
# Blocks

The block format of the Zig storage: a header of 64 bytes, a payload of 4032 and a CRC-32C over
the part of the payload that is in use.
-/
namespace NextgenDatabases.Lithoglyph

open Foundations

def blockSize : ℕ := 4096
def headerSize : ℕ := 64
def payloadSize : ℕ := blockSize - headerSize

def blockMagic : UInt32 := 0x4C474800
def blockVersion : UInt16 := 1

inductive BlockType
  | free | superblock | collectionMeta | document | documentOverflow | edgeMeta | edge
  | indexRoot | indexInternal | indexLeaf | journalSegment | schema | constraint | migration
  deriving DecidableEq

/-- `@intFromEnum` -/
def BlockType.toInt : BlockType → UInt16
  | .free => 0x0000
  | .superblock => 0x0001
  | .collectionMeta => 0x0010
  | .document => 0x0011
  | .documentOverflow => 0x0012
  | .edgeMeta => 0x0020
  | .edge => 0x0021
  | .indexRoot => 0x0030
  | .indexInternal => 0x0031
  | .indexLeaf => 0x0032
  | .journalSegment => 0x0040
  | .schema => 0x0050
  | .constraint => 0x0051
  | .migration => 0x0060

inductive BlockError
  | invalidMagic | unsupportedVersion | payloadTooLarge | checksumMismatch
  deriving DecidableEq

/-! ### CRC-32C -/

/-- The reflected polynomial. -/
def crcPoly : UInt32 := 0x82F63B78

def crcStep (crc : UInt32) : UInt32 :=
  if crc &&& 1 ≠ 0 then (crc >>> 1) ^^^ crcPoly else crc >>> 1

def crcTable : Vector UInt32 256 := .ofFn fun i =>
  (List.range 8).foldl (fun crc _ => crcStep crc) (.ofNat i)

/-- A round of the loop of `crc32c`. -/
def crcRound (crc : UInt32) (b : UInt8) : UInt32 :=
  let index := ((crc ^^^ b.toUInt32) &&& 0xFF).toUInt8
  have hindex : index.toNat < 256 := index.toNat_lt
  (crc >>> 8) ^^^ crcTable[index.toNat]

/-- `len` is at most the length of `data` in every call. -/
def crc32c (data : Bytes) (len : UInt32) : UInt32 :=
  (data.take len.toNat).foldl crcRound 0xFFFFFFFF ^^^ 0xFFFFFFFF

/-- Bitwise CRC-32C. -/
def castagnoli (data : Bytes) : BitVec 32 := Crc.check crcPoly.toBitVec data

theorem and_one_ne_zero (crc : UInt32) : crc &&& 1 ≠ 0 ↔ crc.toBitVec.getLsbD 0 = true := by
  have hbit : (crc &&& 1).toBitVec = (BitVec.ofBool (crc.toBitVec.getLsbD 0)).setWidth 32 := by
    rw [UInt32.toBitVec_and]
    exact BitVec.and_one_eq_setWidth_ofBool_getLsbD
  rw [ne_eq, ← UInt32.toBitVec_inj, hbit]
  cases crc.toBitVec.getLsbD 0 <;> decide

theorem crcStep_toBitVec (crc : UInt32) :
    (crcStep crc).toBitVec = Crc.step crcPoly.toBitVec crc.toBitVec := by
  have hlow := and_one_ne_zero crc
  rw [crcStep, Crc.step]
  by_cases h : crc &&& 1 ≠ 0
  · rw [if_pos h, if_pos (hlow.mp h), UInt32.toBitVec_xor, UInt32.toBitVec_shiftRight]
    rfl
  · rw [if_neg h, if_neg (fun h' => h (hlow.mpr h')), UInt32.toBitVec_shiftRight]
    rfl

theorem crcLoop_toBitVec (n : ℕ) (crc : UInt32) :
    ((List.range n).foldl (fun crc _ => crcStep crc) crc).toBitVec =
      Crc.steps crcPoly.toBitVec n crc.toBitVec := by
  induction n with
  | zero => rfl
  | succ n ih =>
    rw [List.range_succ, List.foldl_append, List.foldl_cons, List.foldl_nil, crcStep_toBitVec, ih, Crc.steps_add]
    rfl

theorem low_mask {w i : ℕ} (h : i < w) :
    (BitVec.ofNat w 0xFF).getLsbD i = decide (i < 8) := by
  have hbit : (0xFF : ℕ).testBit i = decide (i < 8) := Nat.testBit_two_pow_sub_one 8 i
  rw [BitVec.getLsbD_ofNat, hbit]
  simp [h]

/-- A lookup in the table is a round of eight bits. -/
theorem crcRound_toBitVec (crc : UInt32) (b : UInt8) :
    (crcRound crc b).toBitVec = Crc.feedByte crcPoly.toBitVec crc.toBitVec b := by
  have hbyte : (b.toBitVec.setWidth 32) >>> 8 = 0#32 := by
    apply BitVec.eq_of_toNat_eq
    have hb : b.toBitVec.toNat < 256 := b.toBitVec.isLt
    rw [BitVec.toNat_ushiftRight, BitVec.toNat_setWidth, Nat.shiftRight_eq_div_pow,
      BitVec.toNat_ofNat]
    omega
  have hindex : UInt32.ofNat ((crc ^^^ b.toUInt32) &&& 0xFF).toUInt8.toNat =
      (crc ^^^ b.toUInt32) &&& 0xFF := by
    have hle : ((crc ^^^ b.toUInt32) &&& 0xFF).toNat ≤ 255 := by
      rw [UInt32.toNat_and]
      exact Nat.and_le_right
    apply UInt32.toNat_inj.mp
    rw [UInt32.toNat_ofNat', UInt32.toNat_toUInt8]
    omega
  have htable := @Crc.steps_table _ crcPoly.toBitVec _ 0xFF#32 (fun i hi => low_mask hi)
    (crc.toBitVec ^^^ b.toBitVec.setWidth 32)
  rw [BitVec.ushiftRight_xor_distrib, hbyte, BitVec.xor_zero] at htable
  rw [crcRound, UInt32.toBitVec_xor, crcTable, Vector.getElem_ofFn, crcLoop_toBitVec, hindex,
    Crc.feedByte, htable]
  rfl

/-- The table-driven loop computes the bitwise check. -/
theorem crc32c_toBitVec (data : Bytes) (len : UInt32) :
    (crc32c data len).toBitVec = castagnoli (data.take len.toNat) := by
  have hloop : ∀ (bs : Bytes) (crc : UInt32),
      (bs.foldl crcRound crc).toBitVec = bs.foldl (Crc.feedByte crcPoly.toBitVec) crc.toBitVec := by
    intro bs
    induction bs with
    | nil => exact fun crc => rfl
    | cons b bs ih =>
      intro crc
      rw [List.foldl_cons, ih, crcRound_toBitVec, List.foldl_cons]
  rw [crc32c, UInt32.toBitVec_xor, hloop]
  rfl

/-! ### Headers -/

structure BlockHeader where
  magic : UInt32
  version : UInt16
  blockType : UInt16
  blockId : UInt64
  sequence : UInt64
  createdAt : UInt64
  modifiedAt : UInt64
  payloadLen : UInt32
  checksum : UInt32
  prevBlockId : UInt64
  flags : UInt32
  reserved : UInt32
  deriving DecidableEq

namespace BlockHeader

def init (blockType : BlockType) (blockId sequence now : UInt64) : BlockHeader where
  magic := blockMagic
  version := blockVersion
  blockType := blockType.toInt
  blockId := blockId
  sequence := sequence
  createdAt := now
  modifiedAt := now
  payloadLen := 0
  checksum := 0
  prevBlockId := 0
  flags := 0
  reserved := 0

def validate (self : BlockHeader) : Except BlockError Unit :=
  if self.magic ≠ blockMagic then .error .invalidMagic
  else if self.version ≠ blockVersion then .error .unsupportedVersion
  else if self.payloadLen.toNat > payloadSize then .error .payloadTooLarge
  else .ok ()

/-- `asBytes` on a little-endian machine. -/
def asBytes (self : BlockHeader) : Bytes :=
  toLe 4 self.magic.toNat ++ (toLe 2 self.version.toNat ++ (toLe 2 self.blockType.toNat ++
    (toLe 8 self.blockId.toNat ++ (toLe 8 self.sequence.toNat ++ (toLe 8 self.createdAt.toNat ++
      (toLe 8 self.modifiedAt.toNat ++ (toLe 4 self.payloadLen.toNat ++
        (toLe 4 self.checksum.toNat ++ (toLe 8 self.prevBlockId.toNat ++
          (toLe 4 self.flags.toNat ++ toLe 4 self.reserved.toNat))))))))))

/-- `@bitCast` of the first 64 bytes. -/
def ofBytes (bytes : Bytes) : BlockHeader where
  magic := .ofNat (ofLe (slice bytes 0 4))
  version := .ofNat (ofLe (slice bytes 4 2))
  blockType := .ofNat (ofLe (slice bytes 6 2))
  blockId := .ofNat (ofLe (slice bytes 8 8))
  sequence := .ofNat (ofLe (slice bytes 16 8))
  createdAt := .ofNat (ofLe (slice bytes 24 8))
  modifiedAt := .ofNat (ofLe (slice bytes 32 8))
  payloadLen := .ofNat (ofLe (slice bytes 40 4))
  checksum := .ofNat (ofLe (slice bytes 44 4))
  prevBlockId := .ofNat (ofLe (slice bytes 48 8))
  flags := .ofNat (ofLe (slice bytes 56 4))
  reserved := .ofNat (ofLe (slice bytes 60 4))

@[simp] theorem length_asBytes (self : BlockHeader) : self.asBytes.length = headerSize := by
  simp [asBytes, headerSize]

/-- Where the fields of a header stand. -/
theorem slice_asBytes (self : BlockHeader) :
    slice self.asBytes 0 4 = toLe 4 self.magic.toNat ∧
    slice self.asBytes 4 2 = toLe 2 self.version.toNat ∧
    slice self.asBytes 6 2 = toLe 2 self.blockType.toNat ∧
    slice self.asBytes 8 8 = toLe 8 self.blockId.toNat ∧
    slice self.asBytes 16 8 = toLe 8 self.sequence.toNat ∧
    slice self.asBytes 24 8 = toLe 8 self.createdAt.toNat ∧
    slice self.asBytes 32 8 = toLe 8 self.modifiedAt.toNat ∧
    slice self.asBytes 40 4 = toLe 4 self.payloadLen.toNat ∧
    slice self.asBytes 44 4 = toLe 4 self.checksum.toNat ∧
    slice self.asBytes 48 8 = toLe 8 self.prevBlockId.toNat ∧
    slice self.asBytes 56 4 = toLe 4 self.flags.toNat ∧
    slice self.asBytes 60 4 = toLe 4 self.reserved.toNat := by
  unfold asBytes
  refine ⟨?_, ?_, ?_, ?_, ?_, ?_, ?_, ?_, ?_, ?_, ?_, ?_⟩ <;>
    repeat' first
      | exact slice_head (by simp) (by simp)
      | exact slice_whole (by simp) (by simp)
      | rw [slice_of_append (by simp)]

theorem ofBytes_asBytes (self : BlockHeader) : ofBytes self.asBytes = self := by
  obtain ⟨hmagic, hversion, htype, hid, hsequence, hcreated, hmodified, hlen, hchecksum, hprev,
    hflags, hreserved⟩ := self.slice_asBytes
  have h16 : ∀ x : UInt16, UInt16.ofNat (ofLe (toLe 2 x.toNat)) = x := by
    intro x
    rw [ofLe_toLe_of_lt x.toNat_lt, UInt16.ofNat_toNat]
  have h32 : ∀ x : UInt32, UInt32.ofNat (ofLe (toLe 4 x.toNat)) = x := by
    intro x
    rw [ofLe_toLe_of_lt x.toNat_lt, UInt32.ofNat_toNat]
  have h64 : ∀ x : UInt64, UInt64.ofNat (ofLe (toLe 8 x.toNat)) = x := by
    intro x
    rw [ofLe_toLe_of_lt x.toNat_lt, UInt64.ofNat_toNat]
  simp only [ofBytes, hmagic, hversion, htype, hid, hsequence, hcreated, hmodified, hlen,
    hchecksum, hprev, hflags, hreserved, h16, h32, h64]

end BlockHeader

/-! ### Blocks -/

structure Block where
  header : BlockHeader
  payload : Bytes
  length_payload : payload.length = payloadSize

namespace Block

def init (blockType : BlockType) (blockId sequence now : UInt64) : Block where
  header := .init blockType blockId sequence now
  payload := List.replicate payloadSize 0
  length_payload := List.length_replicate

/-- The payload with zeros up to its full size. -/
def padded (data : Bytes) : Bytes := data ++ List.replicate (payloadSize - data.length) 0

theorem length_padded {data : Bytes} (h : data.length ≤ payloadSize) :
    (padded data).length = payloadSize := by
  rw [padded, List.length_append, List.length_replicate]
  omega

def setPayload (self : Block) (data : Bytes) (now : UInt64) : Except BlockError Block :=
  if h : data.length > payloadSize then .error .payloadTooLarge
  else .ok
    { payload := padded data
      length_payload := length_padded (not_lt.mp h)
      header :=
        { self.header with
          payloadLen := .ofNat data.length
          modifiedAt := now
          checksum := crc32c (padded data) (.ofNat data.length) } }

def getPayload (self : Block) : Bytes := self.payload.take self.header.payloadLen.toNat

def validate (self : Block) : Except BlockError Unit := do
  self.header.validate
  if crc32c self.payload self.header.payloadLen ≠ self.header.checksum then
    throw .checksumMismatch

def toBytes (self : Block) : Bytes := self.header.asBytes ++ self.payload

def fromBytes (bytes : Bytes) (h : bytes.length = blockSize) : Except BlockError Block := do
  let block : Block :=
    { header := .ofBytes (bytes.take headerSize)
      payload := bytes.drop headerSize
      length_payload := by rw [List.length_drop, h, payloadSize] }
  block.validate
  return block

@[simp] theorem length_toBytes (self : Block) : self.toBytes.length = blockSize := by
  rw [toBytes, List.length_append, self.length_payload, BlockHeader.length_asBytes]
  rfl

/-- The block that is in some bytes, whether or not it passes its check. -/
def ofBytes (bytes : Bytes) (h : bytes.length = blockSize) : Block where
  header := .ofBytes (bytes.take headerSize)
  payload := bytes.drop headerSize
  length_payload := by rw [List.length_drop, h, payloadSize]

theorem fromBytes_eq (bytes : Bytes) (h : bytes.length = blockSize) :
    fromBytes bytes h = (ofBytes bytes h).validate.map fun _ => ofBytes bytes h := rfl

theorem ofBytes_toBytes (self : Block) : ofBytes self.toBytes self.length_toBytes = self := by
  have hlen : headerSize = self.header.asBytes.length := self.header.length_asBytes.symm
  have hhead : self.toBytes.take headerSize = self.header.asBytes := by
    rw [toBytes, hlen, List.take_left]
  have hrest : self.toBytes.drop headerSize = self.payload := by
    rw [toBytes, hlen, List.drop_left]
  simp only [ofBytes, hhead, hrest, BlockHeader.ofBytes_asBytes]

/-- What was written is read back when it passes its own check. -/
theorem fromBytes_toBytes (self : Block) (h : self.validate = .ok ()) :
    fromBytes self.toBytes self.length_toBytes = .ok self := by
  rw [fromBytes_eq, ofBytes_toBytes, h]
  rfl

/-- Bytes with the right fields are accepted. -/
theorem fromBytes_of_fields {bytes : Bytes} {n : ℕ} (h : bytes.length = blockSize)
    (hmagic : slice bytes 0 4 = toLe 4 blockMagic.toNat)
    (hversion : slice bytes 4 2 = toLe 2 blockVersion.toNat)
    (hlen : slice bytes 40 4 = toLe 4 n) (hn : n ≤ payloadSize)
    (hchecksum : slice bytes 44 4 = toLe 4 (castagnoli (slice bytes 64 n)).toNat) :
    ∃ block, fromBytes bytes h = .ok block ∧
      block.header = .ofBytes (bytes.take headerSize) ∧ block.getPayload = slice bytes 64 n := by
  have hsize : payloadSize = 4032 := rfl
  have hmagic' : (BlockHeader.ofBytes (bytes.take headerSize)).magic = blockMagic := by
    change UInt32.ofNat (ofLe (slice (bytes.take headerSize) 0 4)) = _
    rw [slice_take (by decide), hmagic]
    rfl
  have hversion' : (BlockHeader.ofBytes (bytes.take headerSize)).version = blockVersion := by
    change UInt16.ofNat (ofLe (slice (bytes.take headerSize) 4 2)) = _
    rw [slice_take (by decide), hversion]
    rfl
  have hlen' : (BlockHeader.ofBytes (bytes.take headerSize)).payloadLen.toNat = n := by
    change (UInt32.ofNat (ofLe (slice (bytes.take headerSize) 40 4))).toNat = _
    rw [slice_take (by decide), hlen, ofLe_toLe_of_lt (by omega),
      UInt32.toNat_ofNat_of_lt' (by rw [UInt32.size]; omega)]
  have hchecksum' : crc32c (bytes.drop headerSize)
      (BlockHeader.ofBytes (bytes.take headerSize)).payloadLen =
      (BlockHeader.ofBytes (bytes.take headerSize)).checksum := by
    apply UInt32.toBitVec_inj.mp
    rw [crc32c_toBitVec, hlen']
    change castagnoli (slice bytes 64 n) =
      (UInt32.ofNat (ofLe (slice (bytes.take headerSize) 44 4))).toBitVec
    rw [slice_take (by decide), hchecksum, ofLe_toLe_of_lt (BitVec.isLt _)]
    change _ = BitVec.ofNat 32 (castagnoli (slice bytes 64 n)).toNat
    rw [BitVec.ofNat_toNat, BitVec.setWidth_eq]
  refine ⟨⟨.ofBytes (bytes.take headerSize), bytes.drop headerSize,
    by rw [List.length_drop, h, payloadSize]⟩, ?_, rfl, ?_⟩
  · rw [fromBytes]
    simp only [validate, BlockHeader.validate, hmagic', hversion', hlen', not_lt.mpr hn,
      hchecksum', ne_eq, not_true_eq_false, if_false, bind, Except.bind, pure,
      Except.pure]
  · rw [getPayload, hlen']
    rfl

theorem eq_of_fromBytes {bytes : Bytes} {h : bytes.length = blockSize} {block : Block}
    (hok : fromBytes bytes h = .ok block) :
    (ofBytes bytes h).validate = .ok () ∧ ofBytes bytes h = block := by
  rw [fromBytes_eq] at hok
  cases hv : (ofBytes bytes h).validate with
  | error e =>
    rw [hv] at hok
    cases hok
  | ok u =>
    rw [hv] at hok
    cases hok
    exact ⟨rfl, rfl⟩

/-- A block passes its check when its header does and the checksum is that of the payload in
use. -/
theorem validate_eq (self : Block) (h : self.header.validate = .ok ()) :
    self.validate = if crc32c self.payload self.header.payloadLen ≠ self.header.checksum then
      .error .checksumMismatch else .ok () := by
  rw [validate, h]
  rfl

theorem validate_ok_iff (self : Block) :
    self.validate = .ok () ↔ self.header.validate = .ok () ∧
      crc32c self.payload self.header.payloadLen = self.header.checksum := by
  cases hheader : self.header.validate with
  | error e => simp [validate, hheader, bind, Except.bind]
  | ok u => simp [validate_eq self hheader]

theorem payloadLen_le {self : Block} (h : self.validate = .ok ()) :
    self.header.payloadLen.toNat ≤ payloadSize := by
  have hheader := ((validate_ok_iff self).mp h).1
  unfold BlockHeader.validate at hheader
  split_ifs at hheader with _ _ hlen
  exact not_lt.mp hlen

/-- Only the payload in use is checked. -/
theorem crc32c_eq_iff {payload payload' : Bytes} (len : UInt32)
    (h : Crc.Burst 32 payload payload') :
    crc32c payload' len = crc32c payload len ↔
      payload'.take len.toNat = payload.take len.toNat := by
  rw [← UInt32.toBitVec_inj, crc32c_toBitVec, crc32c_toBitVec]
  constructor
  · intro hsame
    by_contra hne
    exact @Crc.check_ne_of_burst _ crcPoly.toBitVec (by decide) (by decide) _ _
      (h.take len.toNat) (Ne.symm hne) hsame.symm
  · intro hsame
    rw [hsame]

/-- Of two blocks with the same header one is accepted, and their payloads differ by a burst.
The other one is rejected just when the burst touches the part in use. -/
theorem fromBytes_burst {bytes bytes' : Bytes} {h : bytes.length = blockSize}
    {h' : bytes'.length = blockSize} {block : Block} (hok : fromBytes bytes h = .ok block)
    (hheader : bytes'.take headerSize = bytes.take headerSize)
    (hburst : Crc.Burst 32 (bytes.drop headerSize) (bytes'.drop headerSize)) :
    fromBytes bytes' h' = .error .checksumMismatch ↔
      (bytes'.drop headerSize).take block.header.payloadLen.toNat ≠
        (bytes.drop headerSize).take block.header.payloadLen.toNat := by
  obtain ⟨hv, rfl⟩ := eq_of_fromBytes hok
  obtain ⟨hhead, hsum⟩ := (validate_ok_iff _).mp hv
  have hsame : (ofBytes bytes' h').header = (ofBytes bytes h).header :=
    congrArg BlockHeader.ofBytes hheader
  have hvalidate := validate_eq (ofBytes bytes' h') (by rw [hsame, hhead])
  rw [hsame, ← hsum] at hvalidate
  have hiff := crc32c_eq_iff (ofBytes bytes h).header.payloadLen hburst
  rw [fromBytes_eq]
  by_cases hcrc : crc32c (ofBytes bytes' h').payload (ofBytes bytes h).header.payloadLen =
      crc32c (ofBytes bytes h).payload (ofBytes bytes h).header.payloadLen
  · rw [hvalidate.trans (if_neg (not_not.mpr hcrc))]
    constructor
    · intro herror
      cases herror
    · exact fun hne => absurd (hiff.mp hcrc) hne
  · rw [hvalidate.trans (if_pos hcrc)]
    exact ⟨fun _ hin => hcrc (hiff.mpr hin), fun _ => rfl⟩

/-- A block with a payload set passes its own check. -/
theorem validate_setPayload {self block : Block} {data : Bytes} {now : UInt64}
    (hmagic : self.header.magic = blockMagic) (hversion : self.header.version = blockVersion)
    (h : self.setPayload data now = .ok block) : block.validate = .ok () := by
  unfold setPayload at h
  split_ifs at h with hlen
  cases h
  have hfit : (UInt32.ofNat data.length).toNat ≤ payloadSize := by
    rw [UInt32.toNat_ofNat']
    exact (Nat.mod_le _ _).trans (not_lt.mp hlen)
  rw [validate, BlockHeader.validate, if_neg (not_not.mpr hmagic), if_neg (not_not.mpr hversion),
    if_neg (not_lt.mpr hfit)]
  exact if_neg (not_not.mpr rfl)

end Block

end NextgenDatabases.Lithoglyph
