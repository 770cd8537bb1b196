import NextgenDatabases.Foundations.Framing

/-!
# Entries of the write-ahead log

The on-disk format of an entry: length and checksum, then sequence number,
timestamp in milliseconds, operation, modality, entity id and payload. The
checksum is any function of the bytes behind it.
-/
namespace NextgenDatabases.Wal

open Foundations

/-- `WalError`, without the variants that no modelled function returns. -/
inductive WalError
  | io
  | crcMismatch (sequence : ℕ) (expected actual : UInt32)
  | invalidOperation (byte : UInt8)
  | invalidModality (byte : UInt8)
  | invalidEntityId
  | directoryNotFound
  | unexpectedEof (offset : ℕ)
  deriving DecidableEq, Repr

abbrev WalResult := Except WalError

def MAX_ENTRY_SIZE : ℕ := 64 * 1024 * 1024

inductive WalOperation
  | insert | update | delete | checkpoint
  deriving DecidableEq, Repr

namespace WalOperation

def fromByte : UInt8 → WalResult WalOperation
  | 0 => .ok insert
  | 1 => .ok update
  | 2 => .ok delete
  | 3 => .ok checkpoint
  | other => .error (.invalidOperation other)

def toByte : WalOperation → UInt8
  | insert => 0
  | update => 1
  | delete => 2
  | checkpoint => 3

@[simp] theorem fromByte_toByte (op : WalOperation) : fromByte op.toByte = .ok op := by
  cases op <;> rfl

end WalOperation

inductive WalModality
  | graph | vector | tensor | semantic | document | temporal | provenance | spatial | all
  deriving DecidableEq, Repr

namespace WalModality

def fromByte : UInt8 → WalResult WalModality
  | 0 => .ok graph
  | 1 => .ok vector
  | 2 => .ok tensor
  | 3 => .ok semantic
  | 4 => .ok document
  | 5 => .ok temporal
  | 6 => .ok provenance
  | 7 => .ok spatial
  | 255 => .ok all
  | other => .error (.invalidModality other)

def toByte : WalModality → UInt8
  | graph => 0
  | vector => 1
  | tensor => 2
  | semantic => 3
  | document => 4
  | temporal => 5
  | provenance => 6
  | spatial => 7
  | all => 255

@[simp] theorem fromByte_toByte (m : WalModality) : fromByte m.toByte = .ok m := by
  cases m <;> rfl

end WalModality

/-! ### Timestamps -/

/-- The range of `DateTime<Utc>` in Unix milliseconds. -/
def minMillis : ℤ := -8334601228800000
def maxMillis : ℤ := 8210266876799999

/-- A point in time, in the range of `DateTime<Utc>`. In a leap second, which can only follow the
last second of a minute, the nanoseconds go on from one second to two. -/
structure DateTime where
  timestamp : ℤ
  subsecNanos : ℕ
  second : subsecNanos < 10 ^ 9 ∨ subsecNanos < 2 * 10 ^ 9 ∧ timestamp % 60 = 59
  lower : minMillis ≤ timestamp * 1000
  upper : timestamp * 1000 + (subsecNanos / 10 ^ 6 : ℕ) ≤ maxMillis
  deriving DecidableEq

namespace DateTime

def unixEpoch : DateTime := ⟨0, 0, by decide, by decide, by decide⟩

def timestampMillis (t : DateTime) : ℤ := t.timestamp * 1000 + (t.subsecNanos / 10 ^ 6 : ℕ)

/-- The point in time of so many milliseconds, which is in no leap second. -/
def ofMillis (ms : ℤ) (h : minMillis ≤ ms ∧ ms ≤ maxMillis) : DateTime where
  timestamp := ms / 1000
  subsecNanos := (ms % 1000).toNat * 10 ^ 6
  second := by omega
  lower := by
    rw [minMillis] at *
    omega
  upper := by omega

def timestampMillisOpt (ms : ℤ) : Option DateTime :=
  if h : minMillis ≤ ms ∧ ms ≤ maxMillis then some (ofMillis ms h) else none

theorem timestampMillis_range (t : DateTime) :
    minMillis ≤ t.timestampMillis ∧ t.timestampMillis ≤ maxMillis := by
  have hl := t.lower
  have hu := t.upper
  unfold timestampMillis
  omega

theorem timestampMillis_ofMillis {ms : ℤ} (h : minMillis ≤ ms ∧ ms ≤ maxMillis) :
    (ofMillis ms h).timestampMillis = ms := by
  simp only [ofMillis, timestampMillis]
  omega

/-- The time as its milliseconds give it, in the next second if it is in a leap second. -/
def floorMillis (t : DateTime) : DateTime := ofMillis t.timestampMillis t.timestampMillis_range

@[simp] theorem timestampMillisOpt_timestampMillis (t : DateTime) :
    timestampMillisOpt t.timestampMillis = some t.floorMillis :=
  dif_pos t.timestampMillis_range

@[simp] theorem floorMillis_timestampMillis (t : DateTime) :
    t.floorMillis.timestampMillis = t.timestampMillis :=
  timestampMillis_ofMillis t.timestampMillis_range

end DateTime

/-! ### Encoding -/

structure WalEntry where
  sequence : UInt64
  timestamp : DateTime
  operation : WalOperation
  modality : WalModality
  entityId : String
  payload : Bytes
  deriving DecidableEq

/-- The bytes of a string. -/
def asBytes (s : String) : Bytes := s.toByteArray.data.toList

def fromUtf8 (bytes : Bytes) : WalResult String :=
  match String.fromUTF8? ⟨bytes.toArray⟩ with
  | some s => .ok s
  | none => .error .invalidEntityId

@[simp] theorem fromUtf8_asBytes (s : String) : fromUtf8 (asBytes s) = .ok s := by
  have h : String.fromUTF8? s.toByteArray = some s := by
    rw [String.fromUTF8?, dif_pos s.isValidUTF8]
    rfl
  rw [fromUtf8, asBytes, Array.toArray_toList, h]

namespace WalEntry

/-- Everything behind the checksum. The two lengths are cut to four bytes. -/
def inner (e : WalEntry) : Bytes :=
  toLe 8 e.sequence.toNat ++ (toLeSigned e.timestamp.timestampMillis ++
    ([e.operation.toByte] ++ ([e.modality.toByte] ++
      (toLe 4 (asBytes e.entityId).length ++ (asBytes e.entityId ++
        (toLe 4 e.payload.length ++ e.payload))))))

variable (crc : Bytes → UInt32)

def serialize (e : WalEntry) : Bytes :=
  toLe 4 (4 + e.inner.length) ++ (toLe 4 (crc e.inner).toNat ++ e.inner)

/-- The `len` bytes at `off`, or the end-of-segment error. -/
def bytesAt (data : Bytes) (off len : ℕ) : WalResult Bytes :=
  if data.length < off + len then .error (.unexpectedEof off) else .ok (slice data off len)

def byteAt (data : Bytes) (off : ℕ) : WalResult UInt8 :=
  (bytesAt data off 1).map fun b => b.headD 0

/-- Parse what is behind the checksum. A timestamp out of range becomes `now`. -/
def parseInner (now : DateTime) (data : Bytes) : WalResult WalEntry := do
  let sequence := UInt64.ofNat (ofLe (← bytesAt data 0 8))
  let timestampMillis := ofLeSigned (← bytesAt data 8 8)
  let timestamp := (DateTime.timestampMillisOpt timestampMillis).getD now
  let operation ← WalOperation.fromByte (← byteAt data 16)
  let modality ← WalModality.fromByte (← byteAt data 17)
  let entityIdLen := ofLe (← bytesAt data 18 4)
  let entityId ← fromUtf8 (← bytesAt data 22 entityIdLen)
  let payloadLen := ofLe (← bytesAt data (22 + entityIdLen) 4)
  let payload ← bytesAt data (26 + entityIdLen) payloadLen
  return { sequence, timestamp, operation, modality, entityId, payload }

/-- Decode the bytes behind the length prefix. -/
def deserialize (now : DateTime) (data : Bytes) (entryLength : ℕ) : WalResult WalEntry :=
  if data.length % 2 ^ 32 < entryLength then .error (.unexpectedEof data.length)
  else
    let data := data.take entryLength
    if data.length < 4 then .error (.unexpectedEof 0)
    else
      let storedCrc := UInt32.ofNat (ofLe (data.take 4))
      let inner := data.drop 4
      let computedCrc := crc inner
      if storedCrc ≠ computedCrc then
        let sequence := if 8 ≤ inner.length then ofLe (inner.take 8) else 0
        .error (.crcMismatch sequence storedCrc computedCrc)
      else parseInner now inner

/-! ### Decoding what was encoded -/

/-- The frame of the entry is one that the reader accepts. -/
def Fits (e : WalEntry) : Prop := (e.serialize crc).length ≤ MAX_ENTRY_SIZE + 4

instance (e : WalEntry) : Decidable (e.Fits crc) :=
  inferInstanceAs (Decidable ((e.serialize crc).length ≤ MAX_ENTRY_SIZE + 4))

/-- Checksum and contents, the body of the frame. -/
def body (e : WalEntry) : Bytes := toLe 4 (crc e.inner).toNat ++ e.inner

/-- The entry as it is read back: the timestamp is that of its milliseconds. -/
def stored (e : WalEntry) : WalEntry := { e with timestamp := e.timestamp.floorMillis }

/-- What an entry says, without its number and its time. -/
def content (e : WalEntry) : WalOperation × WalModality × String × Bytes :=
  (e.operation, e.modality, e.entityId, e.payload)

theorem length_inner (e : WalEntry) :
    e.inner.length = 26 + (asBytes e.entityId).length + e.payload.length := by
  simp [inner]
  omega

variable {crc}

theorem serialize_eq_frame (e : WalEntry) : e.serialize crc = frame (e.body crc) := by
  simp [serialize, frame, body]

theorem length_body (e : WalEntry) :
    (e.body crc).length = 30 + (asBytes e.entityId).length + e.payload.length := by
  rw [body, List.length_append, length_toLe, length_inner]
  omega

theorem length_serialize (e : WalEntry) : (e.serialize crc).length = 4 + (e.body crc).length := by
  rw [serialize_eq_frame, length_frame]

theorem fits_iff {e : WalEntry} : e.Fits crc ↔
    30 + (asBytes e.entityId).length + e.payload.length ≤ MAX_ENTRY_SIZE := by
  rw [Fits, length_serialize, length_body]
  omega

theorem Fits.length_body_le {e : WalEntry} (h : e.Fits crc) :
    (e.body crc).length ≤ MAX_ENTRY_SIZE := by
  rw [Fits, length_serialize] at h
  omega

theorem bytesAt_eq {data b : Bytes} {off len : ℕ} (hlen : off + len ≤ data.length)
    (hb : slice data off len = b) : bytesAt data off len = .ok b := by
  rw [bytesAt, if_neg (by omega), hb]

/-- Where the fields of an encoded entry lie. -/
theorem slice_inner (e : WalEntry) :
    slice e.inner 0 8 = toLe 8 e.sequence.toNat ∧
    slice e.inner 8 8 = toLeSigned e.timestamp.timestampMillis ∧
    slice e.inner 16 1 = [e.operation.toByte] ∧
    slice e.inner 17 1 = [e.modality.toByte] ∧
    slice e.inner 18 4 = toLe 4 (asBytes e.entityId).length ∧
    slice e.inner 22 (asBytes e.entityId).length = asBytes e.entityId ∧
    slice e.inner (22 + (asBytes e.entityId).length) 4 = toLe 4 e.payload.length ∧
    slice e.inner (26 + (asBytes e.entityId).length) e.payload.length = e.payload := by
  refine ⟨?_, ?_, ?_, ?_, ?_, ?_, ?_, ?_⟩ <;>
    simp only [inner] <;>
    repeat' first
      | exact slice_head (by simp <;> omega) (by simp)
      | exact slice_whole (by simp <;> omega) rfl
      | rw [slice_of_append (by simp <;> omega)]

/-- The payload is what stands behind the other fields. -/
theorem drop_body (e : WalEntry) :
    (e.body crc).drop (30 + (asBytes e.entityId).length) = e.payload := by
  obtain ⟨-, -, -, -, -, -, -, hpay⟩ := e.slice_inner
  have hlen := e.length_inner
  have hshift : 30 + (asBytes e.entityId).length - 4 = 26 + (asBytes e.entityId).length := by omega
  rw [body, List.drop_append, List.drop_of_length_le (by simp; omega), List.nil_append,
    length_toLe, hshift]
  rw [slice, List.take_of_length_le (by rw [List.length_drop]; omega)] at hpay
  exact hpay

theorem parseInner_inner {e : WalEntry} (h : e.Fits crc) (now : DateTime) :
    parseInner now e.inner = .ok e.stored := by
  have hlen := e.length_inner
  have hbody := h.length_body_le
  rw [length_body, MAX_ENTRY_SIZE] at hbody
  have hms := e.timestamp.timestampMillis_range
  rw [minMillis, maxMillis] at hms
  obtain ⟨hseq, htime, hop, hmod, hidLen, hid, hpayLen, hpay⟩ := e.slice_inner
  have hop : byteAt e.inner 16 = .ok e.operation.toByte := by
    rw [byteAt, bytesAt_eq (by omega) hop]; rfl
  have hmod : byteAt e.inner 17 = .ok e.modality.toByte := by
    rw [byteAt, bytesAt_eq (by omega) hmod]; rfl
  have hidLen := bytesAt_eq (by omega) hidLen
  have hpayLen := bytesAt_eq (by omega) hpayLen
  have hn : ofLe (toLe 4 (asBytes e.entityId).length) = (asBytes e.entityId).length :=
    ofLe_toLe_of_lt (by omega)
  have hm : ofLe (toLe 4 e.payload.length) = e.payload.length := ofLe_toLe_of_lt (by omega)
  have hs : UInt64.ofNat (ofLe (toLe 8 e.sequence.toNat)) = e.sequence := by
    rw [ofLe_toLe_of_lt e.sequence.toNat_lt, UInt64.ofNat_toNat]
  have ht := ofLeSigned_toLeSigned (z := e.timestamp.timestampMillis) (by omega) (by omega)
  simp only [parseInner, bytesAt_eq (by omega) hseq, bytesAt_eq (by omega) htime, hop, hmod,
    hidLen, hn, bytesAt_eq (by omega) hid, hpayLen, hm, bytesAt_eq (by omega) hpay, hs, ht,
    WalOperation.fromByte_toByte, WalModality.fromByte_toByte, fromUtf8_asBytes,
    DateTime.timestampMillisOpt_timestampMillis, Option.getD_some, Except.bind, bind, pure,
    Except.pure, stored]

/-- A frame that the reader accepts decodes to the entry that was encoded. -/
theorem deserialize_body {e : WalEntry} (h : e.Fits crc) (now : DateTime) :
    deserialize crc now (e.body crc) (e.body crc).length = .ok e.stored := by
  have hle := h.length_body_le
  have hlen : (e.body crc).length = _ := e.length_body
  rw [MAX_ENTRY_SIZE] at hle
  have htake : (e.body crc).take 4 = toLe 4 (crc e.inner).toNat := by
    rw [body, List.take_append_of_le_length (by simp), List.take_of_length_le (by simp)]
  have hdrop : (e.body crc).drop 4 = e.inner := by
    rw [body, List.drop_append, List.drop_of_length_le (by simp)]
    simp
  have hcrc : UInt32.ofNat (ofLe (toLe 4 (crc e.inner).toNat)) = crc e.inner := by
    rw [ofLe_toLe_of_lt (crc e.inner).toNat_lt, UInt32.ofNat_toNat]
  rw [deserialize, if_neg (by omega), List.take_length]
  simp only [htake, hdrop, hcrc, ne_eq, not_true_eq_false, ite_false]
  rw [if_neg (by omega), parseInner_inner h now]

end WalEntry

end NextgenDatabases.Wal
