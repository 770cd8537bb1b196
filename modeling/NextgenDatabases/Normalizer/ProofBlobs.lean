import Mathlib
import NextgenDatabases.Lithoglyph.Items

/-!
# Proof blobs

The CBOR encoder of the Lean bridge, the blobs of its proofs, and for exactly which ones the calls
of the Zig decoder give back what was encoded.
-/
namespace NextgenDatabases.Normalizer

open Foundations (Bytes)
open Lithoglyph.Cbor

def utf8 (s : String) : Bytes := s.toUTF8.data.toList

/-! ### The encoder -/

structure CborEncoder where
  buffer : Bytes

namespace CborEncoder

def empty : CborEncoder := ⟨[]⟩

def writeByte (e : CborEncoder) (b : UInt8) : CborEncoder := ⟨e.buffer ++ [b]⟩

def writeBytes (e : CborEncoder) (bs : Bytes) : CborEncoder := ⟨e.buffer ++ bs⟩

/-- A length behind one of three heads, in at most two bytes. -/
def writeLen (short one two : UInt8) (e : CborEncoder) (len : ℕ) : CborEncoder :=
  if len < 24 then e.writeByte (short + len.toUInt8)
  else if len < 256 then (e.writeByte one).writeByte len.toUInt8
  else ((e.writeByte two).writeByte (len / 256).toUInt8).writeByte (len % 256).toUInt8

def encodeText (e : CborEncoder) (s : String) : CborEncoder :=
  (writeLen 0x60 0x78 0x79 e (utf8 s).length).writeBytes (utf8 s)

def encodeBytes (e : CborEncoder) (bs : Bytes) : CborEncoder :=
  (writeLen 0x40 0x58 0x59 e bs.length).writeBytes bs

def beginMap : CborEncoder → ℕ → CborEncoder := writeLen 0xA0 0xB8 0xB9

def beginArray : CborEncoder → ℕ → CborEncoder := writeLen 0x80 0x98 0x99

def encodeBool (e : CborEncoder) (b : Bool) : CborEncoder := e.writeByte (if b then 0xF5 else 0xF4)

def finish (e : CborEncoder) : Bytes := e.buffer

end CborEncoder

open CborEncoder

/-! ### Proofs -/

structure ProofBlob where
  proofType : String
  data : Bytes

def encodeNormalizationProof (sourceSchema : String) (targetSchemas joinAttrs : List String)
    (lossless : Bool) : ProofBlob :=
  let encoder := (((((CborEncoder.empty.beginMap 5).encodeText "proof_type").encodeText
    "normalization").encodeText "source").encodeText sourceSchema).encodeText "targets"
  let encoder := encoder.beginArray targetSchemas.length
  let encoder := targetSchemas.foldl encodeText encoder
  let encoder := (encoder.encodeText "join_attributes").beginArray joinAttrs.length
  let encoder := joinAttrs.foldl encodeText encoder
  let encoder := (encoder.encodeText "lossless").encodeBool lossless
  { proofType := "normalization", data := encoder.finish }

def encodeDenormalizationProof (sourceSchemas : List String) (targetSchema : String)
    (joinAttrs : List String) (rationale : String) : ProofBlob :=
  let encoder := (((CborEncoder.empty.beginMap 5).encodeText "proof_type").encodeText
    "denormalization").encodeText "sources"
  let encoder := encoder.beginArray sourceSchemas.length
  let encoder := sourceSchemas.foldl encodeText encoder
  let encoder := ((encoder.encodeText "target").encodeText targetSchema).encodeText "join_attributes"
  let encoder := encoder.beginArray joinAttrs.length
  let encoder := joinAttrs.foldl encodeText encoder
  let encoder := (encoder.encodeText "rationale").encodeText rationale
  { proofType := "denormalization", data := encoder.finish }

def exportProofForJournal (proof : ProofBlob) : Bytes :=
  let encoder := (((CborEncoder.empty.beginMap 3).encodeText "entry_type").encodeText
    "proof").encodeText "proof_type"
  let encoder := ((encoder.encodeText proof.proofType).encodeText "proof_data").encodeBytes
    proof.data
  encoder.finish

/-! ### The fields of a blob -/

/-- What one call of the encoder writes. -/
inductive BlobPart
  | map (len : ℕ)
  | text (s : String)
  | array (len : ℕ)
  | bytes (bs : Bytes)
  | bool (b : Bool)

/-- What one call of the decoder returns. Texts are slices of bytes. -/
inductive BlobValue
  | map (len : ℕ)
  | text (bs : Bytes)
  | array (len : ℕ)
  | bytes (bs : Bytes)
  | bool (b : Bool)
  deriving DecidableEq

def BlobPart.value : BlobPart → BlobValue
  | .map len => .map len
  | .text s => .text (utf8 s)
  | .array len => .array len
  | .bytes bs => .bytes bs
  | .bool b => .bool b

/-- The call of the decoder for a part. -/
def BlobPart.read (d : Decoder) : BlobPart → Except DecodeError (BlobValue × Decoder)
  | .map _ => do
    let (len, d) ← d.decodeMapLen
    return (.map len, d)
  | .text _ => do
    let (bs, d) ← d.decodeText
    return (.text bs, d)
  | .array _ => do
    let (len, d) ← d.decodeArrayLen
    return (.array len, d)
  | .bytes _ => do
    let (bs, d) ← d.decodeBytes
    return (.bytes bs, d)
  | .bool _ => do
    let (b, d) ← d.decodeBool
    return (.bool b, d)

/-- The calls for the parts, in order. -/
def readParts (d : Decoder) : List BlobPart → Except DecodeError (List BlobValue × Decoder)
  | [] => .ok ([], d)
  | part :: parts => do
    let (value, d) ← part.read d
    let (values, d) ← readParts d parts
    return (value :: values, d)

/-- The calls return what was encoded and stop at the end of the bytes. -/
def ReadsBack (bytes : Bytes) (parts : List BlobPart) : Prop :=
  readParts (.init bytes) parts = .ok (parts.map BlobPart.value, ⟨bytes, bytes.length⟩)

/-- A list of texts behind its length. -/
def textsParts (ss : List String) : List BlobPart := .array ss.length :: ss.map .text

def normalizationParts (sourceSchema : String) (targetSchemas joinAttrs : List String)
    (lossless : Bool) : List BlobPart :=
  [.map 5, .text "proof_type", .text "normalization", .text "source", .text sourceSchema,
    .text "targets"] ++ textsParts targetSchemas ++
    [.text "join_attributes"] ++ textsParts joinAttrs ++ [.text "lossless", .bool lossless]

def denormalizationParts (sourceSchemas : List String) (targetSchema : String)
    (joinAttrs : List String) (rationale : String) : List BlobPart :=
  [.map 5, .text "proof_type", .text "denormalization", .text "sources"] ++
    textsParts sourceSchemas ++ [.text "target", .text targetSchema, .text "join_attributes"] ++
    textsParts joinAttrs ++ [.text "rationale", .text rationale]

def exportParts (proof : ProofBlob) : List BlobPart :=
  [.map 3, .text "entry_type", .text "proof", .text "proof_type", .text proof.proofType,
    .text "proof_data", .bytes proof.data]

/-- The length fits in two bytes. -/
def Short (len : ℕ) : Prop := len < 65536

def ShortTexts (ss : List String) : Prop := Short ss.length ∧ ∀ s ∈ ss, Short (utf8 s).length

/-! ### What is written -/

/-- The bytes of a length behind the head of a major type. -/
def lenBytes (major : MajorType) (len : ℕ) : Bytes :=
  if len < 24 then [major.toByte <<< 5 ||| len.toUInt8]
  else if len < 256 then [major.toByte <<< 5 ||| 24, len.toUInt8]
  else [major.toByte <<< 5 ||| 25, (len / 256).toUInt8, (len % 256).toUInt8]

theorem writeLen_buffer {short one two : UInt8} (major : MajorType)
    (hshort : ∀ n : Fin 24, short + n.val.toUInt8 = major.toByte <<< 5 ||| n.val.toUInt8)
    (hone : one = major.toByte <<< 5 ||| 24) (htwo : two = major.toByte <<< 5 ||| 25)
    (e : CborEncoder) (len : ℕ) :
    (writeLen short one two e len).buffer = e.buffer ++ lenBytes major len := by
  unfold writeLen lenBytes
  split_ifs with h24 h256
  · rw [writeByte, hshort ⟨len, h24⟩]
  · rw [hone, writeByte, writeByte, List.append_assoc]
    rfl
  · rw [htwo, writeByte, writeByte, writeByte, List.append_assoc, List.append_assoc]
    rfl

def BlobPart.toBytes : BlobPart → Bytes
  | .map len => lenBytes .map len
  | .text s => lenBytes .text (utf8 s).length ++ utf8 s
  | .array len => lenBytes .array len
  | .bytes bs => lenBytes .bytes bs.length ++ bs
  | .bool b => [if b then 0xF5 else 0xF4]

def partsBytes (parts : List BlobPart) : Bytes := parts.flatMap BlobPart.toBytes

theorem beginMap_buffer (e : CborEncoder) (len : ℕ) :
    (e.beginMap len).buffer = e.buffer ++ (BlobPart.map len).toBytes :=
  writeLen_buffer .map (by decide) (by decide) (by decide) e len

theorem beginArray_buffer (e : CborEncoder) (len : ℕ) :
    (e.beginArray len).buffer = e.buffer ++ (BlobPart.array len).toBytes :=
  writeLen_buffer .array (by decide) (by decide) (by decide) e len

theorem encodeText_buffer (e : CborEncoder) (s : String) :
    (e.encodeText s).buffer = e.buffer ++ (BlobPart.text s).toBytes := by
  rw [encodeText, writeBytes,
    writeLen_buffer .text (by decide) (by decide) (by decide) e (utf8 s).length, BlobPart.toBytes,
    List.append_assoc]

theorem encodeBytes_buffer (e : CborEncoder) (bs : Bytes) :
    (e.encodeBytes bs).buffer = e.buffer ++ (BlobPart.bytes bs).toBytes := by
  rw [encodeBytes, writeBytes,
    writeLen_buffer .bytes (by decide) (by decide) (by decide) e bs.length, BlobPart.toBytes,
    List.append_assoc]

theorem encodeBool_buffer (e : CborEncoder) (b : Bool) :
    (e.encodeBool b).buffer = e.buffer ++ (BlobPart.bool b).toBytes := rfl

theorem encodeTexts_buffer (e : CborEncoder) (ss : List String) :
    (ss.foldl encodeText e).buffer = e.buffer ++ partsBytes (ss.map .text) := by
  induction ss generalizing e with
  | nil => exact (List.append_nil _).symm
  | cons s ss ih =>
    rw [List.foldl_cons, ih, encodeText_buffer, List.append_assoc]
    rfl

theorem normalization_data (sourceSchema : String) (targetSchemas joinAttrs : List String)
    (lossless : Bool) :
    (encodeNormalizationProof sourceSchema targetSchemas joinAttrs lossless).data =
      partsBytes (normalizationParts sourceSchema targetSchemas joinAttrs lossless) := by
  simp only [encodeNormalizationProof, finish, encodeBool_buffer, encodeText_buffer,
    encodeTexts_buffer, beginArray_buffer, beginMap_buffer, normalizationParts, textsParts,
    partsBytes, List.flatMap_append, List.flatMap_cons, List.flatMap_nil, List.append_assoc,
    List.append_nil, CborEncoder.empty, List.nil_append]

theorem denormalization_data (sourceSchemas : List String) (targetSchema : String)
    (joinAttrs : List String) (rationale : String) :
    (encodeDenormalizationProof sourceSchemas targetSchema joinAttrs rationale).data =
      partsBytes (denormalizationParts sourceSchemas targetSchema joinAttrs rationale) := by
  simp only [encodeDenormalizationProof, finish, encodeText_buffer, encodeTexts_buffer,
    beginArray_buffer, beginMap_buffer, denormalizationParts, textsParts, partsBytes,
    List.flatMap_append, List.flatMap_cons, List.flatMap_nil, List.append_assoc, List.append_nil,
    CborEncoder.empty, List.nil_append]

theorem export_bytes (proof : ProofBlob) :
    exportProofForJournal proof = partsBytes (exportParts proof) := by
  simp only [exportProofForJournal, finish, encodeBytes_buffer, encodeText_buffer, beginMap_buffer,
    exportParts, partsBytes, List.flatMap_cons, List.flatMap_nil, List.append_assoc,
    List.append_nil, CborEncoder.empty, List.nil_append]

/-! ### What is read -/

/-- The length that a decoder finds in the head. -/
def announced (len : ℕ) : ℕ := if len < 256 then len else len % 65536

theorem announced_eq {len : ℕ} : announced len = len ↔ Short len := by
  unfold announced Short
  split_ifs <;> omega

theorem announced_le (len : ℕ) : announced len ≤ len := by
  unfold announced
  split_ifs <;> omega

theorem announced_lt (len : ℕ) : announced len < 2 ^ 64 := by
  unfold announced
  split_ifs <;> omega

theorem readTypeArg_lenBytes (pre rest : Bytes) (major : MajorType) (len : ℕ) :
    (between pre (lenBytes major len ++ rest)).readTypeArg =
      .ok ((major, .ofNat (announced len)), between (pre ++ lenBytes major len) rest) := by
  unfold lenBytes announced
  split_ifs with h24 h256 h256
  · have hlow : len.toUInt8 < 24 := by
      rw [UInt8.lt_iff_toNat_lt, Nat.toUInt8_eq, UInt8.toNat_ofNat']
      exact show len % 2 ^ 8 < 24 by omega
    have hnat : len.toUInt8.toNat = len := UInt8.toNat_ofNat_of_lt (by omega)
    rw [List.singleton_append, readTypeArg_cons _ _ _ (UInt8.lt_trans hlow (by decide)),
      readArg_lt _ hlow, ← UInt64.ofNat_uInt8ToNat, hnat]
    rfl
  · omega
  · have hnat : len.toUInt8.toNat = len := UInt8.toNat_ofNat_of_lt (by omega)
    rw [List.cons_append, List.cons_append, readTypeArg_cons _ _ _ (by decide), readArg_24,
      ← UInt64.ofNat_uInt8ToNat, hnat, List.append_assoc]
    rfl
  · have hvalue : Foundations.ofBe [(len / 256).toUInt8, (len % 256).toUInt8] = len % 65536 := by
      simp only [Foundations.ofBe, List.reverse_cons, List.reverse_nil, List.nil_append,
        List.singleton_append, Foundations.ofLe, Nat.toUInt8_eq, UInt8.toNat_ofNat']
      omega
    have hread := readBytes_between (pre ++ [major.toByte <<< 5 ||| 25])
      [(len / 256).toUInt8, (len % 256).toUInt8] rest (n := 2) rfl
    rw [List.cons_append, readTypeArg_cons _ _ _ (by decide), readArg_25, Decoder.readBig, hread,
      List.append_assoc]
    simp only [bind, Except.bind, pure, Except.pure, Except.map, hvalue, List.singleton_append]

theorem readMajor_lenBytes (pre rest : Bytes) (major : MajorType) (len : ℕ) :
    (between pre (lenBytes major len ++ rest)).readMajor major =
      .ok (.ofNat (announced len), between (pre ++ lenBytes major len) rest) := by
  rw [Decoder.readMajor, readTypeArg_lenBytes]
  simp [bind, Except.bind, pure, Except.pure]

theorem toNat_announced (len : ℕ) : (UInt64.ofNat (announced len)).toNat = announced len :=
  UInt64.toNat_ofNat_of_lt (announced_lt len)

/-- A string is read back where its length fits, and nowhere else. -/
theorem readString_iff (pre rest : Bytes) (major : MajorType) (bs : Bytes) (d : Decoder) :
    (do
      let (len, self) ← (between pre (lenBytes major bs.length ++ bs ++ rest)).readMajor major
      self.readBytes len.toNat) = .ok (bs, d) ↔
      Short bs.length ∧ d = between (pre ++ (lenBytes major bs.length ++ bs)) rest := by
  rw [List.append_assoc, readMajor_lenBytes]
  simp only [bind, Except.bind, toNat_announced]
  constructor
  · intro h
    have hlen : announced bs.length = bs.length := by
      have hle := announced_le bs.length
      unfold Decoder.readBytes at h
      split_ifs at h with hend
      injection h with h
      have hbs := congrArg (fun r : Bytes × Decoder => r.1.length) h
      simp only [List.length_take, List.length_drop, List.length_append] at hbs hend
      omega
    rw [hlen, readBytes_between _ _ _ rfl] at h
    injection h with h
    refine ⟨announced_eq.mp hlen, ?_⟩
    rw [← List.append_assoc]
    exact (congrArg Prod.snd h).symm
  · rintro ⟨hshort, rfl⟩
    rw [announced_eq.mpr hshort, readBytes_between _ _ _ rfl, List.append_assoc]

/-- Whether the part's length fits. -/
def BlobPart.Fits : BlobPart → Prop
  | .map len => Short len
  | .text s => Short (utf8 s).length
  | .array len => Short len
  | .bytes bs => Short bs.length
  | .bool _ => True

theorem decodeLen_iff (pre rest : Bytes) (major : MajorType) (len : ℕ) (d : Decoder) :
    (do
      let (arg, self) ← (between pre (lenBytes major len ++ rest)).readMajor major
      return (arg.toNat, self)) = Except.ok (len, d) ↔
      Short len ∧ d = between (pre ++ lenBytes major len) rest := by
  rw [readMajor_lenBytes]
  simp only [bind, Except.bind, pure, Except.pure, toNat_announced, Except.ok.injEq, Prod.mk.injEq,
    announced_eq]
  exact and_congr_right fun _ => eq_comm

/-- A result passed on under a constructor. -/
theorem map_ok_iff {α : Type} {x : Except DecodeError (α × Decoder)} {c : α → BlobValue} {a : α}
    {d : Decoder} (hc : Function.Injective c) :
    (do
      let (a, d) ← x
      return (c a, d)) = Except.ok (c a, d) ↔ x = .ok (a, d) := by
  cases x with
  | error e => exact iff_of_false (by intro h; cases h) (by intro h; cases h)
  | ok r =>
    obtain ⟨a', d'⟩ := r
    simp only [bind, Except.bind, pure, Except.pure, Except.ok.injEq, Prod.mk.injEq, hc.eq_iff]

/-- The call for a part returns it exactly where its length fits. -/
theorem read_iff (pre rest : Bytes) (part : BlobPart) (d : Decoder) :
    part.read (between pre (part.toBytes ++ rest)) = .ok (part.value, d) ↔
      part.Fits ∧ d = between (pre ++ part.toBytes) rest := by
  cases part with
  | map len =>
    exact (map_ok_iff fun _ _ h => by injection h).trans (decodeLen_iff pre rest .map len d)
  | text s =>
    exact (map_ok_iff fun _ _ h => by injection h).trans (readString_iff pre rest .text (utf8 s) d)
  | array len =>
    exact (map_ok_iff fun _ _ h => by injection h).trans (decodeLen_iff pre rest .array len d)
  | bytes bs =>
    exact (map_ok_iff fun _ _ h => by injection h).trans (readString_iff pre rest .bytes bs d)
  | bool b =>
    refine (map_ok_iff fun _ _ h => by injection h).trans ?_
    have hread : (between pre ((BlobPart.bool b).toBytes ++ rest)).decodeBool =
        .ok (b, between (pre ++ (BlobPart.bool b).toBytes) rest) := by
      rw [BlobPart.toBytes, List.singleton_append, Decoder.decodeBool, readByte_between]
      cases b <;> rfl
    rw [hread, Except.ok.injEq, Prod.mk.injEq, eq_self_iff_true, true_and, BlobPart.Fits, true_and,
      eq_comm]

/-- All parts are read back exactly where all lengths fit. -/
theorem readParts_iff (pre rest : Bytes) (parts : List BlobPart) (d : Decoder) :
    readParts (between pre (partsBytes parts ++ rest)) parts = .ok (parts.map BlobPart.value, d) ↔
      (∀ part ∈ parts, part.Fits) ∧ d = between (pre ++ partsBytes parts) rest := by
  induction parts generalizing pre with
  | nil =>
    simp [readParts, partsBytes, eq_comm]
  | cons part parts ih =>
    have hbytes : partsBytes (part :: parts) = part.toBytes ++ partsBytes parts := rfl
    rw [hbytes, List.append_assoc, List.forall_mem_cons, List.map_cons, readParts]
    have hpart := read_iff pre (partsBytes parts ++ rest) part
    constructor
    · intro h
      cases hread : part.read (between pre (part.toBytes ++ (partsBytes parts ++ rest))) with
      | error e =>
        rw [hread] at h
        cases h
      | ok r =>
        obtain ⟨value, d'⟩ := r
        rw [hread] at h
        simp only [bind, Except.bind] at h
        cases hrest : readParts d' parts with
        | error e =>
          rw [hrest] at h
          cases h
        | ok r' =>
          obtain ⟨values, d''⟩ := r'
          rw [hrest] at h
          simp only [pure, Except.pure, Except.ok.injEq, Prod.mk.injEq, List.cons.injEq] at h
          obtain ⟨⟨rfl, rfl⟩, rfl⟩ := h
          obtain ⟨hfits, rfl⟩ := (hpart d').mp hread
          obtain ⟨hall, rfl⟩ := (ih (pre ++ part.toBytes)).mp hrest
          exact ⟨⟨hfits, hall⟩, by rw [List.append_assoc]⟩
    · rintro ⟨⟨hfits, hall⟩, rfl⟩
      rw [(hpart _).mpr ⟨hfits, rfl⟩]
      simp only [bind, Except.bind]
      rw [(ih (pre ++ part.toBytes)).mpr ⟨hall, by rw [List.append_assoc]⟩]
      rfl

theorem readsBack_iff (parts : List BlobPart) :
    ReadsBack (partsBytes parts) parts ↔ ∀ part ∈ parts, part.Fits := by
  have h := readParts_iff [] [] parts ⟨partsBytes parts, (partsBytes parts).length⟩
  rw [List.append_nil] at h
  refine h.trans (and_iff_left ?_)
  rw [List.nil_append, between, List.append_nil]

theorem fits_textsParts (ss : List String) :
    (∀ part ∈ textsParts ss, part.Fits) ↔ ShortTexts ss := by
  rw [textsParts, List.forall_mem_cons, List.forall_mem_map]
  rfl

/-- The names of fields and the texts that are always the same. -/
def fixedTexts : List String :=
  ["proof_type", "normalization", "source", "targets", "join_attributes", "lossless",
    "denormalization", "sources", "target", "rationale", "entry_type", "proof", "proof_data"]

theorem fits_fixed {s : String} (h : s ∈ fixedTexts) : (BlobPart.text s).Fits := by
  have hall : ∀ s ∈ fixedTexts, (utf8 s).length < 65536 := by decide
  exact hall s h

theorem fits_map {len : ℕ} (h : len < 65536) : (BlobPart.map len).Fits := h

/-- The blobs are read back by the decoder exactly where no text, byte string or list is longer
than two bytes can say. -/
theorem blobs_read_back_iff (sourceSchema targetSchema rationale : String)
    (sourceSchemas targetSchemas joinAttrs : List String) (lossless : Bool) (proof : ProofBlob) :
    (ReadsBack (encodeNormalizationProof sourceSchema targetSchemas joinAttrs lossless).data
        (normalizationParts sourceSchema targetSchemas joinAttrs lossless) ↔
      Short (utf8 sourceSchema).length ∧ ShortTexts targetSchemas ∧ ShortTexts joinAttrs) ∧
    (ReadsBack (encodeDenormalizationProof sourceSchemas targetSchema joinAttrs rationale).data
        (denormalizationParts sourceSchemas targetSchema joinAttrs rationale) ↔
      ShortTexts sourceSchemas ∧ Short (utf8 targetSchema).length ∧ ShortTexts joinAttrs ∧
        Short (utf8 rationale).length) ∧
    (ReadsBack (exportProofForJournal proof) (exportParts proof) ↔
      Short (utf8 proof.proofType).length ∧ Short proof.data.length) := by
  refine ⟨?_, ?_, ?_⟩
  · rw [normalization_data, readsBack_iff, normalizationParts]
    simp (disch := decide) only [List.forall_mem_append, List.forall_mem_cons, fits_textsParts,
      fits_fixed, fits_map, List.not_mem_nil, IsEmpty.forall_iff, implies_true, true_and, and_true]
    simp only [BlobPart.Fits, and_assoc, and_true]
  · rw [denormalization_data, readsBack_iff, denormalizationParts]
    simp (disch := decide) only [List.forall_mem_append, List.forall_mem_cons, fits_textsParts,
      fits_fixed, fits_map, List.not_mem_nil, IsEmpty.forall_iff, implies_true, true_and, and_true]
    simp only [BlobPart.Fits, and_assoc]
  · rw [export_bytes, readsBack_iff, exportParts]
    simp (disch := decide) only [List.forall_mem_cons, fits_fixed, fits_map, List.not_mem_nil,
      IsEmpty.forall_iff, implies_true, true_and, and_true]
    rfl

theorem targets_mem_normalizationParts (sourceSchema : String) (targetSchemas joinAttrs : List String)
    (lossless : Bool) : BlobPart.array targetSchemas.length ∈
      normalizationParts sourceSchema targetSchemas joinAttrs lossless := by
  simp [normalizationParts, textsParts]

/-- A list of `65536` schemas is announced as empty. -/
theorem long_list_not_read :
    (between (lenBytes .map 5) (lenBytes .array 65536)).decodeArrayLen =
        .ok (0, between (lenBytes .map 5 ++ lenBytes .array 65536) []) ∧
      ¬ ReadsBack (encodeNormalizationProof "r" (List.replicate 65536 "s") [] true).data
        (normalizationParts "r" (List.replicate 65536 "s") [] true) := by
  have hread := readMajor_lenBytes (lenBytes .map 5) [] .array 65536
  rw [List.append_nil] at hread
  refine ⟨?_, fun h => ?_⟩
  · rw [Decoder.decodeArrayLen, hread]
    rfl
  · rw [normalization_data, readsBack_iff] at h
    have hlist := h _ (targets_mem_normalizationParts _ _ _ _)
    rw [List.length_replicate] at hlist
    exact lt_irrefl 65536 hlist

end NextgenDatabases.Normalizer
