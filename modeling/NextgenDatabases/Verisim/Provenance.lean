import NextgenDatabases.Foundations.Bytes
import NextgenDatabases.Foundations.HashChain
import NextgenDatabases.Verisim.Data

/-!
# Provenance chains

A record carries the hash of its own fields and that of the record before it. A chain that
is accepted is determined by the hash of its last record, and appending keeps a chain
acceptable.
-/
namespace NextgenDatabases.Verisim.Provenance

open Foundations (Bytes Digest toHex toHex_injective)
open Wal (DateTime asBytes)

inductive Json
  | null
  | string (s : String)
  | object (fields : List (String × Json))

/-- Library functions: SHA-256, `to_rfc3339` and the text of a JSON value. -/
structure Libraries where
  sha256 : Bytes → Digest
  toRfc3339 : DateTime → String
  jsonToString : Json → String

/-- A record of the chain: an event with the hash before it and its own. -/
structure ProvenanceRecord extends Verisim.ProvenanceRecord where
  parentHash : String
  contentHash : String
  deriving DecidableEq

structure ProvenanceChain where
  entityId : String
  records : List ProvenanceRecord
  deriving DecidableEq

inductive ProvenanceError
  | chainCorrupted (entity reason : String)
  | hashMismatch (entity : String) (index : ℕ)
  deriving DecidableEq

/-- The serialized event type: a name, or an object for a name of one's own. -/
def eventTypeJson : ProvenanceEventType → Json
  | .created => .string "Created"
  | .modified => .string "Modified"
  | .imported => .string "Imported"
  | .normalized => .string "Normalized"
  | .driftRepaired => .string "DriftRepaired"
  | .deleted => .string "Deleted"
  | .merged => .string "Merged"
  | .custom name => .object [("Custom", .string name)]

section libraries

variable (lib : Libraries)

/-- The canonical serialization of all fields but the content hash. -/
def canonical (event : Verisim.ProvenanceRecord) (parentHash : String) : Json :=
  .object [
    ("event_type", eventTypeJson event.eventType),
    ("actor", .string event.actor),
    ("timestamp", .string (lib.toRfc3339 event.timestamp)),
    ("source", (event.source.map Json.string).getD .null),
    ("description", .string event.description),
    ("parent_hash", .string parentHash)]

def computeHash (event : Verisim.ProvenanceRecord) (parentHash : String) : String :=
  toHex (lib.sha256 (asBytes (lib.jsonToString (canonical lib event parentHash))))

/-- `ProvenanceRecord::new`; the event has the time of the call. -/
def ProvenanceRecord.new (event : Verisim.ProvenanceRecord) (parentHash : String) :
    ProvenanceRecord :=
  { event with parentHash := parentHash, contentHash := computeHash lib event parentHash }

/-- The hash that the fields of the record have. -/
def ProvenanceRecord.digest (record : ProvenanceRecord) : String :=
  computeHash lib record.toProvenanceRecord record.parentHash

def ProvenanceRecord.verify (record : ProvenanceRecord) : Bool :=
  record.contentHash = record.digest lib

def genesisHash : String := toHex (lib.sha256 [])

/-- The loop of `ProvenanceChain::verify` from the record at `i` on. -/
def verifyFrom (entityId : String) :
    ℕ → String → List ProvenanceRecord → Except ProvenanceError Unit
  | _, _, [] => .ok ()
  | i, expectedParent, record :: rest =>
    if record.parentHash ≠ expectedParent then
      .error (.chainCorrupted entityId ("Record " ++ toString i ++
        " parent_hash mismatch: expected " ++ expectedParent ++ ", got " ++ record.parentHash))
    else if !record.verify lib then .error (.hashMismatch entityId i)
    else verifyFrom entityId (i + 1) record.contentHash rest

namespace ProvenanceChain

/-- The empty chain. -/
def new (entityId : String) : ProvenanceChain := ⟨entityId, []⟩

def verify (chain : ProvenanceChain) : Except ProvenanceError Unit :=
  verifyFrom lib chain.entityId 0 (genesisHash lib) chain.records

def latest (chain : ProvenanceChain) : Option ProvenanceRecord := chain.records.getLast?

def append (chain : ProvenanceChain) (event : Verisim.ProvenanceRecord) : ProvenanceChain :=
  let parentHash := (chain.records.getLast?.map fun r => r.contentHash).getD (genesisHash lib)
  { chain with records := chain.records ++ [.new lib event parentHash] }

end ProvenanceChain

/-! ### Accepted chains are linked -/

/-- The chain as a chain of the library. -/
def Linked (start : String) (records : List ProvenanceRecord) : Prop :=
  Foundations.HashChain.Linked (fun r => r.parentHash) (fun r => r.contentHash)
    (fun r => r.digest lib) start records

theorem verifyFrom_iff (entityId : String) (i : ℕ) (start : String)
    (records : List ProvenanceRecord) :
    verifyFrom lib entityId i start records = .ok () ↔ Linked lib start records := by
  induction records generalizing i start with
  | nil => simp [verifyFrom, Linked, Foundations.HashChain.Linked]
  | cons record rest ih =>
    rw [verifyFrom, Linked, Foundations.HashChain.Linked]
    by_cases hparent : record.parentHash = start
    · by_cases hcontent : record.contentHash = record.digest lib
      · have hverify : record.verify lib = true := decide_eq_true hcontent
        rw [if_neg (not_not.2 hparent), hverify, if_neg (by simp), ih]
        exact ⟨fun h => ⟨hparent, hcontent, h⟩, fun h => h.2.2⟩
      · have hverify : record.verify lib = false := decide_eq_false hcontent
        rw [if_neg (not_not.2 hparent), hverify, if_pos (by decide)]
        constructor
        · intro h
          cases h
        · intro h
          exact absurd h.2.1 hcontent
    · rw [if_pos hparent]
      constructor
      · intro h
        cases h
      · intro h
        exact absurd h.1 hparent

/-! ### Tampering -/

/-- The JSON value whose text is hashed for the record, and the text in bytes. -/
def ProvenanceRecord.json (record : ProvenanceRecord) : Json :=
  canonical lib record.toProvenanceRecord record.parentHash

def ProvenanceRecord.hashed (record : ProvenanceRecord) : Bytes :=
  asBytes (lib.jsonToString (record.json lib))

/-- Of what is hashed for the records no two differ and have one digest, and none has that of the
empty string. Their JSON values can be told from the texts, and their times from those in the
values. -/
structure Separated (records : List ProvenanceRecord) : Prop where
  sha256 : ∀ r ∈ records, ∀ s ∈ records, lib.sha256 (r.hashed lib) = lib.sha256 (s.hashed lib) →
    r.hashed lib = s.hashed lib
  notGenesis : ∀ r ∈ records, lib.sha256 (r.hashed lib) ≠ lib.sha256 []
  jsonToString : ∀ r ∈ records, ∀ s ∈ records,
    lib.jsonToString (r.json lib) = lib.jsonToString (s.json lib) → r.json lib = s.json lib
  toRfc3339 : ∀ r ∈ records, ∀ s ∈ records,
    lib.toRfc3339 r.timestamp = lib.toRfc3339 s.timestamp → r.timestamp = s.timestamp

end libraries

section chains

variable {lib : Libraries}

theorem asBytes_inj {s t : String} (h : asBytes s = asBytes t) : s = t := by
  have hdecoded := congrArg Wal.fromUtf8 h
  rw [Wal.fromUtf8_asBytes, Wal.fromUtf8_asBytes] at hdecoded
  exact Except.ok.inj hdecoded

/-- An own name for an event is never taken for one of the fixed names. -/
theorem eventTypeJson_injective : Function.Injective eventTypeJson := by
  intro t t' h
  cases t <;> cases t' <;> simp_all [eventTypeJson]

theorem source_injective :
    Function.Injective fun source : Option String => (source.map Json.string).getD .null := by
  intro source source' h
  cases source <;> cases source' <;> simp_all

/-- The canonical serialization covers every field. -/
theorem eq_of_json {r s : ProvenanceRecord}
    (htime : lib.toRfc3339 r.timestamp = lib.toRfc3339 s.timestamp → r.timestamp = s.timestamp)
    (hjson : r.json lib = s.json lib) (hcontent : r.contentHash = s.contentHash) : r = s := by
  obtain ⟨⟨eventType, actor, timestamp, source, description⟩, parent, content⟩ := r
  obtain ⟨⟨eventType', actor', timestamp', source', description'⟩, parent', content'⟩ := s
  simp only [ProvenanceRecord.json, canonical, Json.object.injEq, List.cons.injEq, Prod.mk.injEq,
    Json.string.injEq, true_and, and_true] at hjson
  obtain ⟨htype, rfl, hstamp, hsource, rfl, rfl⟩ := hjson
  obtain rfl := eventTypeJson_injective htype
  obtain rfl := htime hstamp
  obtain rfl := source_injective hsource
  obtain rfl : content = content' := hcontent
  rfl

theorem records_eq_of_latest {a b : ProvenanceChain} (hsep : Separated lib (a.records ++ b.records))
    (ha : a.verify lib = .ok ()) (hb : b.verify lib = .ok ())
    (hlatest : a.latest.map (fun r => r.contentHash) = b.latest.map fun r => r.contentHash) :
    a.records = b.records := by
  rw [ProvenanceChain.verify, verifyFrom_iff] at ha hb
  have hgenesis : ∀ r ∈ a.records ++ b.records, r.digest lib ≠ genesisHash lib :=
    fun r hr hdigest => hsep.notGenesis r hr (toHex_injective hdigest)
  refine Foundations.HashChain.Linked.eq_of_head ha hb hgenesis ?_
    (congrArg (fun o : Option String => o.getD (genesisHash lib)) hlatest)
  intro r hr s hs hcontent hcontent' hdigest
  have hr : r ∈ a.records ++ b.records := List.mem_append_left _ hr
  have hs : s ∈ a.records ++ b.records := List.mem_append_right _ hs
  -- from the digests to the texts, the values and the fields
  have htext := asBytes_inj (hsep.sha256 r hr s hs (toHex_injective hdigest))
  exact eq_of_json (hsep.toRfc3339 r hr s hs) (hsep.jsonToString r hr s hs htext)
    (by rw [hcontent, hcontent', hdigest])

theorem verify_append {chain : ProvenanceChain} (h : chain.verify lib = .ok ())
    (event : Verisim.ProvenanceRecord) : (chain.append lib event).verify lib = .ok () := by
  rw [ProvenanceChain.verify, verifyFrom_iff] at h ⊢
  rw [ProvenanceChain.append, Linked, Foundations.HashChain.linked_append]
  exact ⟨h, rfl, rfl⟩

theorem verify_appends (events : List Verisim.ProvenanceRecord) {chain : ProvenanceChain}
    (h : chain.verify lib = .ok ()) :
    (events.foldl (fun c e => c.append lib e) chain).verify lib = .ok () := by
  induction events generalizing chain with
  | nil => exact h
  | cons event events ih => exact ih (verify_append h event)

end chains

/-- The content hash of its last record determines an accepted chain, as far as SHA-256 tells what is
hashed apart; and every chain that is built by appending is accepted. -/
theorem tamper_evident (lib : Libraries) :
    (∀ a b : ProvenanceChain, Separated lib (a.records ++ b.records) →
      a.verify lib = .ok () → b.verify lib = .ok () →
        (a.latest.map fun r => r.contentHash) = (b.latest.map fun r => r.contentHash) →
          a.records = b.records) ∧
      ∀ (entityId : String) (events : List Verisim.ProvenanceRecord),
        (events.foldl (fun c e => c.append lib e) (ProvenanceChain.new entityId)).verify lib =
          .ok () :=
  ⟨fun _ _ hsep ha hb hlatest => records_eq_of_latest hsep ha hb hlatest,
    fun _ events => verify_appends events rfl⟩

/-! ### A chain of two records -/

def noon : DateTime := ⟨1767268800, 0, by decide, by decide, by decide⟩

def oneOClock : DateTime := ⟨1767272400, 0, by decide, by decide, by decide⟩

def emptyHash : String := "e3b0c44298fc1c149afbf4c8996fb92427ae41e4649b934ca495991b7852b855"

def createdHash : String := "d7bf92a6566eb3b82f2c4f760bcb32a24f5319b274dc90c308f0df946dab81d2"

def signedHash : String := "ddfce6f54d0c2ae6a588cc1089b695a63df6ad09f5f55ca5f1611d68d9108aa9"

def created : Verisim.ProvenanceRecord := ⟨.created, "ann", noon, none, "first"⟩

def signed : Verisim.ProvenanceRecord := ⟨.custom "signed", "bob", oneOClock, some "ui", "second"⟩

def creation : ProvenanceRecord := ⟨created, emptyHash, createdHash⟩

def signature : ProvenanceRecord := ⟨signed, createdHash, signedHash⟩

def twoRecords : ProvenanceChain := ⟨"octad", [creation, signature]⟩

def createdText : String :=
  "\x7b\"actor\":\"ann\",\"description\":\"first\",\"event_type\":\"Created\",\"parent_hash\":\"" ++
    emptyHash ++ "\",\"source\":null,\"timestamp\":\"2026-01-01T12:00:00+00:00\"\x7d"

def signedText : String :=
  "\x7b\"actor\":\"bob\",\"description\":\"second\",\"event_type\":\x7b\"Custom\":" ++
    "\"signed\"\x7d,\"parent_hash\":\"" ++ createdHash ++
      "\",\"source\":\"ui\",\"timestamp\":\"2026-01-01T13:00:00+00:00\"\x7d"

def emptyDigest : Digest := #v[227, 176, 196, 66, 152, 252, 28, 20, 154, 251, 244, 200, 153, 111,
  185, 36, 39, 174, 65, 228, 100, 155, 147, 76, 164, 149, 153, 27, 120, 82, 184, 85]

def createdDigest : Digest := #v[215, 191, 146, 166, 86, 110, 179, 184, 47, 44, 79, 118, 11, 203,
  50, 162, 79, 83, 25, 178, 116, 220, 144, 195, 8, 240, 223, 148, 109, 171, 129, 210]

def signedDigest : Digest := #v[221, 252, 230, 245, 77, 12, 42, 230, 165, 136, 204, 16, 137, 182,
  149, 166, 61, 246, 173, 9, 245, 245, 92, 165, 241, 97, 29, 104, 217, 16, 138, 169]

/-- SHA-256 on the strings that are hashed for the two records. -/
def sha256OfTwo (bytes : Bytes) : Digest :=
  if bytes = [] then emptyDigest
  else if bytes = asBytes createdText then createdDigest
  else signedDigest

/-- The library functions on the two records. -/
def twoRecordsLib : Libraries where
  sha256 := sha256OfTwo
  toRfc3339 t := if t = noon then "2026-01-01T12:00:00+00:00" else "2026-01-01T13:00:00+00:00"
  jsonToString
    | .object ((_, .string _) :: _) => createdText
    | _ => signedText

theorem twoRecordsLib_sha256 : twoRecordsLib.sha256 = sha256OfTwo := rfl

theorem asBytes_ne {s t : String} (h : s ≠ t) : asBytes s ≠ asBytes t := fun heq =>
  h (asBytes_inj heq)

theorem sha256_empty : twoRecordsLib.sha256 [] = emptyDigest := rfl

theorem sha256_creation :
    twoRecordsLib.sha256 (creation.hashed twoRecordsLib) = createdDigest := by
  have htext : creation.hashed twoRecordsLib = asBytes createdText := rfl
  have hempty : asBytes createdText ≠ [] := asBytes_ne (t := "") (by decide)
  rw [htext, twoRecordsLib_sha256, sha256OfTwo, if_neg hempty, if_pos rfl]

theorem sha256_signature :
    twoRecordsLib.sha256 (signature.hashed twoRecordsLib) = signedDigest := by
  have htext : signature.hashed twoRecordsLib = asBytes signedText := rfl
  have hempty : asBytes signedText ≠ [] := asBytes_ne (t := "") (by decide)
  have hother : asBytes signedText ≠ asBytes createdText := asBytes_ne (by decide)
  rw [htext, twoRecordsLib_sha256, sha256OfTwo, if_neg hempty, if_neg hother]

theorem digest_creation : creation.digest twoRecordsLib = createdHash := by
  change toHex (twoRecordsLib.sha256 (creation.hashed twoRecordsLib)) = createdHash
  rw [sha256_creation]
  decide

theorem digest_signature : signature.digest twoRecordsLib = signedHash := by
  change toHex (twoRecordsLib.sha256 (signature.hashed twoRecordsLib)) = signedHash
  rw [sha256_signature]
  decide

theorem genesisHash_eq : genesisHash twoRecordsLib = emptyHash := by
  decide

theorem verify_twoRecords : twoRecords.verify twoRecordsLib = .ok () := by
  rw [ProvenanceChain.verify, verifyFrom_iff, genesisHash_eq]
  exact ⟨rfl, digest_creation.symm, rfl, digest_signature.symm, trivial⟩

theorem mem_twoRecords {r : ProvenanceRecord} (h : r ∈ twoRecords.records ++ twoRecords.records) :
    r = creation ∨ r = signature := by
  simpa [twoRecords, or_assoc, or_comm, or_left_comm] using h

theorem separated_twoRecords :
    Separated twoRecordsLib (twoRecords.records ++ twoRecords.records) where
  sha256 r hr s hs h := by
    rcases mem_twoRecords hr with rfl | rfl <;> rcases mem_twoRecords hs with rfl | rfl
    · rfl
    · rw [sha256_creation, sha256_signature] at h
      exact absurd h (by decide)
    · rw [sha256_creation, sha256_signature] at h
      exact absurd h (by decide)
    · rfl
  notGenesis r hr := by
    rcases mem_twoRecords hr with rfl | rfl
    · rw [sha256_creation, sha256_empty]
      decide
    · rw [sha256_signature, sha256_empty]
      decide
  jsonToString r hr s hs h := by
    rcases mem_twoRecords hr with rfl | rfl <;> rcases mem_twoRecords hs with rfl | rfl
    · rfl
    · exact absurd (show createdText = signedText from h) (by decide)
    · exact absurd (show signedText = createdText from h) (by decide)
    · rfl
  toRfc3339 r hr s hs h := by
    rcases mem_twoRecords hr with rfl | rfl <;> rcases mem_twoRecords hs with rfl | rfl
    · rfl
    · exact absurd h (by decide)
    · exact absurd h (by decide)
    · rfl

theorem tamper_evident_twoRecords :
    twoRecords.records = twoRecords.records ∧
      ((ProvenanceChain.new "octad").append twoRecordsLib created).verify twoRecordsLib = .ok () :=
  ⟨(tamper_evident twoRecordsLib).1 twoRecords twoRecords separated_twoRecords verify_twoRecords
    verify_twoRecords rfl, (tamper_evident twoRecordsLib).2 "octad" [created]⟩

end NextgenDatabases.Verisim.Provenance
