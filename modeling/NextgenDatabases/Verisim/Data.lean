import NextgenDatabases.Wal.Entry

/-!
# Octads

An entity has up to eight modalities. What a caller supplies for them, what the
stores hold, and the status that the registry keeps.
-/
namespace NextgenDatabases.Verisim

open Wal (DateTime)

/-- A floating point number; both zeros are one. -/
inductive F64
  | nan
  | negInf
  | posInf
  | finite (q : ℚ)
  deriving DecidableEq

/-- `(lo..=hi).contains(&x)`. -/
def F64.inRange (lo hi : ℚ) : F64 → Bool
  | finite q => decide (lo ≤ q ∧ q ≤ hi)
  | _ => false

/-- A `HashMap<String, String>`, as the list of its entries. -/
abbrev StringMap := List (String × String)

inductive Modality
  | graph | vector | tensor | semantic | document | temporal | provenance | spatial
  deriving DecidableEq, Repr

def Modality.name : Modality → String
  | graph => "graph"
  | vector => "vector"
  | tensor => "tensor"
  | semantic => "semantic"
  | document => "document"
  | temporal => "temporal"
  | provenance => "provenance"
  | spatial => "spatial"

theorem Modality.name_injective : Function.Injective Modality.name := by
  intro a b h
  cases a <;> cases b <;> first | rfl | exact absurd h (by decide)

/-! ### Status -/

structure ModalityStatus where
  graph : Bool := false
  vector : Bool := false
  tensor : Bool := false
  semantic : Bool := false
  document : Bool := false
  temporal : Bool := false
  provenance : Bool := false
  spatial : Bool := false
  deriving DecidableEq, Repr

namespace ModalityStatus

def get (s : ModalityStatus) : Modality → Bool
  | .graph => s.graph
  | .vector => s.vector
  | .tensor => s.tensor
  | .semantic => s.semantic
  | .document => s.document
  | .temporal => s.temporal
  | .provenance => s.provenance
  | .spatial => s.spatial

/-- Set the flag of a modality. -/
def mark (s : ModalityStatus) : Modality → ModalityStatus
  | .graph => { s with graph := true }
  | .vector => { s with vector := true }
  | .tensor => { s with tensor := true }
  | .semantic => { s with semantic := true }
  | .document => { s with document := true }
  | .temporal => { s with temporal := true }
  | .provenance => { s with provenance := true }
  | .spatial => { s with spatial := true }

theorem ext_get {s t : ModalityStatus} (h : ∀ m, s.get m = t.get m) : s = t := by
  cases s
  cases t
  simp only [mk.injEq]
  exact ⟨h .graph, h .vector, h .tensor, h .semantic, h .document, h .temporal, h .provenance,
    h .spatial⟩

@[simp] theorem get_mark (s : ModalityStatus) (m n : Modality) :
    (s.mark m).get n = (s.get n || decide (m = n)) := by
  cases m <;> cases n <;> simp [mark, get]

theorem get_foldl_mark (s : ModalityStatus) (ms : List Modality) (n : Modality) :
    (ms.foldl mark s).get n = (s.get n || decide (n ∈ ms)) := by
  induction ms generalizing s with
  | nil => simp
  | cons m ms ih =>
    rw [List.foldl_cons, ih, get_mark]
    by_cases h : m = n
    · simp [h]
    · simp [h, Ne.symm h]

/-- Every flag that is set in `s` is set in `t`. -/
def Le (s t : ModalityStatus) : Prop := ∀ m, s.get m = true → t.get m = true

end ModalityStatus

structure OctadStatus where
  id : String
  createdAt : DateTime
  modifiedAt : DateTime
  observedAt : Option DateTime
  version : ℕ
  modalityStatus : ModalityStatus
  deriving DecidableEq

/-! ### Input -/

structure OctadGraphInput where
  relationships : List (String × String)
  deriving DecidableEq

structure OctadVectorInput where
  embedding : List F64
  model : Option String
  deriving DecidableEq

structure OctadTensorInput where
  shape : List ℕ
  data : List F64
  deriving DecidableEq

structure OctadSemanticInput where
  types : List String
  properties : StringMap
  deriving DecidableEq

structure OctadDocumentInput where
  title : String
  body : String
  fields : StringMap
  deriving DecidableEq

structure OctadTemporalInput where
  observedAt : DateTime
  deriving DecidableEq

structure OctadProvenanceInput where
  eventType : String
  actor : String
  source : Option String
  description : String
  deriving DecidableEq

structure OctadSpatialInput where
  latitude : F64
  longitude : F64
  altitude : Option F64
  geometryType : Option String
  srid : Option ℕ
  properties : StringMap
  deriving DecidableEq

structure OctadInput where
  graph : Option OctadGraphInput := none
  vector : Option OctadVectorInput := none
  tensor : Option OctadTensorInput := none
  semantic : Option OctadSemanticInput := none
  document : Option OctadDocumentInput := none
  temporal : Option OctadTemporalInput := none
  provenance : Option OctadProvenanceInput := none
  spatial : Option OctadSpatialInput := none
  metadata : StringMap := []
  deriving DecidableEq

namespace OctadInput

/-- Whether the caller supplied something for a modality. -/
def has (input : OctadInput) : Modality → Bool
  | .graph => input.graph.isSome
  | .vector => input.vector.isSome
  | .tensor => input.tensor.isSome
  | .semantic => input.semantic.isSome
  | .document => input.document.isSome
  | .temporal => input.temporal.isSome
  | .provenance => input.provenance.isSome
  | .spatial => input.spatial.isSome

/-- The modalities that are written before the version snapshot, in order. -/
def processed : List Modality :=
  [.graph, .vector, .document, .tensor, .semantic, .provenance, .spatial]

theorem processed_nodup : processed.Nodup := by decide

/-- The supplied modalities, in the order in which they are written. -/
def supplied (input : OctadInput) : List Modality := processed.filter input.has

/-- The modalities that are locked, the version snapshot last. -/
def modalityNames (input : OctadInput) : List Modality := input.supplied ++ [.temporal]

/-- The observation time that the caller supplied. -/
def observedAt (input : OctadInput) : Option DateTime := input.temporal.map (·.observedAt)

end OctadInput

/-! ### What the stores hold -/

structure Embedding where
  id : String
  vector : List F64
  deriving DecidableEq

structure Document where
  id : String
  title : String
  body : String
  fields : StringMap
  deriving DecidableEq

structure Tensor where
  id : String
  shape : List ℕ
  data : List F64
  deriving DecidableEq

/-- A `SemanticValue::TypedLiteral`. -/
structure TypedLiteral where
  value : String
  datatype : String
  deriving DecidableEq

structure SemanticAnnotation where
  entityId : String
  types : List String
  properties : List (String × TypedLiteral)
  /-- From the default provenance of an annotation. -/
  createdAt : DateTime
  deriving DecidableEq

inductive ProvenanceEventType
  | created | modified | imported | normalized | driftRepaired | deleted | merged
  | custom (name : String)
  deriving DecidableEq, Repr

structure ProvenanceRecord where
  eventType : ProvenanceEventType
  actor : String
  timestamp : DateTime
  source : Option String
  description : String
  deriving DecidableEq

structure Coordinates where
  latitude : F64
  longitude : F64
  altitude : Option F64
  deriving DecidableEq

inductive GeometryType
  | point | lineString | polygon | multiPoint | multiPolygon
  deriving DecidableEq, Repr

structure SpatialData where
  coordinates : Coordinates
  geometryType : GeometryType
  srid : ℕ
  properties : StringMap
  deriving DecidableEq

structure OctadSnapshot where
  id : String
  input : OctadInput
  modalityStatus : ModalityStatus
  timestamp : DateTime
  deriving DecidableEq

structure Version where
  version : ℕ
  timestamp : DateTime
  data : OctadSnapshot
  author : String
  message : Option String
  deriving DecidableEq

structure OctadConfig where
  baseIri : String
  vectorDimension : ℕ
  deriving DecidableEq

/-- What a successful create or update returns. -/
structure Octad where
  id : String
  status : OctadStatus
  graphNode : Option String
  embedding : Option Embedding
  tensor : Option Tensor
  semantic : Option SemanticAnnotation
  document : Option Document
  versionCount : ℕ
  provenanceChainLength : ℕ
  spatialData : Option SpatialData
  deriving DecidableEq

end NextgenDatabases.Verisim
