import NextgenDatabases.Vcl.Ast

/-!
# VCL types

The types of the checker, their equality as the checker computes it, and their texts in
error messages.
-/
namespace NextgenDatabases.Vcl

inductive ModalityType
  | graph | vector | tensor | semantic | document | temporal | provenance | spatial
  deriving DecidableEq, Repr

inductive PrimitiveType
  | int | float | string | bool
  | vector (dim : ℤ)
  | tensor (shape : List ℤ)
  | uuid | timestamp
  deriving DecidableEq, Repr

structure FieldTypeInfo where
  modality : ModalityType
  fieldName : String
  fieldType : PrimitiveType
  deriving DecidableEq, Repr

structure AggregateTypeInfo where
  func : AggregateFunc
  resultType : PrimitiveType
  sourceField : Option FieldTypeInfo
  deriving DecidableEq, Repr

structure QueryResultInfo where
  modalities : List ModalityType
  projections : List FieldTypeInfo
  aggregates : List AggregateTypeInfo
  deriving DecidableEq, Repr

inductive ProofKind
  | existence | citation | access | integrity | provenance | custom
  deriving DecidableEq, Repr

inductive VclType
  | primitive (pt : PrimitiveType)
  | array (inner : VclType)
  | modality (m : ModalityType)
  | hexad (mods : List ModalityType)
  | queryResult (info : QueryResultInfo)
  | proof (kind : ProofKind) (contract : String)
  | provedResult (info : QueryResultInfo) (kind : ProofKind) (contract : String)
  | pi (x : String) (domain codomain : VclType)
  | sigma (x : String) (fst snd : VclType)
  | unit
  | never
  deriving DecidableEq, Repr

/-! ### Texts -/

def modalityTypeToString : ModalityType → String
  | .graph => "GRAPH"
  | .vector => "VECTOR"
  | .tensor => "TENSOR"
  | .semantic => "SEMANTIC"
  | .document => "DOCUMENT"
  | .temporal => "TEMPORAL"
  | .provenance => "PROVENANCE"
  | .spatial => "SPATIAL"

def modalityTypesToString (mods : List ModalityType) : String :=
  ", ".intercalate (mods.map modalityTypeToString)

def primitiveTypeToString : PrimitiveType → String
  | .int => "Int"
  | .float => "Float"
  | .string => "String"
  | .bool => "Bool"
  | .vector dim => "Vector<" ++ toString dim ++ ">"
  | .tensor shape => "Tensor<" ++ "x".intercalate (shape.map toString) ++ ">"
  | .uuid => "UUID"
  | .timestamp => "Timestamp"

def proofKindToString : ProofKind → String
  | .existence => "EXISTENCE"
  | .citation => "CITATION"
  | .access => "ACCESS"
  | .integrity => "INTEGRITY"
  | .provenance => "PROVENANCE"
  | .custom => "CUSTOM"

def vclTypeToString : VclType → String
  | .primitive pt => primitiveTypeToString pt
  | .array inner => "Array<" ++ vclTypeToString inner ++ ">"
  | .modality m => modalityTypeToString m
  | .hexad mods => "Hexad<" ++ modalityTypesToString mods ++ ">"
  | .queryResult info => "QueryResult<" ++ modalityTypesToString info.modalities ++ ">"
  | .proof kind contract => "Proof<" ++ proofKindToString kind ++ ", " ++ contract ++ ">"
  | .provedResult info kind contract =>
    "Sigma(QueryResult<" ++ modalityTypesToString info.modalities ++ ">, Proof<" ++
      proofKindToString kind ++ ", " ++ contract ++ ">)"
  | .pi x domain codomain =>
    "Pi(" ++ x ++ ": " ++ vclTypeToString domain ++ ") -> " ++ vclTypeToString codomain
  | .sigma x fst snd =>
    "Sigma(" ++ x ++ ": " ++ vclTypeToString fst ++ ", " ++ vclTypeToString snd ++ ")"
  | .unit => "Unit"
  | .never => "Never"

/-! ### Equality -/

def eqPrimitiveType : PrimitiveType → PrimitiveType → Bool
  | .int, .int => true
  | .float, .float => true
  | .string, .string => true
  | .bool, .bool => true
  | .vector d1, .vector d2 => d1 == d2
  | .tensor s1, .tensor s2 =>
    s1.length == s2.length && s1.zipIdx.all fun v =>
      match s2[v.2]? with
      | some v2 => v.1 == v2
      | none => false
  | .uuid, .uuid => true
  | .timestamp, .timestamp => true
  | _, _ => false

/-- The last two modalities have no case. -/
def eqModalityType : ModalityType → ModalityType → Bool
  | .graph, .graph => true
  | .vector, .vector => true
  | .tensor, .tensor => true
  | .semantic, .semantic => true
  | .document, .document => true
  | .temporal, .temporal => true
  | _, _ => false

def eqType : VclType → VclType → Bool
  | .primitive pa, .primitive pb => eqPrimitiveType pa pb
  | .array ia, .array ib => eqType ia ib
  | .modality ma, .modality mb => eqModalityType ma mb
  | .hexad ma, .hexad mb =>
    ma.length == mb.length && ma.all fun m => mb.any fun m2 => eqModalityType m m2
  | .unit, .unit => true
  | .never, .never => true
  | .proof k1 c1, .proof k2 c2 => k1 == k2 && c1 == c2
  | _, _ => false

/-! ### What is equal -/

theorem eqPrimitiveType_iff (a b : PrimitiveType) : eqPrimitiveType a b = true ↔ a = b := by
  cases a with
  | tensor s1 =>
    cases b with
    | tensor s2 =>
      simp only [eqPrimitiveType, Bool.and_eq_true, beq_iff_eq, List.all_eq_true,
        PrimitiveType.tensor.injEq]
      constructor
      · rintro ⟨hlength, hall⟩
        refine List.ext_getElem hlength fun i h1 h2 => ?_
        have hi := hall (s1[i], i) (List.mem_zipIdx_iff_getElem?.mpr (List.getElem?_eq_getElem h1))
        simpa [List.getElem?_eq_getElem h2] using hi
      · rintro rfl
        refine ⟨rfl, fun v hv => ?_⟩
        rw [List.mem_zipIdx_iff_getElem?.mp hv]
        exact beq_self_eq_true _
    | _ => simp [eqPrimitiveType]
  | vector d1 => cases b <;> simp [eqPrimitiveType]
  | _ => cases b <;> simp [eqPrimitiveType]

/-- The modality is one that the checker can compare. -/
def ModalityType.Known (m : ModalityType) : Prop := m ≠ .provenance ∧ m ≠ .spatial

theorem eqModalityType_iff (a b : ModalityType) :
    eqModalityType a b = true ↔ a = b ∧ a.Known := by
  cases a <;> cases b <;> simp [eqModalityType, ModalityType.Known]

end NextgenDatabases.Vcl
