import Mathlib.Data.Rat.Defs

/-!
# The syntax of VCL

The untyped syntax tree that the parser builds: queries, mutations and statements. Floating
point numbers are rationals.
-/
namespace NextgenDatabases.Vcl

inductive Modality
  | graph | vector | tensor | semantic | document | temporal | provenance | spatial | all
  deriving DecidableEq, Repr

inductive DriftPolicy
  | strict | repair | tolerate | latest
  deriving DecidableEq, Repr

inductive Source
  | hexad (id : String)
  | federation (pattern : String) (drift : Option DriftPolicy)
  | store (id : String)
  | reflect
  deriving DecidableEq, Repr

inductive Operator
  | eq | neq | gt | lt | gte | lte | like | contains | matches
  deriving DecidableEq, Repr

inductive Literal
  | string (s : String)
  | int (n : ℤ)
  | float (q : ℚ)
  | bool (b : Bool)
  | array (values : List Literal)

inductive SimpleCondition
  | fulltextContains (text : String)
  | fulltextMatches (pattern : String)
  | fieldCondition (field : String) (op : Operator) (value : Literal)
  | vectorSimilar (embedding : List ℚ) (threshold : Option ℚ)
  | graphPattern (pattern : String)
  | crossModalFieldCompare (mod1 : Modality) (field1 : String) (op : Operator) (mod2 : Modality)
      (field2 : String)
  | modalityDrift (mod1 mod2 : Modality) (threshold : ℚ)
  | modalityExists (mod : Modality)
  | modalityNotExists (mod : Modality)
  | modalityConsistency (mod1 mod2 : Modality) (metric : String)

inductive Condition
  | simple (c : SimpleCondition)
  | and (left right : Condition)
  | or (left right : Condition)
  | not (c : Condition)

/-- `DOCUMENT.name` -/
structure FieldRef where
  modality : Modality
  field : String
  deriving DecidableEq, Repr

inductive AggregateFunc
  | count | sum | avg | min | max
  deriving DecidableEq, Repr

inductive AggregateExpr
  | countAll
  | aggregateField (func : AggregateFunc) (ref : FieldRef)
  deriving DecidableEq, Repr

inductive SortDirection
  | asc | desc
  deriving DecidableEq, Repr

structure OrderByItem where
  field : FieldRef
  direction : SortDirection
  deriving DecidableEq, Repr

inductive ProofType
  | existence | citation | access | integrity | provenance | custom
  deriving DecidableEq, Repr

/-- The parser never sets the parameters of a custom proof. -/
structure ProofSpec where
  proofType : ProofType
  contractName : String
  deriving DecidableEq, Repr

structure Query where
  modalities : List Modality
  projections : Option (List FieldRef)
  aggregates : Option (List AggregateExpr)
  source : Source
  where_ : Option Condition
  groupBy : Option (List FieldRef)
  having : Option Condition
  proof : Option (List ProofSpec)
  orderBy : Option (List OrderByItem)
  limit : Option ℤ
  offset : Option ℤ

/-! ### Mutations -/

inductive ModalityData
  | documentData (fields : List (String × Literal))
  | vectorData (embedding : List ℚ)
  | graphData (edgeType target : String)
  | tensorData (values : List Literal)
  | semanticData (contract : String)
  | temporalData (timestamp : String)
  | provenanceData (fields : List (String × Literal))
  | spatialData (fields : List (String × Literal))

inductive Mutation
  | insert (modalities : List ModalityData) (proof : Option (List ProofSpec))
  | update (hexadId : String) (sets : List (FieldRef × Literal))
      (proof : Option (List ProofSpec))
  | delete (hexadId : String) (proof : Option (List ProofSpec))

inductive Statement
  | query (q : Query)
  | mutation (m : Mutation)

end NextgenDatabases.Vcl
