import NextgenDatabases.Foundations.Buckets
import NextgenDatabases.Planner.Plan
import Mathlib.Data.Rat.Defs

/-!
# From a query to its plan

The syntax tree that the planner receives and its conversion into a logical plan. Floating
point numbers are rationals. `usize` has 64 bits.
-/
namespace NextgenDatabases.Planner

open Foundations (Buckets)

/-! ### The syntax tree -/

/-- `serde_json::Value` -/
inductive Value
  | null
  | bool (b : Bool)
  | number (text : String)
  | string (s : String)
  | array (values : List Value)
  | object (fields : List (String × Value))

inductive VclModality
  | graph | vector | tensor | semantic | document | temporal | all
  deriving DecidableEq, Repr

inductive VclSource
  | octad (uuid : Option String)
  | federation (nodes : List String) (driftPolicy : Option String)
  | store (modality : VclModality)
  deriving DecidableEq, Repr

structure VclFieldRef where
  modality : Option VclModality
  field : String
  deriving DecidableEq, Repr

inductive VclSimpleCondition
  | fulltextContains (text : String)
  | vectorSimilar (embedding : List ℚ) (threshold : ℚ)
  | graphPattern (predicate : String) (depth : Option UInt32)
  | fieldCondition (field : VclFieldRef) (operator : String) (value : Value)
  | crossModalFieldCompare (left : VclFieldRef) (operator : String) (right : VclFieldRef)
  | modalityDrift (modality : VclModality) (threshold : ℚ)
  | modalityExists (modality : VclModality)
  | modalityNotExists (modality : VclModality)
  | modalityConsistency (modalities : List VclModality) (threshold : ℚ)

inductive VclCondition
  | and (lhs rhs : VclCondition)
  | or (lhs rhs : VclCondition)
  | not (inner : VclCondition)
  | simple (s : VclSimpleCondition)

structure VclProjection where
  field : VclFieldRef
  alias_ : Option String
  deriving DecidableEq, Repr

structure VclAggregate where
  function : String
  field : Option VclFieldRef
  alias_ : Option String
  deriving DecidableEq, Repr

inductive VclProofType
  | citation
  | zkp
  | attestation
  | custom (tag : String)
  deriving DecidableEq, Repr

structure VclProofSpec where
  proofType : VclProofType
  contractName : String
  deriving DecidableEq, Repr

inductive VclDirection
  | asc | desc
  deriving DecidableEq, Repr

structure VclOrderBy where
  field : VclFieldRef
  direction : VclDirection
  deriving DecidableEq, Repr

structure VclQuery where
  modalities : List VclModality
  source : VclSource
  whereClause : Option VclCondition := none
  projections : Option (List VclProjection) := none
  aggregates : Option (List VclAggregate) := none
  groupBy : Option (List VclFieldRef) := none
  having : Option VclCondition := none
  proof : Option (List VclProofSpec) := none
  orderBy : Option (List VclOrderBy) := none
  limit : Option UInt64 := none
  offset : Option UInt64 := none

/-! ### Formatting -/

/-- How the runtime prints what is not made up of names. -/
structure Formats where
  debugStr : String → String
  displayFloat : ℚ → String
  debugFloat : ℚ → String
  displayValue : Value → String
  debugValue : Value → String

def debugOption {α : Type} (debug : α → String) : Option α → String
  | none => "None"
  | some a => "Some(" ++ debug a ++ ")"

def debugList {α : Type} (debug : α → String) (l : List α) : String :=
  "[" ++ ", ".intercalate (l.map debug) ++ "]"

def debugTuple (name arg : String) : String := name ++ "(" ++ arg ++ ")"

def debugStruct (name : String) (fields : List (String × String)) : String :=
  name ++ " \x7b " ++ ", ".intercalate (fields.map fun (k, v) => k ++ ": " ++ v) ++ " \x7d"

namespace VclModality

/-- `{:?}` -/
def debug : VclModality → String
  | .graph => "Graph"
  | .vector => "Vector"
  | .tensor => "Tensor"
  | .semantic => "Semantic"
  | .document => "Document"
  | .temporal => "Temporal"
  | .all => "All"

end VclModality

section format

variable (fmt : Formats)

def VclFieldRef.debug (f : VclFieldRef) : String :=
  debugStruct "VclFieldRef"
    [("modality", debugOption VclModality.debug f.modality), ("field", fmt.debugStr f.field)]

def ConditionKind.debug : ConditionKind → String
  | .equality field value =>
    debugStruct "Equality" [("field", fmt.debugStr field), ("value", fmt.debugStr value)]
  | .range field low high =>
    debugStruct "Range"
      [("field", fmt.debugStr field), ("low", fmt.debugStr low), ("high", fmt.debugStr high)]
  | .fulltext query => debugStruct "Fulltext" [("query", fmt.debugStr query)]
  | .similarity k => debugStruct "Similarity" [("k", toString k)]
  | .traversal pred depth =>
    debugStruct "Traversal"
      [("predicate", fmt.debugStr pred), ("depth", debugOption toString depth)]
  | .atTime timestamp => debugStruct "AtTime" [("timestamp", fmt.debugStr timestamp)]
  | .proofVerification contract =>
    debugStruct "ProofVerification" [("contract", fmt.debugStr contract)]
  | .tensorOp operation => debugStruct "TensorOp" [("operation", fmt.debugStr operation)]
  | .predicate expression => debugStruct "Predicate" [("expression", fmt.debugStr expression)]

def VclSimpleCondition.debug : VclSimpleCondition → String
  | .fulltextContains text => debugTuple "FulltextContains" (fmt.debugStr text)
  | .vectorSimilar embedding threshold =>
    debugStruct "VectorSimilar"
      [("embedding", debugList fmt.debugFloat embedding), ("threshold", fmt.debugFloat threshold)]
  | .graphPattern predicate depth =>
    debugStruct "GraphPattern"
      [("predicate", fmt.debugStr predicate), ("depth", debugOption toString depth)]
  | .fieldCondition field operator value =>
    debugStruct "FieldCondition"
      [("field", field.debug fmt), ("operator", fmt.debugStr operator),
        ("value", fmt.debugValue value)]
  | .crossModalFieldCompare left operator right =>
    debugStruct "CrossModalFieldCompare"
      [("left", left.debug fmt), ("operator", fmt.debugStr operator), ("right", right.debug fmt)]
  | .modalityDrift modality threshold =>
    debugStruct "ModalityDrift"
      [("modality", modality.debug), ("threshold", fmt.debugFloat threshold)]
  | .modalityExists modality => debugTuple "ModalityExists" modality.debug
  | .modalityNotExists modality => debugTuple "ModalityNotExists" modality.debug
  | .modalityConsistency modalities threshold =>
    debugStruct "ModalityConsistency"
      [("modalities", debugList VclModality.debug modalities),
        ("threshold", fmt.debugFloat threshold)]

def describeCondition : VclCondition → String
  | .and l r => "(" ++ describeCondition l ++ " AND " ++ describeCondition r ++ ")"
  | .or l r => "(" ++ describeCondition l ++ " OR " ++ describeCondition r ++ ")"
  | .not inner => "NOT(" ++ describeCondition inner ++ ")"
  | .simple s => s.debug fmt

end format

/-! ### Conversion -/

def vclModalityToPlanner : VclModality → Except PlannerError Modality
  | .graph => .ok .graph
  | .vector => .ok .vector
  | .tensor => .ok .tensor
  | .semantic => .ok .semantic
  | .document => .ok .document
  | .temporal => .ok .temporal
  | .all =>
    .error (.invalidConfig "All modality should be expanded before individual mapping")

def pushModality (result : List Modality) : VclModality → Except PlannerError (List Modality)
  | .all => .ok (result ++ Modality.all)
  | other => (vclModalityToPlanner other).map fun m => result ++ [m]

def resolveModalities (vclMods : List VclModality) : Except PlannerError (List Modality) := do
  let result ← vclMods.foldlM pushModality []
  return result.eraseDups

def mapSource : VclSource → Except PlannerError QuerySource
  | .octad _ => .ok .octad
  | .federation nodes _ => .ok (.federation nodes)
  | .store modality => do
    let m ← vclModalityToPlanner modality
    return .store m

def fieldRefName (f : VclFieldRef) : String :=
  match f.modality with
  | some m => m.debug ++ "." ++ f.field
  | none => f.field

section conversion

variable (fmt : Formats)

/-- The modality that the condition targets, if it targets one, and its kind. -/
def mapSimpleCondition :
    VclSimpleCondition → Except PlannerError (Option Modality × ConditionKind)
  | .fulltextContains text => .ok (some .document, .fulltext text)
  | .vectorSimilar embedding _ => .ok (some .vector, .similarity embedding.length)
  | .graphPattern predicate depth => .ok (some .graph, .traversal predicate depth)
  | .fieldCondition field operator value =>
    let target := field.modality.bind fun vm => (vclModalityToPlanner vm).toOption
    let valueStr :=
      match value with
      | .string s => s
      | other => fmt.displayValue other
    let kind :=
      if operator ∈ ["=", "==", "!=", "<>"] then
        .equality field.field valueStr
      else if operator ∈ [">", ">=", "<", "<=", "BETWEEN"] then
        .range field.field valueStr valueStr
      else
        .predicate (field.field ++ " " ++ operator ++ " " ++ valueStr)
    .ok (target, kind)
  | .crossModalFieldCompare left operator right =>
    let modality (f : VclFieldRef) : String := (f.modality.map VclModality.debug).getD "?"
    .ok (none, .predicate ("cross_modal: " ++ modality left ++ "." ++ left.field ++ " " ++
      operator ++ " " ++ modality right ++ "." ++ right.field))
  | .modalityDrift modality threshold => do
    let m ← vclModalityToPlanner modality
    return (some m, .predicate ("drift(" ++ m.display ++ ") > " ++ fmt.displayFloat threshold))
  | .modalityExists modality => do
    let m ← vclModalityToPlanner modality
    return (some m, .predicate ("exists(" ++ m.display ++ ")"))
  | .modalityNotExists modality => do
    let m ← vclModalityToPlanner modality
    return (some m, .predicate ("not_exists(" ++ m.display ++ ")"))
  | .modalityConsistency modalities threshold =>
    let names := modalities.filterMap fun vm =>
      (vclModalityToPlanner vm).toOption.map Modality.display
    .ok (none, .predicate ("consistency(" ++ ", ".intercalate names ++ ") > " ++
      fmt.displayFloat threshold))

/-- What is broadcast for `OR`, which is not split between the modalities. -/
def orPredicate (lhs rhs : VclCondition) : ConditionKind :=
  .predicate ("OR(" ++ describeCondition fmt lhs ++ ", " ++ describeCondition fmt rhs ++ ")")

def notPredicate (inner : VclCondition) : ConditionKind :=
  .predicate ("NOT(" ++ describeCondition fmt inner ++ ")")

/-- What is broadcast for a condition whose target is not active. -/
def strayPredicate (m : Modality) (conditionKind : ConditionKind) : ConditionKind :=
  .predicate ("target_modality=" ++ m.display ++ ": " ++ conditionKind.debug fmt)

def flattenConditions (activeModalities : List Modality) :
    VclCondition → Buckets Modality ConditionKind →
      Except PlannerError (Buckets Modality ConditionKind)
  | .and lhs rhs, out => do
    let out ← flattenConditions activeModalities lhs out
    flattenConditions activeModalities rhs out
  | .or lhs rhs, out => .ok (out.broadcast activeModalities (orPredicate fmt lhs rhs))
  | .not inner, out => .ok (out.broadcast activeModalities (notPredicate fmt inner))
  | .simple simple, out => do
    let (targetModality, conditionKind) ← mapSimpleCondition fmt simple
    match targetModality with
    | some m =>
      if (out m).isSome then
        .ok (out.push m conditionKind)
      else
        .ok (out.broadcast activeModalities (strayPredicate fmt m conditionKind))
    | none => .ok (out.broadcast activeModalities conditionKind)

def pushProof (out : Buckets Modality ConditionKind) (spec : VclProofSpec) :
    Buckets Modality ConditionKind :=
  out.push .semantic (.proofVerification spec.contractName)

def buildConditionMap (modalities : List Modality) (query : VclQuery) :
    Except PlannerError (Buckets Modality ConditionKind) := do
  let conditionMap : Buckets Modality ConditionKind :=
    fun m => if m ∈ modalities then some [] else none
  let conditionMap ←
    match query.whereClause with
    | some cond => flattenConditions fmt modalities cond conditionMap
    | none => .ok conditionMap
  return (query.proof.getD []).foldl pushProof conditionMap

def buildProjectionMap (modalities : List Modality) (projections : Option (List VclProjection)) :
    Buckets Modality String :=
  match projections with
  | none => fun _ => none
  | some projs => projs.foldl (fun map proj =>
      let fieldName := proj.alias_.getD proj.field.field
      match proj.field.modality with
      | some vm =>
        match vclModalityToPlanner vm with
        | .ok m => if m ∈ modalities then map.push m fieldName else map
        | .error _ => map
      | none => map.broadcast modalities fieldName) fun _ => none

def offsetMarker (skip : UInt64) : String := "__offset=" ++ toString skip.toNat

def VclAggregate.render (a : VclAggregate) : String :=
  a.function ++ "(" ++ (a.field.map fieldRefName).getD "*" ++ ")"

def VclProjection.column (p : VclProjection) : String :=
  p.alias_.getD (fieldRefName p.field)

def groupSteps (query : VclQuery) : List PostProcessing :=
  match query.groupBy with
  | some groupFields =>
    [.groupBy (groupFields.map fieldRefName)
      ((query.aggregates.map fun aggs => aggs.map VclAggregate.render).getD [])]
  | none => []

def orderSteps (query : VclQuery) : List PostProcessing :=
  match query.orderBy with
  | some orderFields =>
    [.orderBy (orderFields.map fun o => (fieldRefName o.field, o.direction = .asc))]
  | none => []

def limitSteps (query : VclQuery) : List PostProcessing :=
  match query.limit with
  | some count => [.limit count]
  | none => []

/-- A limit is added for an offset that has none. -/
def pushOffset (query : VclQuery) (post : List PostProcessing) : List PostProcessing :=
  match query.offset with
  | some skip =>
    if 0 < skip then
      let hasLimit := post.any PostProcessing.isLimit
      let post := if hasLimit then post else post ++ [.limit (0xFFFFFFFFFFFFFFFF - skip)]
      post ++ [.project [offsetMarker skip]]
    else
      post
  | none => post

def pushColumns (query : VclQuery) (post : List PostProcessing) : List PostProcessing :=
  if query.groupBy.isNone then
    match query.projections with
    | some projs =>
      let columns := projs.map VclProjection.column
      if columns = [] then post else post ++ [.project columns]
    | none => post
  else
    post

def postProcess (query : VclQuery) : List PostProcessing :=
  pushColumns query (pushOffset query (groupSteps query ++ orderSteps query ++ limitSteps query))

def toLogicalPlan (query : VclQuery) : Except PlannerError LogicalPlan := do
  let modalities ← resolveModalities query.modalities
  if modalities = [] then
    .error .emptyPlan
  else
    let source ← mapSource query.source
    let conditionMap ← buildConditionMap fmt modalities query
    let projectionMap := buildProjectionMap modalities query.projections
    let nodes := modalities.map fun m =>
      { modality := m
        conditions := (conditionMap m).getD []
        projections := (projectionMap m).getD []
        earlyLimit := none : PlanNode }
    let nodes := nodes.insertionSort fun x y =>
      x.modality.executionPriority ≤ y.modality.executionPriority
    return { source := source, nodes := nodes, postProcessing := postProcess query }

end conversion

end NextgenDatabases.Planner
