import Mathlib.Data.List.Sort

/-!
# Logical plans

The modalities of the planner and the plans that a query is turned into.
-/
namespace NextgenDatabases.Planner

inductive Modality
  | graph | vector | tensor | semantic | document | temporal
  deriving DecidableEq, Repr

namespace Modality

/-- `Modality::ALL` -/
def all : List Modality := [.graph, .vector, .tensor, .semantic, .document, .temporal]

def executionPriority : Modality → ℕ
  | .temporal => 10
  | .vector => 20
  | .document => 30
  | .graph => 40
  | .tensor => 50
  | .semantic => 90

/-- `{}` -/
def display : Modality → String
  | .graph => "graph"
  | .vector => "vector"
  | .tensor => "tensor"
  | .semantic => "semantic"
  | .document => "document"
  | .temporal => "temporal"

end Modality

inductive QuerySource
  | octad
  | federation (nodes : List String)
  | store (modality : Modality)
  deriving DecidableEq, Repr

inductive ConditionKind
  | equality (field value : String)
  | range (field low high : String)
  | fulltext (query : String)
  | similarity (k : ℕ)
  | traversal (predicate : String) (depth : Option UInt32)
  | atTime (timestamp : String)
  | proofVerification (contract : String)
  | tensorOp (operation : String)
  | predicate (expression : String)
  deriving DecidableEq, Repr

structure PlanNode where
  modality : Modality
  conditions : List ConditionKind
  projections : List String
  earlyLimit : Option UInt64
  deriving DecidableEq, Repr

inductive PostProcessing
  | orderBy (fields : List (String × Bool))
  | limit (count : UInt64)
  | groupBy (fields aggregates : List String)
  | project (columns : List String)
  deriving DecidableEq, Repr

def PostProcessing.isLimit : PostProcessing → Bool
  | .limit _ => true
  | _ => false

structure LogicalPlan where
  source : QuerySource
  nodes : List PlanNode
  postProcessing : List PostProcessing
  deriving DecidableEq, Repr

/-- The errors that planning a query can end with. -/
inductive PlannerError
  | emptyPlan
  | invalidConfig (message : String)
  deriving DecidableEq, Repr

end NextgenDatabases.Planner
