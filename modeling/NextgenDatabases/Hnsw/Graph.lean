import Mathlib.Data.List.Sort
import Mathlib.Logic.Function.Basic

/-!
# The HNSW index

A layered graph over vectors. A search walks down the upper layers to a good place to start
and explores the bottom layer from there; a new node is linked, layer by layer, to the nodes
that such searches find. Deleted nodes stay in the graph for navigation.

Floating point arithmetic enters through the distance only, whose values are ordered; the
level of a new node is drawn at random and is part of the call.
-/
namespace NextgenDatabases.Hnsw

structure HnswConfig where
  maxConnections : ℕ
  maxConnectionsLayer0 : ℕ
  efConstruction : ℕ
  efSearch : ℕ

/-- A `HashMap<String, String>`, as the list of its entries. -/
abbrev Metadata := List (String × String)

structure Embedding (F : Type) where
  id : String
  vector : List F
  metadata : Metadata := []
  deriving DecidableEq

structure SearchResult (S : Type) where
  id : String
  score : S
  deriving DecidableEq

inductive VectorError
  | dimensionMismatch (expected actual : ℕ)
  deriving DecidableEq

/-- A metric with the rest of what a search takes from floats and heaps. -/
structure Metric (F D S : Type) where
  distance : List F → List F → D
  distanceToScore : D → S
  /-- `f32::MAX` -/
  max : D
  /-- The order in which a heap hands out its elements when it is consumed. -/
  intoIter : List (D × ℕ) → List (D × ℕ)
  perm_intoIter : ∀ heap, (intoIter heap).Perm heap

structure Node (F : Type) where
  id : String
  vector : List F
  metadata : Metadata
  /-- Neighbors per layer. -/
  neighbors : List (List ℕ)
  level : ℕ
  deleted : Bool

structure Graph (F : Type) where
  nodes : List (Node F) := []
  idMap : String → Option ℕ := fun _ => none
  entryPoint : Option ℕ := none
  currentMaxLevel : ℕ := 0

namespace Graph

variable {F : Type} (g : Graph F)

/-- The vector of a node. -/
def vector (i : ℕ) : List F := ((g.nodes[i]?).map Node.vector).getD []

/-- The neighbors of a node on a layer. -/
def neighbors (layer i : ℕ) : List ℕ :=
  ((g.nodes[i]?).bind fun node => node.neighbors[layer]?).getD []

end Graph

/-! ### Searching a layer -/

section search

variable {F D S : Type} [LinearOrder D]

/-- The order of pairs of a distance and an index. -/
def Below (a b : D × ℕ) : Prop := a.1 < b.1 ∨ a.1 = b.1 ∧ a.2 ≤ b.2

instance : DecidableRel (Below (D := D)) := fun a b =>
  inferInstanceAs (Decidable (a.1 < b.1 ∨ a.1 = b.1 ∧ a.2 ≤ b.2))

/-- The state of a search. -/
structure Beam (D : Type) where
  visited : List ℕ := []
  /-- A heap, closest first. -/
  candidates : List (D × ℕ) := []
  /-- A heap, furthest first. -/
  results : List (D × ℕ) := []

def pushClosest (p : D × ℕ) (heap : List (D × ℕ)) : List (D × ℕ) := heap.orderedInsert Below p

def pushFurthest (p : D × ℕ) (heap : List (D × ℕ)) : List (D × ℕ) :=
  heap.orderedInsert (fun a b => Below b a) p

variable (m : Metric F D S) (g : Graph F) (query : List F) (ef layer : ℕ)

/-- The distance of the furthest result. -/
def furthestDist (results : List (D × ℕ)) : D := (results.head?.map Prod.fst).getD m.max

/-- The loop body for an entry point. -/
def enter (b : Beam D) (ep : ℕ) : Beam D :=
  match g.nodes[ep]? with
  | none => b
  | some node =>
    let dist := m.distance query node.vector
    { visited := b.visited.insert ep
      candidates := pushClosest (dist, ep) b.candidates
      results := if node.deleted then b.results else pushFurthest (dist, ep) b.results }

/-- A live node is a result if it is close enough or the results are too few. -/
def addResult (dist : D) (idx : ℕ) (results : List (D × ℕ)) : List (D × ℕ) :=
  if dist < furthestDist m results ∨ results.length < ef then
    let results := pushFurthest (dist, idx) results
    if results.length > ef then results.tail else results
  else results

/-- The loop body for a neighbor. -/
def visit (b : Beam D) (neighborIdx : ℕ) : Beam D :=
  match g.nodes[neighborIdx]? with
  | none => b
  | some node =>
    if neighborIdx ∈ b.visited then b
    else
      let dist := m.distance query node.vector
      { visited := neighborIdx :: b.visited
        candidates := pushClosest (dist, neighborIdx) b.candidates
        results :=
          if node.deleted then b.results else addResult m ef dist neighborIdx b.results }

/-- The loop over the candidates. -/
def expand : ℕ → Beam D → Beam D
  | 0, b => b
  | fuel + 1, b =>
    match b.candidates with
    | [] => b
    | (dist, idx) :: rest =>
      if furthestDist m b.results < dist ∧ ef ≤ b.results.length then b
      else
        expand fuel
          ((g.neighbors layer idx).foldl (visit m g query ef) { b with candidates := rest })

/-- Up to `ef` nearest live nodes, by distance. -/
def searchLayer (entryPoints : List ℕ) : List (D × ℕ) :=
  let b := entryPoints.foldl (enter m g query) {}
  let b := expand m g query ef layer (entryPoints.length + g.nodes.length) b
  (m.intoIter b.results).insertionSort fun a b => a.1 ≤ b.1

/-- The greedy descent through some layers. -/
def descend (entryPoints layers : List ℕ) : List ℕ :=
  layers.foldl (fun eps l =>
    match searchLayer m g query 1 l eps with
    | [] => eps
    | (_, idx) :: _ => [idx]) entryPoints

end search

/-! ### Inserting a node -/

section insert

variable {F D S : Type} [LinearOrder D] (m : Metric F D S) (config : HnswConfig)

def selectNeighbors (candidates : List (D × ℕ)) (count : ℕ) : List ℕ :=
  (candidates.take count).map Prod.snd

/-- Keep the nearest neighbors of a node that has too many. -/
def prune (vector : ℕ → List F) (own : List F) (maxConn : ℕ) (neighbors : List ℕ) : List ℕ :=
  if neighbors.length > maxConn then
    let scored := neighbors.map fun n => (m.distance own (vector n), n)
    ((scored.insertionSort fun a b => a.1 ≤ b.1).take maxConn).map Prod.snd
  else neighbors

/-- Change the neighbors of a node on a layer, if it has the layer. -/
def Node.modifyLayer (layer : ℕ) (f : List ℕ → List ℕ) (node : Node F) : Node F :=
  { node with neighbors := node.neighbors.modify layer f }

/-- Make sure that a node has the layer. -/
def Node.allocate (layer : ℕ) (node : Node F) : Node F :=
  { node with
    neighbors := node.neighbors ++ List.replicate (layer + 1 - node.neighbors.length) [] }

/-- The two links between a new node and a neighbor. -/
def connect (maxConn layer nodeIdx : ℕ) (g : Graph F) (neighborIdx : ℕ) : Graph F :=
  let nodes := g.nodes.modify nodeIdx (Node.modifyLayer layer (· ++ [neighborIdx]))
  let nodes := nodes.modify neighborIdx fun node =>
    (node.allocate layer).modifyLayer layer fun ns =>
      prune m g.vector node.vector maxConn (ns ++ [nodeIdx])
  { g with nodes := nodes }

/-- The links of a new node on a layer, and where the next search starts. -/
def connectLayer (nodeIdx ep : ℕ) (s : Graph F × List ℕ) (layer : ℕ) : Graph F × List ℕ :=
  let maxConn := if layer = 0 then config.maxConnectionsLayer0 else config.maxConnections
  let nearest := searchLayer m s.1 (s.1.vector nodeIdx) config.efConstruction layer s.2
  let g := (selectNeighbors nearest maxConn).foldl (connect m maxConn layer nodeIdx) s.1
  (g, if nearest.isEmpty then [ep] else nearest.map Prod.snd)

namespace Graph

/-- The layers from the first number down to the second. -/
def layersDown (top bottom : ℕ) : List ℕ := (List.range' bottom (top + 1 - bottom)).reverse

/-- The graph with a new node that has no links yet. -/
def push (g : Graph F) (e : Embedding F) (level : ℕ) : Graph F :=
  { g with
    nodes := g.nodes ++ [{
      id := e.id
      vector := e.vector
      metadata := e.metadata
      neighbors := List.replicate (level + 1) []
      level := level
      deleted := false }]
    idMap := Function.update g.idMap e.id (some g.nodes.length) }

/-- `insert`, with the level that the new node would get. -/
def insert (g : Graph F) (e : Embedding F) (level : ℕ) : Graph F :=
  match g.idMap e.id with
  | some existingIdx =>
    { g with
      nodes := g.nodes.modify existingIdx fun node =>
        { node with vector := e.vector, metadata := e.metadata, deleted := false } }
  | none =>
    let nodeIdx := g.nodes.length
    let added := g.push e level
    match g.entryPoint with
    | none => { added with entryPoint := some nodeIdx, currentMaxLevel := level }
    | some ep =>
      let top := g.currentMaxLevel
      let eps := descend m added e.vector [ep] (layersDown top (level + 1))
      let linked := ((layersDown (min level top) 0).foldl (connectLayer m config nodeIdx ep)
        (added, eps)).1
      if level > top then { linked with entryPoint := some nodeIdx, currentMaxLevel := level }
      else linked

def get (g : Graph F) (id : String) : Option (Embedding F) :=
  (g.idMap id).bind fun idx => (g.nodes[idx]?).bind fun node =>
    if node.deleted then none else some ⟨node.id, node.vector, node.metadata⟩

/-- The soft delete of a node. -/
def delete (g : Graph F) (id : String) : Graph F :=
  match g.idMap id with
  | none => g
  | some idx => { g with nodes := g.nodes.modify idx fun node => { node with deleted := true } }

/-- `search`: the distances and indices of the `k` nearest nodes. -/
def search (g : Graph F) (query : List F) (k efSearch : ℕ) : List (D × ℕ) :=
  match g.entryPoint with
  | none => []
  | some ep =>
    let eps := descend m g query [ep] (layersDown g.currentMaxLevel 1)
    (searchLayer m g query (max efSearch k) 0 eps).take k

end Graph

end insert

/-! ### The store -/

structure HnswVectorStore (F : Type) where
  config : HnswConfig
  dimension : ℕ
  graph : Graph F := {}

namespace HnswVectorStore

variable {F D S : Type} [LinearOrder D] (m : Metric F D S) (s : HnswVectorStore F)

/-- The number of vectors that are not deleted. -/
def len : ℕ := (s.graph.nodes.filter fun node => !node.deleted).length

def upsert (embedding : Embedding F) (level : ℕ) : Except VectorError Unit × HnswVectorStore F :=
  if embedding.vector.length ≠ s.dimension then
    (.error (.dimensionMismatch s.dimension embedding.vector.length), s)
  else (.ok (), { s with graph := s.graph.insert m s.config embedding level })

/-- The index of a result is always that of a node. -/
def search (query : List F) (k : ℕ) : Except VectorError (List (SearchResult S)) :=
  if query.length ≠ s.dimension then .error (.dimensionMismatch s.dimension query.length)
  else .ok ((s.graph.search m query k s.config.efSearch).filterMap fun r =>
    (s.graph.nodes[r.2]?).map fun node => ⟨node.id, m.distanceToScore r.1⟩)

def get (id : String) : Option (Embedding F) := s.graph.get id

def delete (id : String) : HnswVectorStore F := { s with graph := s.graph.delete id }

end HnswVectorStore

end NextgenDatabases.Hnsw
