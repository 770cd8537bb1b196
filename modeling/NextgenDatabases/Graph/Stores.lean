import NextgenDatabases.Foundations.SortedMaps
import Mathlib.Data.Finset.Image
import Mathlib.Data.Multiset.Filter

/-!
# Graph stores

The graph store in memory and the one in redb. Both keep edges under a key of subject, predicate
and object, and an index of the keys by subject and by object.
-/
namespace NextgenDatabases.Graph

open Foundations

/-- The bytes of a string. -/
abbrev Str : Type := List (Fin 256)

structure GraphNode where
  iri : Str
  localName : Str
  deriving DecidableEq

inductive GraphObject
  | node (n : GraphNode)
  | literal (value : Str) (datatype : Option Str)
  deriving DecidableEq

structure GraphEdge where
  subject : GraphNode
  predicate : GraphNode
  object : GraphObject
  deriving DecidableEq

/-- `literal::` -/
def literalPrefix : Str := [108, 105, 116, 101, 114, 97, 108, 58, 58]

def objectKey : GraphObject → Str
  | .node n => n.iri
  | .literal value _ => literalPrefix ++ value

/-! ### The store in memory -/

structure TripleKey where
  subject : Str
  predicate : Str
  object : Str
  deriving DecidableEq

def TripleKey.fromEdge (edge : GraphEdge) : TripleKey :=
  ⟨edge.subject.iri, edge.predicate.iri, objectKey edge.object⟩

/-- The key in redb. -/
def TripleKey.flat (key : TripleKey) : Str :=
  key.subject ++ 0 :: (key.predicate ++ 0 :: key.object)

/-- An index has the empty set of keys for an IRI that is not in it. -/
structure SimpleGraphStore where
  edges : TripleKey → Option GraphEdge
  subjectIdx : Str → Finset TripleKey
  objectIdx : Str → Finset TripleKey

namespace SimpleGraphStore

def new : SimpleGraphStore := ⟨fun _ => none, fun _ => ∅, fun _ => ∅⟩

def indexInsert (idx : Str → Finset TripleKey) (iri : Str) (key : TripleKey) :
    Str → Finset TripleKey :=
  Function.update idx iri (insert key (idx iri))

def indexRemove (idx : Str → Finset TripleKey) (iri : Str) (key : TripleKey) :
    Str → Finset TripleKey :=
  Function.update idx iri ((idx iri).erase key)

def insert (self : SimpleGraphStore) (edge : GraphEdge) : SimpleGraphStore :=
  let key := TripleKey.fromEdge edge
  { edges := Function.update self.edges key (some edge)
    subjectIdx := indexInsert self.subjectIdx edge.subject.iri key
    objectIdx :=
      match edge.object with
      | .node n => indexInsert self.objectIdx n.iri key
      | .literal _ _ => self.objectIdx }

def delete (self : SimpleGraphStore) (edge : GraphEdge) : SimpleGraphStore :=
  let key := TripleKey.fromEdge edge
  { edges := Function.update self.edges key none
    subjectIdx := indexRemove self.subjectIdx edge.subject.iri key
    objectIdx :=
      match edge.object with
      | .node n => indexRemove self.objectIdx n.iri key
      | .literal _ _ => self.objectIdx }

/-- The keys of a set come in any order. -/
def outgoing (self : SimpleGraphStore) (node : GraphNode) : Multiset GraphEdge :=
  (self.subjectIdx node.iri).val.filterMap self.edges

def incoming (self : SimpleGraphStore) (node : GraphNode) : Multiset GraphEdge :=
  (self.objectIdx node.iri).val.filterMap self.edges

def exists_ (self : SimpleGraphStore) (edge : GraphEdge) : Bool :=
  (self.edges (TripleKey.fromEdge edge)).isSome

end SimpleGraphStore

/-! ### The store in redb -/

abbrev Table (V : Type) : Type := SortedMap Str V

structure RedbGraphStore (W : Type) where
  triples : Table W
  subjectIdx : Table Unit
  objectIdx : Table Unit

def tripleKey (edge : GraphEdge) : Str :=
  edge.subject.iri ++ 0 :: (edge.predicate.iri ++ 0 :: objectKey edge.object)

def subjectIndexKey (subjectIri tripleKey : Str) : Str := subjectIri ++ 0 :: tripleKey

def objectIndexKey (objectIri tripleKey : Str) : Str := objectIri ++ 0 :: tripleKey

def iriPrefix (iri : Str) : Str := iri ++ [0]

namespace RedbGraphStore

variable {W : Type} (codec : Codec GraphEdge W)

def empty : RedbGraphStore W := ⟨.empty, .empty, .empty⟩

def insert (self : RedbGraphStore W) (edge : GraphEdge) : RedbGraphStore W :=
  let tkey := tripleKey edge
  { triples := self.triples.insert tkey (codec.serialise edge)
    subjectIdx := self.subjectIdx.insert (subjectIndexKey edge.subject.iri tkey) ()
    objectIdx :=
      match edge.object with
      | .node n => self.objectIdx.insert (objectIndexKey n.iri tkey) ()
      | .literal _ _ => self.objectIdx }

def delete (self : RedbGraphStore W) (edge : GraphEdge) : RedbGraphStore W :=
  let tkey := tripleKey edge
  { triples := self.triples.remove tkey
    subjectIdx := self.subjectIdx.remove (subjectIndexKey edge.subject.iri tkey)
    objectIdx :=
      match edge.object with
      | .node n => self.objectIdx.remove (objectIndexKey n.iri tkey)
      | .literal _ _ => self.objectIdx }

/-- Nothing is returned where an edge cannot be read. -/
def scanIndexForEdges (triples : Table W) (idx : Table Unit) (iri : Str) :
    Option (List GraphEdge) :=
  ((idx.scanPrefix (iriPrefix iri)).filterMap fun entry =>
    triples.get (entry.1.drop (iriPrefix iri).length)).mapM codec.deserialise

def outgoing (self : RedbGraphStore W) (node : GraphNode) : Option (List GraphEdge) :=
  scanIndexForEdges codec self.triples self.subjectIdx node.iri

def incoming (self : RedbGraphStore W) (node : GraphNode) : Option (List GraphEdge) :=
  scanIndexForEdges codec self.triples self.objectIdx node.iri

def exists_ (self : RedbGraphStore W) (edge : GraphEdge) : Bool :=
  (self.triples.get (tripleKey edge)).isSome

/-- Every transaction is committed before the store is closed. -/
def reopen (self : RedbGraphStore W) : RedbGraphStore W := self

end RedbGraphStore

/-! ### Calls -/

inductive Call
  | insert (edge : GraphEdge)
  | delete (edge : GraphEdge)
  | reopen

def simple (calls : List Call) : SimpleGraphStore :=
  calls.foldl (fun store call =>
    match call with
    | .insert edge => store.insert edge
    | .delete edge => store.delete edge
    | .reopen => store) .new

def redb {W : Type} (codec : Codec GraphEdge W) (calls : List Call) : RedbGraphStore W :=
  calls.foldl (fun store call =>
    match call with
    | .insert edge => store.insert codec edge
    | .delete edge => store.delete edge
    | .reopen => store.reopen) .empty

/-- Without a NUL byte in its IRIs. -/
def GraphNode.Clean (n : GraphNode) : Prop := 0 ∉ n.iri

def GraphObject.Clean : GraphObject → Prop
  | .node n => n.Clean
  | .literal _ _ => True

structure GraphEdge.Clean (edge : GraphEdge) : Prop where
  subject : edge.subject.Clean
  predicate : edge.predicate.Clean
  object : edge.object.Clean

def Call.Clean : Call → Prop
  | .insert edge => edge.Clean
  | .delete edge => edge.Clean
  | .reopen => True

/-! ### The set of edges -/

/-- What tells the object of an edge from others. -/
inductive ObjectId
  | node (iri : Str)
  | literal (value : Str) (datatype : Option Str)
  deriving DecidableEq

/-- What tells an edge from others. -/
structure EdgeId where
  subject : Str
  predicate : Str
  object : ObjectId
  deriving DecidableEq

def GraphObject.id : GraphObject → ObjectId
  | .node n => .node n.iri
  | .literal value datatype => .literal value datatype

def GraphEdge.id (edge : GraphEdge) : EdgeId :=
  ⟨edge.subject.iri, edge.predicate.iri, edge.object.id⟩

/-- The edges inserted and not deleted since. -/
def present (calls : List Call) : Finset EdgeId :=
  calls.foldl (fun edges call =>
    match call with
    | .insert edge => Insert.insert edge.id edges
    | .delete edge => edges.erase edge.id
    | .reopen => edges) ∅

/-- The answers on a set of edges. -/
structure Correct (edges : Finset EdgeId) (exists_ : GraphEdge → Bool)
    (outgoing incoming : GraphNode → Option (Multiset GraphEdge)) : Prop where
  exists_ : ∀ e : GraphEdge, e.Clean → (exists_ e = true ↔ e.id ∈ edges)
  outgoing : ∀ n : GraphNode, n.Clean →
    (outgoing n).map (Multiset.map GraphEdge.id) = some (edges.filter (·.subject = n.iri)).val
  incoming : ∀ n : GraphNode, n.Clean →
    (incoming n).map (Multiset.map GraphEdge.id) = some (edges.filter (·.object = .node n.iri)).val

/-- At every point of the run the answers of both stores are those on the set of edges, and they
are the same. -/
def SetOfEdges {W : Type} (codec : Codec GraphEdge W) (calls : List Call) : Prop :=
  ∀ past future, calls = past ++ future →
    Correct (present past) (simple past).exists_ (fun n => some ((simple past).outgoing n))
      (fun n => some ((simple past).incoming n)) ∧
    Correct (present past) (redb codec past).exists_
      (fun n => ((redb codec past).outgoing codec n).map (↑))
      (fun n => ((redb codec past).incoming codec n).map (↑)) ∧
    (∀ e : GraphEdge, e.Clean → (redb codec past).exists_ e = (simple past).exists_ e) ∧
    ∀ n : GraphNode, n.Clean →
      ((redb codec past).outgoing codec n).map (↑) = some ((simple past).outgoing n) ∧
        ((redb codec past).incoming codec n).map (↑) = some ((simple past).incoming n)

/-- The object is a node whose IRI does not look like the key of a literal. -/
def GraphObject.Plain : GraphObject → Prop
  | .node n => ¬ literalPrefix <+: n.iri
  | .literal _ _ => False

end NextgenDatabases.Graph
