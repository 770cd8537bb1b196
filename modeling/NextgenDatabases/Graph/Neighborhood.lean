import Mathlib
import NextgenDatabases.Foundations.Levels
import NextgenDatabases.Graph.Edges

/-!
# Neighborhoods

The nodes within a number of hops of a node. Both stores find the ball of that radius, along
their edges in either direction.
-/
namespace NextgenDatabases.Graph

open Foundations Levels

/-! ### The search -/

theorem neZero_bytes : NeZero 256 := ⟨by decide⟩

attribute [local instance] neZero_bytes

/-- What follows the last occurrence of a separator. -/
def afterLast (sep : Fin 256) (s : Str) : Option Str :=
  if sep ∈ s then some (s.reverse.takeWhile (· ≠ sep)).reverse else none

/-- The separators are `/` and `#`. -/
def GraphNode.new (iri : Str) : GraphNode where
  iri := iri
  localName := ((afterLast 47 iri).or (afterLast 35 iri)).getD iri

section neighborhood

variable (outgoing incoming : GraphNode → Option (List GraphEdge))

def visitObject (s : Layer Str GraphNode) (edge : GraphEdge) : Layer Str GraphNode :=
  match edge.object with
  | .node n => visit GraphNode.iri s n
  | .literal _ _ => s

def visitSubject (s : Layer Str GraphNode) (edge : GraphEdge) : Layer Str GraphNode :=
  visit GraphNode.iri s edge.subject

def expand (s : Layer Str GraphNode) (current : GraphNode) : Option (Layer Str GraphNode) := do
  let s := (← outgoing current).foldl visitObject s
  return (← incoming current).foldl visitSubject s

/-- One hop from every node of the frontier, which is replaced by what was found. -/
def hop (s : Layer Str GraphNode) : Option (Layer Str GraphNode) :=
  s.next.foldlM (expand outgoing incoming) ⟨s.visited, []⟩

def hopTimes : ℕ → Layer Str GraphNode → Option (Layer Str GraphNode)
  | 0, s => some s
  | hops + 1, s => (hop outgoing incoming s).bind (hopTimes hops)

/-- The visited IRIs come in any order. -/
def neighborhood (node : GraphNode) (hops : ℕ) : Option (Multiset GraphNode) :=
  (hopTimes outgoing incoming hops ⟨{node.iri}, [node]⟩).map fun s =>
    s.visited.val.map GraphNode.new

end neighborhood

def RedbGraphStore.neighborhood {W : Type} (codec : Codec GraphEdge W) (self : RedbGraphStore W) :
    GraphNode → ℕ → Option (Multiset GraphNode) :=
  Graph.neighborhood (self.outgoing codec) (self.incoming codec)

/-! ### The graph of the edges -/

def Joined (edges : Finset EdgeId) (a b : Str) : Prop :=
  (∃ p, ⟨a, p, .node b⟩ ∈ edges) ∨ ∃ p, ⟨b, p, .node a⟩ ∈ edges

/-- The IRIs, joined by the edges between nodes. -/
def graph (edges : Finset EdgeId) : SimpleGraph Str where
  Adj a b := a ≠ b ∧ Joined edges a b
  symm := ⟨fun _ _ h => ⟨h.1.symm, h.2.symm⟩⟩
  loopless := ⟨fun _ h => h.1 rfl⟩

/-- Each node within a number of hops, once. -/
structure IsBall (edges : Finset EdgeId) (center : Str) (hops : ℕ) (nodes : Multiset GraphNode) :
    Prop where
  nodup : (nodes.map GraphNode.iri).Nodup
  named : ∀ n ∈ nodes, n = GraphNode.new n.iri
  mem : ∀ iri, iri ∈ nodes.map GraphNode.iri ↔ (graph edges).edist center iri ≤ hops

/-! ### What a store holds -/

/-- No node looks like the key of a literal. -/
def GraphObject.Undisguised : GraphObject → Prop
  | .node n => ¬ literalPrefix <+: n.iri
  | .literal _ _ => True

theorem GraphObject.Undisguised.plain {o : GraphObject} {i : Str} (h : o.Undisguised)
    (hnode : o.id = .node i) : o.Plain ∧ objectKey o = i := by
  cases o with
  | node n =>
    rw [GraphObject.id, ObjectId.node.injEq] at hnode
    exact ⟨h, hnode⟩
  | literal value datatype => cases hnode

theorem fromEdge_of_id {e : GraphEdge} {a p b : Str} (h : e.id = ⟨a, p, .node b⟩) :
    TripleKey.fromEdge e = ⟨a, p, b⟩ ∧ e.object.id = .node b := by
  obtain ⟨s, q, o⟩ := e
  simp only [GraphEdge.id, EdgeId.mk.injEq] at h
  obtain ⟨rfl, rfl, ho⟩ := h
  cases o with
  | node n =>
    rw [GraphObject.id, ObjectId.node.injEq] at ho
    subst ho
    exact ⟨rfl, rfl⟩
  | literal value datatype => cases ho

/-- The store holds these edges between nodes and any literals, each edge under its key. -/
structure Joins (s : SimpleGraphStore) (edges : Finset EdgeId) : Prop where
  own : ∀ k e, s.edges k = some e →
    TripleKey.fromEdge e = k ∧ e.Clean ∧ e.object.Undisguised
  subjectIdx : SubjectIndexed s
  objectIdx : ∀ i k, k ∈ s.objectIdx i ↔ ∃ e, s.edges k = some e ∧ e.object.id = .node i
  mem : ∀ a p b, ⟨a, p, .node b⟩ ∈ edges ↔
    ∃ e, s.edges ⟨a, p, b⟩ = some e ∧ e.id = ⟨a, p, .node b⟩

namespace Joins

variable {s : SimpleGraphStore} {edges : Finset EdgeId} {e : GraphEdge}

theorem empty : Joins .new ∅ where
  own k e h := absurd h (by simp [SimpleGraphStore.new])
  subjectIdx := .new
  objectIdx i k := by simp [SimpleGraphStore.new]
  mem a p b := by simp [SimpleGraphStore.new]

/-- A stored edge to a node is told from every other edge by its key. -/
theorem id_of_stored (h : Joins s edges) {e' : GraphEdge} {i : Str}
    (hstored : s.edges (TripleKey.fromEdge e) = some e') (hnode : e'.object.id = .node i) :
    e'.id = e.id ∧ e.object.id = .node i := by
  obtain ⟨hkey, -, hundisguised⟩ := h.own _ e' hstored
  have hid := id_of_key (hundisguised.plain hnode).1 hkey
  refine ⟨hid, ?_⟩
  rw [← hnode]
  exact (congrArg EdgeId.object hid).symm

theorem insert (h : Joins s edges) (hclean : e.Clean) (hundisguised : e.object.Undisguised) :
    Joins (s.insert e) (Insert.insert e.id edges) where
  own k e' he' := by
    simp only [SimpleGraphStore.insert, Function.update_apply] at he'
    split_ifs at he' with hk
    · obtain rfl := Option.some.inj he'
      exact ⟨hk.symm, hclean, hundisguised⟩
    · exact h.own k e' he'
  subjectIdx := h.subjectIdx.insert e
  objectIdx i k := by
    have hidx : k ∈ (s.insert e).objectIdx i ↔
        e.object.id = .node i ∧ k = TripleKey.fromEdge e ∨ k ∈ s.objectIdx i := by
      simp only [SimpleGraphStore.insert]
      cases e.object with
      | node n => simp [mem_indexInsert, GraphObject.id, eq_comm]
      | literal value datatype => simp [GraphObject.id]
    rw [hidx, h.objectIdx]
    simp only [SimpleGraphStore.insert, Function.update_apply]
    split_ifs with hk
    · subst hk
      constructor
      · rintro (⟨hnode, -⟩ | ⟨e', he', hnode⟩)
        · exact ⟨e, rfl, hnode⟩
        · exact ⟨e, rfl, (h.id_of_stored he' hnode).2⟩
      · rintro ⟨e', he', hnode⟩
        obtain rfl := Option.some.inj he'
        exact .inl ⟨hnode, rfl⟩
    · simp [hk]
  mem a p b := by
    rw [Finset.mem_insert, h.mem]
    simp only [SimpleGraphStore.insert, Function.update_apply]
    split_ifs with hk
    · constructor
      · rintro (hid | ⟨e', he', hid⟩)
        · exact ⟨e, rfl, hid.symm⟩
        · rw [hk] at he'
          exact ⟨e, rfl, (h.id_of_stored he' (fromEdge_of_id hid).2).1.symm.trans hid⟩
      · rintro ⟨e', he', hid⟩
        obtain rfl := Option.some.inj he'
        exact .inl hid.symm
    · exact or_iff_right fun hid => hk (fromEdge_of_id hid.symm).1.symm

theorem delete (h : Joins s edges) : Joins (s.delete e) (edges.erase e.id) where
  own k e' he' := by
    simp only [SimpleGraphStore.delete, Function.update_apply] at he'
    split_ifs at he' with hk
    exact h.own k e' he'
  subjectIdx := h.subjectIdx.delete e
  objectIdx i k := by
    have hidx : k ∈ (s.delete e).objectIdx i ↔
        k ∈ s.objectIdx i ∧ ¬ (e.object.id = .node i ∧ k = TripleKey.fromEdge e) := by
      simp only [SimpleGraphStore.delete]
      cases e.object with
      | node n => simp [mem_indexRemove, GraphObject.id, eq_comm]
      | literal value datatype => simp [GraphObject.id]
    rw [hidx, h.objectIdx]
    simp only [SimpleGraphStore.delete, Function.update_apply]
    split_ifs with hk
    · subst hk
      refine iff_of_false ?_ (by simp)
      rintro ⟨⟨e', he', hnode⟩, hother⟩
      exact hother ⟨(h.id_of_stored he' hnode).2, rfl⟩
    · simp [hk]
  mem a p b := by
    rw [Finset.mem_erase, h.mem]
    simp only [SimpleGraphStore.delete, Function.update_apply]
    split_ifs with hk
    · refine iff_of_false ?_ (by simp)
      rintro ⟨hne, e', he', hid⟩
      rw [hk] at he'
      exact hne (hid.symm.trans (h.id_of_stored he' (fromEdge_of_id hid).2).1)
    · exact and_iff_right fun hid => hk (fromEdge_of_id hid.symm).1.symm

/-- What the outgoing edges lead to. -/
theorem outgoing (h : Joins s edges) (n : GraphNode) (b : Str) :
    (∃ e ∈ s.outgoing n, e.object.id = .node b) ↔ ∃ p, ⟨n.iri, p, .node b⟩ ∈ edges := by
  unfold SimpleGraphStore.outgoing
  constructor
  · rintro ⟨e, he, hnode⟩
    obtain ⟨k, hk, hke⟩ := (Multiset.mem_filterMap s.edges _).mp he
    obtain ⟨hsubject, -⟩ := (h.subjectIdx _ _).mp (Finset.mem_val.mp hk)
    obtain ⟨rfl, -, hundisguised⟩ := h.own k e hke
    refine ⟨e.predicate.iri, (h.mem _ _ _).mpr ⟨e, ?_, ?_⟩⟩
    · rw [hsubject, ← (hundisguised.plain hnode).2]
      exact hke
    · rw [GraphEdge.id, hnode, hsubject]
      rfl
  · rintro ⟨p, hp⟩
    obtain ⟨e, he, hid⟩ := (h.mem _ _ _).mp hp
    refine ⟨e, (Multiset.mem_filterMap s.edges _).mpr ⟨_, ?_, he⟩, (fromEdge_of_id hid).2⟩
    exact Finset.mem_val.mpr ((h.subjectIdx _ _).mpr ⟨rfl, by rw [he]; rfl⟩)

/-- Where the incoming edges come from. -/
theorem incoming (h : Joins s edges) (n : GraphNode) (a : Str) :
    (∃ e ∈ s.incoming n, e.subject.iri = a) ↔ ∃ p, ⟨a, p, .node n.iri⟩ ∈ edges := by
  unfold SimpleGraphStore.incoming
  constructor
  · rintro ⟨e, he, rfl⟩
    obtain ⟨k, hk, hke⟩ := (Multiset.mem_filterMap s.edges _).mp he
    obtain ⟨e', hke', hnode⟩ := (h.objectIdx _ _).mp (Finset.mem_val.mp hk)
    obtain rfl := Option.some.inj (hke.symm.trans hke')
    obtain ⟨rfl, -, hundisguised⟩ := h.own k e hke
    refine ⟨e.predicate.iri, (h.mem _ _ _).mpr ⟨e, ?_, ?_⟩⟩
    · rw [← (hundisguised.plain hnode).2]
      exact hke
    · rw [GraphEdge.id, hnode]
  · rintro ⟨p, hp⟩
    obtain ⟨e, he, hid⟩ := (h.mem _ _ _).mp hp
    refine ⟨e, (Multiset.mem_filterMap s.edges _).mpr ⟨_, ?_, he⟩, congrArg EdgeId.subject hid⟩
    exact Finset.mem_val.mpr ((h.objectIdx _ _).mpr ⟨e, he, (fromEdge_of_id hid).2⟩)

end Joins

theorem joins {calls : List Call} (hclean : ∀ c ∈ calls, c.Clean)
    (hundisguised : ∀ e, .insert e ∈ calls → e.object.Undisguised) :
    Joins (simple calls) (present calls) := by
  induction calls using List.reverseRecOn with
  | nil => exact .empty
  | append_singleton calls c ih =>
    have hjoins := ih (fun d hd => hclean d (List.mem_append_left _ hd))
      fun e he => hundisguised e (List.mem_append_left _ he)
    have hc := hclean c (by simp)
    rw [simple, present, List.foldl_concat, List.foldl_concat]
    cases c with
    | insert e => exact hjoins.insert hc (hundisguised e (by simp))
    | delete e => exact hjoins.delete
    | reopen => exact hjoins

/-! ### Hops -/

/-- The calls return the edges of the store, in any order. -/
structure Reads (s : SimpleGraphStore) (outgoing incoming : GraphNode → Option (List GraphEdge)) :
    Prop where
  outgoing : ∀ n : GraphNode, n.Clean → (outgoing n).map (↑) = some (s.outgoing n)
  incoming : ∀ n : GraphNode, n.Clean → (incoming n).map (↑) = some (s.incoming n)

def GraphObject.node? : GraphObject → Option GraphNode
  | .node n => some n
  | .literal _ _ => none

theorem foldl_visitObject (s : Layer Str GraphNode) (es : List GraphEdge) :
    es.foldl visitObject s = (es.filterMap fun e => e.object.node?).foldl (visit GraphNode.iri) s := by
  induction es generalizing s with
  | nil => rfl
  | cons e es ih =>
    rw [List.foldl_cons, ih, List.filterMap_cons, visitObject]
    cases e.object with
    | node n => rfl
    | literal value datatype => rfl

theorem foldl_visitSubject (s : Layer Str GraphNode) (es : List GraphEdge) :
    es.foldl visitSubject s = (es.map GraphEdge.subject).foldl (visit GraphNode.iri) s := by
  rw [List.foldl_map]
  rfl

theorem mem_objects {es : List GraphEdge} {b : Str} :
    b ∈ (es.filterMap fun e => e.object.node?).map GraphNode.iri ↔
      ∃ e ∈ es, e.object.id = .node b := by
  simp only [List.mem_map, List.mem_filterMap]
  constructor
  · rintro ⟨n, ⟨e, he, hn⟩, rfl⟩
    refine ⟨e, he, ?_⟩
    cases hobject : e.object with
    | node n' =>
      rw [hobject, GraphObject.node?, Option.some.injEq] at hn
      rw [GraphObject.id, hn]
    | literal value datatype =>
      rw [hobject] at hn
      cases hn
  · rintro ⟨e, he, hid⟩
    cases hobject : e.object with
    | node n =>
      rw [hobject, GraphObject.id, ObjectId.node.injEq] at hid
      exact ⟨n, ⟨e, he, by rw [hobject, GraphObject.node?]⟩, hid⟩
    | literal value datatype =>
      rw [hobject] at hid
      cases hid

section search

variable {s : SimpleGraphStore} {edges : Finset EdgeId}
  {outgoing incoming : GraphNode → Option (List GraphEdge)}

/-- One node of the frontier: everything joined to it is visited. -/
theorem Reads.expand (hreads : Reads s outgoing incoming) (h : Joins s edges)
    (layer : Layer Str GraphNode) {current : GraphNode} (hcurrent : current.Clean) :
    ∃ layer', Graph.expand outgoing incoming layer current = some layer' ∧
      Grows GraphNode.iri layer layer' {a | Joined edges current.iri a} ∧
      ∀ n ∈ layer'.next, n ∈ layer.next ∨ n.Clean := by
  obtain ⟨out, hout, houtEdges⟩ := Option.map_eq_some_iff.mp (hreads.outgoing current hcurrent)
  obtain ⟨inc, hinc, hincEdges⟩ := Option.map_eq_some_iff.mp (hreads.incoming current hcurrent)
  have hfound : {a | Joined edges current.iri a} =
      {a | a ∈ (out.filterMap fun e => e.object.node?).map GraphNode.iri} ∪
        {a | a ∈ (inc.map GraphEdge.subject).map GraphNode.iri} := by
    ext a
    refine or_congr ?_ ?_
    · rw [← h.outgoing current a, ← houtEdges]
      exact mem_objects.symm
    · rw [← h.incoming current a, ← hincEdges]
      simp
  have hclean {e : GraphEdge} {k : TripleKey} (he : s.edges k = some e) : e.Clean :=
    (h.own k e he).2.1
  refine ⟨(inc.map GraphEdge.subject).foldl (visit GraphNode.iri)
    ((out.filterMap fun e => e.object.node?).foldl (visit GraphNode.iri) layer), ?_, ?_, ?_⟩
  · simp only [Graph.expand, hout, hinc, foldl_visitObject, foldl_visitSubject, Option.bind_eq_bind,
      Option.bind_some, Option.pure_def]
  · rw [hfound]
    exact (Grows.foldl_visit layer _).trans (.foldl_visit _ _)
  · intro n hn
    rcases mem_next_foldl_visit hn with hn | hsubject
    · rcases mem_next_foldl_visit hn with hn | hobject
      · exact .inl hn
      · obtain ⟨e, he, hnode⟩ := List.mem_filterMap.mp hobject
        have hmem : e ∈ s.outgoing current := houtEdges ▸ Multiset.mem_coe.mpr he
        obtain ⟨k, -, hke⟩ := (Multiset.mem_filterMap s.edges _).mp hmem
        have hobjectClean := (hclean hke).object
        cases hobject : e.object with
        | node n' =>
          rw [hobject, GraphObject.node?, Option.some.injEq] at hnode
          rw [hobject, hnode] at hobjectClean
          exact .inr hobjectClean
        | literal value datatype =>
          rw [hobject] at hnode
          cases hnode
    · obtain ⟨e, he, rfl⟩ := List.mem_map.mp hsubject
      have hmem : e ∈ s.incoming current := hincEdges ▸ Multiset.mem_coe.mpr he
      obtain ⟨k, -, hke⟩ := (Multiset.mem_filterMap s.edges _).mp hmem
      exact .inr (hclean hke).subject

/-- The whole frontier. -/
theorem Reads.foldlM_expand (hreads : Reads s outgoing incoming) (h : Joins s edges)
    (frontier : List GraphNode) (hfrontier : ∀ n ∈ frontier, n.Clean) (layer : Layer Str GraphNode) :
    ∃ layer', frontier.foldlM (Graph.expand outgoing incoming) layer = some layer' ∧
      Grows GraphNode.iri layer layer' {a | ∃ n ∈ frontier, Joined edges n.iri a} ∧
      ∀ n ∈ layer'.next, n ∈ layer.next ∨ n.Clean := by
  induction frontier generalizing layer with
  | nil =>
    refine ⟨layer, rfl, ?_, fun n hn => .inl hn⟩
    have hempty : {a | ∃ n ∈ ([] : List GraphNode), Joined edges n.iri a} = ∅ := by simp
    rw [hempty]
    exact .refl layer
  | cons n frontier ih =>
    obtain ⟨hn, hrest⟩ := List.forall_mem_cons.mp hfrontier
    obtain ⟨layer', hexpand, hgrows, hclean⟩ := hreads.expand h layer hn
    obtain ⟨layer'', hfold, hgrows', hclean'⟩ := ih hrest layer'
    refine ⟨layer'', ?_, ?_, fun m hm => ?_⟩
    · rw [List.foldlM_cons, hexpand]
      exact hfold
    · have hsplit : {a | ∃ m ∈ n :: frontier, Joined edges m.iri a} =
          {a | Joined edges n.iri a} ∪ {a | ∃ m ∈ frontier, Joined edges m.iri a} := by
        ext a
        simp
      rw [hsplit]
      exact hgrows.trans hgrows'
    · rcases hclean' m hm with hm | hm
      · exact hclean m hm
      · exact .inr hm

theorem Reads.hopTimes (hreads : Reads s outgoing incoming) (h : Joins s edges) {c : Str}
    (hops : ℕ) {k : ℕ} {layer : Layer Str GraphNode}
    (hlevel : AtLevel GraphNode.iri (graph edges) c k layer.visited layer.next)
    (hclean : ∀ n ∈ layer.next, n.Clean) :
    ∃ layer', Graph.hopTimes outgoing incoming hops layer = some layer' ∧
      AtLevel GraphNode.iri (graph edges) c (k + hops) layer'.visited layer'.next := by
  induction hops generalizing k layer with
  | zero => exact ⟨layer, rfl, hlevel⟩
  | succ hops ih =>
    obtain ⟨layer', hhop, hgrows, hclean'⟩ :=
      hreads.foldlM_expand h layer.next hclean ⟨layer.visited, []⟩
    have hlevel' := hlevel.step (fun _ _ => Iff.rfl) hgrows
    obtain ⟨layer'', htimes, hend⟩ := ih hlevel' fun n hn => (hclean' n hn).resolve_left (by simp)
    refine ⟨layer'', ?_, ?_⟩
    · rw [Graph.hopTimes, hop, hhop]
      exact htimes
    · rwa [Nat.add_right_comm] at hend

theorem Reads.neighborhood (hreads : Reads s outgoing incoming) (h : Joins s edges)
    {n : GraphNode} (hn : n.Clean) (hops : ℕ) :
    ∃ nodes, Graph.neighborhood outgoing incoming n hops = some nodes ∧
      IsBall edges n.iri hops nodes := by
  have hclean : ∀ m ∈ (⟨{n.iri}, [n]⟩ : Layer Str GraphNode).next, m.Clean := by simpa using hn
  obtain ⟨layer, htimes, hlevel⟩ := hreads.hopTimes h hops (.start n) hclean
  rw [Nat.zero_add] at hlevel
  refine ⟨layer.visited.val.map GraphNode.new, by rw [Graph.neighborhood, htimes]; rfl, ?_⟩
  have hiris : (layer.visited.val.map GraphNode.new).map GraphNode.iri = layer.visited.val := by
    rw [Multiset.map_map]
    exact Multiset.map_id _
  constructor
  · rw [hiris]
    exact layer.visited.nodup
  · intro m hm
    obtain ⟨iri, -, rfl⟩ := Multiset.mem_map.mp hm
    rfl
  · intro iri
    rw [hiris]
    exact hlevel.visited iri

end search

/-- In the graph after any calls, both stores find the ball around a node. -/
theorem neighborhood_is_ball {W : Type} (codec : Codec GraphEdge W) (calls : List Call)
    (hclean : ∀ c ∈ calls, c.Clean)
    (hundisguised : ∀ e, .insert e ∈ calls → e.object.Undisguised)
    (n : GraphNode) (hn : n.Clean) (hops : ℕ) :
    (∀ outgoing incoming : GraphNode → List GraphEdge,
      (∀ m, (outgoing m : Multiset GraphEdge) = (simple calls).outgoing m) →
      (∀ m, (incoming m : Multiset GraphEdge) = (simple calls).incoming m) →
      ∃ nodes, neighborhood (some ∘ outgoing) (some ∘ incoming) n hops = some nodes ∧
        IsBall (present calls) n.iri hops nodes) ∧
    ∃ nodes, (redb codec calls).neighborhood codec n hops = some nodes ∧
      IsBall (present calls) n.iri hops nodes := by
  have hjoins := joins hclean hundisguised
  have hsame : Same codec (redb codec calls) (simple calls) := (simulates hclean).same
  refine ⟨fun outgoing incoming hout hinc => ?_, ?_⟩
  · have hreads : Reads (simple calls) (some ∘ outgoing) (some ∘ incoming) :=
      ⟨fun m _ => congrArg some (hout m), fun m _ => congrArg some (hinc m)⟩
    exact hreads.neighborhood hjoins hn hops
  · have hreads : Reads (simple calls) ((redb codec calls).outgoing codec)
        ((redb codec calls).incoming codec) := ⟨hsame.outgoing, hsame.incoming⟩
    exact hreads.neighborhood hjoins hn hops

/-- Two edges, one of them deleted, and a literal. -/
def ring : List Call :=
  [.insert (link [97] [107] (.node ⟨[98], [98]⟩)), .insert (link [98] [107] (.node ⟨[97], [97]⟩)),
    .insert (link [97] [107] (.literal [120] none)), .reopen,
    .delete (link [97] [107] (.node ⟨[98], [98]⟩))]

theorem neighborhood_is_ball_ring :
    (∀ outgoing incoming : GraphNode → List GraphEdge,
      (∀ m, (outgoing m : Multiset GraphEdge) = (simple ring).outgoing m) →
      (∀ m, (incoming m : Multiset GraphEdge) = (simple ring).incoming m) →
      ∃ nodes, neighborhood (some ∘ outgoing) (some ∘ incoming) (.new [97]) 2 = some nodes ∧
        IsBall (present ring) [97] 2 nodes) ∧
    ∃ nodes, (redb (.verbatim GraphEdge) ring).neighborhood (.verbatim GraphEdge) (.new [97]) 2 =
        some nodes ∧ IsBall (present ring) [97] 2 nodes := by
  refine neighborhood_is_ball (.verbatim GraphEdge) ring ?_ ?_ (.new [97]) ?_ 2
  · have hnode (b : Fin 256) (hb : b ≠ 0) : GraphObject.Clean (.node ⟨[b], [b]⟩) := by
      simp [GraphObject.Clean, GraphNode.Clean, hb.symm]
    have hlink (a : Fin 256) (ha : a ≠ 0) {o : GraphObject} (ho : o.Clean) :
        (link [a] [107] o).Clean :=
      ⟨by simp [GraphNode.Clean, link, ha.symm], by simp [GraphNode.Clean, link], ho⟩
    simp only [ring, List.forall_mem_cons, Call.Clean]
    exact ⟨hlink _ (by decide) (hnode _ (by decide)), hlink _ (by decide) (hnode _ (by decide)),
      hlink _ (by decide) trivial, trivial, hlink _ (by decide) (hnode _ (by decide)), by simp⟩
  · intro e he
    have hinserted : e = link [97] [107] (.node ⟨[98], [98]⟩) ∨
        e = link [98] [107] (.node ⟨[97], [97]⟩) ∨ e = link [97] [107] (.literal [120] none) := by
      simpa [ring] using he
    rcases hinserted with rfl | rfl | rfl
    · simp [link, GraphObject.Undisguised, literalPrefix]
    · simp [link, GraphObject.Undisguised, literalPrefix]
    · trivial
  · simp [GraphNode.Clean, GraphNode.new]

end NextgenDatabases.Graph
