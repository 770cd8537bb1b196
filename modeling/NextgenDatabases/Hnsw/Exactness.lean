import NextgenDatabases.Hnsw.Insertion
import Mathlib.Data.Set.Card

/-!
# Exact search of a small index

With room for all nodes in the lists of neighbors and in the beams, a search finds the
nearest of all live nodes exactly when each of them can be reached from the entry point. Which
nodes can be reached follows from the order of the calls and from the levels: a node is lost
that is inserted while every node that can be reached is deleted, unless it becomes the entry
point itself, and then the others are.
-/
namespace NextgenDatabases.Hnsw

variable {F D S : Type}

inductive Call (F : Type)
  | upsert (embedding : Embedding F) (level : ℕ)
  | delete (id : String)

/-! ### What the calls are meant to do -/

/-- A map from identifiers to embeddings after a call. -/
def store (dimension : ℕ) (contents : String → Option (Embedding F)) :
    Call F → String → Option (Embedding F)
  | .upsert e _ =>
    if e.vector.length ≠ dimension then contents else Function.update contents e.id (some e)
  | .delete id => Function.update contents id none

/-- The results are `k` of the stored embeddings, or all if they are fewer, and none that is
left out is closer. -/
structure Nearest [LinearOrder D] (m : Metric F D S) (contents : String → Option (Embedding F))
    (query : List F) (k : ℕ) (results : List (SearchResult S)) : Prop where
  distinct : (results.map SearchResult.id).Nodup
  live : ∀ r ∈ results, ∃ e, contents r.id = some e ∧
    r.score = m.distanceToScore (m.distance query e.vector)
  count : results.length = min k {id | (contents id).isSome}.ncard
  nearest : ∀ r ∈ results, ∀ e, contents r.id = some e → ∀ id e', contents id = some e' →
    id ∉ results.map SearchResult.id → m.distance query e.vector ≤ m.distance query e'.vector

/-- Every search returns the nearest embeddings. -/
def Exact [LinearOrder D] (m : Metric F D S) (s : HnswVectorStore F)
    (contents : String → Option (Embedding F)) : Prop :=
  ∀ query k, query.length = s.dimension →
    ∃ results, s.search m query k = .ok results ∧ Nearest m contents query k results

/-! ### What can be reached -/

/-- What decides which embeddings a search can reach. -/
structure Reach where
  /-- The identifiers that have been stored, in the order in which they came. -/
  ids : List String := []
  /-- Those that the entry point leads to. -/
  reachable : List String := []
  /-- The highest level. -/
  top : ℕ := 0

/-- What can be reached with a new identifier: it too if another one can be that is stored at the
moment, it alone if not but it gets the highest level, and else it is lost. -/
def Reach.after (contents : String → Option (Embedding F)) (r : Reach) (id : String)
    (level : ℕ) : List String :=
  if ∃ id ∈ r.reachable, (contents id).isSome = true then r.reachable ++ [id]
  else if r.ids = [] ∨ level > r.top then [id]
  else r.reachable

/-- What can be reached after a call. -/
def Reach.call (dimension : ℕ) (contents : String → Option (Embedding F)) (r : Reach) :
    Call F → Reach
  | .upsert e level =>
    if e.vector.length ≠ dimension ∨ e.id ∈ r.ids then r
    else
      { ids := r.ids ++ [e.id]
        reachable := r.after contents e.id level
        top := max r.top level }
  | .delete _ => r

/-- What is stored and what can be reached after some calls. -/
def follow (dimension : ℕ) (calls : List (Call F)) : (String → Option (Embedding F)) × Reach :=
  calls.foldl (fun t c => (store dimension t.1 c, t.2.call dimension t.1 c)) (fun _ => none, {})

/-- What is stored after some calls. -/
def contents (dimension : ℕ) (calls : List (Call F)) : String → Option (Embedding F) :=
  (follow dimension calls).1

/-- What can be reached after some calls. -/
def reach (dimension : ℕ) (calls : List (Call F)) : Reach := (follow dimension calls).2

/-- The identifier under which a call stores an embedding. -/
def Call.stored (dimension : ℕ) : Call F → Option String
  | .upsert e _ => if e.vector.length ≠ dimension then none else some e.id
  | .delete _ => none

/-- The identifiers that the calls use. -/
def identifiers (dimension : ℕ) (calls : List (Call F)) : Finset String :=
  (calls.filterMap (Call.stored dimension)).toFinset

theorem contents_concat (dimension : ℕ) (calls : List (Call F)) (c : Call F) :
    contents dimension (calls ++ [c]) = store dimension (contents dimension calls) c := by
  simp [contents, follow]

theorem reach_concat (dimension : ℕ) (calls : List (Call F)) (c : Call F) :
    reach dimension (calls ++ [c]) =
      (reach dimension calls).call dimension (contents dimension calls) c := by
  simp [reach, contents, follow]

/-- Every identifier is listed once. -/
theorem ids_reach (dimension : ℕ) (calls : List (Call F)) : (reach dimension calls).ids.Nodup ∧
    (reach dimension calls).ids.toFinset = identifiers dimension calls := by
  induction calls using List.reverseRecOn with
  | nil => exact ⟨List.nodup_nil, rfl⟩
  | append_singleton calls c ih =>
    have hidentifiers : identifiers dimension (calls ++ [c]) =
        identifiers dimension calls ∪ (Call.stored dimension c).toFinset := by
      ext id
      simp [identifiers]
    rw [reach_concat, hidentifiers, ← ih.2]
    cases c with
    | delete id => exact ⟨ih.1, by simp [Reach.call, Call.stored]⟩
    | upsert e level =>
      by_cases hdimension : e.vector.length = dimension
      · by_cases hold : e.id ∈ (reach dimension calls).ids
        · rw [Reach.call, if_pos (.inr hold)]
          refine ⟨ih.1, ?_⟩
          ext id
          simp only [Call.stored, hdimension, Finset.mem_union, List.mem_toFinset]
          refine (or_iff_left_of_imp fun hid => ?_).symm
          obtain rfl : id = e.id := by simpa using hid
          exact hold
        · rw [Reach.call, if_neg (by simp [hdimension, hold])]
          refine ⟨?_, ?_⟩
          · refine List.nodup_append.mpr ⟨ih.1, List.nodup_singleton _, ?_⟩
            rintro a ha b hb rfl
            exact hold (List.mem_singleton.mp hb ▸ ha)
          · ext id
            simp [Call.stored, hdimension]
      · rw [Reach.call, if_pos (.inl hdimension)]
        exact ⟨ih.1, by simp [Call.stored, hdimension]⟩

theorem length_ids_reach (dimension : ℕ) (calls : List (Call F)) :
    (reach dimension calls).ids.length = (identifiers dimension calls).card := by
  obtain ⟨hnodup, hids⟩ := ids_reach dimension calls
  rw [← hids, List.toFinset_card_of_nodup hnodup]

/-- No identifier is forgotten. -/
theorem length_ids_le (dimension : ℕ) (calls : List (Call F)) (c : Call F) :
    (reach dimension calls).ids.length ≤ (reach dimension (calls ++ [c])).ids.length := by
  rw [reach_concat]
  cases c with
  | delete id => exact Nat.le_refl _
  | upsert e level =>
    rw [Reach.call]
    split
    · exact Nat.le_refl _
    · simp

/-- What is stored has an identifier that the calls use. -/
theorem mem_ids_of_contents {dimension : ℕ} {calls : List (Call F)} {id : String}
    (h : (contents dimension calls id).isSome = true) : id ∈ (reach dimension calls).ids := by
  induction calls using List.reverseRecOn with
  | nil => cases h
  | append_singleton calls c ih =>
    rw [contents_concat] at h
    rw [reach_concat]
    cases c with
    | delete id' =>
      by_cases hid : id = id'
      · subst hid
        simp [store] at h
      · rw [store, Function.update_of_ne hid] at h
        exact ih h
    | upsert e level =>
      rw [store] at h
      rw [Reach.call]
      split at h
      · next hdimension =>
        rw [if_pos (.inl hdimension)]
        exact ih h
      · next hdimension =>
        by_cases hid : id = e.id
        · subst hid
          split
          · next hskip => exact hskip.resolve_left hdimension
          · exact List.mem_append_right _ (List.mem_singleton_self _)
        · rw [Function.update_of_ne hid] at h
          split
          · exact ih h
          · exact List.mem_append_left _ (ih h)

theorem finite_contents (dimension : ℕ) (calls : List (Call F)) :
    {id | (contents dimension calls id).isSome = true}.Finite :=
  (reach dimension calls).ids.toFinset.finite_toSet.subset fun _ hid =>
    List.mem_toFinset.mpr (mem_ids_of_contents hid)

/-! ### The calls on the index -/

/-- A call on the store. -/
def HnswVectorStore.call [LinearOrder D] (m : Metric F D S) (s : HnswVectorStore F) :
    Call F → HnswVectorStore F
  | .upsert e level => (s.upsert m e level).2
  | .delete id => s.delete id

/-- The store after some calls. -/
def run [LinearOrder D] (m : Metric F D S) (config : HnswConfig) (dimension : ℕ)
    (calls : List (Call F)) : HnswVectorStore F :=
  calls.foldl (HnswVectorStore.call m) { config := config, dimension := dimension }

/-- The graph stores what it is meant to store, and leads where it is followed to lead. -/
structure Tracks (dimension : ℕ) (g : Graph F) (contents : String → Option (Embedding F))
    (r : Reach) : Prop where
  wired : Wired g
  ids : g.nodes.map Node.id = r.ids
  nodup : r.ids.Nodup
  idMap : ∀ id i, g.idMap id = some i ↔ r.ids[i]? = some id
  get : ∀ id, g.get id = contents id
  dimension : ∀ id e, contents id = some e → e.vector.length = dimension
  reachable : ∀ id ∈ r.reachable, id ∈ r.ids
  empty : g.entryPoint = none → r.ids = [] ∧ r.top = 0
  entry : ∀ ep, g.entryPoint = some ep → ep < g.nodes.length ∧ g.currentMaxLevel = r.top ∧
    ∀ i id, r.ids[i]? = some id → (id ∈ r.reachable ↔ Joined g ep i)

/-! ### Graphs with the same links -/

section same

variable {g g' : Graph F} {i j : ℕ}

theorem joined_congr (hneighbors : ∀ l i, g'.neighbors l i = g.neighbors l i) :
    Joined g' = Joined g := by
  unfold Joined
  simp only [hneighbors]

theorem Wired.congr (h : Wired g) (hneighbors : ∀ l i, g'.neighbors l i = g.neighbors l i)
    (hlength : g'.nodes.length = g.nodes.length) : Wired g' := by
  constructor
  · intro l i j hj
    rw [hlength]
    exact h.inRange l i j (hneighbors l i ▸ hj)
  · intro i j hj
    rw [hneighbors] at hj ⊢
    exact h.symm i j hj
  · intro i
    rw [hneighbors]
    exact h.nodup i
  · intro i
    rw [hneighbors]
    exact h.irrefl i
  · intro l i j hj
    rw [joined_congr hneighbors]
    exact h.joined l i j (hneighbors l i ▸ hj)

theorem neighbors_modify {f : Node F → Node F} (hf : ∀ node, (f node).neighbors = node.neighbors)
    (l i : ℕ) : Graph.neighbors { g with nodes := g.nodes.modify j f } l i = g.neighbors l i := by
  unfold Graph.neighbors
  rw [List.getElem?_modify]
  cases g.nodes[i]? with
  | none => rfl
  | some node =>
    simp only [Option.map_eq_map, Option.map_some, Option.bind_some]
    split
    · rw [hf]
    · rfl

theorem Alike.get (h : Alike g g') (id : String) : g'.get id = g.get id := by
  unfold Graph.get
  rw [h.idMap]
  refine congrArg _ (funext fun i => ?_)
  have hnode := h.map_eq i
    (fun node => if node.deleted then none else some (⟨node.id, node.vector, node.metadata⟩ : Embedding F))
    fun _ => rfl
  cases hg : g.nodes[i]? with
  | none =>
    rw [hg] at hnode
    rw [Option.map_eq_none_iff.mp hnode]
  | some node =>
    rw [hg] at hnode
    obtain ⟨node', hnode', heq⟩ := Option.map_eq_some_iff.mp hnode
    rw [hnode']
    exact heq

end same

/-! ### One call -/

namespace Tracks

variable {dimension : ℕ} {g : Graph F} {contents : String → Option (Embedding F)} {r : Reach}
  {id : String} {i : ℕ}

theorem empty_graph : Tracks dimension ({} : Graph F) (fun _ => none) {} where
  wired := by
    constructor <;> simp [Graph.neighbors]
  ids := rfl
  nodup := List.nodup_nil
  idMap id i := by
    constructor
    · exact fun h => absurd h nofun
    · exact fun h => absurd h nofun
  get _ := rfl
  dimension _ _ h := absurd h nofun
  reachable _ h := h
  empty _ := ⟨rfl, rfl⟩
  entry _ h := absurd h nofun

theorem length_eq (h : Tracks dimension g contents r) : g.nodes.length = r.ids.length := by
  rw [← h.ids, List.length_map]

theorem getElem?_ids (h : Tracks dimension g contents r) (i : ℕ) :
    r.ids[i]? = (g.nodes[i]?).map Node.id := by
  rw [← h.ids, List.getElem?_map]

theorem exists_node (h : Tracks dimension g contents r) (hi : r.ids[i]? = some id) :
    ∃ node, g.nodes[i]? = some node ∧ node.id = id := by
  rw [h.getElem?_ids] at hi
  exact Option.map_eq_some_iff.mp hi

/-- An identifier has one place. -/
theorem eq_of_getElem? (h : Tracks dimension g contents r) {j : ℕ} (hi : r.ids[i]? = some id)
    (hj : r.ids[j]? = some id) : i = j := by
  rw [← h.idMap] at hi hj
  exact Option.some.inj (hi.symm.trans hj)

theorem exists_index (h : Tracks dimension g contents r) {e : Embedding F}
    (he : contents id = some e) : ∃ i : ℕ, r.ids[i]? = some id := by
  rw [← h.get] at he
  obtain ⟨i, hi, -⟩ := Option.bind_eq_some_iff.mp he
  exact ⟨i, (h.idMap id i).mp hi⟩

/-- What is stored under an identifier, from its node. -/
theorem contents_eq (h : Tracks dimension g contents r) {node : Node F}
    (hnode : g.nodes[i]? = some node) :
    contents node.id =
      if node.deleted then none else some ⟨node.id, node.vector, node.metadata⟩ := by
  have hid : g.idMap node.id = some i := by
    rw [h.idMap, h.getElem?_ids, hnode]
    rfl
  rw [← h.get, Graph.get, hid, Option.bind_some, hnode, Option.bind_some]

/-- A node gets a new vector, or is deleted. -/
theorem modify (h : Tracks dimension g contents r) (hi : g.idMap id = some i)
    {f : Node F → Node F} {x : Option (Embedding F)} (hid : ∀ node, (f node).id = node.id)
    (hneighbors : ∀ node, (f node).neighbors = node.neighbors)
    (hx : ∀ node, node.id = id → (if (f node).deleted then none else
      some (⟨(f node).id, (f node).vector, (f node).metadata⟩ : Embedding F)) = x)
    (hdimension : ∀ e, x = some e → e.vector.length = dimension) :
    Tracks dimension { g with nodes := g.nodes.modify i f } (Function.update contents id x) r := by
  have hsame := neighbors_modify (g := g) (j := i) hneighbors
  constructor
  · exact h.wired.congr hsame (List.length_modify f ..)
  · rw [← h.ids]
    refine List.ext_getElem? fun j => ?_
    rw [List.getElem?_map, List.getElem?_map, List.getElem?_modify]
    cases g.nodes[j]? with
    | none => rfl
    | some node =>
      simp only [Option.map_eq_map, Option.map_some]
      split
      · rw [hid]
      · rfl
  · exact h.nodup
  · exact h.idMap
  · intro id'
    rw [Graph.get]
    by_cases heq : id' = id
    · subst heq
      obtain ⟨node, hnode, hnid⟩ := h.exists_node ((h.idMap id' i).mp hi)
      rw [hi, Option.bind_some, List.getElem?_modify_eq, hnode, Function.update_self]
      exact hx node hnid
    · rw [Function.update_of_ne heq, ← h.get, Graph.get]
      refine Option.bind_congr fun j hj => ?_
      have hne : i ≠ j := by
        rintro rfl
        rw [h.idMap] at hi hj
        exact heq (Option.some.inj (hj.symm.trans hi))
      rw [List.getElem?_modify_ne _ _ hne]
  · intro id' e he
    by_cases heq : id' = id
    · subst heq
      rw [Function.update_self] at he
      exact hdimension e he
    · rw [Function.update_of_ne heq] at he
      exact h.dimension id' e he
  · exact h.reachable
  · exact h.empty
  · intro ep hep
    obtain ⟨hlt, htop, hreach⟩ := h.entry ep hep
    rw [joined_congr hsame]
    exact ⟨by rwa [List.length_modify], htop, hreach⟩

theorem delete (h : Tracks dimension g contents r) (id : String) :
    Tracks dimension (g.delete id) (Function.update contents id none) r := by
  unfold Graph.delete
  cases hi : g.idMap id with
  | none =>
    have hnone : contents id = none := by rw [← h.get, Graph.get, hi, Option.bind_none]
    have hsame : Function.update contents id none = contents :=
      Function.update_eq_self_iff.mpr hnone.symm
    rw [hsame]
    exact h
  | some i => exact h.modify hi (fun _ => rfl) (fun _ => rfl) (fun _ _ => rfl) nofun

theorem insert_old [LinearOrder D] {m : Metric F D S} {config : HnswConfig} {e : Embedding F}
    {level : ℕ} (h : Tracks dimension g contents r) (hdimension : e.vector.length = dimension)
    (hold : e.id ∈ r.ids) :
    Tracks dimension (g.insert m config e level) (Function.update contents e.id (some e)) r := by
  obtain ⟨i, hi⟩ := List.mem_iff_getElem?.mp hold
  rw [← h.idMap] at hi
  rw [Graph.insert, hi]
  refine h.modify hi (fun _ => rfl) (fun _ => rfl) (fun node hid => ?_) ?_
  · simp [hid]
  · rintro _ ⟨⟩
    exact hdimension

/-! ### A new identifier -/

theorem getElem?_concat_iff {ids : List String} {x : String} :
    (ids ++ [x])[i]? = some id ↔ ids[i]? = some id ∨ i = ids.length ∧ id = x := by
  rw [List.getElem?_append]
  split
  · next hlt =>
    refine (or_iff_left ?_).symm
    rintro ⟨rfl, -⟩
    exact lt_irrefl _ hlt
  · next hge =>
    rw [List.getElem?_eq_none_iff.mpr (Nat.not_lt.mp hge), List.getElem?_singleton]
    constructor
    · intro h
      split at h
      · exact .inr ⟨by omega, (Option.some.inj h).symm⟩
      · cases h
    · rintro (h | ⟨rfl, rfl⟩)
      · cases h
      · simp

/-- The entry point leads to a live node exactly when a reachable identifier is stored. -/
theorem exists_live_iff (h : Tracks dimension g contents r) {ep : ℕ}
    (hep : g.entryPoint = some ep) :
    (∃ id ∈ r.reachable, (contents id).isSome = true) ↔ ∃ k, Joined g ep k ∧ g.Live k := by
  obtain ⟨hlt, -, hreach⟩ := h.entry ep hep
  constructor
  · rintro ⟨id, hid, hsome⟩
    obtain ⟨e, he⟩ := Option.isSome_iff_exists.mp hsome
    obtain ⟨i, hi⟩ := h.exists_index he
    obtain ⟨node, hnode, rfl⟩ := h.exists_node hi
    refine ⟨i, (hreach i _ hi).mp hid, node, hnode, ?_⟩
    rw [h.contents_eq hnode] at he
    cases hdeleted : node.deleted with
    | true => simp [hdeleted] at he
    | false => rfl
  · rintro ⟨k, hk, node, hnode, hlive⟩
    have hnode := Option.mem_def.mp hnode
    have hi : r.ids[k]? = some node.id := by
      rw [h.getElem?_ids, hnode]
      rfl
    refine ⟨node.id, (hreach k _ hi).mpr hk, ?_⟩
    rw [h.contents_eq hnode, hlive]
    rfl

variable {e : Embedding F} {level : ℕ} {g' : Graph F}

theorem ids_push (h : Tracks dimension g contents r) (hg' : Alike (g.push e level) g') :
    g'.nodes.map Node.id = r.ids ++ [e.id] := by
  have hids := congrArg (List.map Node.id) hg'.nodes
  rw [List.map_map, List.map_map] at hids
  rw [← h.ids]
  exact hids.trans (by simp [Graph.push, Node.bare, Function.comp_def])

theorem idMap_push (h : Tracks dimension g contents r) (hnew : e.id ∉ r.ids)
    (hg' : Alike (g.push e level) g') (id : String) (i : ℕ) :
    g'.idMap id = some i ↔ (r.ids ++ [e.id])[i]? = some id := by
  have hidMap : g'.idMap = Function.update g.idMap e.id (some g.nodes.length) := hg'.idMap
  rw [getElem?_concat_iff, hidMap]
  by_cases hid : id = e.id
  · subst hid
    rw [Function.update_self, h.length_eq]
    constructor
    · intro hi
      exact .inr ⟨(Option.some.inj hi).symm, rfl⟩
    · rintro (hi | ⟨rfl, -⟩)
      · exact absurd (List.mem_of_getElem? hi) hnew
      · rfl
  · rw [Function.update_of_ne hid, h.idMap]
    exact (or_iff_left fun hlast => hid hlast.2).symm

theorem get_push (h : Tracks dimension g contents r) (hg' : Alike (g.push e level) g')
    (id : String) : g'.get id = Function.update contents e.id (some e) id := by
  rw [hg'.get]
  have hidMap : (g.push e level).idMap = Function.update g.idMap e.id (some g.nodes.length) := rfl
  rw [Graph.get, hidMap]
  by_cases hid : id = e.id
  · subst hid
    rw [Function.update_self, Function.update_self]
    simp [Graph.push]
  · rw [Function.update_of_ne hid, Function.update_of_ne hid, ← h.get, Graph.get]
    refine Option.bind_congr fun i hi => ?_
    rw [h.idMap] at hi
    obtain ⟨node, hnode, -⟩ := h.exists_node hi
    rw [getElem?_push_of_lt g e level (List.getElem?_eq_some_iff.mp hnode).1]

/-- Everything but the links follows from the new node alone. -/
theorem of_push {r' : Reach} {entryPoint : Option ℕ} {top : ℕ}
    (h : Tracks dimension g contents r) (hdimension : e.vector.length = dimension)
    (hnew : e.id ∉ r.ids) (hg' : Alike (g.push e level) g') (hw : Wired g')
    (hids : r'.ids = r.ids ++ [e.id]) (hreachable : ∀ id ∈ r'.reachable, id ∈ r'.ids)
    (hempty : entryPoint ≠ none)
    (hentry : ∀ ep, entryPoint = some ep → ep < g'.nodes.length ∧ top = r'.top ∧
      ∀ i id, r'.ids[i]? = some id → (id ∈ r'.reachable ↔ Joined g' ep i)) :
    Tracks dimension { g' with entryPoint := entryPoint, currentMaxLevel := top }
      (Function.update contents e.id (some e)) r' where
  wired := ⟨hw.inRange, hw.symm, hw.nodup, hw.irrefl, hw.joined⟩
  ids := by
    have hpushed := h.ids_push hg'
    rw [hids]
    exact hpushed
  nodup := by
    rw [hids]
    refine List.nodup_append.mpr ⟨h.nodup, List.nodup_singleton _, ?_⟩
    rintro a ha b hb rfl
    exact hnew (List.mem_singleton.mp hb ▸ ha)
  idMap id i := by
    have hpushed := h.idMap_push hnew hg' id i
    rw [hids]
    exact hpushed
  get id := by
    have hpushed := h.get_push hg' id
    exact hpushed
  dimension id x hx := by
    by_cases hid : id = e.id
    · subst hid
      rw [Function.update_self] at hx
      obtain rfl := Option.some.inj hx
      exact hdimension
    · rw [Function.update_of_ne hid] at hx
      exact h.dimension id x hx
  reachable := hreachable
  empty hnone := absurd hnone hempty
  entry := hentry

theorem mem_after {id id' : String} (hid : id' ∈ r.after contents id level) :
    id' ∈ r.reachable ∨ id' = id := by
  unfold Reach.after at hid
  split at hid
  · exact (List.mem_append.mp hid).imp_right List.mem_singleton.mp
  · split at hid
    · exact .inr (List.mem_singleton.mp hid)
    · exact .inl hid

theorem after_subset (h : Tracks dimension g contents r) :
    ∀ id ∈ r.after contents e.id level, id ∈ r.ids ++ [e.id] := by
  intro id hid
  rcases mem_after hid with hid | rfl
  · exact List.mem_append_left _ (h.reachable id hid)
  · exact List.mem_append_right _ (List.mem_singleton_self _)

section place

variable {ep : ℕ}

/-- An identifier is an old one in its place, or the new one in the last. -/
theorem place_cases (h : Tracks dimension g contents r) (hep : g.entryPoint = some ep)
    (hnew : e.id ∉ r.ids) (hi : (r.ids ++ [e.id])[i]? = some id) :
    i < g.nodes.length ∧ id ≠ e.id ∧ (id ∈ r.reachable ↔ Joined g ep i) ∨
      i = g.nodes.length ∧ id = e.id := by
  rcases getElem?_concat_iff.mp hi with hi | ⟨rfl, rfl⟩
  · refine .inl ⟨?_, fun hid => hnew (hid ▸ List.mem_of_getElem? hi), (h.entry ep hep).2.2 i id hi⟩
    rw [h.length_eq]
    exact (List.getElem?_eq_some_iff.mp hi).1
  · exact .inr ⟨h.length_eq.symm, rfl⟩

/-- The entry point stays: it leads to the new node if it leads to a live one. -/
theorem mem_after_iff_entry (h : Tracks dimension g contents r) (hep : g.entryPoint = some ep)
    (hnew : e.id ∉ r.ids) (hlinked : Linked g (g.push e level) g' ep) (hlevel : ¬ level > r.top)
    (hi : (r.ids ++ [e.id])[i]? = some id) :
    id ∈ r.after contents e.id level ↔ Joined g' ep i := by
  have hlt := (h.entry ep hep).1
  have hne : r.ids ≠ [] := by
    intro hnil
    rw [h.length_eq, hnil] at hlt
    exact Nat.not_lt_zero _ hlt
  have hfar : ¬ Joined g ep g.nodes.length := fun hj => lt_irrefl _ (h.wired.joined_lt hlt hj)
  have hunreachable : e.id ∉ r.reachable := fun hmem => hnew (h.reachable _ hmem)
  rw [hlinked.joined_entry, ← h.exists_live_iff hep, Reach.after]
  split
  · next hlive =>
    rw [List.mem_append, List.mem_singleton]
    rcases h.place_cases hep hnew hi with ⟨hi, hid, hiff⟩ | ⟨rfl, rfl⟩
    · simp [hi.ne, hid, hiff]
    · simp [hlive]
  · next hdead =>
    rw [if_neg (by simp [hne, hlevel])]
    rcases h.place_cases hep hnew hi with ⟨hi, -, hiff⟩ | ⟨rfl, rfl⟩
    · simp [hi.ne, hiff]
    · simp [hunreachable, hfar, hdead]

/-- The new node becomes the entry point: it leads to the others if one of them is alive. -/
theorem mem_after_iff_new (h : Tracks dimension g contents r) (hep : g.entryPoint = some ep)
    (hnew : e.id ∉ r.ids) (hlinked : Linked g (g.push e level) g' ep) (hlevel : level > r.top)
    (hi : (r.ids ++ [e.id])[i]? = some id) :
    id ∈ r.after contents e.id level ↔ Joined g' g.nodes.length i := by
  rw [hlinked.joined_new h.wired, ← h.exists_live_iff hep, Reach.after]
  split
  · next hlive =>
    rw [List.mem_append, List.mem_singleton]
    rcases h.place_cases hep hnew hi with ⟨hi, hid, hiff⟩ | ⟨rfl, rfl⟩
    · simp [hi.ne, hid, hiff, hlive]
    · simp
  · next hdead =>
    rw [if_pos (.inr hlevel), List.mem_singleton]
    rcases h.place_cases hep hnew hi with ⟨hi, hid, -⟩ | ⟨rfl, rfl⟩
    · simp [hi.ne, hid, hdead]
    · simp

end place

section insert

variable [LinearOrder D] {m : Metric F D S} {config : HnswConfig}

/-- The reach after a new identifier. -/
def grown (contents : String → Option (Embedding F)) (r : Reach) (e : Embedding F)
    (level : ℕ) : Reach where
  ids := r.ids ++ [e.id]
  reachable := r.after contents e.id level
  top := max r.top level

theorem idMap_eq_none (h : Tracks dimension g contents r) (hnew : e.id ∉ r.ids) :
    g.idMap e.id = none := by
  by_contra hsome
  obtain ⟨i, hi⟩ := Option.ne_none_iff_exists'.mp hsome
  exact hnew (List.mem_of_getElem? ((h.idMap e.id i).mp hi))

theorem insert_first (h : Tracks dimension g contents r) (hep : g.entryPoint = none)
    (hdimension : e.vector.length = dimension) (hnew : e.id ∉ r.ids) :
    Tracks dimension (g.insert m config e level) (Function.update contents e.id (some e))
      (grown contents r e level) := by
  obtain ⟨hids, htop⟩ := h.empty hep
  have hlength : g.nodes.length = 0 := by rw [h.length_eq, hids]; rfl
  have hnot : ¬ ∃ id ∈ r.reachable, (contents id).isSome = true := by
    rintro ⟨id, hid, -⟩
    have hmem := h.reachable id hid
    rw [hids] at hmem
    exact absurd hmem List.not_mem_nil
  have hafter : r.after contents e.id level = [e.id] := by
    rw [Reach.after, if_neg hnot, if_pos (.inl hids)]
  have hneighbors (l i : ℕ) : (g.push e level).neighbors l i = [] := by
    rw [neighbors_push, neighbors_eq, List.getElem?_eq_none_iff.mpr (by omega)]
    rfl
  have hwired : Wired (g.push e level) := by
    constructor <;> simp [hneighbors]
  rw [Graph.insert, h.idMap_eq_none hnew, hep]
  refine h.of_push hdimension hnew (.refl _) hwired rfl h.after_subset (Option.some_ne_none _) ?_
  rintro ep ⟨⟩
  rw [length_push]
  refine ⟨Nat.lt_succ_self _, by simp [grown, htop], fun i id hi => ?_⟩
  change (r.ids ++ [e.id])[i]? = some id at hi
  change id ∈ r.after contents e.id level ↔ _
  rw [hids] at hi
  obtain ⟨rfl, rfl⟩ : i = 0 ∧ e.id = id := by simpa [List.getElem?_singleton] using hi
  rw [hlength, hafter]
  simp only [List.mem_singleton, true_iff]
  exact .refl

theorem insert_next (h : Tracks dimension g contents r) {ep : ℕ} (hep : g.entryPoint = some ep)
    (hdimension : e.vector.length = dimension) (hnew : e.id ∉ r.ids)
    (hroom : g.nodes.length ≤ config.maxConnectionsLayer0)
    (hef : g.nodes.length + 1 ≤ config.efConstruction) :
    Tracks dimension (g.insert m config e level) (Function.update contents e.id (some e))
      (grown contents r e level) := by
  obtain ⟨hlt, htop, -⟩ := h.entry ep hep
  obtain ⟨g', hlinked, hinsert⟩ := @exists_linked F D S m config g ep e level _ h.wired hlt hroom
    hef (h.idMap_eq_none hnew) hep
  have hwired := hlinked.wired h.wired
  have hlength : g'.nodes.length = g.nodes.length + 1 := by
    rw [hlinked.alike.length, length_push]
  rw [hinsert, htop]
  split
  · next hlevel =>
    refine h.of_push hdimension hnew hlinked.alike hwired rfl h.after_subset
      (Option.some_ne_none _) ?_
    rintro _ ⟨⟩
    exact ⟨by omega, (max_eq_right hlevel.le).symm, fun i id hi =>
      h.mem_after_iff_new hep hnew hlinked hlevel hi⟩
  · next hlevel =>
    have hentry : g'.entryPoint = some ep := hlinked.alike.entryPoint.trans hep
    have hmax : g'.currentMaxLevel = r.top := hlinked.alike.currentMaxLevel.trans htop
    have hsame : g' = { g' with entryPoint := some ep, currentMaxLevel := r.top } := by
      rw [← hentry, ← hmax]
    rw [hsame]
    refine h.of_push hdimension hnew hlinked.alike hwired rfl h.after_subset
      (Option.some_ne_none _) ?_
    rintro _ ⟨⟩
    exact ⟨by omega, (max_eq_left (Nat.not_lt.mp hlevel)).symm, fun i id hi =>
      h.mem_after_iff_entry hep hnew hlinked hlevel hi⟩

theorem insert_new (h : Tracks dimension g contents r) (hdimension : e.vector.length = dimension)
    (hnew : e.id ∉ r.ids) (hroom : g.nodes.length ≤ config.maxConnectionsLayer0)
    (hef : g.nodes.length + 1 ≤ config.efConstruction) :
    Tracks dimension (g.insert m config e level) (Function.update contents e.id (some e))
      (r.call dimension contents (.upsert e level)) := by
  have hcall : ¬ (e.vector.length ≠ dimension ∨ e.id ∈ r.ids) := by simp [hdimension, hnew]
  rw [Reach.call, if_neg hcall]
  cases hep : g.entryPoint with
  | none => exact h.insert_first hep hdimension hnew
  | some ep => exact h.insert_next hep hdimension hnew hroom hef

end insert

end Tracks

/-! ### Runs -/

section runs

variable [LinearOrder D] {m : Metric F D S} {config : HnswConfig} {dimension : ℕ}
  {s : HnswVectorStore F}

/-- The store after some calls, with the graph that it should have. -/
structure Kept (config : HnswConfig) (dimension : ℕ) (s : HnswVectorStore F)
    (calls : List (Call F)) : Prop where
  config_eq : s.config = config
  dimension_eq : s.dimension = dimension
  tracks : Tracks dimension s.graph (contents dimension calls) (reach dimension calls)

theorem Kept.call {calls : List (Call F)} {c : Call F} (h : Kept config dimension s calls)
    (hroom : (reach dimension (calls ++ [c])).ids.length ≤ config.maxConnectionsLayer0 + 1)
    (hef : (reach dimension (calls ++ [c])).ids.length ≤ config.efConstruction) :
    Kept config dimension (s.call m c) (calls ++ [c]) := by
  rw [reach_concat] at hroom hef
  cases c with
  | delete id =>
    refine ⟨h.config_eq, h.dimension_eq, ?_⟩
    rw [contents_concat, reach_concat]
    exact h.tracks.delete id
  | upsert e level =>
    rw [HnswVectorStore.call, HnswVectorStore.upsert, h.dimension_eq, h.config_eq]
    by_cases hdimension : e.vector.length = dimension
    · rw [if_neg (not_not.mpr hdimension)]
      refine ⟨rfl, rfl, ?_⟩
      rw [contents_concat, reach_concat, store, if_neg (not_not.mpr hdimension)]
      by_cases hold : e.id ∈ (reach dimension calls).ids
      · rw [Reach.call, if_pos (.inr hold)]
        exact h.tracks.insert_old hdimension hold
      · have hlength := h.tracks.length_eq
        rw [Reach.call, if_neg (by simp [hdimension, hold])] at hroom hef
        simp only [List.length_append, List.length_singleton] at hroom hef
        exact h.tracks.insert_new hdimension hold (by omega) (by omega)
    · rw [if_pos hdimension]
      refine ⟨h.config_eq, h.dimension_eq, ?_⟩
      rw [contents_concat, reach_concat, store, if_pos hdimension, Reach.call,
        if_pos (.inl hdimension)]
      exact h.tracks

theorem kept_run (calls : List (Call F))
    (hroom : (reach dimension calls).ids.length ≤ config.maxConnectionsLayer0 + 1)
    (hef : (reach dimension calls).ids.length ≤ config.efConstruction) :
    Kept config dimension (run m config dimension calls) calls := by
  induction calls using List.reverseRecOn with
  | nil => exact ⟨rfl, rfl, .empty_graph⟩
  | append_singleton calls c ih =>
    have hle := length_ids_le dimension calls c
    rw [run, List.foldl_concat]
    exact (ih (hle.trans hroom) (hle.trans hef)).call hroom hef

end runs

/-! ### Searches -/

/-- The results for the front of a ranking. -/
def results (m : Metric F D S) (ranking : List (D × String)) : List (SearchResult S) :=
  ranking.map fun p => ⟨p.2, m.distanceToScore p.1⟩

theorem map_id_results {m : Metric F D S} {ranking : List (D × String)} :
    (results m ranking).map SearchResult.id = ranking.map Prod.snd := by
  rw [results, List.map_map]
  rfl

section ranking

variable [LinearOrder D] {m : Metric F D S} {config : HnswConfig} {dimension k : ℕ}
  {g : Graph F} {contents : String → Option (Embedding F)} {r : Reach} {query : List F}

/-- The reachable embeddings by their distances. -/
structure Ranking (m : Metric F D S) (contents : String → Option (Embedding F))
    (reachable : List String) (query : List F) (ranking : List (D × String)) : Prop where
  sorted : ranking.Pairwise fun a b => a.1 ≤ b.1
  distinct : (ranking.map Prod.snd).Nodup
  sound : ∀ p ∈ ranking, ∃ e, contents p.2 = some e ∧ p.1 = m.distance query e.vector
  mem : ∀ id, id ∈ ranking.map Prod.snd ↔ (contents id).isSome = true ∧ id ∈ reachable

/-- With a beam for all nodes a search finds the live nodes that the entry point leads to. -/
theorem Tracks.search_eq (h : Tracks dimension g contents r) (m : Metric F D S)
    (query : List F) {efSearch : ℕ} (hef : g.nodes.length ≤ efSearch) (k : ℕ) :
    ∃ found : List (D × ℕ), g.search m query k efSearch = found.take k ∧
      found.Pairwise (fun a b => a.1 ≤ b.1) ∧ (found.map Prod.snd).Nodup ∧
      (∀ p ∈ found, p.1 = m.distance query (g.vector p.2)) ∧
      ∀ i, i ∈ found.map Prod.snd ↔ g.Live i ∧ ∃ ep, g.entryPoint = some ep ∧ Joined g ep i := by
  cases hep : g.entryPoint with
  | none =>
    refine ⟨[], ?_, List.Pairwise.nil, List.nodup_nil, nofun, fun i => ?_⟩
    · rw [Graph.search, hep, List.take_nil]
    · simp
  | some ep =>
    obtain ⟨hlt, -⟩ := h.entry ep hep
    have hconfined (l : ℕ) : Confined g (Joined g ep) l :=
      fun i hi j hj => hi.trans (h.wired.joined l i j hj)
    have hbound (i : ℕ) (hi : Joined g ep i) : i < g.nodes.length := h.wired.joined_lt hlt hi
    have hstart : Start (Joined g ep)
        (descend m g query [ep] (Graph.layersDown g.currentMaxLevel 1)) :=
      descend_start (fun l _ => hconfined l) hbound (.singleton .refl)
    have hfound : Found m g query (max efSearch k) 0 _ (searchLayer m g query (max efSearch k) 0
        (descend m g query [ep] (Graph.layersDown g.currentMaxLevel 1))) :=
      searchLayer_found hstart.nodup fun i hi => hbound i (hstart.mem i hi)
    refine ⟨_, by rw [Graph.search, hep], searchLayer_sorted, hfound.distinct,
      fun p hp => (hfound.sound p hp).2.2, fun i => ?_⟩
    constructor
    · intro hi
      obtain ⟨p, hp, rfl⟩ := List.mem_map.mp hi
      obtain ⟨hjoined, hlive⟩ := searchLayer_confined (hconfined 0) hbound hstart hp
      exact ⟨hlive, ep, rfl, hjoined⟩
    · rintro ⟨hlive, ep', ⟨⟩, hi⟩
      obtain ⟨j, hj⟩ := List.exists_mem_of_ne_nil _ hstart.ne_nil
      have hpath : Joined g j i := (h.wired.joined_symm (hstart.mem j hj)).trans hi
      have hedge (a b : ℕ) (hb : b ∈ g.neighbors 0 a) : b ∈ g.next 0 a :=
        Graph.mem_next.mpr ⟨hb, h.wired.inRange 0 a b hb⟩
      exact hfound.all (hef.trans (le_max_left _ _)) i
        ⟨j, hj, Relation.ReflTransGen.mono hedge _ _ hpath⟩ hlive

/-- The identifier of a node. -/
def Graph.name (g : Graph F) (i : ℕ) : String := ((g.nodes[i]?).map Node.id).getD ""

theorem Tracks.live_iff (h : Tracks dimension g contents r) {i : ℕ} {id : String}
    (hi : r.ids[i]? = some id) : g.Live i ↔ (contents id).isSome = true := by
  obtain ⟨node, hnode, rfl⟩ := h.exists_node hi
  rw [h.contents_eq hnode]
  simp [Graph.Live, hnode]

theorem Tracks.exists_embedding (h : Tracks dimension g contents r) {i : ℕ} (hlive : g.Live i) :
    r.ids[i]? = some (g.name i) ∧
      ∃ e, contents (g.name i) = some e ∧ e.vector = g.vector i := by
  obtain ⟨node, hnode, hdeleted⟩ := hlive
  have hnode := Option.mem_def.mp hnode
  have hname : g.name i = node.id := by simp [Graph.name, hnode]
  refine ⟨by rw [h.getElem?_ids, hnode, hname]; rfl, ⟨node.id, node.vector, node.metadata⟩, ?_,
    (vector_eq hnode).symm⟩
  rw [hname, h.contents_eq hnode, hdeleted]
  rfl

/-- A search returns the front of a ranking of what can be reached. -/
theorem Tracks.search_ranking (h : Tracks dimension g contents r) {efSearch : ℕ}
    (hef : g.nodes.length ≤ efSearch) (k : ℕ) :
    ∃ ranking, Ranking m contents r.reachable query ranking ∧
      (g.search m query k efSearch).filterMap (fun p => (g.nodes[p.2]?).map fun node =>
        (⟨node.id, m.distanceToScore p.1⟩ : SearchResult S)) = results m (ranking.take k) := by
  obtain ⟨found, hsearch, hsorted, hnodup, hdist, hmem⟩ := h.search_eq m query hef k
  have hlive {p : D × ℕ} (hp : p ∈ found) : g.Live p.2 :=
    ((hmem p.2).mp (List.mem_map_of_mem hp)).1
  have hinj {p q : D × ℕ} (hp : p ∈ found) (hq : q ∈ found)
      (hname : g.name p.2 = g.name q.2) : p.2 = q.2 := by
    have hplace := (h.exists_embedding (hlive hq)).1
    rw [← hname] at hplace
    exact h.eq_of_getElem? (h.exists_embedding (hlive hp)).1 hplace
  have hsnd : (found.map fun p => (p.1, g.name p.2)).map Prod.snd =
      (found.map Prod.snd).map g.name := by
    rw [List.map_map, List.map_map]
    rfl
  refine ⟨found.map fun p => (p.1, g.name p.2), ⟨?_, ?_, ?_, fun id => ?_⟩, ?_⟩
  · exact List.pairwise_map.mpr hsorted
  · rw [hsnd]
    refine hnodup.map_on fun i hi j hj hname => ?_
    obtain ⟨p, hp, rfl⟩ := List.mem_map.mp hi
    obtain ⟨q, hq, rfl⟩ := List.mem_map.mp hj
    exact hinj hp hq hname
  · intro p hp
    obtain ⟨q, hq, rfl⟩ := List.mem_map.mp hp
    obtain ⟨-, e, he, hvector⟩ := h.exists_embedding (hlive hq)
    exact ⟨e, he, by rw [hvector]; exact hdist q hq⟩
  · rw [hsnd, List.mem_map]
    constructor
    · rintro ⟨i, hi, rfl⟩
      obtain ⟨hi, ep, hep, hjoined⟩ := (hmem i).mp hi
      have hplace := (h.exists_embedding hi).1
      exact ⟨(h.live_iff hplace).mp hi, ((h.entry ep hep).2.2 i _ hplace).mpr hjoined⟩
    · rintro ⟨hsome, hid⟩
      obtain ⟨i, hi⟩ := List.mem_iff_getElem?.mp (h.reachable id hid)
      have hi' := (h.live_iff hi).mpr hsome
      cases hep : g.entryPoint with
      | none =>
        rw [(h.empty hep).1] at hi
        cases hi
      | some ep =>
        have hjoined := ((h.entry ep hep).2.2 i id hi).mp hid
        refine ⟨i, (hmem i).mpr ⟨hi', ep, hep, hjoined⟩, ?_⟩
        have hplace := (h.exists_embedding hi').1
        exact Option.some.inj (hplace.symm.trans hi)
  · rw [hsearch, results, ← List.map_take, List.map_map, ← List.filterMap_eq_map]
    refine List.filterMap_congr fun p hp => ?_
    obtain ⟨node, hnode, -⟩ := hlive (List.mem_of_mem_take hp)
    have hnode := Option.mem_def.mp hnode
    simp [hnode, Graph.name]

/-- If every stored embedding can be reached, the front of the ranking is nearest. -/
theorem Ranking.nearest {reachable : List String} {ranking : List (D × String)}
    (h : Ranking m contents reachable query ranking)
    (hall : ∀ id, (contents id).isSome = true → id ∈ reachable) (k : ℕ) :
    Nearest m contents query k (results m (ranking.take k)) := by
  have hstored (id : String) : id ∈ ranking.map Prod.snd ↔ (contents id).isSome = true :=
    (h.mem id).trans (and_iff_left_of_imp (hall id))
  constructor
  · rw [map_id_results]
    exact ((List.take_sublist k ranking).map Prod.snd).nodup h.distinct
  · intro r hr
    obtain ⟨p, hp, rfl⟩ := List.mem_map.mp hr
    obtain ⟨e, he, hdist⟩ := h.sound p (List.mem_of_mem_take hp)
    exact ⟨e, he, congrArg m.distanceToScore hdist⟩
  · have hset : {id | (contents id).isSome = true} = ((ranking.map Prod.snd).toFinset : Set String) := by
      ext id
      rw [Finset.mem_coe, List.mem_toFinset, hstored]
      rfl
    rw [hset, Set.ncard_coe_finset, List.toFinset_card_of_nodup h.distinct, List.length_map,
      results, List.length_map, List.length_take]
  · intro r hr e he id e' he' hnot
    obtain ⟨p, hp, rfl⟩ := List.mem_map.mp hr
    rw [map_id_results] at hnot
    obtain ⟨p', hp', rfl⟩ := List.mem_map.mp ((hstored id).mpr (he' ▸ rfl))
    obtain ⟨x, hx, hdist⟩ := h.sound p (List.mem_of_mem_take hp)
    obtain ⟨x', hx', hdist'⟩ := h.sound p' hp'
    obtain rfl := Option.some.inj (hx.symm.trans he)
    obtain rfl := Option.some.inj (hx'.symm.trans he')
    rw [← hdist, ← hdist']
    exact Foundations.le_of_mem_take_of_notMem h.sorted hp hp' fun hmem =>
      hnot (List.mem_map_of_mem hmem)

/-- Whoever returns as many different embeddings as are stored returns all of them. -/
theorem mem_of_count {ids : List String} (hids : ids.Nodup)
    (hstored : ∀ id ∈ ids, (contents id).isSome = true)
    (hcount : ids.length = {id | (contents id).isSome = true}.ncard)
    (hfinite : {id | (contents id).isSome = true}.Finite) {id : String}
    (hid : (contents id).isSome = true) : id ∈ ids := by
  have hsubset : (ids.toFinset : Set String) ⊆ {id | (contents id).isSome = true} :=
    fun x hx => hstored x (List.mem_toFinset.mp hx)
  have heq := Set.eq_of_subset_of_ncard_le hsubset (by
    rw [Set.ncard_coe_finset, List.toFinset_card_of_nodup hids, hcount]) hfinite
  have hmem : id ∈ (ids.toFinset : Set String) := heq ▸ hid
  exact List.mem_toFinset.mp hmem

end ranking

/-- Searches are exact exactly when every identifier that is stored can be reached. -/
theorem search_exact_iff [LinearOrder D] (m : Metric F D S) (config : HnswConfig)
    (dimension : ℕ) (calls : List (Call F))
    (hroom : (identifiers dimension calls).card ≤ config.maxConnectionsLayer0 + 1)
    (hconstruction : (identifiers dimension calls).card ≤ config.efConstruction)
    (hsearch : (identifiers dimension calls).card ≤ config.efSearch) :
    Exact m (run m config dimension calls) (contents dimension calls) ↔
      ∀ id, (contents dimension calls id).isSome = true → id ∈ (reach dimension calls).reachable := by
  rw [← length_ids_reach] at hroom hconstruction hsearch
  have hkept : Kept config dimension (run m config dimension calls) calls :=
    kept_run calls hroom hconstruction
  have htracks := hkept.tracks
  have hbeam : (run m config dimension calls).graph.nodes.length ≤
      (run m config dimension calls).config.efSearch := by
    rw [htracks.length_eq, hkept.config_eq]
    exact hsearch
  constructor
  · intro hexact id hid
    obtain ⟨e, he⟩ := Option.isSome_iff_exists.mp hid
    -- a search for as many embeddings as are stored
    have hquery : e.vector.length = (run m config dimension calls).dimension :=
      (htracks.dimension id e he).trans hkept.dimension_eq.symm
    obtain ⟨k, hk⟩ : ∃ k, k = {id | (contents dimension calls id).isSome = true}.ncard := ⟨_, rfl⟩
    obtain ⟨found, hfound, hnearest⟩ := hexact e.vector k hquery
    obtain ⟨ranking, hranking, heq⟩ :=
      @Tracks.search_ranking F D S _ m dimension _ _ _ e.vector htracks _ hbeam k
    have hresults : found = results m (ranking.take k) := by
      rw [HnswVectorStore.search, if_neg (not_not.mpr hquery)] at hfound
      exact (Except.ok.inj hfound).symm.trans heq
    have hmem : id ∈ found.map SearchResult.id := by
      refine mem_of_count hnearest.distinct ?_ ?_ (finite_contents dimension calls) hid
      · intro x hx
        obtain ⟨r, hr, rfl⟩ := List.mem_map.mp hx
        obtain ⟨e', he', -⟩ := hnearest.live r hr
        rw [he']
        rfl
      · rw [List.length_map, hnearest.count, ← hk, min_self]
    rw [hresults, map_id_results] at hmem
    exact ((hranking.mem id).mp (((List.take_sublist _ ranking).map Prod.snd).subset hmem)).2
  · intro hall query k hquery
    obtain ⟨ranking, hranking, heq⟩ := @Tracks.search_ranking F D S _ m dimension _ _ _ query
      htracks _ hbeam k
    refine ⟨_, ?_, hranking.nearest hall k⟩
    rw [HnswVectorStore.search, if_neg (not_not.mpr hquery), heq]

/-- Distances of vectors of numbers, coordinate by coordinate. -/
def taxicab : Metric ℕ ℕ ℕ where
  distance a b := ((a.zip b).map fun p => p.1 - p.2 + (p.2 - p.1)).sum
  distanceToScore dist := dist
  max := 1000
  intoIter heap := heap
  perm_intoIter heap := .refl heap

/-- Room for three nodes. -/
def HnswConfig.three : HnswConfig := ⟨2, 2, 3, 3⟩

/-- A node that navigates only, between two live ones. -/
def deletedBetween : List (Call ℕ) :=
  [.upsert ⟨"a", [1], []⟩ 1, .upsert ⟨"b", [2], []⟩ 0, .delete "a", .upsert ⟨"c", [3], []⟩ 2]

theorem search_exact_deletedBetween :
    Exact taxicab (run taxicab .three 1 deletedBetween) (contents 1 deletedBetween) := by
  have hcard : (identifiers 1 deletedBetween).card ≤ 3 := by decide
  refine (search_exact_iff taxicab .three 1 deletedBetween hcard hcard hcard).mpr fun id hid => ?_
  have hreach : (reach 1 deletedBetween).reachable = (reach 1 deletedBetween).ids := by decide
  rw [hreach]
  exact mem_ids_of_contents hid

/-- A node that is inserted when the only other one is deleted. -/
def insertedAfterDelete : List (Call ℕ) :=
  [.upsert ⟨"a", [1], []⟩ 0, .delete "a", .upsert ⟨"b", [2], []⟩ 0]

/-- A search for the only live node returns nothing. -/
theorem inserted_after_delete_lost : ¬ ∀ calls : List (Call ℕ),
    (identifiers 1 calls).card ≤ 3 → Exact taxicab (run taxicab .three 1 calls)
      (contents 1 calls) := by
  intro hall
  obtain ⟨found, hfound, hnearest⟩ := hall insertedAfterDelete (by decide) [2] 1 rfl
  have hempty : (run taxicab .three 1 insertedAfterDelete).search taxicab [2] 1 = .ok [] := rfl
  obtain rfl : [] = found := Except.ok.inj (hempty.symm.trans hfound)
  have hcount := hnearest.count
  have hpos : 0 < {id | (contents 1 insertedAfterDelete id).isSome = true}.ncard :=
    (Set.ncard_pos (finite_contents 1 insertedAfterDelete)).mpr ⟨"b", rfl⟩
  rw [List.length_nil, Nat.min_eq_left hpos] at hcount
  cases hcount

end NextgenDatabases.Hnsw
