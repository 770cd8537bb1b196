import NextgenDatabases.Hnsw.Layers

/-!
# Linking a new node

Links change nothing but neighbors. On the bottom layer, as long as no list of neighbors is
full, a new node is linked in both directions to all live nodes that the entry point leads
to; on the upper layers it is linked to some of these.
-/
namespace NextgenDatabases.Hnsw

open Foundations (Reached)

variable {F D S : Type} {m : Metric F D S} {config : HnswConfig} {g g' : Graph F}
  {layer l i j v x maxConn level : ℕ}

/-! ### What links do not change -/

/-- A node without its links. -/
def Node.bare (node : Node F) : Node F := { node with neighbors := [] }

/-- The graphs differ in their links at most. -/
structure Alike (g g' : Graph F) : Prop where
  nodes : g'.nodes.map Node.bare = g.nodes.map Node.bare
  idMap : g'.idMap = g.idMap
  entryPoint : g'.entryPoint = g.entryPoint
  currentMaxLevel : g'.currentMaxLevel = g.currentMaxLevel

namespace Alike

theorem refl (g : Graph F) : Alike g g := ⟨rfl, rfl, rfl, rfl⟩

theorem trans {g'' : Graph F} (h : Alike g g') (h' : Alike g' g'') : Alike g g'' :=
  ⟨h'.nodes.trans h.nodes, h'.idMap.trans h.idMap, h'.entryPoint.trans h.entryPoint,
    h'.currentMaxLevel.trans h.currentMaxLevel⟩

theorem getElem? (h : Alike g g') (i : ℕ) :
    (g'.nodes[i]?).map Node.bare = (g.nodes[i]?).map Node.bare := by
  rw [← List.getElem?_map, ← List.getElem?_map, h.nodes]

/-- What a node has beside its links. -/
theorem map_eq (h : Alike g g') (i : ℕ) {β : Type} (f : Node F → β)
    (hf : ∀ node, f node.bare = f node) : (g'.nodes[i]?).map f = (g.nodes[i]?).map f := by
  have heq := congrArg (Option.map f) (h.getElem? i)
  simp only [Option.map_map] at heq
  have hcomp : f ∘ Node.bare = f := funext hf
  rwa [hcomp] at heq

theorem length (h : Alike g g') : g'.nodes.length = g.nodes.length := by
  have heq := congrArg List.length h.nodes
  rwa [List.length_map, List.length_map] at heq

theorem vector (h : Alike g g') (i : ℕ) : g'.vector i = g.vector i := by
  unfold Graph.vector
  rw [h.map_eq i Node.vector fun _ => rfl]

theorem live (h : Alike g g') : g'.Live i ↔ g.Live i := by
  have heq := h.map_eq i Node.deleted fun _ => rfl
  have hlive (g : Graph F) : g.Live i ↔ (g.nodes[i]?).map Node.deleted = some false := by
    simp [Graph.Live]
  rw [hlive, hlive, heq]

end Alike

/-! ### Lists of nodes -/

/-- The neighbors of a node on a layer. -/
def Node.onLayer (node : Node F) (l : ℕ) : List ℕ := (node.neighbors[l]?).getD []

theorem neighbors_eq (g : Graph F) (l i : ℕ) :
    g.neighbors l i = ((g.nodes[i]?).map fun node => node.onLayer l).getD [] := by
  unfold Graph.neighbors Node.onLayer
  cases g.nodes[i]? <;> rfl

@[simp] theorem Node.onLayer_allocate (node : Node F) :
    (node.allocate layer).onLayer l = node.onLayer l := by
  unfold Node.onLayer Node.allocate
  rw [List.getElem?_append]
  split
  · rfl
  · next hge =>
    rw [List.getElem?_replicate, List.getElem?_eq_none_iff.mpr (Nat.not_lt.mp hge)]
    split <;> rfl

theorem Node.onLayer_modifyLayer_of_ne (node : Node F) {f : List ℕ → List ℕ} (h : l ≠ layer) :
    (node.modifyLayer layer f).onLayer l = node.onLayer l := by
  simp only [Node.onLayer, Node.modifyLayer]
  rw [List.getElem?_modify_ne _ _ h.symm]

theorem Node.onLayer_modifyLayer (node : Node F) {f : List ℕ → List ℕ}
    (h : layer < node.neighbors.length) :
    (node.modifyLayer layer f).onLayer layer = f (node.onLayer layer) := by
  simp only [Node.onLayer, Node.modifyLayer, List.getElem?_modify_eq]
  rw [List.getElem?_eq_getElem h]
  rfl

theorem Node.lt_length_allocate (node : Node F) :
    layer < (node.allocate layer).neighbors.length := by
  simp only [Node.allocate, List.length_append, List.length_replicate]
  omega

/-- A link on a layer that the node may not have. -/
theorem Node.onLayer_modifyLayer_subset (node : Node F) :
    (node.modifyLayer layer (· ++ [x])).onLayer layer ⊆ node.onLayer layer ++ [x] := by
  by_cases h : layer < node.neighbors.length
  · rw [Node.onLayer_modifyLayer node h]
    exact List.Subset.refl _
  · simp only [Node.onLayer, Node.modifyLayer, List.getElem?_modify_eq]
    rw [List.getElem?_eq_none_iff.mpr (Nat.not_lt.mp h)]
    exact List.nil_subset _

/-- The node has the layer. -/
def Graph.Has (g : Graph F) (layer i : ℕ) : Prop :=
  ∃ node ∈ g.nodes[i]?, layer < node.neighbors.length

/-! ### One link -/

section connect

variable [LinearOrder D]

theorem prune_subset {vector : ℕ → List F} {own : List F} {ns : List ℕ} :
    prune m vector own maxConn ns ⊆ ns := by
  unfold prune
  split
  · dsimp only
    intro j hj
    obtain ⟨p, hp, rfl⟩ := List.mem_map.mp hj
    have hmem := (List.mem_insertionSort _).mp (List.mem_of_mem_take hp)
    obtain ⟨n, hn, rfl⟩ := List.mem_map.mp hmem
    exact hn
  · exact List.Subset.refl _

theorem prune_nodup {vector : ℕ → List F} {own : List F} {ns : List ℕ} (h : ns.Nodup) :
    (prune m vector own maxConn ns).Nodup := by
  unfold prune
  split
  · refine ((List.take_sublist _ _).map Prod.snd).nodup ?_
    have hsnd : ns.map (Prod.snd ∘ fun n => (m.distance own (vector n), n)) = ns := List.map_id' ns
    rw [((List.perm_insertionSort _ _).map Prod.snd).nodup_iff, List.map_map, hsnd]
    exact h
  · exact h

theorem length_prune_le {vector : ℕ → List F} {own : List F} {ns : List ℕ} :
    (prune m vector own maxConn ns).length ≤ maxConn := by
  unfold prune
  split
  · rw [List.length_map]
    exact List.length_take_le ..
  · next hle => exact Nat.not_lt.mp hle

theorem prune_of_le {vector : ℕ → List F} {own : List F} {ns : List ℕ}
    (h : ns.length ≤ maxConn) : prune m vector own maxConn ns = ns :=
  if_neg (Nat.not_lt.mpr h)

/-- The nodes after both links, one by one. -/
theorem getElem?_connect (hne : x ≠ v) (i : ℕ) :
    (connect m maxConn layer v g x).nodes[i]? = (g.nodes[i]?).map fun node =>
      if i = x then
        (node.allocate layer).modifyLayer layer fun ns =>
          prune m g.vector node.vector maxConn (ns ++ [v])
      else if i = v then node.modifyLayer layer (· ++ [x])
      else node := by
  unfold connect
  dsimp only
  rw [List.getElem?_modify, List.getElem?_modify]
  simp only [Option.map_eq_map, Option.map_map]
  congr 1
  funext node
  by_cases hx : i = x
  · subst hx
    simp [hne.symm]
  · by_cases hv : i = v
    · subst hv
      simp [hx, Ne.symm hx]
    · simp [Ne.symm hx, Ne.symm hv, hx, hv]

theorem alike_connect (hne : x ≠ v) : Alike g (connect m maxConn layer v g x) := by
  refine ⟨List.ext_getElem? fun i => ?_, rfl, rfl, rfl⟩
  rw [List.getElem?_map, List.getElem?_map, getElem?_connect hne, Option.map_map]
  congr 1
  funext node
  simp only [Function.comp]
  split
  · rfl
  · split <;> rfl

theorem neighbors_connect_of_ne (hne : x ≠ v) (h : l ≠ layer) (i : ℕ) :
    (connect m maxConn layer v g x).neighbors l i = g.neighbors l i := by
  rw [neighbors_eq, neighbors_eq, getElem?_connect hne, Option.map_map]
  congr 2
  funext node
  simp only [Function.comp]
  split
  · rw [Node.onLayer_modifyLayer_of_ne _ h, Node.onLayer_allocate]
  · split
    · rw [Node.onLayer_modifyLayer_of_ne _ h]
    · rfl

/-- A link adds nothing but itself. -/
theorem mem_neighbors_connect (hne : x ≠ v)
    (h : j ∈ (connect m maxConn layer v g x).neighbors layer i) :
    j ∈ g.neighbors layer i ∨ i = v ∧ j = x ∨ i = x ∧ j = v := by
  rw [neighbors_eq, getElem?_connect hne, Option.map_map] at h
  rw [neighbors_eq]
  cases hnode : g.nodes[i]? with
  | none =>
    rw [hnode] at h
    exact absurd h List.not_mem_nil
  | some node =>
    rw [hnode] at h
    simp only [Option.map_some, Option.getD_some, Function.comp] at h ⊢
    split at h
    · next hx =>
      rw [Node.onLayer_modifyLayer _ (Node.lt_length_allocate node), Node.onLayer_allocate] at h
      rcases List.mem_append.mp (prune_subset h) with hold | hnew
      · exact .inl hold
      · exact .inr (.inr ⟨hx, List.mem_singleton.mp hnew⟩)
    · split at h
      · next hv =>
        rcases List.mem_append.mp (node.onLayer_modifyLayer_subset h) with hold | hnew
        · exact .inl hold
        · exact .inr (.inl ⟨hv, List.mem_singleton.mp hnew⟩)
      · exact .inl h

/-- The neighbors after a link. -/
theorem neighbors_connect_prune (hne : x ≠ v) (hx : x < g.nodes.length) (hv : g.Has layer v)
    (i : ℕ) : (connect m maxConn layer v g x).neighbors layer i =
      if i = x then prune m g.vector (g.vector x) maxConn (g.neighbors layer x ++ [v])
      else if i = v then g.neighbors layer v ++ [x]
      else g.neighbors layer i := by
  rw [neighbors_eq, getElem?_connect hne, Option.map_map]
  by_cases hix : i = x
  · subst hix
    have hsome := List.getElem?_eq_getElem hx
    have hold : g.neighbors layer i = (g.nodes[i]).onLayer layer := by
      rw [neighbors_eq, hsome]
      rfl
    have hown : g.vector i = (g.nodes[i]).vector := by
      rw [Graph.vector, hsome]
      rfl
    rw [if_pos rfl, hold, hown, hsome]
    simp only [Option.map_some, Option.getD_some, Function.comp, if_true]
    rw [Node.onLayer_modifyLayer _ (Node.lt_length_allocate _), Node.onLayer_allocate]
  · rw [if_neg hix]
    by_cases hiv : i = v
    · subst hiv
      obtain ⟨node, hnode, hlayer⟩ := hv
      have hnode := Option.mem_def.mp hnode
      rw [if_pos rfl, neighbors_eq, hnode]
      simp only [Option.map_some, Option.getD_some, Function.comp, if_neg hix, if_true]
      rw [Node.onLayer_modifyLayer _ hlayer]
    · rw [if_neg hiv, neighbors_eq]
      congr 2
      funext node
      simp [hix, hiv]

/-- The neighbors after a link for which there is room. -/
theorem neighbors_connect (hne : x ≠ v) (hx : x < g.nodes.length)
    (hv : g.Has layer v)
    (hroom : (g.neighbors layer x).length < maxConn) (i : ℕ) :
    (connect m maxConn layer v g x).neighbors layer i =
      if i = x then g.neighbors layer x ++ [v]
      else if i = v then g.neighbors layer v ++ [x]
      else g.neighbors layer i := by
  rw [neighbors_connect_prune hne hx hv, prune_of_le]
  rw [List.length_append, List.length_singleton]
  omega

/-- No link takes a layer away. -/
theorem has_connect (hne : x ≠ v) (h : g.Has l i) :
    (connect m maxConn layer v g x).Has l i := by
  obtain ⟨node, hnode, hlt⟩ := h
  unfold Graph.Has
  rw [getElem?_connect hne, Option.mem_def.mp hnode]
  refine ⟨_, rfl, hlt.trans_le ?_⟩
  split
  · simp [Node.modifyLayer, Node.allocate]
  · split
    · simp [Node.modifyLayer]
    · exact le_rfl

end connect

/-! ### All links of a layer -/

section connects

variable [LinearOrder D] {xs : List ℕ}

theorem alike_connects : ∀ {g : Graph F}, (∀ x ∈ xs, x ≠ v) →
    Alike g (xs.foldl (connect m maxConn layer v) g) := by
  induction xs with
  | nil => exact fun _ => .refl _
  | cons x xs ih =>
    intro g hne
    have hrest := ih (g := connect m maxConn layer v g x) fun y hy =>
      hne y (List.mem_cons_of_mem x hy)
    exact (alike_connect (hne x List.mem_cons_self)).trans hrest

theorem has_connects : ∀ {g : Graph F}, (∀ x ∈ xs, x ≠ v) → g.Has l i →
    (xs.foldl (connect m maxConn layer v) g).Has l i := by
  induction xs with
  | nil => exact fun _ h => h
  | cons x xs ih =>
    intro g hne h
    exact ih (fun y hy => hne y (List.mem_cons_of_mem x hy))
      (has_connect (hne x List.mem_cons_self) h)

theorem neighbors_connects_of_ne (hl : l ≠ layer) : ∀ {g : Graph F}, (∀ x ∈ xs, x ≠ v) →
    ∀ i, (xs.foldl (connect m maxConn layer v) g).neighbors l i = g.neighbors l i := by
  induction xs with
  | nil => exact fun _ _ => rfl
  | cons x xs ih =>
    intro g hne i
    rw [List.foldl_cons, ih (fun y hy => hne y (List.mem_cons_of_mem x hy)),
      neighbors_connect_of_ne (hne x List.mem_cons_self) hl]

theorem mem_neighbors_connects : ∀ {g : Graph F}, (∀ x ∈ xs, x ≠ v) →
    j ∈ (xs.foldl (connect m maxConn layer v) g).neighbors layer i →
    j ∈ g.neighbors layer i ∨ i = v ∧ j ∈ xs ∨ i ∈ xs ∧ j = v := by
  induction xs with
  | nil => exact fun _ h => .inl h
  | cons x xs ih =>
    intro g hne h
    rcases ih (fun y hy => hne y (List.mem_cons_of_mem x hy)) h with h | ⟨hi, hj⟩ | ⟨hi, hj⟩
    · rcases mem_neighbors_connect (hne x List.mem_cons_self) h with h | ⟨hi, rfl⟩ | ⟨rfl, hj⟩
      · exact .inl h
      · exact .inr (.inl ⟨hi, List.mem_cons_self⟩)
      · exact .inr (.inr ⟨List.mem_cons_self, hj⟩)
    · exact .inr (.inl ⟨hi, List.mem_cons_of_mem x hj⟩)
    · exact .inr (.inr ⟨List.mem_cons_of_mem x hi, hj⟩)

/-- The neighbors after links for which there is room. -/
theorem neighbors_connects : ∀ {g : Graph F}, xs.Nodup → (∀ x ∈ xs, x ≠ v) →
    (∀ x ∈ xs, x < g.nodes.length ∧ (g.neighbors layer x).length < maxConn) → g.Has layer v →
    ∀ i, (xs.foldl (connect m maxConn layer v) g).neighbors layer i =
      if i = v then g.neighbors layer v ++ xs
      else if i ∈ xs then g.neighbors layer i ++ [v] else g.neighbors layer i := by
  induction xs with
  | nil =>
    intro g _ _ _ _ i
    split
    · next hi => rw [hi, List.append_nil]; rfl
    · rfl
  | cons x xs ih =>
    intro g hnodup hne hroom hv i
    obtain ⟨hx, hnodup⟩ := List.nodup_cons.mp hnodup
    have hxv := hne x List.mem_cons_self
    obtain ⟨hlt, hlength⟩ := hroom x List.mem_cons_self
    have hfirst := neighbors_connect (m := m) hxv hlt hv hlength
    have hstay : ∀ y ∈ xs, (connect m maxConn layer v g x).neighbors layer y =
        g.neighbors layer y := by
      intro y hy
      have hyx : y ≠ x := fun h => hx (h ▸ hy)
      rw [hfirst, if_neg hyx, if_neg (hne y (List.mem_cons_of_mem x hy))]
    have hrest := ih (g := connect m maxConn layer v g x) hnodup
      (fun y hy => hne y (List.mem_cons_of_mem x hy)) (fun y hy => by
        rw [(alike_connect hxv).length, hstay y hy]
        exact hroom y (List.mem_cons_of_mem x hy)) (has_connect hxv hv) i
    rw [List.foldl_cons, hrest]
    simp only [hfirst]
    by_cases hiv : i = v
    · subst hiv
      simp [hxv.symm]
    · by_cases hix : i = x
      · subst hix
        simp [hiv, hx]
      · simp [hiv, hix]

end connects

end NextgenDatabases.Hnsw
