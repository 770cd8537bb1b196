import NextgenDatabases.Hnsw.Exactness

/-!
# The structure of the graph

Whatever the calls, the levels and the number of nodes: the neighbors of a node on a layer are
different nodes that have the layer, no more than the configuration allows, and the entry point is
on the highest layer. Searches come to an end and return live nodes in the order of their
distances.
-/
namespace NextgenDatabases.Hnsw

variable {F D S : Type} {m : Metric F D S} {config : HnswConfig} {g g' : Graph F}
  {e : Embedding F} {l l' i j v x ep level : ℕ}

/-! ### Layers -/

/-- The level of the node is that of the layer or higher. -/
def Graph.OnLayer (g : Graph F) (l i : ℕ) : Prop := ∃ node ∈ g.nodes[i]?, l ≤ node.level

theorem Graph.OnLayer.lt (h : g.OnLayer l i) : i < g.nodes.length := by
  obtain ⟨node, hnode, -⟩ := h
  exact (List.getElem?_eq_some_iff.mp hnode).1

theorem Graph.OnLayer.mono (h : g.OnLayer l i) (hle : l' ≤ l) : g.OnLayer l' i := by
  obtain ⟨node, hnode, hl⟩ := h
  exact ⟨node, hnode, hle.trans hl⟩

theorem onLayer_iff : g.OnLayer l i ↔ ∃ k ∈ (g.nodes[i]?).map Node.level, l ≤ k := by
  simp [Graph.OnLayer]

theorem Alike.onLayer (h : Alike g g') : g'.OnLayer l i ↔ g.OnLayer l i := by
  rw [onLayer_iff, onLayer_iff, h.map_eq i Node.level fun _ => rfl]

theorem onLayer_push_of_lt (hi : i < g.nodes.length) :
    (g.push e level).OnLayer l i ↔ g.OnLayer l i := by
  rw [Graph.OnLayer, Graph.OnLayer, getElem?_push_of_lt g e level hi]

theorem onLayer_push_new (hl : l ≤ level) : (g.push e level).OnLayer l g.nodes.length := by
  simp [Graph.OnLayer, Graph.push, hl]

/-- What a change of a node keeps. -/
theorem map_modify {β : Type} (p : Node F → β) {f : Node F → Node F}
    (hp : ∀ node, p (f node) = p node) {nodes : List (Node F)} (k i : ℕ) :
    ((nodes.modify k f)[i]?).map p = (nodes[i]?).map p := by
  rw [List.getElem?_modify, Option.map_eq_map, Option.map_map]
  congr 1
  funext node
  simp only [Function.comp]
  split
  · exact hp node
  · rfl

/-- The neighbors on a layer are different other nodes that have the layer, and not too many. -/
structure Layered (config : HnswConfig) (g : Graph F) : Prop where
  layers : ∀ (i : ℕ) node, g.nodes[i]? = some node → node.neighbors.length = node.level + 1
  nodup : ∀ l i, (g.neighbors l i).Nodup
  bounded : ∀ l i, (g.neighbors l i).length ≤ capacity config l
  linked : ∀ l i, ∀ j ∈ g.neighbors l i, j ≠ i ∧ g.OnLayer l j

namespace Layered

theorem has (h : Layered config g) (hi : g.OnLayer l i) : g.Has l i := by
  obtain ⟨node, hnode, hl⟩ := hi
  exact ⟨node, hnode, by rw [h.layers i node hnode]; omega⟩

theorem empty_graph : Layered config ({} : Graph F) where
  layers i node hnode := by cases hnode
  nodup l i := List.nodup_nil
  bounded l i := Nat.zero_le _
  linked l i j hj := absurd hj List.not_mem_nil

/-- Other changes of a node. -/
theorem modify (h : Layered config g) {f : Node F → Node F}
    (hneighbors : ∀ node, (f node).neighbors = node.neighbors)
    (hlevel : ∀ node, (f node).level = node.level) (k : ℕ) :
    Layered config { g with nodes := g.nodes.modify k f } := by
  constructor
  · intro i node hnode
    dsimp only at hnode
    rw [List.getElem?_modify] at hnode
    obtain ⟨old, hold, rfl⟩ := Option.map_eq_some_iff.mp hnode
    split
    · rw [hneighbors, hlevel]
      exact h.layers i old hold
    · exact h.layers i old hold
  · intro l i
    rw [neighbors_modify hneighbors]
    exact h.nodup l i
  · intro l i
    rw [neighbors_modify hneighbors]
    exact h.bounded l i
  · intro l i j hj
    rw [neighbors_modify hneighbors] at hj
    obtain ⟨hne, hon⟩ := h.linked l i j hj
    refine ⟨hne, onLayer_iff.mpr ?_⟩
    rw [map_modify Node.level hlevel]
    exact onLayer_iff.mp hon

theorem push (h : Layered config g) (e : Embedding F) (level : ℕ) :
    Layered config (g.push e level) where
  layers i node hnode := by
    by_cases hi : i < g.nodes.length
    · rw [getElem?_push_of_lt g e level hi] at hnode
      exact h.layers i node hnode
    · rw [Graph.push, List.getElem?_append_right (Nat.not_lt.mp hi),
        List.getElem?_singleton] at hnode
      split at hnode
      · cases hnode
        exact List.length_replicate ..
      · cases hnode
  nodup l i := by
    rw [neighbors_push]
    exact h.nodup l i
  bounded l i := by
    rw [neighbors_push]
    exact h.bounded l i
  linked l i j hj := by
    rw [neighbors_push] at hj
    obtain ⟨hne, hon⟩ := h.linked l i j hj
    exact ⟨hne, (onLayer_push_of_lt hon.lt).mpr hon⟩

end Layered

/-! ### Links -/

section links

variable [LinearOrder D] {xs : List ℕ}

/-- A link with a node that has the layer, for which the new node has room. -/
theorem Layered.connect (h : Layered config g) (hne : x ≠ v) (hx : g.OnLayer l x)
    (hv : g.OnLayer l v) (hxv : x ∉ g.neighbors l v) (hvx : v ∉ g.neighbors l x)
    (hroom : (g.neighbors l v).length < capacity config l) :
    Layered config (connect m (capacity config l) l v g x) := by
  have halike : Alike g (Hnsw.connect m (capacity config l) l v g x) := alike_connect hne
  have hneighbors := @neighbors_connect_prune F D S m g l v x (capacity config l) _ hne hx.lt
    (h.has hv)
  have hother (l' i : ℕ) (hl : l' ≠ l) :
      (Hnsw.connect m (capacity config l) l v g x).neighbors l' i = g.neighbors l' i :=
    neighbors_connect_of_ne hne hl i
  constructor
  · intro i node hnode
    rw [getElem?_connect hne] at hnode
    obtain ⟨old, hold, rfl⟩ := Option.map_eq_some_iff.mp hnode
    have hlayers := h.layers i old hold
    split
    · next hi =>
      obtain ⟨node, hnode, hl⟩ := hi ▸ hx
      obtain rfl : old = node := Option.some.inj (hold.symm.trans hnode)
      simp only [Node.modifyLayer, Node.allocate, List.length_modify, List.length_append,
        List.length_replicate]
      omega
    · split
      · simpa [Node.modifyLayer] using hlayers
      · exact hlayers
  · intro l' i
    by_cases hl : l' = l
    · subst hl
      rw [hneighbors]
      split_ifs
      · exact prune_nodup ((List.nodup_append_comm.mp (List.nodup_cons.mpr ⟨hvx, h.nodup l' x⟩)))
      · exact List.nodup_append_comm.mp (List.nodup_cons.mpr ⟨hxv, h.nodup l' v⟩)
      · exact h.nodup l' i
    · rw [hother l' i hl]
      exact h.nodup l' i
  · intro l' i
    by_cases hl : l' = l
    · subst hl
      rw [hneighbors]
      split_ifs
      · exact length_prune_le
      · rw [List.length_append, List.length_singleton]
        exact hroom
      · exact h.bounded l' i
    · rw [hother l' i hl]
      exact h.bounded l' i
  · intro l' i j hj
    rw [halike.onLayer]
    by_cases hl : l' = l
    · subst hl
      rcases mem_neighbors_connect hne hj with hold | ⟨rfl, rfl⟩ | ⟨rfl, rfl⟩
      · exact h.linked l' i j hold
      · exact ⟨hne, hx⟩
      · exact ⟨hne.symm, hv⟩
    · rw [hother l' i hl] at hj
      exact h.linked l' i j hj

/-- All links of a new node on a layer. -/
theorem Layered.connects (hnodup : xs.Nodup) : ∀ {g : Graph F}, Layered config g →
    (∀ x ∈ xs, x ≠ v ∧ g.OnLayer l x) → g.OnLayer l v →
    (∀ x ∈ xs, x ∉ g.neighbors l v ∧ v ∉ g.neighbors l x) →
    (g.neighbors l v).length + xs.length ≤ capacity config l →
    Layered config (xs.foldl (Hnsw.connect m (capacity config l) l v) g) := by
  induction xs with
  | nil => exact fun h _ _ _ _ => h
  | cons x xs ih =>
    intro g h hxs hv hfresh hroom
    obtain ⟨hnotMem, hnodup⟩ := List.nodup_cons.mp hnodup
    obtain ⟨hne, hx⟩ := hxs x List.mem_cons_self
    obtain ⟨hxv, hvx⟩ := hfresh x List.mem_cons_self
    rw [List.length_cons] at hroom
    have halike : Alike g (Hnsw.connect m (capacity config l) l v g x) := alike_connect hne
    have hneighbors := @neighbors_connect_prune F D S m g l v x (capacity config l) _ hne hx.lt
      (h.has hv)
    have hnew : (Hnsw.connect m (capacity config l) l v g x).neighbors l v =
        g.neighbors l v ++ [x] := by rw [hneighbors, if_neg hne.symm, if_pos rfl]
    refine ih hnodup (h.connect hne hx hv hxv hvx (by omega)) (fun y hy => ?_)
      (halike.onLayer.mpr hv) (fun y hy => ?_) ?_
    · obtain ⟨hyv, hy⟩ := hxs y (List.mem_cons_of_mem x hy)
      exact ⟨hyv, halike.onLayer.mpr hy⟩
    · have hyx : y ≠ x := fun heq => hnotMem (heq ▸ hy)
      obtain ⟨hyv, -⟩ := hxs y (List.mem_cons_of_mem x hy)
      obtain ⟨hfrom, hto⟩ := hfresh y (List.mem_cons_of_mem x hy)
      rw [hnew, hneighbors, if_neg hyx, if_neg hyv]
      refine ⟨fun hmem => ?_, hto⟩
      rcases List.mem_append.mp hmem with hmem | hmem
      · exact hfrom hmem
      · exact hyx (List.mem_singleton.mp hmem)
    · rw [hnew, List.length_append, List.length_singleton]
      omega

end links

/-! ### Insertions -/

/-- An insertion before it comes to the layers below `l`: searches start from nodes that have the
next layer. -/
structure Growing (config : HnswConfig) (g added : Graph F) (l : ℕ) (s : Graph F × List ℕ) :
    Prop where
  alike : Alike added s.1
  layered : Layered config s.1
  start : Start (g.OnLayer (l - 1)) s.2
  below : ∀ l' < l, ∀ i, s.1.neighbors l' i = g.neighbors l' i

/-- What a new node adds to what the nodes are. -/
theorem map_push {β : Type} (p : Node F → β) :
    ((g.push e level).nodes[i]?).map p = if i = g.nodes.length then
      some (p ⟨e.id, e.vector, e.metadata, List.replicate (level + 1) [], level, false⟩)
    else (g.nodes[i]?).map p := by
  split
  · next hi =>
    rw [hi, Graph.push, List.getElem?_append_right le_rfl, Nat.sub_self]
    rfl
  · next hi =>
    by_cases hlt : i < g.nodes.length
    · rw [getElem?_push_of_lt g e level hlt]
    · rw [Graph.push, List.getElem?_append_right (Nat.not_lt.mp hlt),
        List.getElem?_eq_none_iff.mpr (Nat.not_lt.mp hlt), List.getElem?_singleton,
        if_neg (by omega)]

section growing

variable [LinearOrder D] {s : Graph F × List ℕ} {query : List F}

theorem Layered.confined (h : Layered config g) (hle : l' ≤ l) :
    Confined g (g.OnLayer l') l :=
  fun i _ j hj => (h.linked l i j hj).2.mono hle

theorem Growing.step (h : Layered config g) (hep : g.OnLayer l ep) (hl : l ≤ level)
    (hs : Growing config g (g.push e level) (l + 1) s) :
    Growing config g (g.push e level) l (connectLayer m config g.nodes.length ep s l) := by
  have hconfined : Confined s.1 (g.OnLayer l) l := by
    intro i hi j hj
    rw [hs.below l (Nat.lt_succ_self l)] at hj
    exact (h.linked l i j hj).2
  have hlt (i : ℕ) (hi : g.OnLayer l i) : i < s.1.nodes.length := by
    rw [hs.alike.length, length_push]
    exact Nat.lt_succ_of_lt hi.lt
  have hstart : Start (g.OnLayer l) s.2 := hs.start
  have hfound : Found m s.1 (s.1.vector g.nodes.length) config.efConstruction l s.2
      (nearest m config g.nodes.length l s) :=
    searchLayer_found hstart.nodup fun i hi => hlt i (hstart.mem i hi)
  have hon (x : ℕ) (hx : x ∈ (nearest m config g.nodes.length l s).map Prod.snd) :
      g.OnLayer l x := by
    obtain ⟨p, hp, rfl⟩ := List.mem_map.mp hx
    exact (searchLayer_confined hconfined hlt hstart hp).1
  have hselected (x : ℕ) (hx : x ∈ selectNeighbors (nearest m config g.nodes.length l s)
      (capacity config l)) : g.OnLayer l x := hon x (selectNeighbors_subset hx)
  have hne : ∀ x ∈ selectNeighbors (nearest m config g.nodes.length l s) (capacity config l),
      x ≠ g.nodes.length := fun x hx => (hselected x hx).lt.ne
  have hnone : g.neighbors l g.nodes.length = [] := by
    rw [neighbors_eq, List.getElem?_eq_none_iff.mpr le_rfl]
    rfl
  constructor
  · exact hs.alike.trans (alike_connects hne)
  · rw [connectLayer_fst]
    refine hs.layered.connects ?_ (fun x hx => ⟨hne x hx, ?_⟩) ?_ (fun x _ => ?_) ?_
    · exact ((List.take_sublist _ _).map Prod.snd).nodup hfound.distinct
    · rw [hs.alike.onLayer]
      exact (onLayer_push_of_lt (hselected x hx).lt).mpr (hselected x hx)
    · rw [hs.alike.onLayer]
      exact onLayer_push_new hl
    · rw [hs.below l (Nat.lt_succ_self l), hs.below l (Nat.lt_succ_self l), hnone]
      refine ⟨List.not_mem_nil, fun hmem => ?_⟩
      exact lt_irrefl _ (h.linked l x _ hmem).2.lt
    · rw [hs.below l (Nat.lt_succ_self l), hnone, selectNeighbors, List.length_map,
        List.length_nil, Nat.zero_add]
      exact List.length_take_le ..
  · rw [connectLayer_snd]
    split
    · exact .singleton (hep.mono (Nat.sub_le ..))
    · next hsome =>
      refine ⟨fun hnil => hsome ?_, hfound.distinct, fun x hx => (hon x hx).mono (Nat.sub_le ..)⟩
      rw [List.map_eq_nil_iff.mp hnil]
      rfl
  · intro l' hl' i
    rw [connectLayer_fst, neighbors_connects_of_ne hl'.ne hne, hs.below l' (Nat.lt_succ_of_lt hl')]

theorem Growing.foldl {t : ℕ} (h : Layered config g) (hep : g.OnLayer t ep) (ht : t ≤ level) :
    ∀ {s : Graph F × List ℕ}, Growing config g (g.push e level) (t + 1) s →
      Growing config g (g.push e level) 0 ((Graph.layersDown t 0).foldl
        (connectLayer m config g.nodes.length ep) s) := by
  induction t with
  | zero => exact fun hs => hs.step h hep ht
  | succ t ih =>
    intro s hs
    rw [layersDown_succ, List.foldl_cons]
    exact ih (hep.mono (Nat.le_succ t)) (Nat.le_of_succ_le ht) (hs.step h hep ht)

end growing

/-! ### Calls -/

/-- The graph between two calls. -/
structure Structured (config : HnswConfig) (g : Graph F) : Prop where
  layered : Layered config g
  empty : g.entryPoint = none → g.nodes = []
  entry : ∀ ep, g.entryPoint = some ep → (g.nodes[ep]?).map Node.level = some g.currentMaxLevel
  top : ∀ (i : ℕ) k, (g.nodes[i]?).map Node.level = some k → k ≤ g.currentMaxLevel
  idMap : ∀ id i, g.idMap id = some i ↔ (g.nodes[i]?).map Node.id = some id

namespace Structured

theorem empty_graph : Structured config ({} : Graph F) where
  layered := .empty_graph
  empty _ := rfl
  entry ep hep := by cases hep
  top i k hk := by cases hk
  idMap id i := by simp

/-- Changes of the vector, the metadata and the deletion mark. -/
theorem modify (h : Structured config g) {f : Node F → Node F}
    (hneighbors : ∀ node, (f node).neighbors = node.neighbors)
    (hlevel : ∀ node, (f node).level = node.level) (hid : ∀ node, (f node).id = node.id) (k : ℕ) :
    Structured config { g with nodes := g.nodes.modify k f } where
  layered := h.layered.modify hneighbors hlevel k
  empty hep := by
    dsimp only at hep ⊢
    rw [h.empty hep]
    cases k <;> rfl
  entry ep hep := by
    rw [map_modify Node.level hlevel]
    exact h.entry ep hep
  top i level hl := by
    rw [map_modify Node.level hlevel] at hl
    exact h.top i level hl
  idMap id i := by
    rw [map_modify Node.id hid]
    exact h.idMap id i

theorem delete (h : Structured config g) (id : String) : Structured config (g.delete id) := by
  unfold Graph.delete
  split
  · exact h
  · refine h.modify (fun node => ?_) (fun node => ?_) (fun node => ?_) _
    · rfl
    · rfl
    · rfl

section push

variable (h : Structured config g) (hnew : g.idMap e.id = none)
include h hnew

theorem idMap_push (halike : Alike (g.push e level) g') (id : String) (i : ℕ) :
    g'.idMap id = some i ↔ (g'.nodes[i]?).map Node.id = some id := by
  rw [halike.idMap, halike.map_eq i Node.id fun _ => rfl, map_push, Graph.push]
  dsimp only
  by_cases hid : id = e.id
  · subst hid
    rw [Function.update_self]
    split
    · next hi => simp [hi]
    · next hi =>
      rw [← h.idMap, hnew]
      simp [Ne.symm hi]
  · rw [Function.update_of_ne hid]
    split
    · next hi =>
      rw [h.idMap, hi, List.getElem?_eq_none_iff.mpr le_rfl]
      simp [Ne.symm hid]
    · exact h.idMap id i

/-- The new node is not above the others. -/
theorem below (halike : Alike (g.push e level) g') (hlayered : Layered config g')
    (hep : g.entryPoint = some ep) (hle : level ≤ g.currentMaxLevel) : Structured config g' where
  layered := hlayered
  empty hnone := by
    rw [halike.entryPoint, Graph.push, hep] at hnone
    cases hnone
  entry ep' hep' := by
    rw [halike.entryPoint] at hep'
    rw [halike.map_eq ep' Node.level fun _ => rfl, halike.currentMaxLevel, map_push]
    have hentry := h.entry ep' hep'
    rw [if_neg ?_]
    · exact hentry
    · rintro rfl
      rw [List.getElem?_eq_none_iff.mpr le_rfl] at hentry
      cases hentry
  top i k hk := by
    rw [halike.map_eq i Node.level fun _ => rfl, map_push] at hk
    rw [halike.currentMaxLevel]
    split at hk
    · cases hk
      exact hle
    · exact h.top i k hk
  idMap := h.idMap_push hnew halike

/-- The new node is the entry point. -/
theorem above (halike : Alike (g.push e level) g') (hlayered : Layered config g')
    (hle : ∀ (i : ℕ) k, (g.nodes[i]?).map Node.level = some k → k ≤ level) :
    Structured config
      { g' with
        entryPoint := some g.nodes.length
        currentMaxLevel := level } where
  layered := ⟨hlayered.layers, hlayered.nodup, hlayered.bounded, hlayered.linked⟩
  empty hnone := by cases hnone
  entry ep hep := by
    obtain rfl : g.nodes.length = ep := Option.some.inj hep
    rw [halike.map_eq _ Node.level fun _ => rfl, map_push, if_pos rfl]
  top i k hk := by
    rw [halike.map_eq i Node.level fun _ => rfl, map_push] at hk
    split at hk
    · cases hk
      exact le_rfl
    · exact hle i k hk
  idMap := by
    have hids := h.idMap_push hnew halike
    exact hids

end push

theorem insert [LinearOrder D] (h : Structured config g) (e : Embedding F) (level : ℕ) :
    Structured config (g.insert m config e level) := by
  unfold Graph.insert
  split
  · refine h.modify (fun node => ?_) (fun node => ?_) (fun node => ?_) _
    · rfl
    · rfl
    · rfl
  · next hnew =>
    have hpush := h.layered.push e level
    dsimp only
    split
    · next hep =>
      refine h.above hnew (.refl _) hpush fun i k hk => ?_
      rw [h.empty hep] at hk
      cases hk
    · next ep hep =>
      have hentry := h.entry ep hep
      have hon (l : ℕ) (hl : l ≤ g.currentMaxLevel) : g.OnLayer l ep :=
        onLayer_iff.mpr ⟨g.currentMaxLevel, hentry, hl⟩
      have hstart : Start (g.OnLayer (min level g.currentMaxLevel))
          (descend m (g.push e level) e.vector [ep]
            (Graph.layersDown g.currentMaxLevel (level + 1))) := by
        refine descend_start (fun l hl i hi j hj => ?_) (fun i hi => ?_)
          (.singleton (hon _ (min_le_right ..)))
        · have hle : min level g.currentMaxLevel ≤ l := by
            simp only [Graph.layersDown, List.mem_reverse, List.mem_range'_1] at hl
            omega
          rw [neighbors_push] at hj
          exact h.layered.confined hle i hi j hj
        · rw [length_push]
          exact Nat.lt_succ_of_lt hi.lt
      have hgrowing : Growing config g (g.push e level) (min level g.currentMaxLevel + 1)
          (g.push e level, descend m (g.push e level) e.vector [ep]
            (Graph.layersDown g.currentMaxLevel (level + 1))) :=
        ⟨.refl _, hpush, hstart, fun l _ i => neighbors_push g e level⟩
      have hgrown := @Growing.foldl F D S m config g e ep level _ _ h.layered
        (hon _ (min_le_right ..)) (min_le_left ..) _ hgrowing
      split
      · next hlt =>
        exact h.above hnew hgrown.alike hgrown.layered fun i k hk => (h.top i k hk).trans hlt.le
      · next hge =>
        exact h.below hnew hgrown.alike hgrown.layered hep (Nat.not_lt.mp hge)

end Structured

/-! ### Searches that come to an end -/

section within

variable [LinearOrder D] (m : Metric F D S) (g : Graph F) (query : List F) (ef layer : ℕ)

/-- The loop over the candidates, if it ends within so many rounds. -/
def expandWithin : ℕ → Beam D → Option (Beam D)
  | 0, _ => none
  | rounds + 1, b =>
    match b.candidates with
    | [] => some b
    | (dist, idx) :: rest =>
      if furthestDist m b.results < dist ∧ ef ≤ b.results.length then some b
      else
        expandWithin rounds
          ((g.neighbors layer idx).foldl (visit m g query ef) { b with candidates := rest })

def searchLayerWithin (rounds : ℕ) (entryPoints : List ℕ) : Option (List (D × ℕ)) :=
  (expandWithin m g query ef layer rounds (entryPoints.foldl (enter m g query) {})).map fun b =>
    (m.intoIter b.results).insertionSort fun a b => a.1 ≤ b.1

def descendWithin (rounds : ℕ) (entryPoints layers : List ℕ) : Option (List ℕ) :=
  layers.foldlM (fun eps l => (searchLayerWithin m g query 1 l rounds eps).map fun nearest =>
    match nearest with
    | [] => eps
    | (_, idx) :: _ => [idx]) entryPoints

def Graph.searchWithin (k efSearch rounds : ℕ) : Option (List (D × ℕ)) :=
  match g.entryPoint with
  | none => some []
  | some ep => do
    let eps ← descendWithin m g query rounds [ep] (layersDown g.currentMaxLevel 1)
    let results ← searchLayerWithin m g query (max efSearch k) 0 rounds eps
    return results.take k

/-- `search`, if the loop of each layer ends within so many rounds. -/
def HnswVectorStore.searchWithin (s : HnswVectorStore F) (k rounds : ℕ) :
    Option (Except VectorError (List (SearchResult S))) :=
  if query.length ≠ s.dimension then
    some (.error (.dimensionMismatch s.dimension query.length))
  else
    (s.graph.searchWithin m query k s.config.efSearch rounds).map fun results =>
      .ok (results.filterMap fun r =>
        (s.graph.nodes[r.2]?).map fun node => ⟨node.id, m.distanceToScore r.1⟩)

variable {m g query ef layer} {rounds : ℕ} {eps layers : List ℕ}

theorem expandWithin_eq {fuel : ℕ} : ∀ {rounds : ℕ} {b : Beam D}, Held m g query ef b →
    b.candidates.length + (g.nodes.length - b.visited.length) ≤ fuel →
    b.candidates.length + (g.nodes.length - b.visited.length) < rounds →
    expandWithin m g query ef layer rounds b = some (expand m g query ef layer fuel b) := by
  induction fuel with
  | zero =>
    intro rounds b h hfuel hrounds
    have hnil : b.candidates = [] := List.length_eq_zero_iff.mp (by omega)
    obtain ⟨rounds, rfl⟩ := Nat.exists_eq_succ_of_ne_zero (Nat.ne_zero_of_lt hrounds)
    rw [expandWithin, hnil]
    rfl
  | succ fuel ih =>
    intro rounds b h hfuel hrounds
    obtain ⟨rounds, rfl⟩ := Nat.exists_eq_succ_of_ne_zero (Nat.ne_zero_of_lt hrounds)
    rw [expandWithin, expand]
    cases hcandidates : b.candidates with
    | nil => rfl
    | cons p rest =>
      obtain ⟨hv, hlt⟩ := h.leave hcandidates rfl
      dsimp only
      split
      · rfl
      · exact ih hv.held (by omega) (by omega)

theorem searchLayerWithin_eq (hnodup : eps.Nodup) (hrounds : eps.length + g.nodes.length < rounds) :
    searchLayerWithin m g query ef layer rounds eps =
      some (searchLayer m g query ef layer eps) := by
  obtain ⟨hv, hfuel⟩ := @visits_enter_all F D S m g query ef _ _ hnodup
  rw [searchLayerWithin, expandWithin_eq hv.held hfuel (hfuel.trans_lt hrounds)]
  rfl

/-- With more rounds than twice the number of nodes, every descent comes to an end. -/
theorem descendWithin_eq {K : ℕ → Prop} (hK : ∀ l ∈ layers, Confined g K l)
    (hlt : ∀ i, K i → i < g.nodes.length) (hs : Start K eps)
    (hrounds : 2 * g.nodes.length < rounds) :
    descendWithin m g query rounds eps layers = some (descend m g query eps layers) := by
  induction layers generalizing eps with
  | nil => rfl
  | cons l layers ih =>
    have hle := Foundations.length_le_of_nodup_of_lt hs.nodup fun i hi => hlt i (hs.mem i hi)
    have hfirst := @searchLayerWithin_eq F D S _ m g query 1 l rounds eps hs.nodup (by omega)
    have hnext : Start K (descend m g query eps [l]) :=
      descend_start (fun l' hl' => hK l' (List.mem_singleton.mp hl' ▸ List.mem_cons_self)) hlt hs
    rw [descendWithin, List.foldlM_cons, hfirst]
    exact ih (fun l' hl' => hK l' (List.mem_cons_of_mem l hl')) hnext

end within

/-! ### Answers -/

section answers

variable [LinearOrder D] {dimension k : ℕ} {query : List F} {s : HnswVectorStore F}

/-- The results are different stored embeddings in the order of their distances, `k` at most. -/
structure Answers (m : Metric F D S) (s : HnswVectorStore F) (query : List F) (k : ℕ)
    (results : List (SearchResult S)) : Prop where
  count : results.length ≤ k
  distinct : (results.map SearchResult.id).Nodup
  ordered : ∃ es : List (Embedding F), (∀ e ∈ es, s.get e.id = some e) ∧
    (es.Pairwise fun a b => m.distance query a.vector ≤ m.distance query b.vector) ∧
    results = es.map fun e => ⟨e.id, m.distanceToScore (m.distance query e.vector)⟩

/-- What a node stores. -/
def Node.embedding (node : Node F) : Embedding F := ⟨node.id, node.vector, node.metadata⟩

theorem Structured.get_live (h : Structured config g) {node : Node F}
    (hnode : g.nodes[i]? = some node) (hlive : g.Live i) :
    g.get node.id = some node.embedding := by
  obtain ⟨node', hnode', hdeleted⟩ := hlive
  obtain rfl : node = node' := Option.some.inj (hnode.symm.trans hnode')
  have hmap : g.idMap node.id = some i := by rw [h.idMap, hnode]; rfl
  rw [Graph.get, hmap, Option.bind_some, hnode, Option.bind_some, hdeleted]
  rfl

/-- Sorted live nodes give sorted embeddings. -/
theorem Structured.answers (h : Structured config s.graph) {found : List (D × ℕ)}
    (hcount : found.length ≤ k) (hsorted : found.Pairwise fun a b => a.1 ≤ b.1)
    (hdistinct : (found.map Prod.snd).Nodup)
    (hsound : ∀ p ∈ found, s.graph.Live p.2 ∧ p.1 = m.distance query (s.graph.vector p.2)) :
    Answers m s query k (found.filterMap fun r =>
      (s.graph.nodes[r.2]?).map fun node => ⟨node.id, m.distanceToScore r.1⟩) := by
  have hresults : (found.filterMap fun r : D × ℕ =>
      (s.graph.nodes[r.2]?).map fun node =>
        (⟨node.id, m.distanceToScore r.1⟩ : SearchResult S)) =
      (found.filterMap fun r : D × ℕ => (s.graph.nodes[r.2]?).map Node.embedding).map
        fun e => ⟨e.id, m.distanceToScore (m.distance query e.vector)⟩ := by
    rw [List.map_filterMap]
    refine List.filterMap_congr fun p hp => ?_
    cases hnode : s.graph.nodes[p.2]? with
    | none => rfl
    | some node =>
      rw [(hsound p hp).2, vector_eq hnode]
      rfl
  have hnames : (found.filterMap fun r : D × ℕ =>
      (s.graph.nodes[r.2]?).map Node.embedding).Pairwise fun a b => a.id ≠ b.id := by
    refine List.pairwise_filterMap.mpr ((List.pairwise_map.mp hdistinct).imp fun hne => ?_)
    intro a ha b hb hid
    obtain ⟨node, hnode, rfl⟩ := Option.map_eq_some_iff.mp ha
    obtain ⟨node', hnode', rfl⟩ := Option.map_eq_some_iff.mp hb
    have hidMap := (h.idMap node.id _).mpr (by rw [hnode]; rfl)
    have hidMap' := (h.idMap node'.id _).mpr (by rw [hnode']; rfl)
    have hsame : node.id = node'.id := hid
    rw [hsame, hidMap'] at hidMap
    exact hne (Option.some.inj hidMap).symm
  constructor
  · exact (List.length_filterMap_le _ _).trans hcount
  · rw [hresults, List.map_map]
    exact List.pairwise_map.mpr hnames
  · refine ⟨_, fun e he => ?_, ?_, hresults⟩
    · obtain ⟨p, hp, hstored⟩ := List.mem_filterMap.mp he
      obtain ⟨node, hnode, rfl⟩ := Option.map_eq_some_iff.mp hstored
      exact h.get_live hnode (hsound p hp).1
    · refine List.pairwise_filterMap.mpr (hsorted.imp_of_mem fun hp hp' hle => ?_)
      intro a ha b hb
      obtain ⟨node, hnode, rfl⟩ := Option.map_eq_some_iff.mp ha
      obtain ⟨node', hnode', rfl⟩ := Option.map_eq_some_iff.mp hb
      rw [(hsound _ hp).2, (hsound _ hp').2, vector_eq hnode, vector_eq hnode'] at hle
      exact hle

/-- A search comes to an end with a sound answer. -/
theorem Structured.search (h : Structured config s.graph) (hquery : query.length = s.dimension)
    (k : ℕ) : ∃ results, s.search m query k = .ok results ∧ Answers m s query k results ∧
      ∀ rounds > 2 * s.graph.nodes.length + 1,
        s.searchWithin m query k rounds = some (.ok results) := by
  rw [HnswVectorStore.search, if_neg (not_not.mpr hquery)]
  simp only [HnswVectorStore.searchWithin, if_neg (not_not.mpr hquery)]
  cases hep : s.graph.entryPoint with
  | none =>
    have hnil : s.graph.search m query k s.config.efSearch = [] := by rw [Graph.search, hep]
    refine ⟨_, rfl, ?_, fun rounds _ => ?_⟩
    · rw [hnil]
      exact h.answers (Nat.zero_le _) .nil List.nodup_nil fun p hp => absurd hp List.not_mem_nil
    · rw [hnil, Graph.searchWithin, hep]
      rfl
  | some ep =>
    have hlt : ep < s.graph.nodes.length := by
      obtain ⟨node, hnode, -⟩ := Option.map_eq_some_iff.mp (h.entry ep hep)
      exact (List.getElem?_eq_some_iff.mp hnode).1
    have hconfined (l : ℕ) : Confined s.graph (fun i => i < s.graph.nodes.length) l :=
      fun i _ j hj => (h.layered.linked l i j hj).2.lt
    have hstart := @descend_start F D S m s.graph _ (fun i => i < s.graph.nodes.length) query [ep]
      (Graph.layersDown s.graph.currentMaxLevel 1) (fun l _ => hconfined l) (fun _ hi => hi)
      (.singleton hlt)
    have hle := Foundations.length_le_of_nodup_of_lt hstart.nodup hstart.mem
    have hfound := @searchLayer_found F D S m s.graph query (max s.config.efSearch k) 0 _ _
      hstart.nodup hstart.mem
    refine ⟨_, rfl, ?_, fun rounds hrounds => ?_⟩
    · rw [Graph.search, hep]
      refine h.answers (List.length_take_le ..)
        (searchLayer_sorted.sublist (List.take_sublist ..)) ?_ fun p hp => ?_
      · exact ((List.take_sublist ..).map Prod.snd).nodup hfound.distinct
      · exact (hfound.sound p (List.mem_of_mem_take hp)).2
    · have hdescend := @descendWithin_eq F D S _ m s.graph query rounds [ep]
        (Graph.layersDown s.graph.currentMaxLevel 1) _ (fun l _ => hconfined l) (fun _ hi => hi)
        (.singleton hlt) (by omega)
      rw [Graph.searchWithin, Graph.search, hep]
      dsimp only
      rw [hdescend, Option.bind_eq_bind, Option.bind_some,
        searchLayerWithin_eq hstart.nodup (by omega)]
      rfl

/-! ### Runs -/

/-- The store between two calls. -/
structure Maintained (config : HnswConfig) (dimension : ℕ) (s : HnswVectorStore F) : Prop where
  config_eq : s.config = config
  dimension_eq : s.dimension = dimension
  structured : Structured config s.graph

theorem Maintained.call (h : Maintained config dimension s) (c : Call F) :
    Maintained config dimension (s.call m c) := by
  cases c with
  | delete id => exact ⟨h.config_eq, h.dimension_eq, h.structured.delete id⟩
  | upsert e level =>
    rw [HnswVectorStore.call, HnswVectorStore.upsert]
    split
    · exact h
    · refine ⟨h.config_eq, h.dimension_eq, ?_⟩
      rw [h.config_eq]
      exact h.structured.insert e level

theorem maintained_run (m : Metric F D S) (config : HnswConfig) (dimension : ℕ)
    (calls : List (Call F)) : Maintained config dimension (run m config dimension calls) := by
  induction calls using List.reverseRecOn with
  | nil => exact ⟨rfl, rfl, .empty_graph⟩
  | append_singleton calls c ih =>
    rw [run, List.foldl_concat]
    exact ih.call c

/-- After any calls, with any levels, the graph has its structure, and every search comes to an end
with different stored identifiers in the order of their distances. -/
theorem structure_and_searches (m : Metric F D S) (config : HnswConfig) (dimension : ℕ)
    (calls : List (Call F)) : Structured config (run m config dimension calls).graph ∧
      ∀ query k, query.length = dimension → ∃ results,
        (run m config dimension calls).search m query k = .ok results ∧
        Answers m (run m config dimension calls) query k results ∧
        ∀ rounds > 2 * (run m config dimension calls).graph.nodes.length + 1,
          (run m config dimension calls).searchWithin m query k rounds = some (.ok results) := by
  have h := maintained_run m config dimension calls
  refine ⟨h.structured, fun query k hquery => ?_⟩
  rw [← h.dimension_eq] at hquery
  exact h.structured.search hquery k

end answers

/-- A search among three nodes, of which the one between is deleted. -/
theorem structure_and_searches_deletedBetween : ∃ results,
    (run taxicab .three 1 deletedBetween).search taxicab [2] 2 = .ok results ∧
    Answers taxicab (run taxicab .three 1 deletedBetween) [2] 2 results := by
  obtain ⟨results, hresults, hanswers, -⟩ :=
    (structure_and_searches taxicab .three 1 deletedBetween).2 [2] 2 rfl
  exact ⟨results, hresults, hanswers⟩

end NextgenDatabases.Hnsw
