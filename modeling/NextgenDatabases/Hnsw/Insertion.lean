import NextgenDatabases.Hnsw.Links

/-!
# What an insertion links

Links on the upper layers stay among nodes that the bottom layer joins. A new node is joined
to the nodes that the entry point leads to exactly when one of them is alive.
-/
namespace NextgenDatabases.Hnsw

open Foundations (Reached)

variable {F D S : Type} {m : Metric F D S} {config : HnswConfig} {g : Graph F}
  {l i j v ep : ℕ}

/-! ### Joined nodes -/

/-- The bottom layer leads from one node to the other. -/
def Joined (g : Graph F) : ℕ → ℕ → Prop :=
  Relation.ReflTransGen fun i j => j ∈ g.neighbors 0 i

/-- The links of a graph between two calls. -/
structure Wired (g : Graph F) : Prop where
  inRange : ∀ l i, ∀ j ∈ g.neighbors l i, j < g.nodes.length
  symm : ∀ i, ∀ j ∈ g.neighbors 0 i, i ∈ g.neighbors 0 j
  nodup : ∀ i, (g.neighbors 0 i).Nodup
  irrefl : ∀ i, i ∉ g.neighbors 0 i
  joined : ∀ l i, ∀ j ∈ g.neighbors l i, Joined g i j

theorem lt_of_mem_neighbors (h : j ∈ g.neighbors l i) : i < g.nodes.length := by
  by_contra hge
  rw [neighbors_eq, List.getElem?_eq_none_iff.mpr (Nat.not_lt.mp hge)] at h
  exact absurd h List.not_mem_nil

namespace Wired

theorem joined_symm (h : Wired g) (hij : Joined g i j) : Joined g j i := by
  induction hij with
  | refl => exact .refl
  | tail _ hedge ih => exact ih.head (h.symm _ _ hedge)

theorem joined_lt (h : Wired g) (hi : i < g.nodes.length) (hij : Joined g i j) :
    j < g.nodes.length := by
  induction hij with
  | refl => exact hi
  | tail _ hedge _ => exact h.inRange _ _ _ hedge

/-- A node has at most all other nodes as its neighbors. -/
theorem length_neighbors_lt (h : Wired g) (hi : i < g.nodes.length) :
    (g.neighbors 0 i).length < g.nodes.length := by
  have hle := Foundations.length_le_of_nodup_of_lt
    (List.nodup_cons.mpr ⟨h.irrefl i, h.nodup i⟩) (n := g.nodes.length) (by
      intro j hj
      rcases List.mem_cons.mp hj with rfl | hj
      · exact hi
      · exact h.inRange 0 i j hj)
  rwa [List.length_cons] at hle

end Wired

/-! ### A new node -/

section push

variable (g : Graph F) (e : Embedding F) (level : ℕ)

theorem getElem?_push_of_lt (hi : i < g.nodes.length) :
    (g.push e level).nodes[i]? = g.nodes[i]? := List.getElem?_append_left hi

theorem length_push : (g.push e level).nodes.length = g.nodes.length + 1 := by
  simp [Graph.push]

/-- The new node has no neighbors. -/
theorem neighbors_push : (g.push e level).neighbors l i = g.neighbors l i := by
  by_cases hi : i < g.nodes.length
  · rw [neighbors_eq, neighbors_eq, getElem?_push_of_lt g e level hi]
  · have hnone : g.nodes[i]? = none := List.getElem?_eq_none_iff.mpr (Nat.not_lt.mp hi)
    rw [neighbors_eq, neighbors_eq, hnone]
    simp only [Graph.push, List.getElem?_append_right (Nat.not_lt.mp hi)]
    cases hnew : i - g.nodes.length with
    | zero =>
      simp only [List.getElem?_cons_zero, Option.map_some, Option.getD_some, Node.onLayer,
        List.getElem?_replicate]
      split <;> rfl
    | succ k => rfl

theorem live_push_of_lt (hi : i < g.nodes.length) : (g.push e level).Live i ↔ g.Live i := by
  unfold Graph.Live
  rw [getElem?_push_of_lt g e level hi]

theorem has_push : (g.push e level).Has 0 g.nodes.length := by
  simp [Graph.Has, Graph.push]

end push

/-! ### Searches stay where they start -/

/-- The layer does not lead out of a set of nodes. -/
def Confined (g : Graph F) (K : ℕ → Prop) (l : ℕ) : Prop :=
  ∀ i, K i → ∀ j ∈ g.neighbors l i, K j

/-- A search may start from these nodes. -/
structure Start (K : ℕ → Prop) (eps : List ℕ) : Prop where
  ne_nil : eps ≠ []
  nodup : eps.Nodup
  mem : ∀ e ∈ eps, K e

theorem Start.singleton {K : ℕ → Prop} (h : K i) : Start K [i] :=
  ⟨List.cons_ne_nil _ _, List.nodup_singleton i, fun _ he => List.mem_singleton.mp he ▸ h⟩

section search

variable [LinearOrder D] {K : ℕ → Prop} {query : List F} {ef : ℕ} {eps layers : List ℕ}

theorem searchLayer_confined (hK : Confined g K l) (hlt : ∀ i, K i → i < g.nodes.length)
    (hs : Start K eps) {p : D × ℕ} (hp : p ∈ searchLayer m g query ef l eps) :
    K p.2 ∧ g.Live p.2 := by
  have hfound : Found m g query ef l eps (searchLayer m g query ef l eps) :=
    searchLayer_found hs.nodup fun e he => hlt e (hs.mem e he)
  obtain ⟨hreached, hlive, -⟩ := hfound.sound p hp
  exact ⟨hreached.induction hs.mem fun i j hi hj => hK i hi j (Graph.mem_next.mp hj).1, hlive⟩

theorem descend_start (hK : ∀ l ∈ layers, Confined g K l) (hlt : ∀ i, K i → i < g.nodes.length)
    (hs : Start K eps) : Start K (descend m g query eps layers) := by
  induction layers generalizing eps with
  | nil => exact hs
  | cons l layers ih =>
    refine ih (fun l' hl' => hK l' (List.mem_cons_of_mem l hl')) ?_
    dsimp only
    split
    · exact hs
    · next dist idx rest hresults =>
      have hmem : (dist, idx) ∈ searchLayer m g query 1 l eps := hresults ▸ List.mem_cons_self
      exact .singleton (searchLayer_confined (hK l List.mem_cons_self) hlt hs hmem).1

end search

/-! ### Layer by layer -/

/-- An insertion before it comes to the layers below `l`: links of the new node lead to live
nodes that the entry point is joined to, and searches start from such nodes. -/
structure Linking (g added : Graph F) (ep l : ℕ) (s : Graph F × List ℕ) : Prop where
  alike : Alike added s.1
  start : Start (Joined g ep) s.2
  below : ∀ l' < l, ∀ i, s.1.neighbors l' i = g.neighbors l' i
  links : ∀ l' i, ∀ j ∈ s.1.neighbors l' i, j ∈ g.neighbors l' i ∨
    i = g.nodes.length ∧ Joined g ep j ∧ g.Live j ∨ j = g.nodes.length ∧ Joined g ep i ∧ g.Live i
  layered : s.1.Has 0 g.nodes.length

theorem selectNeighbors_subset {candidates : List (D × ℕ)} {count x : ℕ}
    (hx : x ∈ selectNeighbors candidates count) : x ∈ candidates.map Prod.snd :=
  ((List.take_sublist count candidates).map Prod.snd).subset hx

section linking

variable [LinearOrder D] {e : Embedding F} {level : ℕ} {s : Graph F × List ℕ}

/-- What the search of a layer finds for the new node. -/
def nearest (m : Metric F D S) (config : HnswConfig) (v l : ℕ) (s : Graph F × List ℕ) :
    List (D × ℕ) :=
  searchLayer m s.1 (s.1.vector v) config.efConstruction l s.2

/-- How many neighbors a node may have on a layer. -/
def capacity (config : HnswConfig) (l : ℕ) : ℕ :=
  if l = 0 then config.maxConnectionsLayer0 else config.maxConnections

theorem connectLayer_fst : (connectLayer m config v ep s l).1 =
    (selectNeighbors (nearest m config v l s) (capacity config l)).foldl
      (connect m (capacity config l) l v) s.1 := rfl

theorem connectLayer_snd : (connectLayer m config v ep s l).2 =
    if (nearest m config v l s).isEmpty then [ep]
    else (nearest m config v l s).map Prod.snd := rfl

theorem confined_of_below (hw : Wired g) (h : Linking g (g.push e level) ep (l + 1) s) :
    Confined s.1 (Joined g ep) l := by
  intro i hi j hj
  rw [h.below l (Nat.lt_succ_self l)] at hj
  exact hi.trans (hw.joined l i j hj)

theorem Linking.found (hw : Wired g) (hep : ep < g.nodes.length)
    (h : Linking g (g.push e level) ep (l + 1) s) {x : ℕ}
    (hx : x ∈ (nearest m config g.nodes.length l s).map Prod.snd) :
    Joined g ep x ∧ g.Live x ∧ x < g.nodes.length := by
  obtain ⟨p, hp, rfl⟩ := List.mem_map.mp hx
  have hlt (i : ℕ) (hi : Joined g ep i) : i < s.1.nodes.length := by
    rw [h.alike.length, length_push]
    exact Nat.lt_succ_of_lt (hw.joined_lt hep hi)
  obtain ⟨hjoined, hlive⟩ := searchLayer_confined (confined_of_below hw h) hlt h.start hp
  have hbound := hw.joined_lt hep hjoined
  rw [h.alike.live, live_push_of_lt g e level hbound] at hlive
  exact ⟨hjoined, hlive, hbound⟩

theorem Linking.step (hw : Wired g) (hep : ep < g.nodes.length)
    (h : Linking g (g.push e level) ep (l + 1) s) :
    Linking g (g.push e level) ep l (connectLayer m config g.nodes.length ep s l) := by
  have hselected (x : ℕ) (hx : x ∈ selectNeighbors (nearest m config g.nodes.length l s)
      (capacity config l)) : Joined g ep x ∧ g.Live x ∧ x < g.nodes.length :=
    h.found hw hep (selectNeighbors_subset hx)
  have hne : ∀ x ∈ selectNeighbors (nearest m config g.nodes.length l s) (capacity config l),
      x ≠ g.nodes.length := fun x hx => (hselected x hx).2.2.ne
  constructor
  · exact h.alike.trans (alike_connects hne)
  · rw [connectLayer_snd]
    split
    · exact .singleton .refl
    · next hsome =>
      have hnodup : ((nearest m config g.nodes.length l s).map Prod.snd).Nodup := by
        refine (searchLayer_found h.start.nodup fun i hi => ?_).distinct
        rw [h.alike.length, length_push]
        exact Nat.lt_succ_of_lt (hw.joined_lt hep (h.start.mem i hi))
      refine ⟨fun hnil => hsome ?_, hnodup, fun x hx => (h.found hw hep hx).1⟩
      rw [List.map_eq_nil_iff.mp hnil]
      rfl
  · intro l' hl' i
    rw [connectLayer_fst, neighbors_connects_of_ne hl'.ne hne, h.below l' (Nat.lt_succ_of_lt hl')]
  · intro l' i j hj
    by_cases hl : l' = l
    · subst hl
      rcases mem_neighbors_connects hne hj with hold | ⟨hi, hj⟩ | ⟨hi, hj⟩
      · exact h.links l' i j hold
      · exact .inr (.inl ⟨hi, (hselected j hj).1, (hselected j hj).2.1⟩)
      · exact .inr (.inr ⟨hj, (hselected i hi).1, (hselected i hi).2.1⟩)
    · rw [connectLayer_fst, neighbors_connects_of_ne hl hne] at hj
      exact h.links l' i j hj
  · exact has_connects hne h.layered

/-- On the bottom layer the new node is linked to every live node that the entry point is
joined to. -/
theorem Linking.bottom (hw : Wired g) (hep : ep < g.nodes.length)
    (hroom : g.nodes.length ≤ config.maxConnectionsLayer0)
    (hef : g.nodes.length + 1 ≤ config.efConstruction)
    (h : Linking g (g.push e level) ep 1 s) :
    ∃ selected : List ℕ, selected.Nodup ∧ (∀ i, i ∈ selected ↔ Joined g ep i ∧ g.Live i) ∧
      ∀ i, (connectLayer m config g.nodes.length ep s 0).1.neighbors 0 i =
        if i = g.nodes.length then selected
        else if i ∈ selected then g.neighbors 0 i ++ [g.nodes.length] else g.neighbors 0 i := by
  have hlength : s.1.nodes.length = g.nodes.length + 1 := by rw [h.alike.length, length_push]
  have hfound : Found m s.1 (s.1.vector g.nodes.length) config.efConstruction 0 s.2
      (nearest m config g.nodes.length 0 s) := by
    refine searchLayer_found h.start.nodup fun i hi => ?_
    rw [hlength]
    exact Nat.lt_succ_of_lt (hw.joined_lt hep (h.start.mem i hi))
  have hmem (i : ℕ) : i ∈ (nearest m config g.nodes.length 0 s).map Prod.snd ↔
      Joined g ep i ∧ g.Live i := by
    constructor
    · intro hi
      obtain ⟨hjoined, hlive, -⟩ := h.found hw hep hi
      exact ⟨hjoined, hlive⟩
    · rintro ⟨hjoined, hlive⟩
      obtain ⟨k, hk⟩ := List.exists_mem_of_ne_nil _ h.start.ne_nil
      -- the searches start from a node that the entry point is joined to, and so does the way back
      have hpath : Joined g k i := (hw.joined_symm (h.start.mem k hk)).trans hjoined
      have hedge (a b : ℕ) (hb : b ∈ g.neighbors 0 a) : b ∈ s.1.next 0 a := by
        rw [Graph.mem_next, h.below 0 Nat.one_pos, hlength]
        exact ⟨hb, Nat.lt_succ_of_lt (hw.inRange 0 a b hb)⟩
      have hreached : Reached (s.1.next 0) s.2 i :=
        ⟨k, hk, Relation.ReflTransGen.mono hedge _ _ hpath⟩
      refine hfound.all (by omega) i hreached ?_
      rw [h.alike.live, live_push_of_lt g e level hlive.lt]
      exact hlive
  have hcount : (nearest m config g.nodes.length 0 s).length ≤ config.maxConnectionsLayer0 := by
    refine le_trans ?_ hroom
    have hle := Foundations.length_le_of_nodup_of_lt hfound.distinct
      fun x hx => (h.found hw hep hx).2.2
    rwa [List.length_map] at hle
  have hselect : selectNeighbors (nearest m config g.nodes.length 0 s)
      config.maxConnectionsLayer0 = (nearest m config g.nodes.length 0 s).map Prod.snd := by
    rw [selectNeighbors, List.take_of_length_le hcount]
  have hnone : g.neighbors 0 g.nodes.length = [] := by
    rw [neighbors_eq, List.getElem?_eq_none_iff.mpr le_rfl]
    rfl
  have hfits : ∀ x ∈ (nearest m config g.nodes.length 0 s).map Prod.snd,
      x < s.1.nodes.length ∧ (s.1.neighbors 0 x).length < config.maxConnectionsLayer0 := by
    intro x hx
    have hbound := (h.found hw hep hx).2.2
    rw [h.below 0 Nat.one_pos]
    exact ⟨by omega, (hw.length_neighbors_lt hbound).trans_le hroom⟩
  refine ⟨(nearest m config g.nodes.length 0 s).map Prod.snd, hfound.distinct, hmem, fun i => ?_⟩
  rw [connectLayer_fst, capacity, if_pos rfl, hselect,
    neighbors_connects hfound.distinct (fun x hx => (h.found hw hep hx).2.2.ne) hfits h.layered,
    h.below 0 Nat.one_pos, h.below 0 Nat.one_pos, hnone, List.nil_append]

end linking

/-! ### The linked graph -/

/-- The links of a graph with a new node are those before, and those between the new node and
live nodes that the entry point was joined to; on the bottom layer they are all of these. -/
structure Linked (g added g' : Graph F) (ep : ℕ) : Prop where
  alike : Alike added g'
  links : ∀ l i, ∀ j ∈ g'.neighbors l i, j ∈ g.neighbors l i ∨
    i = g.nodes.length ∧ Joined g ep j ∧ g.Live j ∨ j = g.nodes.length ∧ Joined g ep i ∧ g.Live i
  bottom : ∀ i j, (j ∈ g.neighbors 0 i ∨
    i = g.nodes.length ∧ Joined g ep j ∧ g.Live j ∨
      j = g.nodes.length ∧ Joined g ep i ∧ g.Live i) → j ∈ g'.neighbors 0 i
  nodup : ∀ i, (g'.neighbors 0 i).Nodup

theorem layersDown_succ (t : ℕ) : Graph.layersDown (t + 1) 0 = (t + 1) :: Graph.layersDown t 0 := by
  simp [Graph.layersDown, List.range'_concat]

section linked

variable {e : Embedding F} {level : ℕ} {g' : Graph F}

theorem linked_foldl [LinearOrder D] (hw : Wired g) (hep : ep < g.nodes.length)
    (hroom : g.nodes.length ≤ config.maxConnectionsLayer0)
    (hef : g.nodes.length + 1 ≤ config.efConstruction) {t : ℕ} :
    ∀ {s : Graph F × List ℕ}, Linking g (g.push e level) ep (t + 1) s →
      Linked g (g.push e level) ((Graph.layersDown t 0).foldl
        (connectLayer m config g.nodes.length ep) s).1 ep := by
  induction t with
  | zero =>
    intro s h
    have hlast : Linking g (g.push e level) ep 0 (connectLayer m config g.nodes.length ep s 0) :=
      h.step hw hep
    obtain ⟨selected, hnodup, hselected, hneighbors⟩ :=
      @Linking.bottom F D S m config g ep _ e level s hw hep hroom hef h
    have hnew : g.nodes.length ∉ selected := fun hmem => by
      have hlive := ((hselected _).mp hmem).2.lt
      omega
    refine ⟨hlast.alike, hlast.links, fun i j hj => ?_, fun i => ?_⟩
    · change j ∈ (connectLayer m config g.nodes.length ep s 0).1.neighbors 0 i
      rw [hneighbors]
      rcases hj with hold | ⟨rfl, hj⟩ | ⟨rfl, hi⟩
      · have hi : i ≠ g.nodes.length := (lt_of_mem_neighbors hold).ne
        rw [if_neg hi]
        split
        · exact List.mem_append_left _ hold
        · exact hold
      · rw [if_pos rfl]
        exact (hselected j).mpr hj
      · rw [if_neg hi.2.lt.ne, if_pos ((hselected i).mpr hi)]
        exact List.mem_append_right _ (List.mem_singleton_self _)
    · change ((connectLayer m config g.nodes.length ep s 0).1.neighbors 0 i).Nodup
      rw [hneighbors]
      split
      · exact hnodup
      · split
        · refine List.nodup_append.mpr ⟨hw.nodup i, List.nodup_singleton _, ?_⟩
          rintro a ha b hb rfl
          have hlt := hw.inRange 0 i a ha
          rw [List.mem_singleton.mp hb] at hlt
          omega
        · exact hw.nodup i
  | succ t ih =>
    intro s h
    rw [layersDown_succ, List.foldl_cons]
    exact ih (h.step hw hep)

namespace Linked

theorem joined_mono (h : Linked g (g.push e level) g' ep) (hij : Joined g i j) :
    Joined g' i j :=
  Relation.ReflTransGen.mono (fun a b hb => h.bottom a b (.inl hb)) _ _ hij

theorem wired (hw : Wired g) (h : Linked g (g.push e level) g' ep) : Wired g' where
  inRange l i j hj := by
    rw [h.alike.length, length_push]
    rcases h.links l i j hj with hold | ⟨-, -, hlive⟩ | ⟨rfl, -⟩
    · exact Nat.lt_succ_of_lt (hw.inRange l i j hold)
    · exact Nat.lt_succ_of_lt hlive.lt
    · exact Nat.lt_succ_self _
  symm i j hj := by
    refine h.bottom j i ?_
    rcases h.links 0 i j hj with hold | hnew | hnew
    · exact .inl (hw.symm i j hold)
    · exact .inr (.inr hnew)
    · exact .inr (.inl hnew)
  nodup := h.nodup
  irrefl i hi := by
    rcases h.links 0 i i hi with hold | ⟨rfl, -, hlive⟩ | ⟨rfl, -, hlive⟩
    · exact hw.irrefl i hold
    · exact lt_irrefl _ hlive.lt
    · exact lt_irrefl _ hlive.lt
  joined l i j hj := by
    rcases h.links l i j hj with hold | hnew | hnew
    · exact h.joined_mono (hw.joined l i j hold)
    · exact .single (h.bottom i j (.inr (.inl hnew)))
    · exact .single (h.bottom i j (.inr (.inr hnew)))

/-- From the old entry point the new node can be reached if a live node could. -/
theorem joined_entry (h : Linked g (g.push e level) g' ep) :
    Joined g' ep i ↔ Joined g ep i ∨ i = g.nodes.length ∧ ∃ k, Joined g ep k ∧ g.Live k := by
  constructor
  · intro hi
    induction hi with
    | refl => exact .inl .refl
    | tail _ hedge ih =>
      rcases h.links 0 _ _ hedge with hold | ⟨rfl, hj, -⟩ | ⟨rfl, hi, hlive⟩
      · rcases ih with ih | ⟨rfl, -⟩
        · exact .inl (ih.tail hold)
        · exact absurd (lt_of_mem_neighbors hold) (lt_irrefl _)
      · exact .inl hj
      · exact .inr ⟨rfl, _, hi, hlive⟩
  · rintro (hi | ⟨rfl, k, hk, hlive⟩)
    · exact h.joined_mono hi
    · exact (h.joined_mono hk).tail (h.bottom k _ (.inr (.inr ⟨rfl, hk, hlive⟩)))

/-- From the new node the others can be reached if one of them is alive. -/
theorem joined_new (hw : Wired g) (h : Linked g (g.push e level) g' ep) :
    Joined g' g.nodes.length i ↔
      i = g.nodes.length ∨ Joined g ep i ∧ ∃ k, Joined g ep k ∧ g.Live k := by
  constructor
  · intro hi
    induction hi with
    | refl => exact .inl rfl
    | tail _ hedge ih =>
      rcases h.links 0 _ _ hedge with hold | ⟨rfl, hj, hlive⟩ | ⟨rfl, -⟩
      · rcases ih with rfl | ⟨ih, hk⟩
        · exact absurd (lt_of_mem_neighbors hold) (lt_irrefl _)
        · exact .inr ⟨ih.tail hold, hk⟩
      · exact .inr ⟨hj, _, hj, hlive⟩
      · exact .inl rfl
  · rintro (rfl | ⟨hi, k, hk, hlive⟩)
    · exact .refl
    · have hback : Joined g' k ep := h.joined_mono (hw.joined_symm hk)
      exact (hback.trans (h.joined_mono hi)).head (h.bottom _ k (.inr (.inl ⟨rfl, hk, hlive⟩)))

end Linked

/-- What an insertion makes of the graph when the identifier is new. -/
theorem exists_linked [LinearOrder D] (hw : Wired g) (hep : ep < g.nodes.length)
    (hroom : g.nodes.length ≤ config.maxConnectionsLayer0)
    (hef : g.nodes.length + 1 ≤ config.efConstruction) (hnew : g.idMap e.id = none)
    (hentry : g.entryPoint = some ep) :
    ∃ g', Linked g (g.push e level) g' ep ∧ g.insert m config e level =
      if level > g.currentMaxLevel then
        { g' with entryPoint := some g.nodes.length, currentMaxLevel := level }
      else g' := by
  have hconfined (l : ℕ) : Confined (g.push e level) (Joined g ep) l := by
    intro i hi j hj
    rw [neighbors_push] at hj
    exact hi.trans (hw.joined l i j hj)
  have hlt (i : ℕ) (hi : Joined g ep i) : i < (g.push e level).nodes.length := by
    rw [length_push]
    exact Nat.lt_succ_of_lt (hw.joined_lt hep hi)
  have hstart : Linking g (g.push e level) ep (min level g.currentMaxLevel + 1)
      (g.push e level, descend m (g.push e level) e.vector [ep]
        (Graph.layersDown g.currentMaxLevel (level + 1))) := by
    refine ⟨.refl _, ?_, fun l _ i => neighbors_push g e level, fun l i j hj => ?_,
      has_push g e level⟩
    · exact descend_start (fun l _ => hconfined l) hlt (.singleton .refl)
    · rw [neighbors_push] at hj
      exact .inl hj
  have hlinked : Linked g (g.push e level)
      ((Graph.layersDown (min level g.currentMaxLevel) 0).foldl
        (connectLayer m config g.nodes.length ep) (g.push e level, descend m (g.push e level)
          e.vector [ep] (Graph.layersDown g.currentMaxLevel (level + 1)))).1 ep :=
    linked_foldl hw hep hroom hef hstart
  refine ⟨_, hlinked, ?_⟩
  rw [Graph.insert, hnew, hentry]

end linked

end NextgenDatabases.Hnsw
