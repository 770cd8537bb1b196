import NextgenDatabases.Foundations.Nearest
import NextgenDatabases.Hnsw.Graph

/-!
# What a search of a layer finds

The results are live nodes that can be reached from the entry points on the layer. When the
beam is wide enough for all nodes, they are all of these.
-/
namespace NextgenDatabases.Hnsw

open Foundations (Reached Explored)

variable {F D S : Type} {m : Metric F D S} {g : Graph F} {query : List F} {ef layer : ℕ}

namespace Graph

/-- The node exists and is not deleted. -/
def Live (g : Graph F) (i : ℕ) : Prop := ∃ node ∈ g.nodes[i]?, node.deleted = false

/-- The neighbors that exist. -/
def next (g : Graph F) (layer i : ℕ) : List ℕ :=
  (g.neighbors layer i).filter fun j => j < g.nodes.length

theorem mem_next {g : Graph F} {layer i j : ℕ} :
    j ∈ g.next layer i ↔ j ∈ g.neighbors layer i ∧ j < g.nodes.length := by
  simp [next]

theorem Live.lt {g : Graph F} {i : ℕ} (h : g.Live i) : i < g.nodes.length := by
  obtain ⟨node, hnode, -⟩ := h
  exact (List.getElem?_eq_some_iff.mp hnode).1

end Graph

/-! ### Leaving a candidate -/

/-- What is known of the results at any time. -/
structure Held (m : Metric F D S) (g : Graph F) (query : List F) (ef : ℕ) (b : Beam D) : Prop where
  nodup : b.visited.Nodup
  inRange : ∀ i ∈ b.visited, i < g.nodes.length
  sound : ∀ p ∈ b.results, p.2 ∈ b.visited ∧ g.Live p.2 ∧ p.1 = m.distance query (g.vector p.2)
  distinct : (b.results.map Prod.snd).Nodup
  all : g.nodes.length ≤ ef → ∀ i ∈ b.visited, g.Live i → i ∈ b.results.map Prod.snd

/-- Some nodes have been visited. -/
structure Visits (m : Metric F D S) (g : Graph F) (query : List F) (ef : ℕ) (ys : List ℕ)
    (b b' : Beam D) : Prop where
  held : Held m g query ef b'
  visited : ∀ j, j ∈ b'.visited ↔ j ∈ b.visited ∨ j ∈ ys ∧ j < g.nodes.length
  candidates : ∀ j, j ∈ b'.candidates.map Prod.snd ↔
    j ∈ b.candidates.map Prod.snd ∨ j ∈ b'.visited ∧ j ∉ b.visited
  length : b'.candidates.length + b.visited.length = b.candidates.length + b'.visited.length

section visits

variable {b b' b'' : Beam D} {ys zs : List ℕ} {i : ℕ} {node : Node F}

theorem Visits.refl (h : Held m g query ef b) : Visits m g query ef [] b b where
  held := h
  visited j := by simp
  candidates j := by simp
  length := rfl

theorem Visits.trans (h : Visits m g query ef ys b b') (h' : Visits m g query ef zs b' b'') :
    Visits m g query ef (ys ++ zs) b b'' where
  held := h'.held
  visited j := by
    rw [h'.visited, h.visited, List.mem_append]
    tauto
  candidates j := by
    rw [h'.candidates, h.candidates, h'.visited, h.visited]
    tauto
  length := by
    have := h.length
    have := h'.length
    omega

/-- A node that does not exist or has been visited makes no difference. -/
theorem Visits.skip (h : Held m g query ef b) (hskip : i < g.nodes.length → i ∈ b.visited) :
    Visits m g query ef [i] b b where
  held := h
  visited j := by
    rw [List.mem_singleton]
    refine (or_iff_left_of_imp ?_).symm
    rintro ⟨rfl, hj⟩
    exact hskip hj
  candidates j := by simp
  length := rfl

theorem vector_eq (hnode : g.nodes[i]? = some node) : g.vector i = node.vector := by
  simp [Graph.vector, hnode]

/-- As long as a node is missing, there is room for it. -/
theorem Held.length_lt (h : Held m g query ef b) (hlt : i < g.nodes.length)
    (hnew : i ∉ b.visited) (hef : g.nodes.length ≤ ef) : b.results.length < ef := by
  have hnodup : (i :: b.results.map Prod.snd).Nodup := by
    refine List.nodup_cons.mpr ⟨fun hmem => ?_, h.distinct⟩
    obtain ⟨p, hp, rfl⟩ := List.mem_map.mp hmem
    exact hnew (h.sound p hp).1
  have hle := Foundations.length_le_of_nodup_of_lt hnodup (n := g.nodes.length) (by
    intro j hj
    rcases List.mem_cons.mp hj with rfl | hj
    · exact hlt
    · obtain ⟨p, hp, rfl⟩ := List.mem_map.mp hj
      exact h.inRange _ (h.sound p hp).1)
  rw [List.length_cons, List.length_map] at hle
  omega

variable [LinearOrder D]

section results

variable {results candidates : List (D × ℕ)} {dist : D} {p : D × ℕ}

theorem mem_pushFurthest : p ∈ pushFurthest (dist, i) results ↔ p = (dist, i) ∨ p ∈ results :=
  List.mem_orderedInsert _

theorem pushFurthest_perm : (pushFurthest (dist, i) results).Perm ((dist, i) :: results) :=
  List.perm_orderedInsert _ _ _

theorem mem_pushClosest_snd {j : ℕ} :
    j ∈ (pushClosest (dist, i) candidates).map Prod.snd ↔
      j = i ∨ j ∈ candidates.map Prod.snd := by
  have hperm := (List.perm_orderedInsert Below (dist, i) candidates).map Prod.snd
  exact hperm.mem_iff.trans List.mem_cons

theorem length_pushClosest :
    (pushClosest (dist, i) candidates).length = candidates.length + 1 :=
  List.orderedInsert_length ..

/-- A result is added in front of others or not at all. -/
theorem addResult_sublist :
    (addResult m ef dist i results).Sublist (pushFurthest (dist, i) results) := by
  unfold addResult
  split
  · dsimp only
    split
    · exact List.tail_sublist _
    · exact List.Sublist.refl _
  · exact List.sublist_orderedInsert ..

theorem addResult_of_lt (h : results.length < ef) :
    addResult m ef dist i results = pushFurthest (dist, i) results := by
  have hlength : (pushFurthest (dist, i) results).length = results.length + 1 :=
    List.orderedInsert_length ..
  rw [addResult, if_pos (.inr h)]
  dsimp only
  rw [if_neg (by omega)]

end results

/-- Visiting a new node: it becomes a candidate, and a result unless it is deleted or there
are enough. -/
theorem Visits.new {results : List (D × ℕ)} (h : Held m g query ef b)
    (hnode : g.nodes[i]? = some node) (hnew : i ∉ b.visited)
    (hresults : results = b.results ∧ node.deleted = true ∨ node.deleted = false ∧
      results.Sublist (pushFurthest (m.distance query node.vector, i) b.results) ∧
      (g.nodes.length ≤ ef →
        results = pushFurthest (m.distance query node.vector, i) b.results)) :
    Visits m g query ef [i] b
      ⟨i :: b.visited, pushClosest (m.distance query node.vector, i) b.candidates, results⟩ := by
  have hlt : i < g.nodes.length := (List.getElem?_eq_some_iff.mp hnode).1
  have hlive : g.Live i ↔ node.deleted = false := by
    simp [Graph.Live, hnode]
  have hfresh : i ∉ b.results.map Prod.snd := by
    intro hmem
    obtain ⟨p, hp, rfl⟩ := List.mem_map.mp hmem
    exact hnew (h.sound p hp).1
  constructor
  · constructor
    · exact List.nodup_cons.mpr ⟨hnew, h.nodup⟩
    · intro j hj
      rcases List.mem_cons.mp hj with rfl | hj
      · exact hlt
      · exact h.inRange j hj
    · intro p hp
      have hold (hp : p ∈ b.results) : p.2 ∈ i :: b.visited ∧ g.Live p.2 ∧
          p.1 = m.distance query (g.vector p.2) := by
        obtain ⟨hvisited, hrest⟩ := h.sound p hp
        exact ⟨List.mem_cons_of_mem _ hvisited, hrest⟩
      rcases hresults with ⟨rfl, -⟩ | ⟨hdeleted, hsub, -⟩
      · exact hold hp
      · rcases mem_pushFurthest.mp (hsub.subset hp) with rfl | hp
        · exact ⟨List.mem_cons_self, hlive.mpr hdeleted, by rw [vector_eq hnode]⟩
        · exact hold hp
    · rcases hresults with ⟨rfl, -⟩ | ⟨-, hsub, -⟩
      · exact h.distinct
      · refine (hsub.map Prod.snd).nodup ?_
        rw [(pushFurthest_perm.map Prod.snd).nodup_iff]
        exact List.nodup_cons.mpr ⟨hfresh, h.distinct⟩
    · intro hef j hj hjlive
      rcases hresults with ⟨rfl, hdeleted⟩ | ⟨-, -, hpush⟩
      · rcases List.mem_cons.mp hj with rfl | hj
        · rw [hlive, hdeleted] at hjlive
          cases hjlive
        · exact h.all hef j hj hjlive
      · rw [hpush hef, (pushFurthest_perm.map Prod.snd).mem_iff]
        rcases List.mem_cons.mp hj with rfl | hj
        · exact List.mem_cons_self
        · exact List.mem_cons_of_mem _ (h.all hef j hj hjlive)
  · intro j
    rw [List.mem_cons, List.mem_singleton]
    constructor
    · rintro (rfl | hj)
      · exact .inr ⟨rfl, hlt⟩
      · exact .inl hj
    · rintro (hj | ⟨rfl, -⟩)
      · exact .inr hj
      · exact .inl rfl
  · intro j
    rw [mem_pushClosest_snd, List.mem_cons]
    constructor
    · rintro (rfl | hj)
      · exact .inr ⟨.inl rfl, hnew⟩
      · exact .inl hj
    · rintro (hj | ⟨rfl | hj, hnot⟩)
      · exact .inr hj
      · exact .inl rfl
      · exact absurd hj hnot
  · rw [length_pushClosest, List.length_cons]
    omega

theorem visits_visit (h : Held m g query ef b) (i : ℕ) :
    Visits m g query ef [i] b (visit m g query ef b i) := by
  unfold visit
  split
  · next hnone =>
    refine .skip h fun hlt => ?_
    rw [List.getElem?_eq_none_iff] at hnone
    omega
  · next node hnode =>
    split
    · next hold => exact .skip h fun _ => hold
    · next hnew =>
      refine .new h hnode hnew ?_
      cases hdeleted : node.deleted with
      | true => exact .inl ⟨rfl, rfl⟩
      | false =>
        refine .inr ⟨rfl, addResult_sublist, fun hef => addResult_of_lt ?_⟩
        exact h.length_lt (List.getElem?_eq_some_iff.mp hnode).1 hnew hef

theorem visits_foldl (ys : List ℕ) : ∀ {b : Beam D}, Held m g query ef b →
    Visits m g query ef ys b (ys.foldl (visit m g query ef) b) := by
  induction ys with
  | nil => exact fun h => .refl h
  | cons y ys ih =>
    intro b h
    have hy := visits_visit h y
    exact hy.trans (ih hy.held)

theorem visits_enter (h : Held m g query ef b) (hnew : i ∉ b.visited) :
    Visits m g query ef [i] b (enter m g query b i) := by
  unfold enter
  split
  · next hnone =>
    refine .skip h fun hlt => ?_
    rw [List.getElem?_eq_none_iff] at hnone
    omega
  · next node hnode =>
    dsimp only
    rw [List.insert_of_not_mem hnew]
    refine .new h hnode hnew ?_
    cases hdeleted : node.deleted with
    | true => exact .inl ⟨rfl, rfl⟩
    | false => exact .inr ⟨rfl, List.Sublist.refl _, fun _ => rfl⟩

theorem visits_foldl_enter (eps : List ℕ) : ∀ {b : Beam D}, Held m g query ef b → eps.Nodup →
    (∀ e ∈ eps, e ∉ b.visited) →
    Visits m g query ef eps b (eps.foldl (enter m g query) b) := by
  induction eps with
  | nil => exact fun h _ _ => .refl h
  | cons e eps ih =>
    intro b h hnodup hnew
    obtain ⟨he, hnodup⟩ := List.nodup_cons.mp hnodup
    have hv := visits_enter h (hnew e List.mem_cons_self)
    refine hv.trans (ih hv.held hnodup fun e' he' hmem => ?_)
    rcases (hv.visited e').mp hmem with hold | ⟨heq, -⟩
    · exact hnew e' (List.mem_cons_of_mem _ he') hold
    · exact he (List.mem_singleton.mp heq ▸ he')

end visits

/-! ### The whole search -/

/-- The results are live nodes that the entry points lead to, and with a beam for all nodes
they are all of these. -/
structure Found (m : Metric F D S) (g : Graph F) (query : List F) (ef layer : ℕ) (eps : List ℕ)
    (results : List (D × ℕ)) : Prop where
  sound : ∀ p ∈ results, Reached (g.next layer) eps p.2 ∧ g.Live p.2 ∧
    p.1 = m.distance query (g.vector p.2)
  distinct : (results.map Prod.snd).Nodup
  all : g.nodes.length ≤ ef → ∀ i, Reached (g.next layer) eps i → g.Live i →
    i ∈ results.map Prod.snd

section found

variable {b : Beam D} {eps : List ℕ} {results results' : List (D × ℕ)}

theorem Found.perm (h : Found m g query ef layer eps results) (hperm : results'.Perm results) :
    Found m g query ef layer eps results' where
  sound p hp := h.sound p (hperm.mem_iff.mp hp)
  distinct := (hperm.map Prod.snd).nodup_iff.mpr h.distinct
  all hef i hi hlive := (hperm.map Prod.snd).mem_iff.mpr (h.all hef i hi hlive)

theorem Held.sound_of_explored {pending : List ℕ} (h : Held m g query ef b)
    (he : Explored (g.next layer) eps b.visited pending) (p : D × ℕ) (hp : p ∈ b.results) :
    Reached (g.next layer) eps p.2 ∧ g.Live p.2 ∧ p.1 = m.distance query (g.vector p.2) := by
  obtain ⟨hvisited, hrest⟩ := h.sound p hp
  exact ⟨he.reached _ hvisited, hrest⟩

/-- Nothing is left to leave. -/
theorem found_of_empty (h : Held m g query ef b)
    (he : Explored (g.next layer) eps b.visited []) :
    Found m g query ef layer eps b.results where
  sound := h.sound_of_explored he
  distinct := h.distinct
  all hef i hi hlive := h.all hef i (he.mem_iff.mpr hi) hlive

/-- The results are as many as the beam takes. -/
theorem found_of_full {pending : List ℕ} (h : Held m g query ef b)
    (he : Explored (g.next layer) eps b.visited pending) (hfull : ef ≤ b.results.length) :
    Found m g query ef layer eps b.results where
  sound := h.sound_of_explored he
  distinct := h.distinct
  all hef i hi hlive := by
    refine Foundations.mem_of_nodup_of_lt h.distinct (n := g.nodes.length) ?_ ?_ hlive.lt
    · intro j hj
      obtain ⟨p, hp, rfl⟩ := List.mem_map.mp hj
      exact (h.sound p hp).2.1.lt
    · rw [List.length_map]
      omega

theorem Held.empty : Held m g query ef {} where
  nodup := List.nodup_nil
  inRange _ hi := absurd hi List.not_mem_nil
  sound _ hp := absurd hp List.not_mem_nil
  distinct := List.nodup_nil
  all _ _ hi := absurd hi List.not_mem_nil

variable [LinearOrder D]

/-- Leaving the first candidate: fewer nodes are left or to come. -/
theorem Held.leave {p : D × ℕ} {rest : List (D × ℕ)} {b' : Beam D} (h : Held m g query ef b)
    (hcons : b.candidates = p :: rest)
    (hb' : b' = (g.neighbors layer p.2).foldl (visit m g query ef) { b with candidates := rest }) :
    Visits m g query ef (g.neighbors layer p.2) { b with candidates := rest } b' ∧
      b'.candidates.length + (g.nodes.length - b'.visited.length) <
        b.candidates.length + (g.nodes.length - b.visited.length) := by
  have hrest : Held m g query ef { b with candidates := rest } :=
    ⟨h.nodup, h.inRange, h.sound, h.distinct, h.all⟩
  have hv := visits_foldl (g.neighbors layer p.2) hrest
  rw [← hb'] at hv
  refine ⟨hv, ?_⟩
  have hlength := hv.length
  have hold := Foundations.length_le_of_nodup_of_lt h.nodup h.inRange
  have hnew := Foundations.length_le_of_nodup_of_lt hv.held.nodup hv.held.inRange
  rw [hcons, List.length_cons]
  dsimp only at hlength
  omega

theorem expand_found {fuel : ℕ} : ∀ {b : Beam D}, Held m g query ef b →
    Explored (g.next layer) eps b.visited (b.candidates.map Prod.snd) →
    b.candidates.length + (g.nodes.length - b.visited.length) ≤ fuel →
    Found m g query ef layer eps (expand m g query ef layer fuel b).results := by
  induction fuel with
  | zero =>
    intro b h he hfuel
    have hnil : b.candidates = [] := List.length_eq_zero_iff.mp (by omega)
    rw [hnil] at he
    exact found_of_empty h he
  | succ fuel ih =>
    intro b h he hfuel
    rw [expand]
    split
    · next hnil =>
      rw [hnil] at he
      exact found_of_empty h he
    · next dist idx rest hcons =>
      split
      · next hbreak => exact found_of_full h he hbreak.2
      · obtain ⟨hv, hlt⟩ := h.leave hcons rfl
        dsimp only at hlt
        rw [hcons, List.map_cons] at he
        refine ih hv.held (he.leave (fun j => ?_) hv.candidates) (by omega)
        rw [hv.visited, Graph.mem_next]

/-- The entry points are visited. -/
theorem visits_enter_all (hnodup : eps.Nodup) :
    Visits m g query ef eps {} (eps.foldl (enter m g query) {}) ∧
      (eps.foldl (enter m g query) {}).candidates.length +
        (g.nodes.length - (eps.foldl (enter m g query) {}).visited.length) ≤
          eps.length + g.nodes.length := by
  have hempty : Held m g query ef {} := .empty
  have hv := visits_foldl_enter eps hempty hnodup fun e _ => List.not_mem_nil
  have hle : (eps.foldl (enter m g query) {}).visited.length ≤ eps.length := by
    refine (List.subperm_of_subset hv.held.nodup fun j hj => ?_).length_le
    exact (((hv.visited j).mp hj).resolve_left List.not_mem_nil).1
  have hlength := hv.length
  simp only [List.length_nil] at hlength
  exact ⟨hv, by omega⟩

/-- A search finds what the entry points lead to, sorted by distance. -/
theorem searchLayer_found (hnodup : eps.Nodup) (hlt : ∀ e ∈ eps, e < g.nodes.length) :
    Found m g query ef layer eps (searchLayer m g query ef layer eps) := by
  obtain ⟨hv, hfuel⟩ := @visits_enter_all F D S m g query ef _ _ hnodup
  have hvisited (j : ℕ) : j ∈ (eps.foldl (enter m g query) {}).visited ↔ j ∈ eps := by
    rw [hv.visited, or_iff_right List.not_mem_nil]
    exact and_iff_left_of_imp (hlt j)
  have hcandidates (j : ℕ) : j ∈ (eps.foldl (enter m g query) {}).candidates.map Prod.snd ↔
      j ∈ eps := by
    rw [hv.candidates, hvisited, List.map_nil, or_iff_right List.not_mem_nil]
    exact and_iff_left List.not_mem_nil
  have he : Explored (g.next layer) eps (eps.foldl (enter m g query) {}).visited
      ((eps.foldl (enter m g query) {}).candidates.map Prod.snd) :=
    ⟨fun e he => (hvisited e).mpr he, fun j hj => (hvisited j).mpr ((hcandidates j).mp hj),
      fun j hj => .root ((hvisited j).mp hj),
      fun j hj hnot => absurd ((hcandidates j).mpr ((hvisited j).mp hj)) hnot⟩
  exact (expand_found hv.held he hfuel).perm
    ((List.perm_insertionSort _ _).trans (m.perm_intoIter _))

theorem searchLayer_sorted :
    (searchLayer m g query ef layer eps).Pairwise fun a b => a.1 ≤ b.1 := by
  have : Std.Total fun a b : D × ℕ => a.1 ≤ b.1 := ⟨fun a b => le_total a.1 b.1⟩
  have : IsTrans (D × ℕ) fun a b => a.1 ≤ b.1 := ⟨fun a b c => le_trans⟩
  exact List.pairwise_insertionSort _ _

end found

end NextgenDatabases.Hnsw
