import Mathlib

/-!
# Search level by level

A search that keeps the vertices visited so far and those found last. What it has visited after
a number of levels is the ball of that radius, in any graph.
-/
namespace NextgenDatabases.Levels

/-- The vertices visited so far and what was found on the level under way. -/
structure Layer (α β : Type*) where
  visited : Finset α
  next : List β

variable {α β : Type*} [DecidableEq α] {key : β → α} {G : SimpleGraph α} {c : α}

def visit (key : β → α) (s : Layer α β) (b : β) : Layer α β :=
  if key b ∈ s.visited then s else ⟨insert (key b) s.visited, s.next ++ [b]⟩

/-- The vertices of a set are visited now, and those that were not before are found. -/
structure Grows (key : β → α) (s s' : Layer α β) (found : Set α) : Prop where
  visited : ∀ a, a ∈ s'.visited ↔ a ∈ s.visited ∨ a ∈ found
  next : ∀ a, a ∈ s'.next.map key ↔ a ∈ s.next.map key ∨ a ∈ found ∧ a ∉ s.visited

omit [DecidableEq α] in
theorem Grows.refl (s : Layer α β) : Grows key s s ∅ := ⟨by simp, by simp⟩

omit [DecidableEq α] in
theorem Grows.trans {s s' s'' : Layer α β} {A B : Set α} (h : Grows key s s' A)
    (h' : Grows key s' s'' B) : Grows key s s'' (A ∪ B) := by
  constructor
  · intro a
    rw [h'.visited, h.visited, Set.mem_union, or_assoc]
  · intro a
    rw [h'.next, h.next, h.visited, Set.mem_union]
    tauto

theorem Grows.visit (s : Layer α β) (b : β) : Grows key s (visit key s b) {key b} := by
  unfold Levels.visit
  split_ifs with hvisited
  · constructor
    · intro a
      refine ⟨.inl, fun h => h.elim id ?_⟩
      rintro rfl
      exact hvisited
    · intro a
      refine ⟨.inl, fun h => h.elim id ?_⟩
      rintro ⟨rfl, hfresh⟩
      exact absurd hvisited hfresh
  · constructor
    · intro a
      rw [Finset.mem_insert, Set.mem_singleton_iff, or_comm]
    · intro a
      rw [List.map_append, List.mem_append, List.map_singleton, List.mem_singleton,
        Set.mem_singleton_iff]
      refine or_congr_right ⟨?_, And.left⟩
      rintro rfl
      exact ⟨rfl, hvisited⟩

theorem Grows.foldl_visit (s : Layer α β) (bs : List β) :
    Grows key s (bs.foldl (Levels.visit key) s) {a | a ∈ bs.map key} := by
  induction bs generalizing s with
  | nil =>
    have hempty : {a | a ∈ ([] : List β).map key} = ∅ := by simp
    rw [hempty]
    exact .refl s
  | cons b bs ih =>
    have hsplit : {a | a ∈ (b :: bs).map key} = {key b} ∪ {a | a ∈ bs.map key} := by
      ext a
      simp
    rw [hsplit]
    exact (Grows.visit s b).trans (ih _)

theorem mem_next_foldl_visit {s : Layer α β} {bs : List β} {b : β}
    (h : b ∈ (bs.foldl (visit key) s).next) : b ∈ s.next ∨ b ∈ bs := by
  induction bs generalizing s with
  | nil => exact .inl h
  | cons b' bs ih =>
    rcases ih h with hnext | hrest
    · unfold visit at hnext
      split_ifs at hnext
      · exact .inl hnext
      · rcases List.mem_append.mp hnext with hold | hnew
        · exact .inl hold
        · exact .inr (List.mem_cons.mpr (.inl (List.mem_singleton.mp hnew)))
    · exact .inr (List.mem_cons_of_mem _ hrest)

/-! ### Balls -/

/-- What is visited is the ball of radius `k`, what was found last lies at distance `k`. -/
structure AtLevel (key : β → α) (G : SimpleGraph α) (c : α) (k : ℕ) (visited : Finset α)
    (frontier : List β) : Prop where
  visited : ∀ a, a ∈ visited ↔ G.edist c a ≤ k
  frontier : ∀ a, a ∈ frontier.map key ↔ G.edist c a = k

omit [DecidableEq α] in
theorem AtLevel.start (b : β) : AtLevel key G (key b) 0 {key b} [b] := by
  constructor
  · intro a
    rw [Finset.mem_singleton, Nat.cast_zero, nonpos_iff_eq_zero, SimpleGraph.edist_eq_zero_iff,
      eq_comm]
  · intro a
    rw [List.map_singleton, List.mem_singleton, Nat.cast_zero, SimpleGraph.edist_eq_zero_iff,
      eq_comm]

omit [DecidableEq α] in
/-- The next ball is reached along one more edge from the border of the ball before. -/
theorem edist_le_succ {k : ℕ} {a : α} :
    G.edist c a ≤ (k + 1 : ℕ) ↔ G.edist c a ≤ k ∨ ∃ b, G.edist c b = k ∧ G.Adj b a := by
  constructor
  · intro h
    by_cases hnear : G.edist c a ≤ k
    · exact .inl hnear
    · have hfar : G.edist c a = (k + 1 : ℕ) := by
        refine le_antisymm h ?_
        rw [Nat.cast_add_one]
        exact Order.add_one_le_of_lt (not_le.mp hnear)
      obtain ⟨walk, hlen⟩ := G.exists_walk_of_edist_eq_coe hfar
      have hnil : ¬ walk.Nil := fun hnil => by
        rw [SimpleGraph.Walk.length_eq_zero_iff.mpr hnil] at hlen
        omega
      have hadj := walk.adj_penultimate hnil
      refine .inr ⟨walk.penultimate, le_antisymm ?_ ?_, hadj⟩
      · have hdrop := walk.dropLast.edist_le
        rwa [SimpleGraph.Walk.length_dropLast, hlen, Nat.add_sub_cancel] at hdrop
      · have htriangle := G.edist_triangle (u := c) (v := walk.penultimate) (w := a)
        rw [SimpleGraph.edist_eq_one_iff_adj.mpr hadj, hfar, Nat.cast_add_one] at htriangle
        exact (ENat.add_le_add_iff_right (ENat.natCast_ne_top 1)).mp htriangle
  · rintro (h | ⟨b, hb, hadj⟩)
    · exact h.trans (by exact_mod_cast Nat.le_succ k)
    · calc G.edist c a ≤ G.edist c b + G.edist b a := G.edist_triangle
        _ = (k + 1 : ℕ) := by
          rw [hb, SimpleGraph.edist_eq_one_iff_adj.mpr hadj, Nat.cast_add_one]

/-- One level visits what is joined to the frontier, by a relation that may have loops. -/
theorem AtLevel.step {joined : α → α → Prop} (hadj : ∀ a b, G.Adj a b ↔ a ≠ b ∧ joined a b)
    {k : ℕ} {visited : Finset α} {frontier : List β} {s : Layer α β}
    (h : AtLevel key G c k visited frontier)
    (hgrows : Grows key ⟨visited, []⟩ s {a | ∃ b ∈ frontier, joined (key b) a}) :
    AtLevel key G c (k + 1) s.visited s.next := by
  have hball (a : α) : a ∈ s.visited ↔ G.edist c a ≤ (k + 1 : ℕ) := by
    rw [hgrows.visited, edist_le_succ, h.visited]
    constructor
    · rintro (hnear | ⟨b, hb, hjoined⟩)
      · exact .inl hnear
      · have hborder := (h.frontier (key b)).mp (List.mem_map_of_mem hb)
        by_cases heq : key b = a
        · exact .inl (heq ▸ hborder.le)
        · exact .inr ⟨key b, hborder, (hadj _ _).mpr ⟨heq, hjoined⟩⟩
    · rintro (hnear | ⟨b, hborder, hedge⟩)
      · exact .inl hnear
      · obtain ⟨b', hb', rfl⟩ := List.mem_map.mp ((h.frontier b).mpr hborder)
        exact .inr ⟨b', hb', ((hadj _ _).mp hedge).2⟩
  refine ⟨hball, fun a => ?_⟩
  have hnext := hgrows.next a
  have hvisited := hgrows.visited a
  simp only [List.map_nil, List.not_mem_nil, false_or] at hnext hvisited
  have hold := h.visited a
  rw [hnext]
  constructor
  · rintro ⟨hfound, hfresh⟩
    refine le_antisymm ((hball a).mp (hvisited.mpr (.inr hfound))) ?_
    rw [Nat.cast_add_one]
    exact Order.add_one_le_of_lt (not_le.mp fun hle => hfresh (hold.mpr hle))
  · intro hborder
    have hfresh : a ∉ visited := fun hmem => by
      have hle := hold.mp hmem
      rw [hborder] at hle
      exact absurd (Nat.cast_le.mp hle) (by omega)
    exact ⟨(hvisited.mp ((hball a).mpr hborder.le)).resolve_left hfresh, hfresh⟩

end NextgenDatabases.Levels
