import Mathlib.Data.List.Sort
import Mathlib.Logic.Relation

/-!
# Searching a graph for the nearest vertices

A search that keeps the vertices it has seen and those it has still to leave has seen exactly
what can be reached when nothing is left to leave, in whatever order it leaves them. The front
of a list that is sorted by distance holds its nearest entries.
-/
namespace NextgenDatabases.Foundations

/-! ### Exploration -/

section exploration

variable {α : Type*} {next : α → List α} {roots visited rest : List α} {x : α}

/-- The vertex can be reached from one of the roots. -/
def Reached (next : α → List α) (roots : List α) (x : α) : Prop :=
  ∃ s ∈ roots, Relation.ReflTransGen (fun y z => z ∈ next y) s x

theorem Reached.root (h : x ∈ roots) : Reached next roots x := ⟨x, h, .refl⟩

theorem Reached.edge {y : α} (h : Reached next roots x) (hy : y ∈ next x) :
    Reached next roots y := by
  obtain ⟨s, hs, hpath⟩ := h
  exact ⟨s, hs, hpath.tail hy⟩

/-- What holds of the roots and along the edges holds wherever the edges lead. -/
theorem Reached.induction {p : α → Prop} (hroots : ∀ s ∈ roots, p s)
    (hedge : ∀ y z, p y → z ∈ next y → p z) (h : Reached next roots x) : p x := by
  obtain ⟨s, hs, hpath⟩ := h
  induction hpath with
  | refl => exact hroots s hs
  | tail _ hz ih => exact hedge _ _ ih hz

/-- The vertices seen so far can be reached, and edges from them to others can only lead from
those that are still to leave. -/
structure Explored (next : α → List α) (roots visited pending : List α) : Prop where
  roots_seen : ∀ s ∈ roots, s ∈ visited
  pending_seen : ∀ y ∈ pending, y ∈ visited
  reached : ∀ y ∈ visited, Reached next roots y
  closed : ∀ y ∈ visited, y ∉ pending → ∀ z ∈ next y, z ∈ visited

/-- Leaving a vertex, by all of its edges. -/
theorem Explored.leave {visited' pending' : List α} (h : Explored next roots visited (x :: rest))
    (hvisited : ∀ y, y ∈ visited' ↔ y ∈ visited ∨ y ∈ next x)
    (hpending : ∀ y, y ∈ pending' ↔ y ∈ rest ∨ y ∈ visited' ∧ y ∉ visited) :
    Explored next roots visited' pending' where
  roots_seen s hs := (hvisited s).mpr (.inl (h.roots_seen s hs))
  pending_seen y hy := by
    rcases (hpending y).mp hy with hy | ⟨hy, -⟩
    · exact (hvisited y).mpr (.inl (h.pending_seen y (List.mem_cons_of_mem x hy)))
    · exact hy
  reached y hy := by
    rcases (hvisited y).mp hy with hy | hy
    · exact h.reached y hy
    · exact (h.reached x (h.pending_seen x List.mem_cons_self)).edge hy
  closed z hz hnot y hy := by
    have hold : z ∈ visited := by
      by_contra hnew
      exact hnot ((hpending z).mpr (.inr ⟨hz, hnew⟩))
    by_cases hx : z = x
    · subst hx
      exact (hvisited y).mpr (.inr hy)
    · have hrest : z ∉ x :: rest := by
        intro hmem
        rcases List.mem_cons.mp hmem with rfl | hmem
        · exact hx rfl
        · exact hnot ((hpending z).mpr (.inl hmem))
      exact (hvisited y).mpr (.inl (h.closed z hold hrest y hy))

/-- With nothing left to leave, exactly what can be reached has been seen. -/
theorem Explored.mem_iff (h : Explored next roots visited []) :
    x ∈ visited ↔ Reached next roots x := by
  constructor
  · exact h.reached x
  · intro hx
    exact hx.induction h.roots_seen fun y z hy hz => h.closed y hy List.not_mem_nil z hz

end exploration

/-! ### Different numbers below a bound -/

section bounded

variable {n : ℕ} {l : List ℕ}

theorem subperm_range (hnodup : l.Nodup) (hlt : ∀ y ∈ l, y < n) : l.Subperm (List.range n) :=
  List.subperm_of_subset hnodup fun y hy => List.mem_range.mpr (hlt y hy)

theorem length_le_of_nodup_of_lt (hnodup : l.Nodup) (hlt : ∀ y ∈ l, y < n) : l.length ≤ n := by
  have hle := (subperm_range hnodup hlt).length_le
  rwa [List.length_range] at hle

/-- A list of `n` different numbers below `n` holds all of them. -/
theorem mem_of_nodup_of_lt {x : ℕ} (hnodup : l.Nodup) (hlt : ∀ y ∈ l, y < n)
    (hlength : n ≤ l.length) (hx : x < n) : x ∈ l := by
  have hperm := (subperm_range hnodup hlt).perm_of_length_le (by rwa [List.length_range])
  exact hperm.mem_iff.mpr (List.mem_range.mpr hx)

end bounded

/-! ### The front of a sorted list -/

/-- What stands in front of the cut is no further away than what stands behind it. -/
theorem le_of_mem_take_of_notMem {α D : Type*} [LinearOrder D] {dist : α → D} {l : List α}
    (hsorted : l.Pairwise fun a b => dist a ≤ dist b) {k : ℕ} {x y : α} (hx : x ∈ l.take k)
    (hy : y ∈ l) (hnot : y ∉ l.take k) : dist x ≤ dist y := by
  have hdrop : y ∈ l.drop k := by
    rw [← List.take_append_drop k l] at hy
    exact (List.mem_append.mp hy).resolve_left hnot
  rw [← List.take_append_drop k l] at hsorted
  exact (List.pairwise_append.mp hsorted).2.2 x hx y hdrop

end NextgenDatabases.Foundations
