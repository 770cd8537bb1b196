import Mathlib.Data.List.Basic
import Mathlib.Order.Nat

/-!
# Points on a ring

A binary search in a sorted list finds the first point from a position on; behind the last point
the ring starts again. A point that is first among more points is first among fewer.
-/
namespace NextgenDatabases.Foundations

/-! ### Binary search -/

/-- The first index from `low` on, below `high`, at which the entry is not `below`. -/
def binarySearch {α : Type*} (entry : ℕ → Option α) (below : α → Bool) (low high : ℕ) : ℕ :=
  if low ≥ high then low
  else
    match entry ((low + high) / 2) with
    | some a =>
      if below a then binarySearch entry below ((low + high) / 2 + 1) high
      else binarySearch entry below low ((low + high) / 2)
    | none => low
termination_by high - low

section Search

variable {α : Type*} {l : List α} {below : α → Bool}

/-- All entries before the index are below, and none from it on. -/
def Splits (l : List α) (below : α → Bool) (i : ℕ) : Prop :=
  (∀ j a, j < i → l[j]? = some a → below a = true) ∧
    ∀ j a, i ≤ j → l[j]? = some a → below a = false

theorem binarySearch_splits (hsorted : l.Pairwise fun a b => below b = true → below a = true)
    (low high : ℕ) (hlow : ∀ j a, j < low → l[j]? = some a → below a = true)
    (hhigh : ∀ j a, high ≤ j → l[j]? = some a → below a = false) (hlength : high ≤ l.length)
    (hle : low ≤ high) :
    Splits l below (binarySearch (fun i => l[i]?) below low high) ∧
      binarySearch (fun i => l[i]?) below low high ≤ high := by
  have hmono : ∀ {i j : ℕ} {a b : α}, i < j → l[i]? = some a → l[j]? = some b → below b = true →
      below a = true := by
    intro i j a b hij ha hb
    obtain ⟨hi, rfl⟩ := List.getElem?_eq_some_iff.mp ha
    obtain ⟨hj, rfl⟩ := List.getElem?_eq_some_iff.mp hb
    exact List.pairwise_iff_getElem.mp hsorted i j hi hj hij
  induction low, high using binarySearch.induct (fun i => l[i]?) below with
  | case1 low high hge =>
    rw [binarySearch, if_pos hge]
    exact ⟨⟨hlow, fun j a hj => hhigh j a (hge.le.trans hj)⟩, hle⟩
  | case2 low high hlt a hmid hbelow ih =>
    rw [binarySearch, if_neg hlt, hmid]
    simp only [hbelow, if_true]
    refine ih (fun j b hj hb => ?_) hhigh hlength (by omega)
    rcases Nat.lt_succ_iff_lt_or_eq.mp hj with hj | rfl
    · exact hmono hj hb hmid hbelow
    · rw [hmid] at hb
      exact Option.some.inj hb ▸ hbelow
  | case3 low high hlt a hmid hbelow ih =>
    rw [binarySearch, if_neg hlt, hmid]
    simp only [hbelow, if_false, Bool.false_eq_true]
    have habove : ∀ j b, (low + high) / 2 ≤ j → l[j]? = some b → below b = false := by
      intro j b hj hb
      by_contra hb'
      rcases Nat.eq_or_lt_of_le hj with rfl | hj
      · rw [hmid] at hb
        exact hbelow (Option.some.inj hb ▸ by simpa using hb')
      · exact hbelow (hmono hj hmid hb (by simpa using hb'))
    obtain ⟨hsplits, hresult⟩ := ih hlow habove (by omega) (by omega)
    exact ⟨hsplits, by omega⟩
  | case4 low high hlt hmid =>
    exact absurd (List.getElem?_eq_none_iff.mp hmid) (by omega)

end Search

/-! ### The first point from a position on -/

section Ring

variable {α : Type*} {pos : α → ℕ} {points points' : List α} {x : ℕ} {e e' : α}

/-- A point that comes first, going around from a position. -/
structure IsSuccessor (pos : α → ℕ) (points : List α) (x : ℕ) (e : α) : Prop where
  mem : e ∈ points
  first : (x ≤ pos e ∧ ∀ e' ∈ points, x ≤ pos e' → pos e ≤ pos e') ∨
    ((∀ e' ∈ points, pos e' < x) ∧ ∀ e' ∈ points, pos e ≤ pos e')

namespace IsSuccessor

theorem subset (h : IsSuccessor pos points' x e) (hsub : points ⊆ points') (hmem : e ∈ points) :
    IsSuccessor pos points x e where
  mem := hmem
  first := by
    rcases h.first with ⟨hx, hle⟩ | ⟨hx, hle⟩
    · exact .inl ⟨hx, fun e' he' => hle e' (hsub he')⟩
    · exact .inr ⟨fun e' he' => hx e' (hsub he'), fun e' he' => hle e' (hsub he')⟩

theorem pos_eq (h : IsSuccessor pos points x e) (h' : IsSuccessor pos points x e') :
    pos e = pos e' := by
  rcases h.first with ⟨hx, hle⟩ | ⟨hx, hle⟩
  · rcases h'.first with ⟨hx', hle'⟩ | ⟨hx', -⟩
    · exact le_antisymm (hle e' h'.mem hx') (hle' e h.mem hx)
    · exact absurd (hx' e h.mem) hx.not_gt
  · rcases h'.first with ⟨hx', -⟩ | ⟨-, hle'⟩
    · exact absurd (hx e' h'.mem) hx'.not_gt
    · exact le_antisymm (hle e' h'.mem) (hle' e h.mem)

theorem map {β : Type*} (f : α → β) (pos' : β → ℕ) (hpos : ∀ e, pos' (f e) = pos e)
    (h : IsSuccessor pos points x e) : IsSuccessor pos' (points.map f) x (f e) where
  mem := List.mem_map_of_mem h.mem
  first := by
    simp only [List.forall_mem_map, hpos]
    exact h.first

theorem congr (h : IsSuccessor pos points x e) (hmem : ∀ a, a ∈ points ↔ a ∈ points') :
    IsSuccessor pos points' x e :=
  h.subset (fun a ha => (hmem a).mpr ha) ((hmem e).mp h.mem)

end IsSuccessor

/-- The search in a sorted list, around its end. -/
theorem isSuccessor_of_search (hsorted : points.Pairwise fun a b => pos a ≤ pos b)
    (hne : points ≠ []) (x : ℕ) :
    let i := binarySearch (fun i => points[i]?) (fun a => decide (pos a < x)) 0 points.length
    ∃ e, points[if i ≥ points.length then 0 else i]? = some e ∧ IsSuccessor pos points x e := by
  intro i
  have hlength : 0 < points.length := List.length_pos_iff.mpr hne
  have hbelow : points.Pairwise fun a b => decide (pos b < x) = true → decide (pos a < x) = true :=
    hsorted.imp fun hab => by simpa using hab.trans_lt
  obtain ⟨⟨hbefore, hafter⟩, hle⟩ := binarySearch_splits hbelow 0 points.length nofun
    (fun j a hj ha => absurd (List.getElem?_eq_some_iff.mp ha).1 (by omega)) le_rfl (Nat.zero_le _)
  have hindex : ∀ e' ∈ points, ∃ j, points[j]? = some e' := fun e' he' =>
    List.mem_iff_getElem?.mp he'
  have hmono : ∀ {j k : ℕ} {a b : α}, j ≤ k → points[j]? = some a → points[k]? = some b → pos a ≤ pos b := by
    intro j k a b hjk ha hb
    rcases hjk.eq_or_lt with rfl | hjk
    · rw [ha] at hb
      exact (congrArg pos (Option.some.inj hb)).le
    · obtain ⟨hj, rfl⟩ := List.getElem?_eq_some_iff.mp ha
      obtain ⟨hk, rfl⟩ := List.getElem?_eq_some_iff.mp hb
      exact List.pairwise_iff_getElem.mp hsorted j k hj hk hjk
  by_cases hi : i ≥ points.length
  · -- all points are before the position
    have hall : ∀ e' ∈ points, pos e' < x := by
      intro e' he'
      obtain ⟨j, hj⟩ := hindex e' he'
      have hjl := (List.getElem?_eq_some_iff.mp hj).1
      simpa using hbefore j e' (by omega) hj
    refine ⟨points[0], by rw [if_pos hi, List.getElem?_eq_getElem], List.getElem_mem _, .inr ⟨hall, ?_⟩⟩
    intro e' he'
    obtain ⟨j, hj⟩ := hindex e' he'
    exact hmono (Nat.zero_le j) (List.getElem?_eq_getElem hlength) hj
  · have hlt : i < points.length := by omega
    have hx : x ≤ pos points[i] := by
      simpa using hafter i _ le_rfl (List.getElem?_eq_getElem hlt)
    refine ⟨points[i], by rw [if_neg hi, List.getElem?_eq_getElem], List.getElem_mem _,
      .inl ⟨hx, fun e' he' hxe' => ?_⟩⟩
    obtain ⟨j, hj⟩ := hindex e' he'
    have hij : i ≤ j := by
      by_contra hji
      have hbelow := hbefore j e' (by omega) hj
      simp only [decide_eq_true_eq] at hbelow
      omega
    exact hmono hij (List.getElem?_eq_getElem hlt) hj

end Ring

end NextgenDatabases.Foundations
