import Mathlib.Logic.Function.Basic

/-!
# Buckets

Maps from keys to lists, which grow by a push under one key or under several.
-/
namespace NextgenDatabases.Foundations

/-- A key without an entry has no list. -/
abbrev Buckets (κ α : Type) := κ → Option (List α)

namespace Buckets

variable {κ α : Type} [DecidableEq κ]

/-- A missing entry is made first. -/
def push (out : Buckets κ α) (k : κ) (item : α) : Buckets κ α :=
  Function.update out k (some ((out k).getD [] ++ [item]))

def broadcast (out : Buckets κ α) (ks : List κ) (item : α) : Buckets κ α :=
  ks.foldl (fun out k => out.push k item) out

variable {out : Buckets κ α} {ks : List κ} {item : α} {k : κ}

theorem push_self : out.push k item k = some ((out k).getD [] ++ [item]) :=
  Function.update_self ..

theorem push_of_ne {l : κ} (h : l ≠ k) : out.push k item l = out l :=
  Function.update_of_ne h ..

theorem broadcast_cons {l : κ} : out.broadcast (l :: ks) item = (out.push l item).broadcast ks item :=
  rfl

theorem broadcast_of_not_mem (h : k ∉ ks) : out.broadcast ks item k = out k := by
  induction ks generalizing out with
  | nil => rfl
  | cons l ks ih =>
    rw [List.mem_cons, not_or] at h
    rw [broadcast_cons, ih h.2, push_of_ne h.1]

theorem broadcast_of_mem (hnodup : ks.Nodup) (h : k ∈ ks) :
    out.broadcast ks item k = some ((out k).getD [] ++ [item]) := by
  induction ks generalizing out with
  | nil => cases h
  | cons l ks ih =>
    obtain ⟨hl, hks⟩ := List.nodup_cons.mp hnodup
    rw [broadcast_cons]
    rcases List.mem_cons.mp h with rfl | hmem
    · rw [broadcast_of_not_mem hl, push_self]
    · have hne : k ≠ l := by
        rintro rfl
        exact hl hmem
      rw [ih hks hmem, push_of_ne hne]

/-- A push under every key that has an entry. -/
theorem broadcast_eq_map (hnodup : ks.Nodup) (hkeys : ∀ k, out k ≠ none ↔ k ∈ ks) :
    out.broadcast ks item = fun k => (out k).map (· ++ [item]) := by
  funext k
  by_cases h : k ∈ ks
  · obtain ⟨l, hl⟩ := Option.ne_none_iff_exists'.mp ((hkeys k).mpr h)
    rw [broadcast_of_mem hnodup h, hl]
    rfl
  · have hnone : out k = none := by
      by_contra hne
      exact h ((hkeys k).mp hne)
    rw [broadcast_of_not_mem h, hnone]
    rfl

theorem push_eq_map (h : out k ≠ none) :
    out.push k item = fun l => (out l).map (· ++ if l = k then [item] else []) := by
  funext l
  by_cases hl : l = k
  · subst hl
    obtain ⟨items, hitems⟩ := Option.ne_none_iff_exists'.mp h
    rw [push_self, hitems, if_pos rfl]
    rfl
  · rw [push_of_ne hl, if_neg hl]
    cases out l <;> simp

omit [DecidableEq κ] in
/-- If each step appends at most one item under a key, a run appends them in turn. -/
theorem getD_foldl {ι : Type} {step : Buckets κ α → ι → Buckets κ α} {g : ι → Option α}
    (hstep : ∀ out i, (step out i k).getD [] = (out k).getD [] ++ (g i).toList) (l : List ι)
    (out : Buckets κ α) :
    ((l.foldl step out) k).getD [] = (out k).getD [] ++ l.filterMap g := by
  induction l generalizing out with
  | nil => simp
  | cons i l ih =>
    rw [List.foldl_cons, ih, hstep]
    cases h : g i <;> simp [h]

end Buckets

end NextgenDatabases.Foundations
