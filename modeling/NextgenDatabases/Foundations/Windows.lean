import Mathlib.Data.List.DropRight
import Mathlib.Data.Nat.Basic

/-!
# Sliding windows

Of a growing list of times those count that are less than a window before now. A list that is only
added to while fewer than a number count has no more than that in any window. Of a growing list of
entries a buffer has the last ones.
-/
namespace NextgenDatabases.Foundations

/-- The times in the window that ends now; a time in the future is in it. -/
def recent (window now : ℕ) (times : List ℕ) : List ℕ :=
  times.filter fun t => decide (now - t < window)

/-- The times in the window that starts at `x`. -/
def during (window x : ℕ) (times : List ℕ) : List ℕ :=
  times.filter fun t => decide (x ≤ t ∧ t < x + window)

variable {window now now' x n : ℕ} {times : List ℕ}

/-- What an earlier window has left out is out of a later one. -/
theorem recent_recent (h : now ≤ now') :
    recent window now' (recent window now times) = recent window now' times := by
  rw [recent, recent, recent, List.filter_filter]
  refine List.filter_congr fun t _ => ?_
  simp only [Bool.and_eq_decide, decide_eq_true_eq, decide_eq_decide, and_iff_left_iff_imp]
  omega

theorem recent_concat (hwindow : 0 < window) :
    recent window now (times ++ [now]) = recent window now times ++ [now] := by
  simp [recent, hwindow]

/-- A window that now is in has no more than the one that ends now. -/
theorem length_during_le (hx : now < x + window) :
    (during window x times).length ≤ (recent window now times).length := by
  refine List.Sublist.length_le (List.monotone_filter_right _ fun t => ?_)
  simp only [decide_eq_true_eq]
  omega

/-- A time is added while fewer than `n` are in the window that ends with it. -/
theorem length_during_concat (hfew : (recent window now times).length < n)
    (h : ∀ x, (during window x times).length ≤ n) (x : ℕ) :
    (during window x (times ++ [now])).length ≤ n := by
  rw [during, List.filter_append, List.length_append, ← during]
  by_cases hx : x ≤ now ∧ now < x + window
  · have hle := @length_during_le window now x times hx.2
    simp only [List.filter_singleton, hx, and_self, decide_true, cond_true, List.length_singleton]
    omega
  · simpa [List.filter_singleton, hx] using h x

/-! ### The last entries -/

section Last

variable {α : Type*} {l : List α}

theorem rtake_of_length_le (h : l.length ≤ n) : l.rtake n = l := by
  rw [List.rtake, Nat.sub_eq_zero_of_le h, List.drop_zero]

theorem length_rtake (l : List α) (n : ℕ) : (l.rtake n).length = min n l.length := by
  rw [List.rtake, List.length_drop]
  omega

theorem tail_rtake (h : n < l.length) : (l.rtake (n + 1)).tail = l.rtake n := by
  rw [List.rtake, List.rtake, List.tail_drop]
  congr 1
  omega

end Last

end NextgenDatabases.Foundations
