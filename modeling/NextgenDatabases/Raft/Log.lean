import Mathlib.Data.List.Infix
import Mathlib.Data.List.TakeDrop

/-!
# Replicated logs

Entries carry the term in which they were created. Logs are lists, and one log
being a prefix of another is the only order on logs that the theory needs.
-/
namespace NextgenDatabases.Raft

/-- Entries that carry the term in which they were created. -/
class Termed (E : Type*) where
  termOf : E → ℕ

open Termed (termOf)

variable {E : Type*} [Termed E]

/-- Term of the last entry; `0` for the empty log. -/
def lastTerm (l : List E) : ℕ := (l.getLast?.map termOf).getD 0

/-- The election restriction: the candidate's log is at least as up to date as
the voter's. -/
def UpToDate (cand voter : List E) : Prop :=
  lastTerm voter < lastTerm cand ∨ lastTerm cand = lastTerm voter ∧ voter.length ≤ cand.length

theorem UpToDate.refl (l : List E) : UpToDate l l := Or.inr ⟨rfl, le_rfl⟩

@[simp] theorem lastTerm_nil : lastTerm ([] : List E) = 0 := rfl

theorem lastTerm_eq {l : List E} {e : E} (h : l[l.length - 1]? = some e) :
    lastTerm l = termOf e := by
  rw [← List.getLast?_eq_getElem?] at h
  simp [lastTerm, h]

theorem exists_last {l : List E} (h : l ≠ []) :
    ∃ e, l[l.length - 1]? = some e ∧ lastTerm l = termOf e := by
  have hlt : l.length - 1 < l.length := by
    have := List.length_pos_iff.mpr h
    omega
  exact ⟨l[l.length - 1], List.getElem?_eq_getElem hlt, lastTerm_eq (List.getElem?_eq_getElem hlt)⟩

omit [Termed E] in
theorem prefix_total {a b l : List E} (ha : a <+: l) (hb : b <+: l) : a <+: b ∨ b <+: a :=
  List.prefix_or_prefix_of_prefix ha hb

omit [Termed E] in
theorem take_eq_of_isPrefix {a b l : List E} {n : ℕ} (ha : a.take n <+: l) (hb : b.take n <+: l)
    (hna : n ≤ a.length) (hnb : n ≤ b.length) : a.take n = b.take n := by
  apply List.IsPrefix.eq_of_length (List.prefix_of_prefix_length_le ha hb _)
  · simp [hna, hnb]
  · simp [hna, hnb]

omit [Termed E] in
theorem getElem?_of_isPrefix {a l : List E} {k : ℕ} {e : E} (h : a <+: l) (hk : a[k]? = some e) :
    l[k]? = some e := by
  obtain ⟨r, rfl⟩ := h
  rw [List.getElem?_append_left (List.getElem?_eq_some_iff.mp hk).1, hk]

omit [Termed E] in
/-- The last position of the prefix of length `k + 1` of a log is position `k`. -/
theorem getLast?_take_succ {l : List E} {k : ℕ} {e : E} (h : l[k]? = some e) :
    (l.take (k + 1)).getLast? = some e := by
  have hk := (List.getElem?_eq_some_iff.mp h).1
  rw [List.getLast?_eq_getElem?, List.length_take_of_le (by omega), List.getElem?_take]
  simp [h]

end NextgenDatabases.Raft
