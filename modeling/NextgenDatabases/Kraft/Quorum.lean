import NextgenDatabases.Kraft.Node
import NextgenDatabases.Foundations.Majority

/-!
# Counting acknowledgements

The value that `maybe_advance_commit` picks from the sorted match indices is one
that a quorum of nodes has reached.
-/
namespace NextgenDatabases.Kraft

variable {N : Type*} [DecidableEq N]

theorem sortDesc_perm (l : List ℕ) : (sortDesc l).Perm l := List.perm_insertionSort _ l

theorem sortDesc_pairwise (l : List ℕ) : (sortDesc l).Pairwise (· ≥ ·) :=
  List.pairwise_insertionSort _ l

/-- At least `k + 1` values reach the one at position `k` of the descending order. -/
theorem count_ge_of_sortDesc {l : List ℕ} {k n : ℕ} (hk : (sortDesc l)[k]? = some n) :
    k + 1 ≤ l.countP fun x => decide (n ≤ x) :=
  Foundations.count_ge_of_descending (sortDesc_perm l) (sortDesc_pairwise l) hk

/-- The peers whose match index has reached `n`. -/
def matched (m : AList fun _ : N => ℕ) (n : ℕ) : Finset N :=
  ((m.entries.filter fun e => decide (n ≤ e.2)).map Sigma.fst).toFinset

theorem mem_matched {m : AList fun _ : N => ℕ} {n : ℕ} {q : N} :
    q ∈ matched m n ↔ ∃ x, m.lookup q = some x ∧ n ≤ x := by
  simp only [matched, List.mem_toFinset, List.mem_map, List.mem_filter, decide_eq_true_eq]
  constructor
  · rintro ⟨⟨p, x⟩, ⟨hmem, hx⟩, rfl⟩
    exact ⟨x, AList.mem_lookup_iff.mpr hmem, hx⟩
  · rintro ⟨x, hq, hx⟩
    exact ⟨⟨q, x⟩, ⟨AList.mem_lookup_iff.mp hq, hx⟩, rfl⟩

theorem card_matched (m : AList fun _ : N => ℕ) (n : ℕ) :
    (matched m n).card = (mapValues m).countP fun x => decide (n ≤ x) := by
  have hnodup : ((m.entries.filter fun e => decide (n ≤ e.2)).map Sigma.fst).Nodup :=
    m.nodupKeys.sublist List.filter_sublist
  rw [matched, List.toFinset_card_of_nodup hnodup, List.length_map, mapValues, List.countP_map,
    List.countP_eq_length_filter]
  rfl

/-- When the commit index rises to `quorumMatch`, more than half of the peers and
the node itself have reached it. -/
theorem quorumMatch_le_card {s : State N} (hlt : s.commitIndex < quorumMatch s)
    (hle : quorumMatch s ≤ s.log.length) :
    (s.peers.length + 1) / 2 ≤ (matched s.matchIndex (quorumMatch s)).card := by
  have hat : (sortDesc (mapValues s.matchIndex ++ [s.log.length]))[(s.peers.length + 1) / 2]? =
      some (quorumMatch s) := by
    unfold quorumMatch at hlt ⊢
    simp only [enumAt, Int.natCast_nonneg, if_true, Int.toNat_natCast] at hlt ⊢
    cases hk : (sortDesc (mapValues s.matchIndex ++ [s.log.length]))[(s.peers.length + 1) / 2]? with
    | none => simp [hk] at hlt
    | some n => rfl
  have hcount := count_ge_of_sortDesc hat
  rw [List.countP_append, ← card_matched] at hcount
  simp only [List.countP_cons, List.countP_nil, hle, decide_true, if_true] at hcount
  omega

end NextgenDatabases.Kraft
