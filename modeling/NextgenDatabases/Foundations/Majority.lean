import Mathlib.Data.Finset.Card
import Mathlib.Data.List.Sort

/-!
# Quorums

A quorum system is a family of sets any two of which share a member. Majorities
of a finite set of members form one. In a descending order of numbers, a position
says how many of them reach its value.
-/
namespace NextgenDatabases.Foundations

/-- A family of sets, any two of which share a member. -/
structure QuorumSystem (N : Type*) where
  IsQuorum : Finset N → Prop
  inter : ∀ {P Q : Finset N}, IsQuorum P → IsQuorum Q → ∃ v, v ∈ P ∧ v ∈ Q

variable {N : Type*} [DecidableEq N]

/-- More than half of the members. -/
def IsMajority (members Q : Finset N) : Prop :=
  Q ⊆ members ∧ members.card < 2 * Q.card

instance (members Q : Finset N) : Decidable (IsMajority members Q) :=
  inferInstanceAs (Decidable (_ ∧ _))

/-- Majorities before and after one member is added share a member. -/
theorem IsMajority.inter_of_subset {A B P Q : Finset N} (hsub : A ⊆ B) (hone : B.card ≤ A.card + 1)
    (hP : IsMajority A P) (hQ : IsMajority B Q) : ∃ v, v ∈ P ∧ v ∈ Q := by
  have hunion : (P ∪ Q).card ≤ B.card :=
    Finset.card_le_card (Finset.union_subset (hP.1.trans hsub) hQ.1)
  have hsum := Finset.card_union_add_card_inter P Q
  have hpos : 0 < (P ∩ Q).card := by
    have := hP.2
    have := hQ.2
    omega
  obtain ⟨v, hv⟩ := Finset.card_pos.mp hpos
  exact ⟨v, Finset.mem_of_mem_inter_left hv, Finset.mem_of_mem_inter_right hv⟩

theorem IsMajority.inter {members P Q : Finset N} (hP : IsMajority members P)
    (hQ : IsMajority members Q) : ∃ v, v ∈ P ∧ v ∈ Q :=
  hP.inter_of_subset subset_rfl (Nat.le_succ _) hQ

def majority (members : Finset N) : QuorumSystem N where
  IsQuorum := IsMajority members
  inter := IsMajority.inter

/-- At least `k + 1` values reach the one at position `k` of their descending order. -/
theorem count_ge_of_descending {l s : List ℕ} (hperm : s.Perm l) (hdesc : s.Pairwise (· ≥ ·))
    {k n : ℕ} (hk : s[k]? = some n) : k + 1 ≤ l.countP fun x => decide (n ≤ x) := by
  obtain ⟨hlt, hget⟩ := List.getElem?_eq_some_iff.mp hk
  have hall : ∀ x ∈ s.take (k + 1), n ≤ x := by
    intro x hx
    obtain ⟨i, hi, rfl⟩ := List.mem_iff_getElem.mp hx
    rw [List.length_take] at hi
    rw [List.getElem_take]
    rcases Nat.lt_or_ge i k with hik | hik
    · exact hget ▸ List.pairwise_iff_getElem.mp hdesc i k (by omega) hlt hik
    · have heq : i = k := by omega
      subst heq
      exact hget.ge
  calc k + 1 = (s.take (k + 1)).length := (List.length_take_of_le hlt).symm
    _ = (s.take (k + 1)).countP fun x => decide (n ≤ x) := by
      rw [eq_comm, List.countP_eq_length]
      simpa using hall
    _ ≤ s.countP fun x => decide (n ≤ x) := (List.take_sublist _ _).countP_le
    _ = l.countP fun x => decide (n ≤ x) := hperm.countP_eq _

/-! ### Small clusters -/

instance neZero_three : @NeZero ℕ Zero.ofOfNat0 3 := ⟨by decide⟩

instance neZero_four : @NeZero ℕ Zero.ofOfNat0 4 := ⟨by decide⟩

instance neZero_five : @NeZero ℕ Zero.ofOfNat0 5 := ⟨by decide⟩

end NextgenDatabases.Foundations
