import NextgenDatabases.Raft.History
import NextgenDatabases.Foundations.Majority

/-!
# Election safety

When every leader was elected by a quorum of votes of its own term, a term has
one leader.
-/
namespace NextgenDatabases.Raft

open Foundations

variable {N E : Type*}

namespace History

variable (qs : QuorumSystem N) {h : History N E}

/-- A quorum voted for `c` in term `t`. -/
def Won (h : History N E) (t : ℕ) (c : N) : Prop :=
  ∃ Q, qs.IsQuorum Q ∧ ∀ v ∈ Q, ∃ l, h.vote v t = some (c, l)

/-- Every leader was elected by a quorum. -/
def Elected (h : History N E) : Prop :=
  ∀ t c L, h.leader t = some (c, L) → h.Won qs t c

/-- Elections happen by quorum. -/
def ByQuorum (h : History N E) : Event N E → Prop
  | .elect c => h.Won qs (h.term c) c
  | _ => True

variable {qs}

theorem Won.mono {h' : History N E} {t : ℕ} {c : N} (hw : h.Won qs t c)
    (hkeep : ∀ {v t x}, h.vote v t = some x → h'.vote v t = some x) : h'.Won qs t c := by
  obtain ⟨Q, hQ, hvote⟩ := hw
  refine ⟨Q, hQ, fun v hv => ?_⟩
  obtain ⟨l, hl⟩ := hvote v hv
  exact ⟨l, hkeep hl⟩

/-- One vote per node and term, so two candidates cannot both win a term. -/
theorem Won.unique {t : ℕ} {c d : N} (hc : h.Won qs t c) (hd : h.Won qs t d) : c = d := by
  obtain ⟨P, hP, hPv⟩ := hc
  obtain ⟨Q, hQ, hQv⟩ := hd
  obtain ⟨v, hvP, hvQ⟩ := qs.inter hP hQ
  obtain ⟨l, hl⟩ := hPv v hvP
  obtain ⟨m, hm⟩ := hQv v hvQ
  rw [hl, Option.some.injEq, Prod.mk.injEq] at hm
  exact hm.1

/-- A candidate with a quorum of votes is the only possible leader of the term. -/
theorem Elected.unique (he : h.Elected qs) {t : ℕ} {c d : N} {L : List E}
    (hL : h.leader t = some (c, L)) (hd : h.Won qs t d) : c = d :=
  (he t c L hL).unique hd

variable [DecidableEq N] [Termed E]

theorem elected_apply (hc : Coherent h) (hel : h.Elected qs) {e : Event N E} (he : h.Allowed e)
    (hq : h.ByQuorum qs e) : (h.apply e).Elected qs := by
  have hx := extends_apply hc he
  have hold : ∀ {t d L}, h.leader t = some (d, L) → (h.apply e).Won qs t d :=
    fun hL => (hel _ _ _ hL).mono hx.vote_keep
  intro t d L hL
  cases e with
  | elect c =>
    by_cases ht : t = h.term c
    · subst ht
      simp only [apply, Function.update_self, Option.some.injEq, Prod.mk.injEq] at hL
      exact hL.1 ▸ hq.mono hx.vote_keep
    · simp only [apply, Function.update_of_ne ht] at hL
      exact hold hL
  | append c e =>
    by_cases ht : t = h.term c
    · subst ht
      simp only [apply, Function.update_self, Option.some.injEq, Prod.mk.injEq] at hL
      exact hL.1 ▸ hold he.1
    · simp only [apply, Function.update_of_ne ht] at hL
      exact hold hL
  | adopt p t => exact hold hL
  | stand p => exact hold hL
  | grant v c => exact hold hL
  | accept p l => exact hold hL

end History

end NextgenDatabases.Raft
