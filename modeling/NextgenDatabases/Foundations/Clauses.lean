import Mathlib.Data.List.Pairwise
import Mathlib.Logic.Relation

/-!
# Optional clauses in a fixed order

A reader that tries every optional clause once, in order, and passes over the ones it cannot
read, set against the texts that are a sequence of such clauses.
-/
namespace NextgenDatabases.Foundations

open Relation (ReflTransGen)

variable {σ ν : Type}

/-- A clause is read only from a text that starts with its keyword. -/
structure Clause (σ ν : Type) where
  name : ν
  starts : σ → Prop
  read : σ → Option σ
  starts_of_read : ∀ {s t}, read s = some t → starts s

namespace Clause

/-- The text after the clause, which may be absent. -/
def rest (c : Clause σ ν) (s : σ) : σ := (c.read s).getD s

/-- The clauses read and the text left over. -/
def greedy : List (Clause σ ν) → σ → List ν × σ
  | [], s => ([], s)
  | c :: cs, s =>
    match c.read s with
    | some t => (c.name :: (greedy cs t).1, (greedy cs t).2)
    | none => greedy cs s

/-- Some of the clauses, in their order, make up the whole text. -/
inductive Sequence (finished : σ → Prop) : List (Clause σ ν) → σ → List ν → Prop
  | done {cs s} : finished s → Sequence finished cs s []
  | read {c cs s t ks} : c.read s = some t → Sequence finished cs t ks →
      Sequence finished (c :: cs) s (c.name :: ks)
  | skip {c cs s ks} : Sequence finished cs s ks → Sequence finished (c :: cs) s ks

/-- One of the clauses is read. -/
def Advances (cs : List (Clause σ ν)) (s t : σ) : Prop :=
  ∃ c ∈ cs, c.read s = some t

/-- No text starts with two of the clauses, and none that is finished starts with one. -/
structure Apart (finished : σ → Prop) (cs : List (Clause σ ν)) : Prop where
  exclusive : cs.Pairwise fun c d => ∀ s, c.starts s → ¬ d.starts s
  pending : ∀ c ∈ cs, ∀ s, c.starts s → ¬ finished s

section

variable {finished : σ → Prop} {c : Clause σ ν} {cs : List (Clause σ ν)} {s t u : σ}
  {ks : List ν}

theorem greedy_cons_of_read (h : c.read s = some t) :
    greedy (c :: cs) s = (c.name :: (greedy cs t).1, (greedy cs t).2) := by
  rw [greedy, h]

theorem greedy_cons_of_not_read (h : c.read s = none) : greedy (c :: cs) s = greedy cs s := by
  rw [greedy, h]

theorem greedy_nil : greedy ([] : List (Clause σ ν)) s = ([], s) := rfl

theorem greedy_cons_snd : (greedy (c :: cs) s).2 = (greedy cs (c.rest s)).2 := by
  unfold rest
  cases hread : c.read s with
  | none =>
    rw [greedy_cons_of_not_read hread]
    rfl
  | some t =>
    rw [greedy_cons_of_read hread]
    rfl

theorem mem_greedy_cons {k : ν} : k ∈ (greedy (c :: cs) s).1 ↔
    k = c.name ∧ c.read s ≠ none ∨ k ∈ (greedy cs (c.rest s)).1 := by
  unfold rest
  cases hread : c.read s with
  | none => simp [greedy_cons_of_not_read hread]
  | some t => simp [greedy_cons_of_read hread]

theorem Apart.of_cons (h : Apart finished (c :: cs)) : Apart finished cs := by
  constructor
  · exact (List.pairwise_cons.mp h.exclusive).2
  · intro d hd
    exact h.pending d (List.mem_cons_of_mem c hd)

theorem greedy_of_finished (h : Apart finished cs) (hs : finished s) :
    greedy cs s = ([], s) := by
  induction cs with
  | nil => rfl
  | cons c cs ih =>
    have hnone : c.read s = none := by
      cases hread : c.read s with
      | none => rfl
      | some t =>
        exact absurd hs (h.pending c List.mem_cons_self s (c.starts_of_read hread))
    rw [greedy_cons_of_not_read hnone, ih h.of_cons]

/-- A sequence of the later clauses does not start with an earlier one. -/
theorem Sequence.not_starts (h : Apart finished (c :: cs)) (hseq : Sequence finished cs s ks) :
    ¬ c.starts s := by
  intro hc
  induction hseq with
  | done hs => exact h.pending c List.mem_cons_self _ hc hs
  | @read d cs s t ks hread _ _ =>
    exact (List.pairwise_cons.mp h.exclusive).1 d List.mem_cons_self s hc
      (d.starts_of_read hread)
  | @skip d cs s ks _ ih =>
    apply ih _ hc
    constructor
    · exact h.exclusive.sublist (List.Sublist.cons_cons c (List.sublist_cons_self d cs))
    · intro b hb
      apply h.pending
      simp only [List.mem_cons] at hb ⊢
      exact hb.imp_right Or.inr

/-- Reading the clauses greedily loses no sequence of them. -/
theorem sequence_iff (h : Apart finished cs) :
    Sequence finished cs s ks ↔ (greedy cs s).1 = ks ∧ finished (greedy cs s).2 := by
  constructor
  · intro hseq
    induction hseq with
    | done hs =>
      rw [greedy_of_finished h hs]
      exact ⟨rfl, hs⟩
    | read hread _ ih =>
      rw [greedy_cons_of_read hread]
      have hrest := ih h.of_cons
      exact ⟨congrArg _ hrest.1, hrest.2⟩
    | @skip c cs s ks hseq ih =>
      have hnone : c.read s = none := by
        cases hread : c.read s with
        | none => rfl
        | some t => exact absurd (c.starts_of_read hread) (hseq.not_starts h)
      rw [greedy_cons_of_not_read hnone]
      exact ih h.of_cons
  · rintro ⟨rfl, hfin⟩
    induction cs generalizing s with
    | nil => exact .done hfin
    | cons c cs ih =>
      cases hread : c.read s with
      | none =>
        rw [greedy_cons_of_not_read hread] at hfin ⊢
        exact .skip (ih h.of_cons hfin)
      | some t =>
        rw [greedy_cons_of_read hread] at hfin ⊢
        exact .read hread (ih h.of_cons hfin)

/-! ### A clause in any place -/

theorem Apart.eq_of_starts {d : Clause σ ν} (h : Apart finished cs) (hc : c ∈ cs) (hd : d ∈ cs)
    (hcs : c.starts s) (hds : d.starts s) : c = d := by
  have hsymm : Std.Symm fun c d : Clause σ ν => ∀ s, c.starts s → ¬ d.starts s :=
    ⟨fun _ _ hab s hb ha => hab s ha hb⟩
  by_contra hne
  exact h.exclusive.forall hc hd hne s hcs hds

/-- In a sequence, a clause the text starts with is one of those that make it up. -/
theorem Sequence.mem_of_starts {all : List (Clause σ ν)} (h : Apart finished all)
    (hsub : cs ⊆ all) (hc : c ∈ all) (hseq : Sequence finished cs s ks) (hstarts : c.starts s) :
    c.name ∈ ks := by
  induction hseq with
  | done hs => exact absurd hs (h.pending c hc _ hstarts)
  | @read d cs s t ks hread _ _ =>
    have heq : c = d := h.eq_of_starts hc (hsub List.mem_cons_self) hstarts
      (d.starts_of_read hread)
    rw [heq]
    exact List.mem_cons_self
  | @skip d cs s ks _ ih => exact ih (fun b hb => hsub (List.mem_cons_of_mem d hb)) hstarts

/-- Reading a clause of a sequence leaves a sequence of the clauses after it. -/
theorem Sequence.advance {all : List (Clause σ ν)} (h : Apart finished all)
    (hsub : cs ⊆ all) (hc : c ∈ all) (hseq : Sequence finished cs s ks)
    (hread : c.read s = some t) : ∃ ds ⊆ all, ∃ ls ⊆ ks, Sequence finished ds t ls := by
  induction hseq with
  | done hs => exact absurd hs (h.pending c hc _ (c.starts_of_read hread))
  | @read d cs s t' ks hread' hseq _ =>
    have heq : c = d := h.eq_of_starts hc (hsub List.mem_cons_self) (c.starts_of_read hread)
      (d.starts_of_read hread')
    subst heq
    rw [hread] at hread'
    cases hread'
    exact ⟨cs, fun b hb => hsub (List.mem_cons_of_mem c hb), ks,
      List.subset_cons_self c.name ks, hseq⟩
  | @skip d cs s ks _ ih => exact ih (fun b hb => hsub (List.mem_cons_of_mem d hb)) hread

theorem Sequence.mem_of_advances {all : List (Clause σ ν)} (h : Apart finished all)
    (hsub : cs ⊆ all) (hc : c ∈ all) (hseq : Sequence finished cs s ks)
    (hadv : ReflTransGen (Advances all) s u) (hstarts : c.starts u) : c.name ∈ ks := by
  induction hadv using ReflTransGen.head_induction_on generalizing cs ks with
  | refl => exact hseq.mem_of_starts h hsub hc hstarts
  | head hstep _ ih =>
    obtain ⟨d, hd, hread⟩ := hstep
    obtain ⟨ds, hds, ls, hls, hrest⟩ := hseq.advance h hsub hd hread
    exact hls (ih hds hrest)

end

end Clause

end NextgenDatabases.Foundations
