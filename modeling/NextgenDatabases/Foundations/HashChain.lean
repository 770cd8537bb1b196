import Mathlib.Data.List.Induction

/-!
# Hash chains

Every record of a chain carries the digest of its own content and that of the record before
it; the first one carries a fixed digest in the place of the latter. If different contents have
different digests, the digest of the last record determines the whole chain.
-/
namespace NextgenDatabases.Foundations.HashChain

variable {ρ δ : Type*} (parent content digest : ρ → δ)

/-- The records follow each other, and each one has its own digest. -/
def Linked : δ → List ρ → Prop
  | _, [] => True
  | expected, r :: rs => parent r = expected ∧ content r = digest r ∧ Linked (content r) rs

/-- The digest that the next record has to name. -/
def head (genesis : δ) (rs : List ρ) : δ := (rs.getLast?.map content).getD genesis

@[simp] theorem head_nil (genesis : δ) : head content genesis [] = genesis := rfl

@[simp] theorem head_append (genesis : δ) (rs : List ρ) (r : ρ) :
    head content genesis (rs ++ [r]) = content r := by
  simp [head]

theorem head_cons (genesis : δ) (r : ρ) (rs : List ρ) :
    head content genesis (r :: rs) = head content (content r) rs := by
  cases h : rs.getLast? with
  | none => simp [head, List.getLast?_cons, h]
  | some s => simp [head, List.getLast?_cons, h]

theorem linked_append (genesis : δ) (rs : List ρ) (r : ρ) :
    Linked parent content digest genesis (rs ++ [r]) ↔
      Linked parent content digest genesis rs ∧
        parent r = head content genesis rs ∧ content r = digest r := by
  induction rs generalizing genesis with
  | nil => simp [Linked]
  | cons s rs ih =>
    rw [List.cons_append, Linked, Linked, ih, head_cons]
    tauto

variable {parent content digest}

/-- Two chains with one head are the same, if no two of their records have the same digest and
none has that of the beginning. -/
theorem Linked.eq_of_head {genesis : δ} {as bs : List ρ}
    (ha : Linked parent content digest genesis as) (hb : Linked parent content digest genesis bs)
    (hgenesis : ∀ r ∈ as ++ bs, digest r ≠ genesis)
    (hinj : ∀ r ∈ as, ∀ s ∈ bs, content r = digest r → content s = digest s →
      digest r = digest s → r = s)
    (hhead : head content genesis as = head content genesis bs) : as = bs := by
  induction as using List.reverseRecOn generalizing bs with
  | nil =>
    cases bs using List.reverseRecOn with
    | nil => rfl
    | append_singleton bs s =>
      rw [linked_append] at hb
      rw [head_nil, head_append, hb.2.2] at hhead
      exact absurd hhead.symm (hgenesis s (by simp))
  | append_singleton as r ih =>
    rw [linked_append] at ha
    obtain ⟨ha, hparent, hcontent⟩ := ha
    cases bs using List.reverseRecOn with
    | nil =>
      rw [head_nil, head_append, hcontent] at hhead
      exact absurd hhead (hgenesis r (by simp))
    | append_singleton bs s =>
      rw [linked_append] at hb
      obtain ⟨hb, hparent', hcontent'⟩ := hb
      rw [head_append, head_append] at hhead
      have hrs : r = s := hinj r (by simp) s (by simp) hcontent hcontent'
        (by rw [← hcontent, ← hcontent', hhead])
      subst hrs
      have hrest : as = bs := by
        apply ih ha hb
        · intro t ht
          apply hgenesis t
          simp only [List.mem_append] at ht ⊢
          tauto
        · intro t ht u hu
          exact hinj t (by simp [ht]) u (by simp [hu])
        · rw [← hparent, ← hparent']
      rw [hrest]

end NextgenDatabases.Foundations.HashChain
