import Mathlib.Data.List.Forall2

/-!
# The first failure

A traversal of a list either succeeds at every element or ends with the error of the first
element at which it fails. Loops over the pairs of a list find the first pair that is related.
-/
namespace NextgenDatabases.Foundations

variable {α β ε : Type} {f : α → Except ε β}

theorem mapM_cons_of_ok {a : α} {b : β} {l : List α} (h : f a = .ok b) :
    (a :: l).mapM f = (b :: ·) <$> l.mapM f := by
  rw [List.mapM_cons, h]
  cases l.mapM f <;> rfl

theorem mapM_cons_of_error {a : α} {e : ε} {l : List α} (h : f a = .error e) :
    (a :: l).mapM f = .error e := by
  rw [List.mapM_cons, h]
  rfl

theorem mapM_eq_ok_iff {l : List α} {bs : List β} :
    l.mapM f = .ok bs ↔ List.Forall₂ (fun a b => f a = .ok b) l bs := by
  induction l generalizing bs with
  | nil =>
    rw [List.forall₂_nil_left_iff, List.mapM_nil]
    constructor
    · intro h
      exact (Except.ok.inj h).symm
    · rintro rfl
      rfl
  | cons a l ih =>
    rw [List.forall₂_cons_left_iff]
    cases h : f a with
    | error e =>
      rw [mapM_cons_of_error h]
      simp
    | ok b =>
      rw [mapM_cons_of_ok h]
      cases hl : l.mapM f with
      | error e =>
        constructor
        · intro hmap
          cases hmap
        · rintro ⟨b', bs', -, hrest, -⟩
          rw [← ih, hl] at hrest
          cases hrest
      | ok bs' =>
        constructor
        · intro hmap
          cases hmap
          exact ⟨b, bs', rfl, ih.1 hl, rfl⟩
        · rintro ⟨b', bs'', hb, hrest, rfl⟩
          cases hb
          rw [← ih, hl] at hrest
          cases hrest
          rfl

theorem mapM_eq_error_iff {l : List α} {e : ε} :
    l.mapM f = .error e ↔ ∃ before a after, l = before ++ a :: after ∧
      (∀ a' ∈ before, ∃ b, f a' = .ok b) ∧ f a = .error e := by
  induction l with
  | nil =>
    constructor
    · intro h
      cases h
    · rintro ⟨before, a, after, h, -⟩
      simp at h
  | cons a l ih =>
    cases h : f a with
    | error e' =>
      rw [mapM_cons_of_error h]
      constructor
      · intro he
        cases he
        exact ⟨[], a, l, rfl, by simp, h⟩
      · rintro ⟨before, a', after, hl, hbefore, ha'⟩
        cases before with
        | nil =>
          obtain ⟨rfl, rfl⟩ := List.cons.inj hl
          rw [h] at ha'
          cases ha'
          rfl
        | cons b before =>
          obtain ⟨rfl, rfl⟩ := List.cons.inj hl
          obtain ⟨c, hc⟩ := hbefore a (by simp)
          rw [h] at hc
          cases hc
    | ok b =>
      have hmap : (a :: l).mapM f = .error e ↔ l.mapM f = .error e := by
        rw [mapM_cons_of_ok h]
        cases l.mapM f <;> simp
      rw [hmap, ih]
      constructor
      · rintro ⟨before, a', after, rfl, hbefore, ha'⟩
        exact ⟨a :: before, a', after, rfl, by simpa [h] using hbefore, ha'⟩
      · rintro ⟨before, a', after, hl, hbefore, ha'⟩
        cases before with
        | nil =>
          obtain ⟨rfl, rfl⟩ := List.cons.inj hl
          rw [h] at ha'
          cases ha'
        | cons b' before =>
          obtain ⟨rfl, rfl⟩ := List.cons.inj hl
          exact ⟨before, a', after, rfl, fun x hx => hbefore x (by simp [hx]), ha'⟩

/-- A traversal that succeeds at every element succeeds. -/
theorem mapM_ok_of_forall {l : List α} (h : ∀ a ∈ l, ∃ b, f a = .ok b) :
    ∃ bs, l.mapM f = .ok bs := by
  cases hl : l.mapM f with
  | ok bs => exact ⟨bs, rfl⟩
  | error e =>
    obtain ⟨before, a, after, rfl, -, ha⟩ := mapM_eq_error_iff.1 hl
    obtain ⟨b, hb⟩ := h a (by simp)
    rw [ha] at hb
    cases hb

theorem ok_of_mapM_ok {l : List α} {bs : List β} (h : l.mapM f = .ok bs) :
    ∀ a ∈ l, ∃ b, f a = .ok b := by
  rw [mapM_eq_ok_iff] at h
  induction h with
  | nil => simp
  | cons hab _ ih =>
    intro a' ha'
    rcases List.mem_cons.1 ha' with rfl | ha'
    · exact ⟨_, hab⟩
    · exact ih a' ha'

/-! ### Pairs -/

/-- The pairs of elements at different places, as two nested loops go through them. -/
def orderedPairs {α : Type} : List α → List (α × α)
  | [] => []
  | a :: l => l.map (a, ·) ++ orderedPairs l

section Pairs

variable {α : Type} {R : α → α → Prop} {l : List α} {x y : α}

theorem forall_mem_orderedPairs : (∀ p ∈ orderedPairs l, R p.1 p.2) ↔ l.Pairwise R := by
  induction l with
  | nil => simp [orderedPairs]
  | cons a l ih => simp [orderedPairs, or_imp, forall_and, ← ih]

/-- The first pair, in the order of the loops, that is related. -/
structure FirstPair (R : α → α → Prop) (l : List α) (x y : α) : Prop where
  rel : R x y
  place : ∃ before mid after, l = before ++ x :: (mid ++ y :: after) ∧
    before.Pairwise (fun a b => ¬ R a b) ∧ (∀ a ∈ before, ∀ b ∈ x :: (mid ++ y :: after), ¬ R a b) ∧
    ∀ b ∈ mid, ¬ R x b

theorem FirstPair.cons {a : α} (h : FirstPair R l x y) (ha : ∀ b ∈ l, ¬ R a b) :
    FirstPair R (a :: l) x y where
  rel := h.rel
  place := by
    obtain ⟨before, mid, after, rfl, hbefore, hrest, hmid⟩ := h.place
    refine ⟨a :: before, mid, after, rfl, List.pairwise_cons.mpr ⟨fun b hb => ?_, hbefore⟩, ?_,
      hmid⟩
    · exact ha b (List.mem_append_left _ hb)
    · rintro c hc b hb
      rcases List.mem_cons.mp hc with rfl | hc
      · exact ha b (List.mem_append_right _ hb)
      · exact hrest c hc b hb

theorem FirstPair.cons_inv {a : α} (h : FirstPair R (a :: l) x y) :
    (a = x ∧ ∃ mid after, l = mid ++ y :: after ∧ ∀ b ∈ mid, ¬ R x b) ∨
      (∀ b ∈ l, ¬ R a b) ∧ FirstPair R l x y := by
  obtain ⟨before, mid, after, hl, hbefore, hrest, hmid⟩ := h.place
  cases before with
  | nil =>
    obtain ⟨rfl, rfl⟩ := List.cons.inj hl
    exact .inl ⟨rfl, mid, after, rfl, hmid⟩
  | cons c before =>
    obtain ⟨rfl, rfl⟩ := List.cons.inj hl
    obtain ⟨ha, hbefore⟩ := List.pairwise_cons.mp hbefore
    refine .inr ⟨fun b hb => ?_, h.rel, before, mid, after, rfl, hbefore, ?_, hmid⟩
    · rcases List.mem_append.mp hb with hb | hb
      · exact ha b hb
      · exact hrest a List.mem_cons_self b hb
    · exact fun d hd => hrest d (List.mem_cons_of_mem a hd)

theorem find_orderedPairs_iff {p : α × α → Bool} :
    (orderedPairs l).find? p = some (x, y) ↔ FirstPair (fun a b => p (a, b) = true) l x y := by
  induction l with
  | nil =>
    constructor
    · exact fun h => absurd h (by simp [orderedPairs])
    · rintro ⟨-, before, mid, after, h, -⟩
      simp at h
  | cons a l ih =>
    rw [orderedPairs, List.find?_append, List.find?_map]
    cases hfind : l.find? (p ∘ (a, ·)) with
    | some z =>
      obtain ⟨hz, mid, after, rfl, hmid⟩ := List.find?_eq_some_iff_append.mp hfind
      have hnot : ∀ b ∈ mid, ¬ p (a, b) = true := fun b hb => by simpa using hmid b hb
      constructor
      · intro h
        obtain ⟨rfl, rfl⟩ := Prod.mk.inj (Option.some.inj h)
        exact ⟨hz, [], mid, after, rfl, .nil, fun _ hc => absurd hc List.not_mem_nil, hnot⟩
      · intro h
        -- the first pair has the head of the list, or nothing is related to the head
        rcases h.cons_inv with ⟨rfl, mid', after', hl, hmid'⟩ | ⟨hall, -⟩
        · have hy : (mid ++ z :: after).find? (p ∘ (a, ·)) = some y :=
            List.find?_eq_some_iff_append.mpr
              ⟨h.rel, mid', after', hl, fun b hb => by simpa using hmid' b hb⟩
          rw [hfind] at hy
          obtain rfl := Option.some.inj hy
          rfl
        · exact absurd hz (hall z (by simp))
    | none =>
      have hnone : ∀ b ∈ l, ¬ p (a, b) = true := by simpa using hfind
      change (orderedPairs l).find? p = some (x, y) ↔ _
      rw [ih]
      constructor
      · exact fun h => h.cons hnone
      · intro h
        rcases h.cons_inv with ⟨rfl, mid, after, rfl, -⟩ | ⟨-, h⟩
        · exact absurd h.rel (hnone y (by simp))
        · exact h

/-- A loop that keeps what it finds first. -/
theorem foldl_first (p : α → Bool) (l : List α) (found : Option α) :
    l.foldl (fun found a => if p a && found.isNone then some a else found) found =
      found.or (l.find? p) := by
  induction l generalizing found with
  | nil => simp
  | cons a l ih =>
    rw [List.foldl_cons, ih, List.find?_cons]
    cases found <;> cases p a <;> rfl

/-- A loop that takes its mark back. -/
theorem foldl_unless (p : α → Bool) (l : List α) (ok : Bool) :
    l.foldl (fun ok a => if !p a then false else ok) ok = (ok && l.all p) := by
  induction l generalizing ok with
  | nil => simp
  | cons a l ih =>
    rw [List.foldl_cons, ih, List.all_cons]
    cases ok <;> cases p a <;> rfl

end Pairs

end NextgenDatabases.Foundations
