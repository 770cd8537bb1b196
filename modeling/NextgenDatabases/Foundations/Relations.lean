import Mathlib.Data.Set.Function
import Mathlib.Logic.Embedding.Basic

/-!
# Joins and functional dependencies

Relations over a type of attributes. A decomposition that keeps every dependency within one of
its schemas loses nothing just when one of them determines all attributes.
-/
namespace NextgenDatabases.Foundations

variable {α V ι : Type*}

/-- Two tuples agree on a set of attributes. -/
def AgreeOn (X : Set α) (t u : α → V) : Prop := ∀ a ∈ X, t a = u a

structure Dependency (α : Type*) where
  determinant : Set α
  dependent : Set α

/-- Tuples that agree on the determinant agree on the dependent attributes. -/
def Dependency.Holds (d : Dependency α) (r : Set (α → V)) : Prop :=
  ∀ t ∈ r, ∀ u ∈ r, AgreeOn d.determinant t u → AgreeOn d.dependent t u

/-- The attributes that `X` determines by the dependencies of `F`. -/
inductive Determined (F : Set (Dependency α)) (X : Set α) : α → Prop
  | base {a : α} : a ∈ X → Determined F X a
  | step {d : Dependency α} {a : α} : d ∈ F → (∀ b ∈ d.determinant, Determined F X b) →
    a ∈ d.dependent → Determined F X a

/-- The projection of a relation onto a set of attributes. -/
def project (X : Set α) (r : Set (α → V)) : Set (X → V) := (X.domRestrict ·) '' r

/-- The tuples with every restriction in the relation over that schema. -/
def naturalJoin (schemas : ι → Set α) (parts : ∀ i, Set (schemas i → V)) : Set (α → V) :=
  {t | ∀ i, (schemas i).domRestrict t ∈ parts i}

variable {F : Set (Dependency α)} {schemas : ι → Set α} {r : Set (α → V)}

theorem restrict_mem_project {X : Set α} {t : α → V} :
    X.domRestrict t ∈ project X r ↔ ∃ u ∈ r, AgreeOn X u t := by
  constructor
  · rintro ⟨u, hu, heq⟩
    exact ⟨u, hu, fun a ha => congrFun heq ⟨a, ha⟩⟩
  · rintro ⟨u, hu, hagree⟩
    exact ⟨u, hu, funext fun a => hagree a a.2⟩

theorem mem_join_projections {t : α → V} :
    t ∈ naturalJoin schemas (fun i => project (schemas i) r) ↔
      ∀ i, ∃ u ∈ r, AgreeOn (schemas i) u t :=
  forall_congr' fun _ => restrict_mem_project

theorem subset_join : r ⊆ naturalJoin schemas fun i => project (schemas i) r :=
  fun t ht => mem_join_projections.mpr fun _ => ⟨t, ht, fun _ _ => rfl⟩

/-- A tuple of the join agrees with a part of it wherever that part determines it. -/
theorem agree_of_determined (hF : ∀ d ∈ F, d.Holds r)
    (hembed : ∀ d ∈ F, ∃ i, d.determinant ⊆ schemas i ∧ d.dependent ⊆ schemas i) {t u : α → V}
    (ht : t ∈ naturalJoin schemas fun i => project (schemas i) r) (hu : u ∈ r) {X : Set α}
    (hX : AgreeOn X u t) {a : α} (ha : Determined F X a) : u a = t a := by
  induction ha with
  | base hmem => exact hX _ hmem
  | step hd _ hdep ih =>
    obtain ⟨i, hdet, hdep'⟩ := hembed _ hd
    obtain ⟨w, hw, hagree⟩ := mem_join_projections.mp ht i
    have hwu : AgreeOn _ u w := hF _ hd u hu w hw fun b hb =>
      (ih b hb).trans (hagree b (hdet hb)).symm
    exact (hwu _ hdep).trans (hagree _ (hdep' hdep))

/-- A schema that determines all attributes makes the decomposition lossless. -/
theorem join_eq_of_determined (hF : ∀ d ∈ F, d.Holds r)
    (hembed : ∀ d ∈ F, ∃ i, d.determinant ⊆ schemas i ∧ d.dependent ⊆ schemas i) {i : ι}
    (hkey : ∀ a, Determined F (schemas i) a) :
    naturalJoin schemas (fun i => project (schemas i) r) = r := by
  refine Set.Subset.antisymm (fun t ht => ?_) subset_join
  obtain ⟨u, hu, hagree⟩ := mem_join_projections.mp ht i
  obtain rfl : u = t := funext fun a => agree_of_determined hF hembed ht hu hagree (hkey a)
  exact hu

open Classical in
/-- One tuple for each schema, which has the common value where the schema determines it and a
value of its own elsewhere. -/
noncomputable def tableau (F : Set (Dependency α)) (schemas : ι → Set α) (e : Option ι ↪ V) (i : ι) :
    α → V :=
  fun a => if Determined F (schemas i) a then e none else e (some i)

theorem tableau_holds (e : Option ι ↪ V) {d : Dependency α} (hd : d ∈ F) :
    d.Holds (Set.range (tableau F schemas e)) := by
  rintro _ ⟨i, rfl⟩ _ ⟨j, rfl⟩ hagree a ha
  by_cases hij : i = j
  · rw [hij]
  · have hboth : ∀ b ∈ d.determinant,
        Determined F (schemas i) b ∧ Determined F (schemas j) b := by
      intro b hb
      have heq := hagree b hb
      by_cases hi : Determined F (schemas i) b <;> by_cases hj : Determined F (schemas j) b <;>
        simp_all [tableau]
    have hi := Determined.step hd (fun b hb => (hboth b hb).1) ha
    have hj := Determined.step hd (fun b hb => (hboth b hb).2) ha
    rw [tableau, tableau, if_pos hi, if_pos hj]

/-- Without such a schema the join of some relation has one more tuple. -/
theorem exists_join_ne (e : Option ι ↪ V) (hkey : ∀ i, ∃ a, ¬ Determined F (schemas i) a) :
    ∃ r : Set (α → V), (∀ d ∈ F, d.Holds r) ∧
      naturalJoin schemas (fun i => project (schemas i) r) ≠ r := by
  refine ⟨Set.range (tableau F schemas e), fun d hd => tableau_holds e hd, fun heq => ?_⟩
  have hmem : (fun _ => e none) ∈ Set.range (tableau F schemas e) := by
    rw [← heq, mem_join_projections]
    exact fun i => ⟨_, ⟨i, rfl⟩, fun a ha => if_pos (.base ha)⟩
  obtain ⟨i, hi⟩ := hmem
  obtain ⟨a, ha⟩ := hkey i
  have hvalue := congrFun hi a
  rw [tableau, if_neg ha] at hvalue
  cases e.injective hvalue

/-- Losslessness of a decomposition that keeps the dependencies. -/
theorem join_eq_iff (e : Option ι ↪ V)
    (hembed : ∀ d ∈ F, ∃ i, d.determinant ⊆ schemas i ∧ d.dependent ⊆ schemas i) :
    (∀ r : Set (α → V), (∀ d ∈ F, d.Holds r) →
      naturalJoin schemas (fun i => project (schemas i) r) = r) ↔
      ∃ i, ∀ a, Determined F (schemas i) a := by
  constructor
  · intro hall
    by_contra hno
    push Not at hno
    obtain ⟨r, hr, hne⟩ := exists_join_ne e hno
    exact hne (hall r hr)
  · rintro ⟨i, hi⟩ r hr
    exact join_eq_of_determined hr hembed hi

end NextgenDatabases.Foundations
