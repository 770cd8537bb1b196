import NextgenDatabases.Foundations.Relations
import NextgenDatabases.Normalizer.NormalForms
import Mathlib.Data.Fintype.EquivFin
import Mathlib.Logic.Encodable.Basic

/-!
# Decompositions

The decomposition into one table for each dependency. No table is added for a key, and attributes
in no dependency are dropped.
-/
namespace NextgenDatabases.Normalizer

open Foundations

variable {F : Type*}

structure NormalizationProposal where
  sourceSchema : List String
  targetSchemas : List (List String)
  transformation : String
  inverse : String
  equivalenceProof : String
  narrative : String

def violationNarrative (v : NfViolation F) : String :=
  (if v.violationType = "partial-dependency" then "2NF VIOLATION: "
    else if v.violationType = "transitive-dependency" then "3NF VIOLATION: "
    else if v.violationType = "non-superkey" then "BCNF VIOLATION: "
    else "VIOLATION: ") ++ v.explanation

/-- `append members` -/
def FunctionalDependency.attributes (fd : FunctionalDependency F) : List String :=
  (fd.determinant ++ fd.dependent).eraseDups

def propose3nfDecomposition (schema : List String) (fds : List (FunctionalDependency F))
    (keys : List (List String)) : Option NormalizationProposal :=
  let violations := fds.filterMap (check3nf keys)
  if violations.isEmpty then none
  else some
    { sourceSchema := schema
      targetSchemas := fds.map (·.attributes)
      transformation := "SPLIT on transitive dependencies"
      inverse := "JOIN on common attributes"
      equivalenceProof := "Lossless: common attributes form superkey in one table"
      narrative := "\n".intercalate (violations.map violationNarrative) ++
        "\n\nProposed decomposition eliminates transitive dependencies." }

/-! ### What it should be -/

/-- The attributes of a schema. -/
abbrev Attribute (schema : List String) : Type := {a // a ∈ schema}

def columns (schema attrs : List String) : Set (Attribute schema) := {a | a.1 ∈ attrs}

def FunctionalDependency.over (fd : FunctionalDependency F) (schema : List String) :
    Dependency (Attribute schema) where
  determinant := columns schema fd.determinant
  dependent := columns schema fd.dependent

def dependencies (schema : List String) (fds : List (FunctionalDependency F)) :
    Set (Dependency (Attribute schema)) :=
  {d | ∃ fd ∈ fds, d = fd.over schema}

/-- The target schemas make up the source schema, and each instance that satisfies the
dependencies is the join of its projections. -/
def NormalizationProposal.Lossless (V : Type*) (self : NormalizationProposal)
    (fds : List (FunctionalDependency F)) : Prop :=
  (∀ a, a ∈ self.sourceSchema ↔ ∃ target ∈ self.targetSchemas, a ∈ target) ∧
    ∀ r : Set (Attribute self.sourceSchema → V),
      (∀ d ∈ dependencies self.sourceSchema fds, d.Holds r) →
      naturalJoin (fun i : Fin self.targetSchemas.length =>
        columns self.sourceSchema self.targetSchemas[i]) (fun _ => project _ r) = r

/-- The dependencies are over the schema. -/
def Over (schema : List String) (fds : List (FunctionalDependency F)) : Prop :=
  ∀ fd ∈ fds, fd.determinant ⊆ schema ∧ fd.dependent ⊆ schema

/-- Every attribute is in a dependency, and the attributes of one dependency determine all. -/
structure Synthesizes (schema : List String) (fds : List (FunctionalDependency F)) : Prop where
  covers : ∀ a ∈ schema, ∃ fd ∈ fds, a ∈ fd.determinant ∨ a ∈ fd.dependent
  determines : ∃ fd ∈ fds, ∀ a : Attribute schema,
    Determined (dependencies schema fds) (columns schema (fd.determinant ++ fd.dependent)) a

variable {schema : List String} {fds : List (FunctionalDependency F)} {keys : List (List String)}
  {p : NormalizationProposal}

theorem mem_columns {attrs : List String} {a : Attribute schema} :
    a ∈ columns schema attrs ↔ a.1 ∈ attrs := Iff.rfl

theorem columns_attributes (fd : FunctionalDependency F) :
    columns schema fd.attributes = columns schema (fd.determinant ++ fd.dependent) := by
  ext a
  simp [columns, FunctionalDependency.attributes]

theorem propose_targets (h : propose3nfDecomposition schema fds keys = some p) :
    p.sourceSchema = schema ∧ p.targetSchemas = fds.map (·.attributes) := by
  simp only [propose3nfDecomposition, Option.ite_none_left_eq_some, Option.some.injEq] at h
  obtain ⟨-, rfl⟩ := h
  exact ⟨rfl, rfl⟩

theorem mem_attributes {fd : FunctionalDependency F} {a : String} :
    a ∈ fd.attributes ↔ a ∈ fd.determinant ∨ a ∈ fd.dependent := by
  simp [FunctionalDependency.attributes]

/-- The target schemas make up the source schema when each attribute is in a dependency. -/
theorem union_iff (hover : Over schema fds) :
    (∀ a, a ∈ schema ↔ ∃ target ∈ fds.map (·.attributes), a ∈ target) ↔
      ∀ a ∈ schema, ∃ fd ∈ fds, a ∈ fd.determinant ∨ a ∈ fd.dependent := by
  simp only [List.mem_map, exists_exists_and_eq_and, mem_attributes]
  refine ⟨fun h a ha => (h a).mp ha, fun h a => ⟨h a, ?_⟩⟩
  rintro ⟨fd, hfd, ha | ha⟩
  · exact (hover fd hfd).1 ha
  · exact (hover fd hfd).2 ha

/-- Every dependency lies within its own target schema. -/
theorem embedded (targets : List (List String)) (htargets : targets = fds.map (·.attributes)) :
    ∀ d ∈ dependencies schema fds, ∃ i : Fin targets.length,
      d.determinant ⊆ columns schema targets[i] ∧ d.dependent ⊆ columns schema targets[i] := by
  rintro _ ⟨fd, hfd, rfl⟩
  have hmem : fd.attributes ∈ targets := htargets ▸ List.mem_map_of_mem hfd
  obtain ⟨i, hi, heq⟩ := List.mem_iff_getElem.mp hmem
  refine ⟨⟨i, hi⟩, ?_⟩
  rw [Fin.getElem_fin, heq, columns_attributes]
  exact ⟨fun a ha => List.mem_append_left _ ha, fun a ha => List.mem_append_right _ ha⟩

/-- The proposal is lossless just when the dependencies cover the schema and the attributes of one
of them determine it. -/
theorem lossless_iff {V : Type*} [Infinite V] (hover : Over schema fds)
    (h : propose3nfDecomposition schema fds keys = some p) :
    p.Lossless V fds ↔ Synthesizes schema fds := by
  obtain ⟨rfl, htargets⟩ := propose_targets h
  have hjoin := join_eq_iff
    ((Encodable.encode' (Option (Fin p.targetSchemas.length))).trans (Infinite.natEmbedding V))
    (@embedded _ p.sourceSchema _ p.targetSchemas htargets)
  have hunion := union_iff hover
  rw [← htargets] at hunion
  have hdetermines : (∃ i : Fin p.targetSchemas.length, ∀ a, Determined
        (dependencies p.sourceSchema fds) (columns p.sourceSchema p.targetSchemas[i]) a) ↔
      ∃ fd ∈ fds, ∀ a, Determined (dependencies p.sourceSchema fds)
        (columns p.sourceSchema (fd.determinant ++ fd.dependent)) a := by
    constructor
    · rintro ⟨i, hi⟩
      have hmem : p.targetSchemas[i] ∈ fds.map (·.attributes) := htargets ▸ List.getElem_mem _
      obtain ⟨fd, hfd, heq⟩ := List.mem_map.mp hmem
      rw [← heq, columns_attributes] at hi
      exact ⟨fd, hfd, hi⟩
    · rintro ⟨fd, hfd, hall⟩
      have hmem : fd.attributes ∈ p.targetSchemas := htargets ▸ List.mem_map_of_mem hfd
      obtain ⟨i, hi, heq⟩ := List.mem_iff_getElem.mp hmem
      refine ⟨⟨i, hi⟩, ?_⟩
      rw [Fin.getElem_fin, heq, columns_attributes]
      exact hall
  rw [NormalizationProposal.Lossless, hunion, hjoin, hdetermines]
  exact ⟨fun hall => ⟨hall.1, hall.2⟩, fun hall => ⟨hall.1, hall.2⟩⟩

/-! ### Two schemas -/

def abFd : FunctionalDependency Unit := ⟨["a"], ["b"], (), 0, 0⟩
def bcFd : FunctionalDependency Unit := ⟨["b"], ["c"], (), 0, 0⟩

/-- A key of which no part is a key. -/
structure CandidateKey (schema : List String) (fds : List (FunctionalDependency F))
    (key : List String) : Prop where
  subset : key ⊆ schema
  determines : ∀ a, Determined (dependencies schema fds) (columns schema key) a
  minimal : ∀ a ∈ key, ∃ b, ¬ Determined (dependencies schema fds) (columns schema (key.erase a)) b

theorem over_abc (schema : List String) (h : ["a", "b", "c"] ⊆ schema) :
    Over schema [abFd, bcFd] := by
  intro fd hfd
  rcases List.mem_pair.mp hfd with rfl | rfl
  · exact ⟨fun a ha => h (by simp_all [abFd]), fun a ha => h (by simp_all [abFd])⟩
  · exact ⟨fun a ha => h (by simp_all [bcFd]), fun a ha => h (by simp_all [bcFd])⟩

/-- The first attribute determines the second and the third. -/
theorem determined_abc {schema attrs : List String} {a : Attribute schema} (hmem : "a" ∈ attrs)
    (ha : a.1 ∈ attrs ∨ a.1 = "b" ∨ a.1 = "c") (hsub : ["a", "b", "c"] ⊆ schema) :
    Determined (dependencies schema [abFd, bcFd]) (columns schema attrs) a := by
  have hb : Determined (dependencies schema [abFd, bcFd]) (columns schema attrs)
      ⟨"b", hsub (by simp)⟩ := by
    refine .step (d := abFd.over schema) ⟨abFd, by simp, rfl⟩ (fun x hx => .base ?_) ?_
    · have hxa : x.1 = "a" := List.mem_singleton.mp hx
      exact mem_columns.mpr (by rwa [hxa])
    · exact List.mem_singleton.mpr rfl
  rcases ha with ha | ha | ha
  · exact .base ha
  · exact (Subtype.ext ha : a = ⟨"b", hsub (by simp)⟩) ▸ hb
  · refine .step (d := bcFd.over schema) ⟨bcFd, by simp, rfl⟩ (fun x hx => ?_) ?_
    · obtain rfl : x = ⟨"b", hsub (by simp)⟩ := Subtype.ext (List.mem_singleton.mp hx)
      exact hb
    · exact List.mem_singleton.mpr ha

/-- An attribute in no dependency is determined by none. -/
theorem not_determined_of_notMem {attrs : List String} {a : String} (hmem : a ∈ schema)
    (ha : a ∉ attrs) (hfds : ∀ fd ∈ fds, a ∉ fd.dependent) :
    ¬ Determined (dependencies schema fds) (columns schema attrs) ⟨a, hmem⟩ := by
  intro h
  cases h with
  | base hbase => exact ha hbase
  | step hd _ hdep =>
    obtain ⟨fd, hfd, rfl⟩ := hd
    exact hfds fd hfd hdep

theorem abc_lossless : ∃ p, propose3nfDecomposition ["a", "b", "c"] [abFd, bcFd] [["a"]] = some p ∧
    p.Lossless ℕ [abFd, bcFd] := by
  refine ⟨_, rfl, (@lossless_iff _ _ _ [["a"]] _ _ _ (over_abc _ (List.Subset.refl _)) rfl).mpr
    ⟨?_, abFd, by simp, ?_⟩⟩
  · intro a ha
    simp only [List.mem_cons, List.not_mem_nil, or_false] at ha
    rcases ha with rfl | rfl | rfl
    · exact ⟨abFd, by simp, .inl (by simp [abFd])⟩
    · exact ⟨abFd, by simp, .inr (by simp [abFd])⟩
    · exact ⟨bcFd, by simp, .inr (by simp [bcFd])⟩
  · intro a
    refine determined_abc (by simp [abFd]) ?_ (List.Subset.refl _)
    have ha := a.2
    simp only [List.mem_cons, List.not_mem_nil, or_false] at ha
    rcases ha with ha | ha | ha
    · exact .inl (by simp [abFd, ha])
    · exact .inr (.inl ha)
    · exact .inr (.inr ha)

/-- An attribute that is only in the key is dropped. -/
theorem attribute_dropped :
    CandidateKey ["a", "b", "c", "d"] [abFd, bcFd] ["a", "d"] ∧
      Over ["a", "b", "c", "d"] [abFd, bcFd] ∧
      ∃ p, propose3nfDecomposition ["a", "b", "c", "d"] [abFd, bcFd] [["a", "d"]] = some p ∧
        ¬ p.Lossless ℕ [abFd, bcFd] := by
  have hsub : ["a", "b", "c"] ⊆ ["a", "b", "c", "d"] := by decide
  refine ⟨⟨by decide, fun a => ?_, fun a ha => ?_⟩, over_abc _ hsub, _, rfl, fun h => ?_⟩
  · refine determined_abc (by simp) ?_ hsub
    have ha := a.2
    simp only [List.mem_cons, List.not_mem_nil, or_false] at ha
    rcases ha with ha | ha | ha | ha
    · exact .inl (by simp [ha])
    · exact .inr (.inl ha)
    · exact .inr (.inr ha)
    · exact .inl (by simp [ha])
  · have hmem : a ∈ ["a", "b", "c", "d"] := by
      revert a
      decide
    refine ⟨⟨a, hmem⟩, not_determined_of_notMem hmem ?_ ?_⟩
    · revert a
      decide
    · revert a
      decide
  · obtain ⟨target, htarget, hd⟩ := (h.1 "d").mp (by decide)
    revert target
    decide

end NextgenDatabases.Normalizer
