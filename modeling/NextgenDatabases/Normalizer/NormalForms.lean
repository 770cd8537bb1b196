import NextgenDatabases.Normalizer.Discovery
import Mathlib.Data.List.Perm.Subperm

/-!
# Normal forms

The analysis of the normalizer: its tests for superkeys and for proper parts of keys, the
violations of each form with their explanations, and exactly which schemas it classifies as
the textbook does. The tests ask whether a determinant lies in a key, not whether it
contains one.
-/
namespace NextgenDatabases.Normalizer

variable {F : Type*}

structure NfViolation (F : Type*) where
  fd : FunctionalDependency F
  violationType : String
  explanation : String

structure NormalFormAnalysis (F : Type*) where
  collection : String
  currentForm : String
  violations : List (NfViolation F)
  candidateKeys : List (List String)

/-! ### The analysis -/

def isSuperkey (attrs : List String) (keys : List (List String)) : Bool :=
  keys.any fun key => attrs.all fun a => decide (a ∈ key)

def properSubsetOfKey (attrs : List String) (keys : List (List String)) : Bool :=
  keys.any fun key => (attrs.all fun a => decide (a ∈ key)) && decide (key.length < attrs.length)

def primeAttributes (keys : List (List String)) : List String := keys.flatten.eraseDups

/-- Every dependent attribute is in some key. -/
def dependentPrime (fd : FunctionalDependency F) (keys : List (List String)) : Bool :=
  fd.dependent.all fun a => decide (a ∈ primeAttributes keys)

def joinNames (names : List String) : String := ", ".intercalate names

def checkBcnf (keys : List (List String)) (fd : FunctionalDependency F) : Option (NfViolation F) :=
  if (!isSuperkey fd.determinant keys) = true then
    some {
      fd := fd
      violationType := "non-superkey"
      explanation := joinNames fd.determinant ++ " is not a superkey but determines " ++
        joinNames fd.dependent }
  else none

def check3nf (keys : List (List String)) (fd : FunctionalDependency F) : Option (NfViolation F) :=
  if (!isSuperkey fd.determinant keys && !dependentPrime fd keys) = true then
    some {
      fd := fd
      violationType := "transitive-dependency"
      explanation := "Non-superkey " ++ joinNames fd.determinant ++
        " determines non-prime attribute(s) " ++ joinNames fd.dependent }
  else none

def check2nf (keys : List (List String)) (fd : FunctionalDependency F) : Option (NfViolation F) :=
  if (properSubsetOfKey fd.determinant keys && !dependentPrime fd keys) = true then
    some {
      fd := fd
      violationType := "partial-dependency"
      explanation := "Partial key " ++ joinNames fd.determinant ++
        " determines non-prime attribute(s) " ++ joinNames fd.dependent }
  else none

def analyzeNormalForm (fds : List (FunctionalDependency F)) (keys : List (List String)) :
    NormalFormAnalysis F :=
  let bcnfViolations := fds.filterMap (checkBcnf keys)
  let thirdViolations := fds.filterMap (check3nf keys)
  let secondViolations := fds.filterMap (check2nf keys)
  { collection := "unknown"
    candidateKeys := keys
    currentForm :=
      if bcnfViolations.isEmpty then "BCNF"
      else if thirdViolations.isEmpty then "3NF"
      else if secondViolations.isEmpty then "2NF" else "1NF"
    violations := bcnfViolations ++ thirdViolations ++ secondViolations }

/-! ### The textbook -/

/-- The attributes contain a key. -/
abbrev ContainsKey (keys : List (List String)) (attrs : List String) : Prop :=
  ∃ key ∈ keys, key ⊆ attrs

/-- The attributes lie in a key. -/
abbrev WithinKey (keys : List (List String)) (attrs : List String) : Prop :=
  ∃ key ∈ keys, attrs ⊆ key

/-- The attributes are a proper part of a key. -/
abbrev PartOfKey (keys : List (List String)) (attrs : List String) : Prop :=
  ∃ key ∈ keys, attrs ⊆ key ∧ ¬ key ⊆ attrs

/-- The attributes are those of a key. -/
abbrev IsKey (keys : List (List String)) (attrs : List String) : Prop :=
  ∃ key ∈ keys, attrs ⊆ key ∧ key ⊆ attrs

/-- A dependent attribute is in no key. -/
abbrev NonPrime (keys : List (List String)) (fd : FunctionalDependency F) : Prop :=
  ∃ a ∈ fd.dependent, ∀ key ∈ keys, a ∉ key

/-- The form of a schema by definition. -/
def textbookForm (fds : List (FunctionalDependency F)) (keys : List (List String)) : String :=
  if ∀ fd ∈ fds, ContainsKey keys fd.determinant then "BCNF"
  else if ∀ fd ∈ fds, NonPrime keys fd → ContainsKey keys fd.determinant then "3NF"
  else if ∀ fd ∈ fds, NonPrime keys fd → ¬ PartOfKey keys fd.determinant then "2NF"
  else "1NF"

/-- A dependency of a set of attributes on one attribute outside of it. -/
structure FunctionalDependency.WellFormed (fd : FunctionalDependency F) : Prop where
  nonempty : fd.determinant ≠ []
  nodup : fd.determinant.Nodup
  single : ∃ a, fd.dependent = [a] ∧ a ∉ fd.determinant

/-- There are keys, and none is a subset of another. -/
structure CandidateKeys (keys : List (List String)) : Prop where
  nonempty : keys ≠ []
  antichain : ∀ k ∈ keys, ∀ k' ∈ keys, k ⊆ k' → k = k'

/-- The analysis reports the form by definition, and 1NF whenever it lists a violation of the
second form. -/
structure Classifies (fds : List (FunctionalDependency F)) (keys : List (List String)) : Prop where
  form : (analyzeNormalForm fds keys).currentForm = textbookForm fds keys
  violation : ∀ v ∈ (analyzeNormalForm fds keys).violations,
    v.violationType = "partial-dependency" → (analyzeNormalForm fds keys).currentForm = "1NF"

variable {fds : List (FunctionalDependency F)} {keys : List (List String)}

/-! ### What the tests decide -/

theorem isSuperkey_iff {attrs : List String} :
    isSuperkey attrs keys = true ↔ WithinKey keys attrs := by
  simp only [isSuperkey, List.any_eq_true, List.all_eq_true, decide_eq_true_iff]
  exact Iff.rfl

/-- A set of attributes in a key is not longer than the key. -/
theorem properSubsetOfKey_eq_false {attrs : List String} (h : attrs.Nodup) :
    properSubsetOfKey attrs keys = false := by
  rw [properSubsetOfKey, List.any_eq_false]
  intro key _
  simp only [Bool.and_eq_true, List.all_eq_true, decide_eq_true_iff, not_and, not_lt]
  exact fun hsub => (List.subperm_of_subset h hsub).length_le

theorem dependentPrime_eq_false_iff {fd : FunctionalDependency F} :
    dependentPrime fd keys = false ↔ NonPrime keys fd := by
  simp [dependentPrime, primeAttributes]

theorem isEmpty_filterMap {α β : Type*} {f : α → Option β} {l : List α} :
    (l.filterMap f).isEmpty = true ↔ ∀ a ∈ l, f a = none := by
  rw [List.isEmpty_iff, List.filterMap_eq_nil_iff]

theorem bcnf_isEmpty : (fds.filterMap (checkBcnf keys)).isEmpty = true ↔
    ∀ fd ∈ fds, WithinKey keys fd.determinant := by
  rw [isEmpty_filterMap]
  simp only [checkBcnf, ite_eq_right_iff, reduceCtorEq, imp_false, Bool.not_eq_true',
    Bool.not_eq_false, isSuperkey_iff]

theorem third_isEmpty : (fds.filterMap (check3nf keys)).isEmpty = true ↔
    ∀ fd ∈ fds, NonPrime keys fd → WithinKey keys fd.determinant := by
  rw [isEmpty_filterMap]
  refine forall₂_congr fun fd _ => ?_
  simp only [check3nf, ite_eq_right_iff, reduceCtorEq, imp_false, Bool.and_eq_true,
    Bool.not_eq_true', ← isSuperkey_iff, ← dependentPrime_eq_false_iff]
  cases isSuperkey fd.determinant keys <;> cases dependentPrime fd keys <;> simp

/-- No violation of the second form is ever found. -/
theorem second_eq_nil (hfds : ∀ fd ∈ fds, fd.WellFormed) : fds.filterMap (check2nf keys) = [] := by
  rw [List.filterMap_eq_nil_iff]
  intro fd hfd
  rw [check2nf, properSubsetOfKey_eq_false (hfds fd hfd).nodup]
  rfl

theorem currentForm_eq (hfds : ∀ fd ∈ fds, fd.WellFormed) :
    (analyzeNormalForm fds keys).currentForm =
      if ∀ fd ∈ fds, WithinKey keys fd.determinant then "BCNF"
      else if ∀ fd ∈ fds, NonPrime keys fd → WithinKey keys fd.determinant then "3NF"
      else "2NF" := by
  simp only [analyzeNormalForm, bcnf_isEmpty, third_isEmpty, second_eq_nil hfds,
    List.isEmpty_nil, if_true]

theorem IsKey.of_within_contains (hkeys : CandidateKeys keys) {attrs : List String}
    (hwithin : WithinKey keys attrs) (hcontains : ContainsKey keys attrs) : IsKey keys attrs := by
  obtain ⟨key, hkey, hsub⟩ := hwithin
  obtain ⟨key', hkey', hsub'⟩ := hcontains
  obtain rfl := hkeys.antichain key' hkey' key hkey (List.Subset.trans hsub' hsub)
  exact ⟨key', hkey, hsub, hsub'⟩

theorem IsKey.within {attrs : List String} (h : IsKey keys attrs) : WithinKey keys attrs := by
  obtain ⟨key, hkey, hsub, -⟩ := h
  exact ⟨key, hkey, hsub⟩

theorem IsKey.contains {attrs : List String} (h : IsKey keys attrs) : ContainsKey keys attrs := by
  obtain ⟨key, hkey, -, hsub⟩ := h
  exact ⟨key, hkey, hsub⟩

theorem contains_or_part {attrs : List String} (h : WithinKey keys attrs) :
    ContainsKey keys attrs ∨ PartOfKey keys attrs := by
  obtain ⟨key, hkey, hsub⟩ := h
  by_cases hback : key ⊆ attrs
  · exact .inl ⟨key, hkey, hback⟩
  · exact .inr ⟨key, hkey, hsub, hback⟩

/-! ### Which schemas are classified -/

/-- The schemas that are classified: every determinant is a key; or not every determinant
contains a key, not every one lies in a key, and the determinant of every attribute outside the
keys is a key; or the schema is in the second form and not in the third. -/
inductive Classifiable (fds : List (FunctionalDependency F)) (keys : List (List String)) : Prop
  | bcnf (h : ∀ fd ∈ fds, IsKey keys fd.determinant)
  | third (hcontains : ∃ fd ∈ fds, ¬ ContainsKey keys fd.determinant)
      (hwithin : ∃ fd ∈ fds, ¬ WithinKey keys fd.determinant)
      (h : ∀ fd ∈ fds, NonPrime keys fd → IsKey keys fd.determinant)
  | second (hno : ∃ fd ∈ fds, NonPrime keys fd ∧ ¬ ContainsKey keys fd.determinant)
      (h : ∀ fd ∈ fds, NonPrime keys fd → ¬ PartOfKey keys fd.determinant)

theorem violation_of_form (hfds : ∀ fd ∈ fds, fd.WellFormed) :
    ∀ v ∈ (analyzeNormalForm fds keys).violations, v.violationType ≠ "partial-dependency" := by
  intro v hv
  simp only [analyzeNormalForm, second_eq_nil hfds, List.append_nil, List.mem_append,
    List.mem_filterMap, checkBcnf, check3nf, Option.ite_none_right_eq_some, Option.some.injEq] at hv
  rcases hv with ⟨fd, -, -, rfl⟩ | ⟨fd, -, -, rfl⟩
  all_goals
    dsimp only
    decide

/-- The analysis is the textbook's, exactly for the schemas named above. -/
theorem classifies_iff (hfds : ∀ fd ∈ fds, fd.WellFormed) (hkeys : CandidateKeys keys) :
    Classifies fds keys ↔ Classifiable fds keys := by
  have hclassifies : Classifies fds keys ↔
      (analyzeNormalForm fds keys).currentForm = textbookForm fds keys :=
    ⟨fun h => h.form, fun h => ⟨h, fun v hv hpartial =>
      absurd hpartial (violation_of_form hfds v hv)⟩⟩
  rw [hclassifies, currentForm_eq hfds, textbookForm]
  constructor
  · intro h
    by_cases hwithin : ∀ fd ∈ fds, WithinKey keys fd.determinant
    · rw [if_pos hwithin] at h
      split_ifs at h with hcontains
      · exact .bcnf fun fd hfd => .of_within_contains hkeys (hwithin fd hfd) (hcontains fd hfd)
      all_goals exact absurd h (by decide)
    · rw [if_neg hwithin] at h
      by_cases hthird : ∀ fd ∈ fds, NonPrime keys fd → WithinKey keys fd.determinant
      · rw [if_pos hthird] at h
        split_ifs at h with hcontains hthird'
        · exact absurd h (by decide)
        · push Not at hwithin hcontains
          exact .third (by simpa using hcontains) (by simpa using hwithin) fun fd hfd hprime =>
            .of_within_contains hkeys (hthird fd hfd hprime) (hthird' fd hfd hprime)
        all_goals exact absurd h (by decide)
      · rw [if_neg hthird] at h
        split_ifs at h with hcontains hthird' hsecond
        · exact absurd h (by decide)
        · exact absurd h (by decide)
        · push Not at hthird'
          exact .second (by simpa using hthird') hsecond
        · exact absurd h (by decide)
  · rintro (h | ⟨⟨fd, hfd, hnot⟩, ⟨fd', hfd', hnot'⟩, h⟩ | ⟨⟨fd, hfd, hprime, hnot⟩, h⟩)
    · rw [if_pos fun fd hfd => (h fd hfd).within, if_pos fun fd hfd => (h fd hfd).contains]
    · have hwithin : ¬ ∀ fd ∈ fds, WithinKey keys fd.determinant := fun hall =>
        hnot' (hall fd' hfd')
      have hcontains : ¬ ∀ fd ∈ fds, ContainsKey keys fd.determinant := fun hall =>
        hnot (hall fd hfd)
      rw [if_neg hwithin, if_neg hcontains, if_pos fun fd hfd hprime => (h fd hfd hprime).within,
        if_pos fun fd hfd hprime => (h fd hfd hprime).contains]
    · have hoff : ¬ WithinKey keys fd.determinant := fun hwithin =>
        (contains_or_part hwithin).elim hnot (h fd hfd hprime)
      have hwithin : ¬ ∀ fd ∈ fds, WithinKey keys fd.determinant := fun hall => hoff (hall fd hfd)
      have hwithin' : ¬ ∀ fd ∈ fds, NonPrime keys fd → WithinKey keys fd.determinant := fun hall =>
        hoff (hall fd hfd hprime)
      have hcontains : ¬ ∀ fd ∈ fds, ContainsKey keys fd.determinant := fun hall =>
        hnot (hall fd hfd)
      have hcontains' : ¬ ∀ fd ∈ fds, NonPrime keys fd → ContainsKey keys fd.determinant :=
        fun hall => hnot (hall fd hfd hprime)
      rw [if_neg hwithin, if_neg hwithin', if_neg hcontains, if_neg hcontains', if_pos h]

/-! ### One dependency, two schemas -/

/-- The first attribute determines the third. -/
def aToC : FunctionalDependency Unit := ⟨["a"], ["c"], (), 0, 0⟩

theorem aToC_wellFormed : ∀ fd ∈ [aToC], fd.WellFormed := by
  intro fd hfd
  rw [List.mem_singleton.mp hfd]
  exact ⟨by decide, by decide, "c", rfl, by decide⟩

theorem candidateKeys_singleton (key : List String) : CandidateKeys [key] := by
  constructor
  · exact List.cons_ne_nil _ _
  · intro k hk k' hk' _
    rw [List.mem_singleton.mp hk, List.mem_singleton.mp hk']

/-- Where the attribute is the key, the form is BCNF. -/
theorem classifies_key : Classifies [aToC] [["a"]] := by
  apply (classifies_iff aToC_wellFormed (candidateKeys_singleton ["a"])).mpr
  apply Classifiable.bcnf
  intro fd hfd
  rw [List.mem_singleton.mp hfd]
  decide

/-- Where the attribute is a part of the key, a schema in the first form is reported as BCNF. -/
theorem partial_dependency_passes :
    (∀ fd ∈ [aToC], fd.WellFormed) ∧ CandidateKeys [["a", "b"]] ∧
      textbookForm [aToC] [["a", "b"]] = "1NF" ∧
      (analyzeNormalForm [aToC] [["a", "b"]]).currentForm = "BCNF" :=
  ⟨aToC_wellFormed, candidateKeys_singleton _, by decide, by decide⟩

end NextgenDatabases.Normalizer
