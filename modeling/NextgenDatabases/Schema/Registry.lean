import NextgenDatabases.Foundations.Runs
import NextgenDatabases.Foundations.SortedMaps
import NextgenDatabases.Foundations.Search
import Mathlib.Data.String.Basic

/-!
# The schema registry

Types are registered once, under their IRI, and with any supertypes: also with ones that are not
registered, not yet, or that lead back. The hierarchy of a type follows the supertypes along every
path that does not come back to itself.
-/
namespace NextgenDatabases.Schema

open Foundations

/-- A type; what its constraints say is of no concern to the hierarchy. -/
structure TypeDef (Constraint : Type) where
  iri : String
  label : String
  supertypes : Option (List String)
  constraints : List Constraint

abbrev Types (Constraint : Type) := SortedMap String (TypeDef Constraint)

variable {Constraint : Type}

/-- A type that is visited counts no more. -/
theorem length_filter_visit {types : Types Constraint} {iri : String}
    {typeDef : TypeDef Constraint} {visited : List String} (hvisited : iri ∉ visited)
    (htype : types.get iri = some typeDef) :
    (types.entries.filter fun e => e.1 ∉ iri :: visited).length <
      (types.entries.filter fun e => e.1 ∉ visited).length := by
  have hsub : (types.entries.filter fun e => e.1 ∉ iri :: visited).Sublist
      (types.entries.filter fun e => e.1 ∉ visited) :=
    List.monotone_filter_right _ fun e => by
      simp only [decide_eq_true_eq, List.mem_cons, not_or]
      exact fun h => h.2
  refine hsub.length_le.lt_of_ne fun hlength => ?_
  have hmem : (iri, typeDef) ∈ types.entries.filter fun e => e.1 ∉ visited :=
    List.mem_filter.mpr ⟨SortedMap.get_eq_some.mp htype, decide_eq_true hvisited⟩
  rw [← hsub.eq_of_length hlength] at hmem
  simp at hmem

/-- `compute_hierarchy` -/
def computeHierarchy (types : Types Constraint) (iri : String) (visited : List String) :
    List String :=
  if _hvisited : iri ∈ visited then []
  else
    match _htype : types.get iri with
    | none => []
    | some typeDef =>
      iri :: (typeDef.supertypes.getD []).flatMap fun supertype =>
        computeHierarchy types supertype (iri :: visited)
termination_by (types.entries.filter fun e => e.1 ∉ visited).length
decreasing_by exact length_filter_visit _hvisited _htype

variable {types : Types Constraint} {iri other : String} {visited : List String}

theorem computeHierarchy_visited (hvisited : iri ∈ visited) :
    computeHierarchy types iri visited = [] := by
  rw [computeHierarchy, dif_pos hvisited]

theorem computeHierarchy_unknown (htype : types.get iri = none) :
    computeHierarchy types iri visited = [] := by
  rw [computeHierarchy]
  split_ifs
  · rfl
  · split
    · rfl
    · simp_all

theorem computeHierarchy_type {typeDef : TypeDef Constraint} (hvisited : iri ∉ visited)
    (htype : types.get iri = some typeDef) :
    computeHierarchy types iri visited = iri :: (typeDef.supertypes.getD []).flatMap fun supertype =>
      computeHierarchy types supertype (iri :: visited) := by
  rw [computeHierarchy, dif_neg hvisited]
  split
  · simp_all
  · simp_all

/-! ### The registry -/

/-- The state; nothing is ever put into its `type_cache`. -/
structure Registry (Constraint : Type) where
  types : Types Constraint

inductive Call (Constraint : Type)
  | registerType (typeDef : TypeDef Constraint)
  | getType (iri : String)
  | listTypes
  | typeHierarchy (iri : String)

inductive Reply (Constraint : Type)
  | ok
  | alreadyExists
  | type (typeDef : Option (TypeDef Constraint))
  | types (iris : List String)
  | hierarchy (iris : List String)

namespace Registry

/-- `register_builtin_types`; the constraint is that documents have a title. -/
def builtinTypes (titleRequired : Constraint) : List (TypeDef Constraint) :=
  [⟨"verisim:Entity", "Entity", some [], []⟩,
    ⟨"verisim:Document", "Document", some ["verisim:Entity"], [titleRequired]⟩,
    ⟨"verisim:Node", "Graph Node", some ["verisim:Entity"], []⟩,
    ⟨"verisim:TimeSeries", "Time Series", some ["verisim:Entity"], []⟩]

def init (titleRequired : Constraint) : Registry Constraint :=
  ⟨(builtinTypes titleRequired).foldl (fun types type => types.insert type.iri type) .empty⟩

def handleCall (s : Registry Constraint) :
    Call Constraint → Reply Constraint × Registry Constraint
  | .registerType typeDef =>
    if (s.types.get typeDef.iri).isSome then (.alreadyExists, s)
    else (.ok, ⟨s.types.insert typeDef.iri typeDef⟩)
  | .getType iri => (.type (s.types.get iri), s)
  | .listTypes => (.types (s.types.entries.map Prod.fst), s)
  | .typeHierarchy iri => (.hierarchy (computeHierarchy s.types iri []), s)

def step (s : Registry Constraint) (c : Call Constraint) : Option (Registry Constraint) :=
  some (s.handleCall c).2

end Registry

/-! ### What a hierarchy has -/

/-- `b` is a registered supertype of `a`. -/
def Supertype (types : Types Constraint) (a b : String) : Prop :=
  ∃ typeDef, types.get a = some typeDef ∧ b ∈ typeDef.supertypes.getD []

def Registered (types : Types Constraint) (a : String) : Prop := ∃ typeDef, types.get a = some typeDef

/-- `b` is `a`, or a supertype of it by way of registered types. -/
def Ancestor (types : Types Constraint) (a b : String) : Prop :=
  Within (Supertype types) (Registered types) a b

theorem within_of_mem (h : other ∈ computeHierarchy types iri visited) :
    Within (Supertype types) (fun a => Registered types a ∧ a ∉ visited) iri other := by
  induction iri, visited using computeHierarchy.induct types with
  | case1 iri visited hvisited =>
    rw [computeHierarchy_visited hvisited] at h
    cases h
  | case2 iri visited _ htype =>
    rw [computeHierarchy_unknown htype] at h
    cases h
  | case3 iri visited hvisited typeDef htype ih =>
    have hiri : Registered types iri ∧ iri ∉ visited := ⟨⟨typeDef, htype⟩, hvisited⟩
    rw [computeHierarchy_type hvisited htype] at h
    rcases List.mem_cons.mp h with rfl | h
    · exact ⟨hiri, .refl⟩
    · obtain ⟨supertype, hsupertype, h⟩ := List.mem_flatMap.mp h
      have hway := (ih supertype h).mono (q := fun a => Registered types a ∧ a ∉ visited)
        (fun _ b _ hb => ⟨hb.1, fun hmem => hb.2 (List.mem_cons_of_mem _ hmem)⟩)
        ⟨(ih supertype h).1.1, fun hmem => (ih supertype h).1.2 (List.mem_cons_of_mem _ hmem)⟩
      exact hway.edge ⟨typeDef, htype, hsupertype⟩ hiri

/-- A way that leaves a type for good goes on by one of its supertypes. -/
theorem mem_of_within
    (h : Within (Supertype types) (fun a => Registered types a ∧ a ∉ visited) iri other) :
    other ∈ computeHierarchy types iri visited := by
  induction iri, visited using computeHierarchy.induct types with
  | case1 iri visited hvisited => exact absurd hvisited h.1.2
  | case2 iri visited _ htype =>
    obtain ⟨typeDef, hsome⟩ := h.1.1
    rw [htype] at hsome
    cases hsome
  | case3 iri visited hvisited typeDef htype ih =>
    rw [computeHierarchy_type hvisited htype]
    by_cases hother : iri = other
    · exact hother ▸ List.mem_cons_self
    · obtain ⟨supertype, ⟨typeDef', htype', hsupertype⟩, hway⟩ := h.leave hother
      cases htype.symm.trans htype'
      refine List.mem_cons_of_mem _ (List.mem_flatMap.mpr ⟨supertype, hsupertype, ih supertype ?_⟩)
      have hnot : ∀ b, (Registered types b ∧ b ∉ visited) ∧ b ≠ iri →
          Registered types b ∧ b ∉ iri :: visited := fun b hb =>
        ⟨hb.1.1, by simpa using ⟨hb.2, hb.1.2⟩⟩
      exact hway.mono (fun _ b _ hb => hnot b hb) (hnot supertype hway.1)

theorem mem_computeHierarchy_nil :
    other ∈ computeHierarchy types iri [] ↔ Ancestor types iri other := by
  have hiff : ∀ a, (Registered types a ∧ a ∉ ([] : List String)) ↔ Registered types a := by simp
  constructor
  · exact fun h => (within_of_mem h).mono (fun _ b _ hb => hb.1) (within_of_mem h).1.1
  · exact fun h => mem_of_within (h.mono (fun _ b _ hb => (hiff b).mpr hb) ((hiff iri).mpr h.1))

/-! ### Registrations -/

namespace Registry

variable {s t : Registry Constraint}

/-- No type is ever replaced. -/
def Extends (s t : Registry Constraint) : Prop :=
  ∀ iri typeDef, s.types.get iri = some typeDef → t.types.get iri = some typeDef

theorem extends_step {c : Call Constraint} (hstep : step s c = some t) : Extends s t := by
  cases hstep
  intro iri typeDef htype
  cases c with
  | registerType new =>
    rw [handleCall]
    split_ifs with hnew
    · exact htype
    · change (s.types.insert new.iri new).get iri = some typeDef
      rw [SortedMap.get_insert]
      split_ifs with hiri
      · subst hiri
        rw [htype] at hnew
        exact absurd rfl hnew
      · exact htype
  | getType _ | listTypes | typeHierarchy _ => exact htype

theorem extends_of_run (r : Run step (fun _ _ => True) s t) : Extends s t :=
  r.invariant (I := Extends s)
    (fun _ _ _ h _ hstep iri typeDef htype => extends_step hstep iri typeDef (h iri typeDef htype))
    fun _ _ htype => htype

theorem Extends.ancestor (h : Extends s t) (hancestor : Ancestor s.types iri other) :
    Ancestor t.types iri other := by
  have hedge : ∀ a b, Supertype s.types a b ∧ Registered s.types b →
      Supertype t.types a b ∧ Registered t.types b := fun a b ⟨⟨typeDef, htype, hmem⟩, typeDef', htype'⟩ =>
    ⟨⟨typeDef, h a typeDef htype, hmem⟩, typeDef', h b typeDef' htype'⟩
  obtain ⟨⟨typeDef, htype⟩, hway⟩ := hancestor
  exact ⟨⟨typeDef, h iri typeDef htype⟩, Relation.ReflTransGen.mono hedge _ _ hway⟩

theorem builtin_registered {titleRequired : Constraint} {typeDef : TypeDef Constraint}
    (h : typeDef ∈ builtinTypes titleRequired) :
    (init titleRequired).types.get typeDef.iri = some typeDef := by
  simp only [builtinTypes, List.mem_cons, List.not_mem_nil, or_false] at h
  rcases h with rfl | rfl | rfl | rfl <;>
    simp [init, builtinTypes, SortedMap.get_insert]

/-- The answer to a question for a hierarchy has exactly the registered ancestors, however the
supertypes lead around; and what is answered once about a type or its hierarchy stays true. -/
theorem hierarchy_exact {s : Registry Constraint} (titleRequired : Constraint)
    (r : Run step (fun _ _ => True) (init titleRequired) s) :
    (∀ iri, ∃ iris, (s.handleCall (.typeHierarchy iri)).1 = .hierarchy iris ∧
      (∀ other, other ∈ iris ↔ Ancestor s.types iri other) ∧
      ∀ t, Run step (fun _ _ => True) s t → ∃ later,
        (t.handleCall (.typeHierarchy iri)).1 = .hierarchy later ∧ iris ⊆ later) ∧
    (∀ typeDef ∈ builtinTypes titleRequired, s.types.get typeDef.iri = some typeDef) ∧
    ∀ iri typeDef t, s.types.get iri = some typeDef → Run step (fun _ _ => True) s t →
      t.types.get iri = some typeDef := by
  refine ⟨fun iri => ⟨_, rfl, fun other => mem_computeHierarchy_nil, fun t ht => ⟨_, rfl, ?_⟩⟩,
    fun typeDef hmem => extends_of_run r _ _ (builtin_registered hmem),
    fun iri typeDef t htype ht => extends_of_run ht iri typeDef htype⟩
  intro other hother
  exact mem_computeHierarchy_nil.mpr
    ((extends_of_run ht).ancestor (mem_computeHierarchy_nil.mp hother))

/-- Two types, each a supertype of the other. -/
def around : List (Call Unit) :=
  [.registerType ⟨"a", "A", some ["b"], []⟩, .registerType ⟨"b", "B", some ["a", "c"], []⟩]

theorem hierarchy_exact_around : ∃ s, exec step (init ()) around = some s ∧
    ∃ iris, (s.handleCall (.typeHierarchy "a")).1 = .hierarchy iris ∧
      ∀ other, other ∈ iris ↔ Ancestor s.types "a" other := by
  obtain ⟨iris, hiris, hmem, -⟩ := (hierarchy_exact ()
    (run_of_steps (show exec step (init ()) around = some _ from rfl))).1 "a"
  exact ⟨_, rfl, iris, hiris, hmem⟩

end Registry

end NextgenDatabases.Schema
