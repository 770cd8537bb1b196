import NextgenDatabases.Storage.Namespaces
import NextgenDatabases.Foundations.Runs

/-!
# The persistent version store

The versions of an entity are in a cache and, as one value, in redb. An append adds its version to
the cache, clones the entity's history and puts the clone into redb, each in a step of its own.
-/
namespace NextgenDatabases.Temporal

open Foundations Storage

structure Version (D : Type) where
  version : ℕ
  timestamp : ℕ
  data : D
  author : Str
  message : Option Str
deriving DecidableEq

def Version.new {D : Type} (version now : ℕ) (data : D) (author : Str) : Version D where
  version := version
  timestamp := now
  data := data
  author := author
  message := none

def Version.withMessage {D : Type} (v : Version D) (message : Str) : Version D :=
  { v with message := some message }

abbrev History (D : Type) : Type := SortedMap ℕ (Version D)

abbrev VersionHistory (D : Type) : Type := Str → Option (History D)

variable {D W : Type}

/-! ### Histories -/

def nextVersion (versions : History D) : ℕ :=
  match versions.entries.getLast? with
  | some (v, _) => v + 1
  | none => 1

/-- The part of `append` under the write lock. -/
def appendVersion (store : VersionHistory D) (entityId : Str) (data : D) (author : Str)
    (message : Option Str) (now : ℕ) : Version D × VersionHistory D :=
  let versions := (store entityId).getD .empty
  let version := Version.new (nextVersion versions) now data author
  let version :=
    match message with
    | some msg => version.withMessage msg
    | none => version
  (version, Function.update store entityId (some (versions.insert (nextVersion versions) version)))

theorem appendVersion_version (store : VersionHistory D) (e : Str) (data : D) (author : Str)
    (message : Option Str) (now : ℕ) :
    (appendVersion store e data author message now).1.version =
      nextVersion ((store e).getD .empty) := by
  cases message with
  | none => rfl
  | some msg => rfl

theorem eq_of_entries {h h' : History D} (hentries : h.entries = h'.entries) : h = h' := by
  cases h
  cases hentries
  rfl

theorem lt_nextVersion {h : History D} {a : ℕ × Version D} (ha : a ∈ h.entries) :
    a.1 < nextVersion h := by
  obtain ⟨l, b, hl⟩ := (List.eq_nil_or_concat h.entries).resolve_left (List.ne_nil_of_mem ha)
  rw [List.concat_eq_append] at hl
  have hsorted := h.sorted
  rw [hl, List.pairwise_append] at hsorted
  rw [nextVersion, hl, List.getLast?_concat]
  rw [hl] at ha
  rcases List.mem_append.mp ha with ha | ha
  · exact (hsorted.2.2 a ha b (List.mem_singleton_self b)).trans (Nat.lt_succ_self _)
  · rw [List.mem_singleton.mp ha]
    exact Nat.lt_succ_self _

/-- The next version comes behind all others. -/
theorem entries_insert_nextVersion (h : History D) (v : Version D) :
    (h.insert (nextVersion h) v).entries = h.entries ++ [(nextVersion h, v)] := by
  have hlow : h.entries.filter (fun a => a.1 < nextVersion h) = h.entries :=
    List.filter_eq_self.mpr fun a ha => decide_eq_true (lt_nextVersion ha)
  have hhigh : h.entries.filter (fun a => nextVersion h < a.1) = [] :=
    List.filter_eq_nil_iff.mpr fun a ha => by simpa using (lt_nextVersion ha).le
  change h.entries.filter _ ++ (nextVersion h, v) :: h.entries.filter _ = _
  rw [hlow, hhigh]

/-- An earlier history has nothing that a later one does not have. -/
theorem get_of_prefix {h h' : History D} (hpre : h.entries <+: h'.entries) {n : ℕ} {v : Version D}
    (hv : h.get n = some v) : h'.get n = some v :=
  SortedMap.get_eq_some.mpr (hpre.mem (SortedMap.get_eq_some.mp hv))

/-! ### The store -/

/-- The namespace of the version store. -/
def ver : Str := ['v', 'e', 'r']

def scanLimit : ℕ := 1000000

/-- The cache that `open` fills. -/
def cacheOf (entries : List (Str × History D)) : VersionHistory D :=
  entries.foldl (fun cache a => Function.update cache a.1 (some a.2)) fun _ => none

/-- `RedbVersionStore::open`; `none` is an error. -/
def openStore (codec : Codec (History D) W) (data : SortedMap Str W) : Option (VersionHistory D) :=
  match TypedStore.scanPrefix codec .redb data ver [] scanLimit with
  | .entries entries => some (cacheOf entries)
  | _ => none

/-- How far an append has come: its version is in the cache, and the history is cloned. -/
inductive Stage (D : Type)
  | updated
  | cloned (history : History D)

structure Appending (D : Type) where
  entityId : Str
  version : Version D
  stage : Stage D

structure RedbVersionStore (D W : Type) where
  versions : VersionHistory D
  data : SortedMap Str W
  /-- The appends in progress. -/
  calls : ℕ → Option (Appending D)
  /-- The appends that have returned, and whether with `Ok`. -/
  returned : List (Str × Version D × Bool)

inductive Event (D : Type)
  | append (id : ℕ) (entityId : Str) (data : D) (author : Str) (message : Option Str) (now : ℕ)
  | clone (id : ℕ)
  /-- The put into redb, and whether it succeeds. -/
  | put (id : ℕ) (ok : Bool)
  /-- The process stops and the store is opened again. -/
  | reopen

namespace RedbVersionStore

/-- A store opened on a new file. -/
def new (D W : Type) : RedbVersionStore D W where
  versions _ := none
  data := .empty
  calls _ := none
  returned := []

def finish (s : RedbVersionStore D W) (id : ℕ) (call : Appending D) (ok : Bool) :
    RedbVersionStore D W :=
  { s with
    calls := Function.update s.calls id none
    returned := s.returned ++ [(call.entityId, call.version, ok)] }

def step (codec : Codec (History D) W) (s : RedbVersionStore D W) :
    Event D → Option (RedbVersionStore D W)
  | .append id entityId data author message now =>
    if (s.calls id).isNone then
      let (version, versions) := appendVersion s.versions entityId data author message now
      some { s with
        versions := versions
        calls := Function.update s.calls id (some ⟨entityId, version, .updated⟩) }
    else none
  | .clone id =>
    match s.calls id with
    | some ⟨entityId, version, .updated⟩ =>
      match s.versions entityId with
      | some history =>
        some { s with
          calls := Function.update s.calls id (some ⟨entityId, version, .cloned history⟩) }
      | none => some (s.finish id ⟨entityId, version, .updated⟩ true)
    | _ => none
  | .put id ok =>
    match s.calls id with
    | some ⟨entityId, version, .cloned history⟩ =>
      let data := if ok then TypedStore.put codec s.data ver entityId history else s.data
      some ({ s with data := data }.finish id ⟨entityId, version, .cloned history⟩ ok)
    | _ => none
  | .reopen =>
    (openStore codec s.data).map fun cache =>
      { s with
        versions := cache
        calls := fun _ => none }

end RedbVersionStore

end NextgenDatabases.Temporal
