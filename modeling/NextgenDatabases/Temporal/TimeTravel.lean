import NextgenDatabases.Temporal.Versions

/-!
# Asking about the past

Versions are stamped under the lock that they are added under. Asked about a time that has gone by,
a store answers what it had then.
-/
namespace NextgenDatabases.Temporal

open Foundations Storage

variable {D : Type}

/-! ### Queries -/

structure TimeRange where
  start : ℕ
  /-- `end`, which is not in the range. -/
  stop : ℕ

def TimeRange.contains (range : TimeRange) (time : ℕ) : Bool :=
  range.start ≤ time && time < range.stop

inductive Diff (D : Type)
  | noChange (value : D)
  | changed (old new : D)
  | added (value : D)
  | removed (value : D)
deriving DecidableEq

def compareValues [DecidableEq D] (old new : Option D) : Option (Diff D) :=
  match old, new with
  | some old, some new => if old = new then some (.noChange old) else some (.changed old new)
  | some old, none => some (.removed old)
  | none, some new => some (.added new)
  | none, none => none

section Queries

variable (store : VersionHistory D) (entityId : Str)

/-- The versions of an entity, none if there is no such entity. -/
def values : List (Version D) :=
  ((store entityId).map fun versions => versions.entries.map Prod.snd).getD []

def latest : Option (Version D) :=
  (store entityId).bind fun versions => (versions.entries.map Prod.snd).getLast?

def atVersion (version : ℕ) : Option (Version D) :=
  (store entityId).bind fun versions => versions.get version

def atTime (time : ℕ) : Option (Version D) :=
  (store entityId).bind fun versions =>
    ((versions.entries.map Prod.snd).filter fun v => v.timestamp ≤ time).getLast?

def inRange (range : TimeRange) : List (Version D) :=
  ((store entityId).map fun versions =>
    (versions.entries.map Prod.snd).filter fun v => range.contains v.timestamp).getD []

def history (limit : ℕ) : List (Version D) :=
  ((store entityId).map fun versions => (versions.entries.map Prod.snd).reverse.take limit).getD []

/-- `diff`; `none` is an error. -/
def diff [DecidableEq D] (v1 v2 : ℕ) : Option (Diff D) :=
  compareValues ((atVersion store entityId v1).map Version.data)
    ((atVersion store entityId v2).map Version.data)

def diffTime [DecidableEq D] (t1 t2 : ℕ) : Option (Diff D) :=
  compareValues ((atTime store entityId t1).map Version.data)
    ((atTime store entityId t2).map Version.data)

theorem latest_eq : latest store entityId = (values store entityId).getLast? := by
  rw [latest, values]
  cases store entityId <;> rfl

theorem atTime_eq (time : ℕ) : atTime store entityId time =
    ((values store entityId).filter fun v => v.timestamp ≤ time).getLast? := by
  rw [atTime, values]
  cases store entityId <;> rfl

theorem inRange_eq (range : TimeRange) : inRange store entityId range =
    (values store entityId).filter fun v => range.contains v.timestamp := by
  rw [inRange, values]
  cases store entityId <;> rfl

end Queries

/-- An append adds one version behind the others. -/
theorem values_append (store : VersionHistory D) (e : Str) (data : D) (author : Str)
    (message : Option Str) (now : ℕ) (other : Str) :
    values (appendVersion store e data author message now).2 other = values store other ++
      if other = e then [(appendVersion store e data author message now).1] else [] := by
  by_cases hother : other = e
  · subst hother
    simp only [values, appendVersion, Function.update_self, Option.map_some, Option.getD_some,
      entries_insert_nextVersion, List.map_append, if_true]
    cases store other <;> rfl
  · simp [values, appendVersion, hother]

theorem timestamp_append (store : VersionHistory D) (e : Str) (data : D) (author : Str)
    (message : Option Str) (now : ℕ) :
    (appendVersion store e data author message now).1.timestamp = now := by
  cases message <;> rfl

/-! ### A store in use -/

/-- The store in memory, and the time of its last append. -/
structure InMemoryVersionStore (D : Type) where
  versions : VersionHistory D
  clock : ℕ

structure Append (D : Type) where
  entityId : Str
  data : D
  author : Str
  message : Option Str
  now : ℕ

namespace InMemoryVersionStore

def new (D : Type) : InMemoryVersionStore D := ⟨fun _ => none, 0⟩

def step (s : InMemoryVersionStore D) (a : Append D) : Option (InMemoryVersionStore D) :=
  some ⟨(appendVersion s.versions a.entityId a.data a.author a.message a.now).2, a.now⟩

/-- The clock does not go back. -/
def InOrder (s : InMemoryVersionStore D) (a : Append D) : Prop := s.clock ≤ a.now

/-- The clock does not go back, and is past `x`. -/
def After (x : ℕ) (s : InMemoryVersionStore D) (a : Append D) : Prop := s.clock ≤ a.now ∧ x < a.now

instance (s : InMemoryVersionStore D) : DecidablePred (InOrder s) := fun _ => Nat.decLe _ _

instance (x : ℕ) (s : InMemoryVersionStore D) : DecidablePred (After x s) :=
  fun _ => inferInstanceAs (Decidable (_ ∧ _))

/-- The store has no version from the future. -/
def Stamped (s : InMemoryVersionStore D) : Prop :=
  ∀ e, ∀ v ∈ values s.versions e, v.timestamp ≤ s.clock

/-- From `s` on versions are added later than `x`, and none is changed. -/
def Grown (x : ℕ) (s t : InMemoryVersionStore D) : Prop :=
  ∀ e, ∃ added, values t.versions e = values s.versions e ++ added ∧ ∀ v ∈ added, x < v.timestamp

variable {x y : ℕ} {s t u : InMemoryVersionStore D}

theorem Stamped.step {a : Append D} (h : Stamped s) (horder : InOrder s a)
    (hstep : step s a = some t) : Stamped t := by
  cases hstep
  intro e v hv
  rw [values_append] at hv
  rcases List.mem_append.mp hv with hv | hv
  · exact (h e v hv).trans horder
  · split_ifs at hv
    · rw [List.mem_singleton.mp hv, timestamp_append]
    · cases hv

theorem stamped_of_run (r : Run step InOrder (new D) s) : Stamped s :=
  r.invariant (fun _ _ _ h horder hstep => h.step horder hstep) nofun

theorem Grown.step {a : Append D} (h : Grown x s t) (hafter : After x t a)
    (hstep : step t a = some u) : Grown x s u := by
  cases hstep
  intro e
  obtain ⟨added, hvalues, hadded⟩ := h e
  refine ⟨_, (values_append ..).trans (by rw [hvalues, List.append_assoc]), fun v hv => ?_⟩
  rcases List.mem_append.mp hv with hv | hv
  · exact hadded v hv
  · split_ifs at hv
    · rw [List.mem_singleton.mp hv, timestamp_append]
      exact hafter.2
    · cases hv

theorem grown_of_run (r : Run step (After x) s t) : Grown x s t :=
  r.invariant (fun _ _ _ h hafter hstep => h.step hafter hstep) fun _ => ⟨[], by simp⟩

theorem in_order_of_after (r : Run step (After x) s t) : Run step InOrder s t :=
  r.mono fun _ _ h => h.1

/-- What is not later than `x` was there at `x`. -/
theorem Grown.filter_le (h : Grown x s t) (hs : Stamped s) (hx : s.clock ≤ x) (e : Str) :
    (values t.versions e).filter (fun v => v.timestamp ≤ x) = values s.versions e := by
  obtain ⟨added, hvalues, hadded⟩ := h e
  have hold : (values s.versions e).filter (fun v => v.timestamp ≤ x) = values s.versions e :=
    List.filter_eq_self.mpr fun v hv => decide_eq_true ((hs e v hv).trans hx)
  have hnew : added.filter (fun v => v.timestamp ≤ x) = [] :=
    List.filter_eq_nil_iff.mpr fun v hv => by simpa using hadded v hv
  rw [hvalues, List.filter_append, hold, hnew, List.append_nil]

theorem Grown.atTime (h : Grown x s t) (hs : Stamped s) (hx : s.clock ≤ x) (e : Str) :
    Temporal.atTime t.versions e x = latest s.versions e := by
  rw [atTime_eq, h.filter_le hs hx, latest_eq]

/-- Asked about two times that have gone by, a store answers what was the latest version then, what
was changed between them, and which versions were added. -/
theorem past_is_kept [DecidableEq D] {s t u : InMemoryVersionStore D} {x y : ℕ}
    (r : Run step InOrder (new D) s) (hx : s.clock ≤ x)
    (r₁ : Run step (After x) s t) (hxy : x ≤ y) (hy : t.clock ≤ y)
    (r₂ : Run step (After y) t u) (e : Str) :
    atTime u.versions e x = latest s.versions e ∧
    atTime u.versions e y = latest t.versions e ∧
    diffTime u.versions e x y = compareValues ((latest s.versions e).map Version.data)
      ((latest t.versions e).map Version.data) ∧
    values t.versions e = values s.versions e ++ inRange u.versions e ⟨x + 1, y + 1⟩ := by
  have hs : Stamped s := stamped_of_run r
  have ht : Stamped t := stamped_of_run (r.trans (in_order_of_after r₁))
  have hst : Grown x s t := grown_of_run r₁
  have htu : Grown y t u := grown_of_run r₂
  have hsu : Grown x s u := grown_of_run (r₁.trans (r₂.mono fun _ _ h => ⟨h.1, hxy.trans_lt h.2⟩))
  have hatx : atTime u.versions e x = latest s.versions e := hsu.atTime hs hx e
  have haty : atTime u.versions e y = latest t.versions e := htu.atTime ht hy e
  refine ⟨hatx, haty, by rw [diffTime, hatx, haty], ?_⟩
  obtain ⟨added, hvalues, hadded⟩ := hst e
  obtain ⟨later, hvalues', hlater⟩ := htu e
  have hold : (values s.versions e).filter
      (fun v => TimeRange.contains ⟨x + 1, y + 1⟩ v.timestamp) = [] := by
    refine List.filter_eq_nil_iff.mpr fun v hv => ?_
    have hle := (hs e v hv).trans hx
    simp only [TimeRange.contains, Bool.and_eq_true, decide_eq_true_eq]
    omega
  have hbetween : added.filter (fun v => TimeRange.contains ⟨x + 1, y + 1⟩ v.timestamp) = added := by
    refine List.filter_eq_self.mpr fun v hv => ?_
    have hlt := hadded v hv
    have hle := (ht e v (hvalues ▸ List.mem_append_right _ hv)).trans hy
    simp only [TimeRange.contains, Bool.and_eq_true, decide_eq_true_eq]
    omega
  have hnew : later.filter (fun v => TimeRange.contains ⟨x + 1, y + 1⟩ v.timestamp) = [] := by
    refine List.filter_eq_nil_iff.mpr fun v hv => ?_
    have hlt := hlater v hv
    simp only [TimeRange.contains, Bool.and_eq_true, decide_eq_true_eq]
    omega
  rw [inRange_eq, hvalues', hvalues, List.filter_append, List.filter_append, hold, hbetween, hnew,
    List.nil_append, List.append_nil]

/-- Two versions of one entity. -/
def draft : Append ℕ := ⟨['e'], 1, ['x'], none, 10⟩

def revision : Append ℕ := ⟨['e'], 2, ['x'], none, 20⟩

theorem past_is_kept_revision : ∃ s t : InMemoryVersionStore ℕ,
    step (new ℕ) draft = some s ∧ step s revision = some t ∧
    diffTime t.versions ['e'] 15 25 = compareValues ((latest s.versions ['e']).map Version.data)
      ((latest t.versions ['e']).map Version.data) :=
  ⟨_, _, rfl, rfl, (past_is_kept (x := 15) (y := 25) (Run.single (e := draft) (Nat.zero_le _) rfl)
    (by decide) (Run.single (e := revision) (by decide) rfl) (by decide) (by decide) .refl
    ['e']).2.2.1⟩

end InMemoryVersionStore

end NextgenDatabases.Temporal
