import NextgenDatabases.Foundations.Linearizability
import NextgenDatabases.Verisim.Data

/-!
# The conflict resolver

Conflicts between the modalities of an entity are detected, and resolved by a policy, resolved by
hand, or dismissed. A call works in sections, each of which holds the locks of the lists that it
reads or writes.
-/
namespace NextgenDatabases.Conflicts

open Foundations
open Verisim (Modality)
open Wal (DateTime)

inductive ConflictPolicy
  | lastWriterWins
  | modalityPriority (order : List Modality)
  | manualResolve
  | autoMerge
  | custom (name : String)
  deriving DecidableEq

inductive ConflictStatus
  | opened | inProgress | resolved | dismissed
  deriving DecidableEq

structure ConflictResolution where
  resolvedAt : DateTime
  policyUsed : ConflictPolicy
  winningModality : Option Modality
  resolver : String
  notes : Option String
  deriving DecidableEq

structure Conflict (D : Type) where
  id : String
  entityId : String
  detectedAt : DateTime
  conflictingModalities : List Modality
  driftScore : D
  description : String
  status : ConflictStatus
  resolution : Option ConflictResolution
  deriving DecidableEq

structure ConflictConfig (D : Type) where
  defaultPolicy : ConflictPolicy
  perModalityPolicies : Modality → Modality → Option ConflictPolicy
  requireManualAbove : D
  maxHistoryEntries : ℕ

inductive ConflictError
  | notFound (conflictId : String)
  | alreadyResolved (conflictId : String)
  | invalidPolicy (message : String)
  | modalityNotInConflict (message : String)
  deriving DecidableEq

/-! ### Policies -/

section policies

variable {D : Type}

/-- The pairs of a list, the earlier element first. -/
def pairs {α : Type} : List α → List (α × α)
  | [] => []
  | a :: as => (as.map fun b => (a, b)) ++ pairs as

def selectPolicy (config : ConflictConfig D) (conflict : Conflict D) : ConflictPolicy :=
  let override := (pairs conflict.conflictingModalities).findSome? fun (a, b) =>
    (config.perModalityPolicies a b).or (config.perModalityPolicies b a)
  override.getD config.defaultPolicy

/-- One modality of the loop that looks for the one with the highest priority. -/
def better (priorityOrder : List Modality) (best : Option (ℕ × Modality)) (m : Modality) :
    Option (ℕ × Modality) :=
  match priorityOrder.findIdx? (· = m) with
  | none => best
  | some idx =>
    match best with
    | none => some (idx, m)
    | some (bestIdx, _) => if idx < bestIdx then some (idx, m) else best

def applyPolicy (now : DateTime) (conflict : Conflict D) (policy : ConflictPolicy) :
    ConflictResolution where
  resolvedAt := now
  policyUsed := policy
  winningModality :=
    match policy with
    | .lastWriterWins => conflict.conflictingModalities.getLast?
    | .modalityPriority priorityOrder =>
      ((conflict.conflictingModalities.foldl (better priorityOrder) none).map Prod.snd).or
        conflict.conflictingModalities.head?
    | .autoMerge => none
    | .manualResolve | .custom _ => none
  resolver := "system"
  notes := none

end policies

/-! ### What becomes of a conflict -/

/-- The conflict is kept and the call refused, or the conflict is finished. -/
inductive Settled (D : Type)
  | refused (conflict : Conflict D) (error : ConflictError)
  | finished (conflict : Conflict D) (resolution : ConflictResolution)

namespace Settled

variable {D : Type}

def conflict : Settled D → Conflict D
  | refused conflict _ | finished conflict _ => conflict

end Settled

/-- The name of the variant. -/
def debugModality : Modality → String
  | .graph => "Graph"
  | .vector => "Vector"
  | .tensor => "Tensor"
  | .semantic => "Semantic"
  | .document => "Document"
  | .temporal => "Temporal"
  | .provenance => "Provenance"
  | .spatial => "Spatial"

namespace Conflict

variable {D : Type}

/-- `toString` prints a drift score with three decimals. -/
def resolve [LE D] [DecidableLE D] [ToString D] (config : ConflictConfig D) (now : DateTime)
    (policy : Option ConflictPolicy) (conflict : Conflict D) : Settled D :=
  if conflict.status = .resolved ∨ conflict.status = .dismissed then
    .refused conflict (.alreadyResolved conflict.id)
  else if config.requireManualAbove ≤ conflict.driftScore then
    .refused { conflict with status := .inProgress } (.invalidPolicy
      ("Drift score " ++ toString conflict.driftScore ++ " >= manual threshold " ++
        toString config.requireManualAbove ++ " -- use resolve_manual()"))
  else
    let effectivePolicy := policy.getD (selectPolicy config conflict)
    match effectivePolicy with
    | .manualResolve =>
      .refused { conflict with status := .inProgress }
        (.invalidPolicy "ManualResolve policy requires resolve_manual()")
    | .custom name =>
      .refused { conflict with status := .inProgress } (.invalidPolicy
        ("Custom policy '" ++ name ++ "' requires external resolver callback"))
    | .lastWriterWins | .modalityPriority _ | .autoMerge =>
      let resolution := applyPolicy now conflict effectivePolicy
      .finished { conflict with status := .resolved, resolution := some resolution } resolution

def resolveManual (now : DateTime) (winningModality : Modality) (resolver : String)
    (notes : Option String) (conflict : Conflict D) : Settled D :=
  if conflict.status = .resolved ∨ conflict.status = .dismissed then
    .refused conflict (.alreadyResolved conflict.id)
  else if winningModality ∉ conflict.conflictingModalities then
    .refused conflict (.modalityNotInConflict (winningModality.name ++
      " is not in conflicting modalities [" ++
      ", ".intercalate (conflict.conflictingModalities.map debugModality) ++ "]"))
  else
    let resolution : ConflictResolution :=
      ⟨now, .manualResolve, some winningModality, resolver, notes⟩
    .finished { conflict with status := .resolved, resolution := some resolution } resolution

def dismiss (now : DateTime) (reason : String) (conflict : Conflict D) : Settled D :=
  if conflict.status = .resolved ∨ conflict.status = .dismissed then
    .refused conflict (.alreadyResolved conflict.id)
  else
    let resolution : ConflictResolution :=
      ⟨now, .lastWriterWins, none, "system", some ("Dismissed: " ++ reason)⟩
    .finished { conflict with status := .dismissed, resolution := some resolution } resolution

end Conflict

/-! ### Calls -/

/-- How a call finishes a conflict. -/
inductive Ending
  | resolve (policy : Option ConflictPolicy)
  | resolveManual (winningModality : Modality) (resolver : String) (notes : Option String)
  | dismiss (reason : String)
  deriving DecidableEq

/-- A call with its arguments, the identifier that it draws and the time that it reads. -/
inductive Call (D : Type)
  | detectConflict (id : String) (now : DateTime) (entityId : String) (modalities : List Modality)
    (driftScore : D) (description : String)
  | finish (now : DateTime) (conflictId : String) (ending : Ending)
  | activeConflicts
  | history (limit : ℕ)
  | byEntity (entityId : String)
  deriving DecidableEq

inductive Answer (D : Type)
  | conflict (c : Conflict D)
  | resolution (r : Except ConflictError ConflictResolution)
  | dismissed (r : Except ConflictError Unit)
  | conflicts (cs : List (Conflict D))

namespace Ending

variable {D : Type} [LE D] [DecidableLE D] [ToString D]

def settle (config : ConflictConfig D) (now : DateTime) (conflict : Conflict D) :
    Ending → Settled D
  | resolve policy => conflict.resolve config now policy
  | resolveManual winningModality resolver notes =>
    conflict.resolveManual now winningModality resolver notes
  | dismiss reason => conflict.dismiss now reason

omit [LE D] [DecidableLE D] [ToString D]

def refuse (error : ConflictError) : Ending → Answer D
  | dismiss _ => .dismissed (.error error)
  | resolve _ | resolveManual _ _ _ => .resolution (.error error)

def accept (resolution : ConflictResolution) : Ending → Answer D
  | dismiss _ => .dismissed (.ok ())
  | resolve _ | resolveManual _ _ _ => .resolution (.ok resolution)

end Ending

/-! ### The lists -/

structure Resolver (D : Type) where
  activeConflicts : List (Conflict D)
  history : List (Conflict D)
  deriving DecidableEq

/-- The sections that a call has behind it, and what it holds. -/
inductive Reached (D : Type)
  | begun
  /-- The conflict is marked in the list of active conflicts. -/
  | marked (conflict : Conflict D) (answer : Answer D)
  /-- The conflict is removed from that list. -/
  | removed (conflict : Conflict D) (answer : Answer D)
  /-- `by_entity` keeps that list locked. -/
  | reading (entityId : String)
  | answered (answer : Answer D)
  | returned (answer : Answer D)

namespace Resolver

variable {D : Type}

def new : Resolver D := ⟨[], []⟩

def detectConflict (self : Resolver D) (conflict : Conflict D) : Resolver D :=
  { self with activeConflicts := self.activeConflicts ++ [conflict] }

/-- Put what `f` makes of the conflict in its place. -/
def settle (self : Resolver D) (conflictId : String) (f : Conflict D → Settled D) :
    Option (Settled D × Resolver D) :=
  (self.activeConflicts.find? (·.id = conflictId)).map fun conflict =>
    (f conflict, { self with activeConflicts := self.activeConflicts.replaceF fun c =>
      if c.id = conflictId then some (f conflict).conflict else none })

/-- The first section of `move_to_history`. -/
def retain (self : Resolver D) (conflict : Conflict D) : Resolver D :=
  { self with activeConflicts := self.activeConflicts.filter (·.id ≠ conflict.id) }

/-- The second section of `move_to_history`. -/
def push (config : ConflictConfig D) (self : Resolver D) (conflict : Conflict D) : Resolver D :=
  let history := self.history ++ [conflict]
  let max := config.maxHistoryEntries
  { self with
    history := if max < history.length then history.drop (history.length - max) else history }

def recent (self : Resolver D) (limit : ℕ) : List (Conflict D) :=
  if limit = 0 ∨ self.history.length ≤ limit then self.history.reverse
  else (self.history.drop (self.history.length - limit)).reverse

def byEntity (self : Resolver D) (entityId : String) : List (Conflict D) :=
  self.activeConflicts.filter (·.entityId = entityId) ++
    (self.history.filter (·.entityId = entityId)).reverse

variable [LE D] [DecidableLE D] [ToString D]

/-- The first section of a call. -/
def first (config : ConflictConfig D) (self : Resolver D) : Call D → Reached D × Resolver D
  | .detectConflict id now entityId modalities driftScore description =>
    let conflict : Conflict D :=
      ⟨id, entityId, now, modalities, driftScore, description, .opened, none⟩
    (.answered (.conflict conflict), self.detectConflict conflict)
  | .finish now conflictId ending =>
    match self.settle conflictId fun conflict => ending.settle config now conflict with
    | none => (.answered (ending.refuse (.notFound conflictId)), self)
    | some (.refused _ error, self') => (.answered (ending.refuse error), self')
    | some (.finished conflict resolution, self') =>
      (.marked conflict (ending.accept resolution), self')
  | .activeConflicts => (.answered (.conflicts self.activeConflicts), self)
  | .history limit => (.answered (.conflicts (self.recent limit)), self)
  | .byEntity entityId => (.reading entityId, self)

/-- The section after those that the call has behind it. -/
def next (config : ConflictConfig D) (self : Resolver D) (call : Call D) :
    Reached D → Option (Reached D × Resolver D)
  | .begun => some (self.first config call)
  | .marked conflict answer => some (.removed conflict answer, self.retain conflict)
  | .removed conflict answer => some (.answered answer, self.push config conflict)
  | .reading entityId => some (.answered (.conflicts (self.byEntity entityId)), self)
  | .answered _ | .returned _ => none

/-- A call with nothing in between its sections. -/
def perform (config : ConflictConfig D) (self : Resolver D) : Call D → Answer D × Resolver D
  | .detectConflict id now entityId modalities driftScore description =>
    let conflict : Conflict D :=
      ⟨id, entityId, now, modalities, driftScore, description, .opened, none⟩
    (.conflict conflict, self.detectConflict conflict)
  | .finish now conflictId ending =>
    match self.settle conflictId fun conflict => ending.settle config now conflict with
    | none => (ending.refuse (.notFound conflictId), self)
    | some (.refused _ error, self') => (ending.refuse error, self')
    | some (.finished conflict resolution, self') =>
      (ending.accept resolution, (self'.retain conflict).push config conflict)
  | .activeConflicts => (.conflicts self.activeConflicts, self)
  | .history limit => (.conflicts (self.recent limit), self)
  | .byEntity entityId => (.conflicts (self.byEntity entityId), self)

/-- A call on its own goes through its sections in turn. -/
theorem perform_eq (config : ConflictConfig D) (self : Resolver D) (call : Call D) :
    (∀ conflict answer self', self.first config call = (.marked conflict answer, self') →
      self.perform config call = (answer, (self'.retain conflict).push config conflict)) ∧
    (∀ entityId self', self.first config call = (.reading entityId, self') →
      self.perform config call = (.conflicts (self'.byEntity entityId), self')) ∧
    ∀ answer self', self.first config call = (.answered answer, self') →
      self.perform config call = (answer, self') := by
  cases call with
  | finish now conflictId ending =>
    simp only [first, perform]
    refine ⟨fun conflict answer self' h => ?_, fun entityId self' h => ?_, fun answer self' h => ?_⟩
    all_goals split at h <;> cases h
    all_goals rfl
  | detectConflict | activeConflicts | history | byEntity => simp +contextual [first, perform]

end Resolver

/-! ### Calls that interleave -/

/-- The resolver, the calls on it, and what their callers have seen. -/
structure System (ι D : Type) where
  resolver : Resolver D
  /-- The calls of `by_entity` that keep the active conflicts locked for reading. -/
  readers : ℕ
  calls : ι → Option (Call D × Reached D)
  seen : List (CallEvent ι (Call D) (Answer D))

inductive Act (ι D : Type)
  | invoke (i : ι) (call : Call D)
  | proceed (i : ι)
  | respond (i : ι)
  deriving DecidableEq

namespace System

variable {ι D : Type} [DecidableEq ι]

def new : System ι D := ⟨.new, 0, fun _ => none, []⟩

/-- The section writes the list of active conflicts. -/
def writesActive : Call D → Reached D → Bool
  | .detectConflict .., .begun | .finish .., .begun => true
  | _, .marked _ _ => true
  | _, _ => false

def readersAfter (readers : ℕ) : Reached D → Reached D → ℕ
  | .begun, .reading _ => readers + 1
  | .reading _, _ => readers - 1
  | _, _ => readers

variable [LE D] [DecidableLE D] [ToString D] (config : ConflictConfig D)

/-- A call starts, goes through its next section, or returns. -/
def step (s : System ι D) : Act ι D → Option (System ι D)
  | .invoke i call =>
    match s.calls i with
    | some _ => none
    | none =>
      some { s with
        calls := Function.update s.calls i (some (call, .begun))
        seen := s.seen ++ [.invoke i call] }
  | .proceed i =>
    match s.calls i with
    | none => none
    | some (call, reached) =>
      if writesActive call reached ∧ s.readers ≠ 0 then none
      else (s.resolver.next config call reached).map fun (reached', resolver) =>
        { s with
          resolver
          readers := readersAfter s.readers reached reached'
          calls := Function.update s.calls i (some (call, reached')) }
  | .respond i =>
    match s.calls i with
    | some (call, .answered answer) =>
      some { s with
        calls := Function.update s.calls i (some (call, .returned answer))
        seen := s.seen ++ [.respond i answer] }
    | _ => none

end System
end NextgenDatabases.Conflicts
