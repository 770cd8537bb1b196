import NextgenDatabases.Verisim.Alone
import NextgenDatabases.Wal.Recovery

/-!
# Replay of the write-ahead log

`replay_wal` reads the whole log, keeps which entities have a commit marker and what the
last operation on each entity was, and rebuilds the registry from that.
-/
namespace NextgenDatabases.Verisim

open Wal (DateTime WalEntry WalOperation WalWriter)
open Wal.Log (Holds readLog exists_holds)
open Foundations (Bytes)

/-! ### The pass over the log -/

/-- What the pass keeps; the sets of entities are lists without repetitions. -/
structure Scan where
  committedEntities : List String := []
  uncommittedEntities : List String := []
  entityOps : String → Option (WalOperation × Bytes) := fun _ => none

namespace Scan

def classify (s : Scan) (entry : WalEntry) : Scan :=
  match entry.operation with
  | .checkpoint =>
    if entry.payload = committedPayload then
      { s with
        committedEntities := s.committedEntities.insert entry.entityId
        uncommittedEntities := s.uncommittedEntities.erase entry.entityId }
    else s
  | .insert | .update | .delete =>
    { s with
      entityOps :=
        Function.update s.entityOps entry.entityId (some (entry.operation, entry.payload))
      uncommittedEntities :=
        if entry.entityId ∈ s.committedEntities then s.uncommittedEntities
        else s.uncommittedEntities.insert entry.entityId }

end Scan

def scanLog (entries : List WalEntry) : Scan := entries.foldl Scan.classify {}

/-! ### The rebuilt registry -/

section rebuild

variable (rt : Runtime) (now : String → DateTime)

def recoveredFlags (input : OctadInput) : ModalityStatus where
  graph := input.graph.isSome
  vector := input.vector.isSome
  document := input.document.isSome
  tensor := input.tensor.isSome
  semantic := input.semantic.isSome
  temporal := true
  provenance := input.provenance.isSome
  spatial := input.spatial.isSome

def recoveredStatus (existing : Option OctadStatus) (entityId : String) (input : OctadInput) :
    OctadStatus where
  id := entityId
  createdAt := now entityId
  modifiedAt := now entityId
  observedAt := input.observedAt
  version := (existing.map fun s => s.version + 1).getD 1
  modalityStatus := recoveredFlags input

/-- One committed entity: the registry and the number of entities recovered so far. -/
def recoverEntity (entityOps : String → Option (WalOperation × Bytes))
    (acc : (String → Option OctadStatus) × ℕ) (entityId : String) :
    (String → Option OctadStatus) × ℕ :=
  match entityOps entityId with
  | none | some (.checkpoint, _) => acc
  | some (.insert, payload) | some (.update, payload) =>
    match rt.fromSlice payload with
    | none => acc
    | some input =>
      (Function.update acc.1 entityId
        (some (recoveredStatus now (acc.1 entityId) entityId input)), acc.2 + 1)
  | some (.delete, _) => (Function.update acc.1 entityId none, acc.2 + 1)

/-- `replay_wal` once the entries have been read: the number of entities recovered, and the
state of the store. The checkpoint at the end may fail. -/
def replayEntries (checkpoint : DateTime) (fault : Option WalFault) (entries : List WalEntry)
    (w : World) : ℕ × World :=
  if entries = [] then (0, w)
  else
    let scan := scanLog entries
    let (octads, recovered) :=
      scan.committedEntities.foldl (recoverEntity rt now scan.entityOps) (w.registry, 0)
    (recovered,
      (({ w with registry := octads } : World).exec
        (.walAppend (WalWriter.checkpointEntry checkpoint) fault)).2)

/-- `replay_wal`, on a directory that may not exist. -/
def replayWal (crc : Bytes → UInt32) (clock checkpoint : DateTime) (fault : Option WalFault)
    (dir : Option Wal.Dir) (w : World) : Wal.WalResult (ℕ × World) := do
  let entries ← readLog crc clock dir
  return replayEntries rt now checkpoint fault entries w

end rebuild

/-! ### What the pass finds -/

/-- The marker that a complete operation leaves. -/
def IsMarker (entry : WalEntry) : Prop :=
  entry.operation = .checkpoint ∧ entry.payload = committedPayload

/-- An insert, an update or a delete. -/
def IsIntent (entry : WalEntry) : Prop := entry.operation ≠ .checkpoint

instance : DecidablePred IsMarker := fun _ => inferInstanceAs (Decidable (_ ∧ _))

instance : DecidablePred IsIntent := fun _ => inferInstanceAs (Decidable (¬ _))

/-- The intents on an entity, in the order of the log. -/
def intentsOn (entries : List WalEntry) (id : String) : List WalEntry :=
  entries.filter fun entry => IsIntent entry ∧ entry.entityId = id

/-- The entity has a marker. -/
def Marked (entries : List WalEntry) (id : String) : Prop :=
  ∃ entry ∈ entries, IsMarker entry ∧ entry.entityId = id

instance (entries : List WalEntry) (id : String) : Decidable (Marked entries id) :=
  inferInstanceAs (Decidable (∃ entry ∈ entries, _))

section scan

variable {entries : List WalEntry} {entry : WalEntry} {id : String}

theorem marked_append (more : List WalEntry) :
    Marked (entries ++ more) id ↔ Marked entries id ∨ Marked more id := by
  simp only [Marked, List.mem_append, or_and_right, exists_or]

theorem marked_singleton : Marked [entry] id ↔ IsMarker entry ∧ entry.entityId = id := by
  simp [Marked]

theorem intentsOn_append (more : List WalEntry) :
    intentsOn (entries ++ more) id = intentsOn entries id ++ intentsOn more id :=
  List.filter_append _ _

theorem scanLog_concat (entries : List WalEntry) (entry : WalEntry) :
    scanLog (entries ++ [entry]) = (scanLog entries).classify entry :=
  List.foldl_append

/-- A marker, an intent, or an entry that the pass skips. -/
theorem classify_cases (s : Scan) (entry : WalEntry) :
    IsMarker entry ∧ s.classify entry =
        { s with
          committedEntities := s.committedEntities.insert entry.entityId
          uncommittedEntities := s.uncommittedEntities.erase entry.entityId } ∨
      IsIntent entry ∧ s.classify entry =
        { s with
          entityOps :=
            Function.update s.entityOps entry.entityId (some (entry.operation, entry.payload))
          uncommittedEntities :=
            if entry.entityId ∈ s.committedEntities then s.uncommittedEntities
            else s.uncommittedEntities.insert entry.entityId } ∨
      ¬ IsMarker entry ∧ ¬ IsIntent entry ∧ s.classify entry = s := by
  unfold Scan.classify IsMarker IsIntent
  cases hop : entry.operation with
  | checkpoint =>
    by_cases hpayload : entry.payload = committedPayload
    · simp [hpayload]
    · simp [hpayload]
  | insert | update | delete => simp

theorem IsMarker.not_isIntent (h : IsMarker entry) : ¬ IsIntent entry := fun hintent => hintent h.1

/-- What the pass keeps, by entity. -/
structure Finds (entries : List WalEntry) (s : Scan) : Prop where
  committed : ∀ id, id ∈ s.committedEntities ↔ Marked entries id
  committed_nodup : s.committedEntities.Nodup
  uncommitted : ∀ id, id ∈ s.uncommittedEntities ↔
    intentsOn entries id ≠ [] ∧ ¬ Marked entries id
  uncommitted_nodup : s.uncommittedEntities.Nodup
  entityOps : ∀ id, s.entityOps id =
    (intentsOn entries id).getLast?.map fun entry => (entry.operation, entry.payload)

theorem Finds.step {s : Scan} (h : Finds entries s) (entry : WalEntry) :
    Finds (entries ++ [entry]) (s.classify entry) := by
  have hintents (id : String) : intentsOn (entries ++ [entry]) id =
      intentsOn entries id ++ if IsIntent entry ∧ entry.entityId = id then [entry] else [] := by
    rw [intentsOn_append]
    unfold intentsOn
    by_cases hid : IsIntent entry ∧ entry.entityId = id <;> simp [hid]
  rcases classify_cases s entry with ⟨hmarker, heq⟩ | ⟨hintent, heq⟩ | ⟨hmarker, hintent, heq⟩
  · have hnot := hmarker.not_isIntent
    rw [heq]
    constructor
    · intro id
      rw [List.mem_insert_iff, h.committed, marked_append, marked_singleton]
      simp [hmarker, or_comm, eq_comm]
    · exact h.committed_nodup.insert
    · intro id
      rw [h.uncommitted_nodup.mem_erase_iff, h.uncommitted, hintents, marked_append,
        marked_singleton]
      simp only [hnot, hmarker, false_and, if_false, List.append_nil, true_and, not_or]
      tauto
    · exact h.uncommitted_nodup.erase _
    · intro id
      rw [h.entityOps, hintents]
      simp [hnot]
  · have hnot : ¬ IsMarker entry := fun hmarker => hmarker.not_isIntent hintent
    have hmarked (id : String) : Marked (entries ++ [entry]) id ↔ Marked entries id := by
      rw [marked_append, marked_singleton]
      simp [hnot]
    rw [heq]
    constructor
    · exact fun id => (h.committed id).trans (hmarked id).symm
    · exact h.committed_nodup
    · intro id
      rw [hmarked, hintents]
      by_cases hid : entry.entityId = id
      · subst hid
        by_cases hcommitted : entry.entityId ∈ s.committedEntities
        · have hold := h.uncommitted entry.entityId
          have hmark := (h.committed _).mp hcommitted
          simp only [hcommitted, if_true]
          simp [hold, hmark]
        · have hmark : ¬ Marked entries entry.entityId :=
            fun hmark => hcommitted ((h.committed _).mpr hmark)
          simp [hcommitted, hmark, hintent]
      · have hne : id ≠ entry.entityId := fun h => hid h.symm
        have hold := h.uncommitted id
        split
        · simpa [hid] using hold
        · simpa [hid, hne] using hold
    · split
      · exact h.uncommitted_nodup
      · exact h.uncommitted_nodup.insert
    · intro id
      rw [hintents]
      by_cases hid : entry.entityId = id
      · subst hid
        simp [hintent]
      · have hne : id ≠ entry.entityId := fun h => hid h.symm
        simp [hid, hne, h.entityOps]
  · rw [heq]
    have hmarked (id : String) : Marked (entries ++ [entry]) id ↔ Marked entries id := by
      rw [marked_append, marked_singleton]
      simp [hmarker]
    have hsame (id : String) : intentsOn (entries ++ [entry]) id = intentsOn entries id := by
      rw [hintents]
      simp [hintent]
    refine ⟨fun id => ?_, h.committed_nodup, fun id => ?_, h.uncommitted_nodup, fun id => ?_⟩
    · rw [hmarked]
      exact h.committed id
    · rw [hmarked, hsame]
      exact h.uncommitted id
    · rw [hsame]
      exact h.entityOps id

/-- What the pass finds in the whole log. -/
theorem finds_scanLog (entries : List WalEntry) : Finds entries (scanLog entries) := by
  induction entries using List.reverseRecOn with
  | nil =>
    refine ⟨fun id => ?_, List.nodup_nil, fun id => ?_, List.nodup_nil, fun _ => rfl⟩
    · simp [scanLog, Marked]
    · simp [scanLog, intentsOn]
  | append_singleton entries entry ih =>
    rw [scanLog_concat]
    exact ih.step entry

end scan

/-! ### What is rebuilt -/

section outcome

variable (rt : Runtime) (now : String → DateTime)

/-- What the replay makes of an intent on an entity that it has not registered. -/
def outcome (entry : WalEntry) : Option OctadStatus :=
  match entry.operation with
  | .insert | .update =>
    (rt.fromSlice entry.payload).map (recoveredStatus now none entry.entityId)
  | .delete | .checkpoint => none

/-- What becomes of an entity of the registry. -/
def recoveredAt (entityOps : String → Option (WalOperation × Bytes)) (id : String) :
    Option OctadStatus :=
  match entityOps id with
  | some (.insert, payload) | some (.update, payload) =>
    (rt.fromSlice payload).map (recoveredStatus now none id)
  | none | some (.delete, _) | some (.checkpoint, _) => none

variable {rt now} {entityOps : String → Option (WalOperation × Bytes)}

theorem recoveredAt_of_finds {entries : List WalEntry} {s : Scan} (h : Finds entries s)
    (id : String) :
    recoveredAt rt now s.entityOps id = (intentsOn entries id).getLast?.bind (outcome rt now) := by
  unfold recoveredAt
  rw [h.entityOps]
  cases hlast : (intentsOn entries id).getLast? with
  | none => rfl
  | some entry =>
    obtain ⟨-, hentry⟩ := List.mem_filter.mp (List.mem_of_getLast? hlast)
    obtain ⟨-, rfl⟩ := of_decide_eq_true hentry
    unfold outcome
    cases hop : entry.operation <;> simp [hop]

theorem recoverEntity_registry {acc : (String → Option OctadStatus) × ℕ} {entityId : String}
    (h : acc.1 entityId = none) :
    (recoverEntity rt now entityOps acc entityId).1 =
      Function.update acc.1 entityId (recoveredAt rt now entityOps entityId) := by
  have hsame : Function.update acc.1 entityId none = acc.1 := by
    rw [← h]
    exact Function.update_eq_self _ _
  unfold recoverEntity recoveredAt
  split
  · simp [*]
  · simp [*]
  · next payload hop =>
    rw [hop]
    cases hinput : rt.fromSlice payload with
    | none => simp [hsame, hinput]
    | some input => simp [h, hinput]
  · next payload hop =>
    rw [hop]
    cases hinput : rt.fromSlice payload with
    | none => simp [hsame, hinput]
    | some input => simp [h, hinput]
  · simp [*]

/-- The loop rebuilds every entity of the list on its own. -/
theorem foldl_recoverEntity {ids : List String} (hnodup : ids.Nodup)
    {acc : (String → Option OctadStatus) × ℕ} (h : ∀ id ∈ ids, acc.1 id = none) (id : String) :
    (ids.foldl (recoverEntity rt now entityOps) acc).1 id =
      if id ∈ ids then recoveredAt rt now entityOps id else acc.1 id := by
  induction ids generalizing acc with
  | nil => simp
  | cons entityId ids ih =>
    obtain ⟨hnotMem, hnodup⟩ := List.nodup_cons.mp hnodup
    have hstep : (recoverEntity rt now entityOps acc entityId).1 =
        Function.update acc.1 entityId (recoveredAt rt now entityOps entityId) :=
      recoverEntity_registry (h entityId List.mem_cons_self)
    have hrest : ∀ other ∈ ids, (recoverEntity rt now entityOps acc entityId).1 other = none := by
      intro other hother
      have hne : other ≠ entityId := fun heq => hnotMem (heq ▸ hother)
      rw [hstep, Function.update_of_ne hne]
      exact h other (List.mem_cons_of_mem _ hother)
    rw [List.foldl_cons, ih hnodup hrest, hstep]
    by_cases hid : id = entityId
    · subst hid
      simp [hnotMem]
    · simp [hid]

end outcome

/-- A fresh store registers, for every entity with a marker, what its last intent says. -/
theorem replayEntries_registry (rt : Runtime) (now : String → DateTime) (checkpoint : DateTime)
    (fault : Option WalFault) (entries : List WalEntry) {w : World}
    (hw : ∀ id, w.registry id = none) (id : String) :
    (replayEntries rt now checkpoint fault entries w).2.registry id =
      if Marked entries id then (intentsOn entries id).getLast?.bind (outcome rt now)
      else none := by
  have hfinds := finds_scanLog entries
  unfold replayEntries
  by_cases hempty : entries = []
  · subst hempty
    simp [hw, Marked]
  · rw [if_neg hempty]
    dsimp only
    rw [World.exec_walAppend]
    dsimp only
    rw [foldl_recoverEntity hfinds.committed_nodup fun id _ => hw id, recoveredAt_of_finds hfinds]
    simp only [hfinds.committed, hw]

/-! ### Replaying a directory -/

theorem classify_congr {e f : WalEntry} (h : e.content = f.content) (s : Scan) :
    s.classify e = s.classify f := by
  obtain ⟨hop, -, hid, hpayload⟩ := by simpa [WalEntry.content] using h
  simp only [Scan.classify, hop, hid, hpayload]

theorem foldl_classify_congr {entries read : List WalEntry}
    (h : read.map WalEntry.content = entries.map WalEntry.content) (s : Scan) :
    read.foldl Scan.classify s = entries.foldl Scan.classify s := by
  induction entries generalizing read s with
  | nil => rw [List.map_eq_nil_iff.mp h]
  | cons entry entries ih =>
    obtain ⟨e, read, rfl, he, hrest⟩ := List.map_eq_cons_iff.mp h
    rw [List.foldl_cons, List.foldl_cons, classify_congr he, ih hrest]

/-- Numbers and times make no difference to the replay. -/
theorem replayEntries_congr (rt : Runtime) (now : String → DateTime) (checkpoint : DateTime)
    (fault : Option WalFault) {entries read : List WalEntry}
    (h : read.map WalEntry.content = entries.map WalEntry.content) (w : World) :
    replayEntries rt now checkpoint fault read w =
      replayEntries rt now checkpoint fault entries w := by
  have hnil : read = [] ↔ entries = [] := by
    rw [← List.map_eq_nil_iff, h, List.map_eq_nil_iff]
  have hscan : scanLog read = scanLog entries := foldl_classify_congr h {}
  simp only [replayEntries, hnil, hscan]

/-- The replay of a directory is that of the entries which it holds. -/
theorem replayWal_eq (rt : Runtime) (now : String → DateTime) (checkpoint : DateTime)
    (fault : Option WalFault) {crc : Bytes → UInt32} {dir : Option Wal.Dir}
    {entries : List WalEntry} (h : Holds crc dir entries) (clock : DateTime) (w : World) :
    replayWal rt now crc clock checkpoint fault dir w =
      .ok (replayEntries rt now checkpoint fault entries w) := by
  obtain ⟨read, hread, hcontent⟩ := h.readLog clock
  rw [replayWal, hread]
  exact congrArg Except.ok (replayEntries_congr rt now checkpoint fault hcontent w)

/-- Short entries are held by some directory. -/
theorem exists_holds_short {entries : List WalEntry} (hlen : entries.length ≤ 100)
    (hshort : ∀ e ∈ entries, (Wal.asBytes e.entityId).length + e.payload.length ≤ 10000) :
    ∃ dir, Holds Wal.Log.crc32 (some dir) entries := by
  refine exists_holds (fun e he => ?_) (by omega)
  have hle := hshort e he
  rw [WalEntry.fits_iff, Wal.MAX_ENTRY_SIZE]
  omega

end NextgenDatabases.Verisim
