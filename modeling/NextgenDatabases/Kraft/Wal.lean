import NextgenDatabases.Kraft.Moves

/-!
# The write-ahead log of a node

The directory behind `KRaftWAL`: the state file and the snapshot file, which are
replaced as a whole, and the log file, a line for each entry. A crash may tear a
write of the log file in two.
-/
namespace NextgenDatabases.Kraft

variable {N : Type*}

/-! ### JSON -/

/-- The object of a command, by its type. -/
inductive CommandObject where
  | noop
  | registerStore (storeId endpoint : String) (modalities : List String)
  | unregisterStore (storeId : String)
  | mapOctad (octadId : String) (locations : List String)
  | unmapOctad (octadId : String)
  | updateTrust (storeId : String) (newTrust : ℚ)
  | unknown
deriving DecidableEq, Repr

def serializeCommand : Command N → CommandObject
  | .noop => .noop
  | .registerStore storeId endpoint modalities => .registerStore storeId endpoint modalities
  | .unregisterStore storeId => .unregisterStore storeId
  | .mapOctad octadId locations => .mapOctad octadId locations
  | .unmapOctad octadId => .unmapOctad octadId
  | .updateTrust storeId newTrust => .updateTrust storeId newTrust
  | .addServer _ _ | .removeServer _ => .unknown

def deserializeCommand : CommandObject → Command N
  | .noop => .noop
  | .registerStore storeId endpoint modalities => .registerStore storeId endpoint modalities
  | .unregisterStore storeId => .unregisterStore storeId
  | .mapOctad octadId locations => .mapOctad octadId locations
  | .unmapOctad octadId => .unmapOctad octadId
  | .updateTrust storeId newTrust => .updateTrust storeId newTrust
  | .unknown => .noop

structure EntryObject where
  term : ℕ
  index : ℕ
  command : CommandObject
  timestamp : ℕ
deriving DecidableEq, Repr

def serializeEntry (entry : Entry N) : EntryObject where
  term := entry.term
  index := entry.index
  command := serializeCommand entry.command
  timestamp := entry.timestamp

def deserializeEntry (map : EntryObject) : Entry N where
  term := map.term
  index := map.index
  command := deserializeCommand map.command
  timestamp := map.timestamp

structure StoreObject where
  storeId : String
  endpoint : String
  modalities : List String
  trustLevel : ℚ

structure MappingObject where
  octadId : String
  locations : List String
  primaryStore : Option String

structure RegistryObject where
  stores : List (String × StoreObject)
  mappings : List (String × MappingObject)

def serializeRegistry (registry : Registry N) : RegistryObject where
  stores := registry.stores.entries.map fun s =>
    (s.1,
      { storeId := s.2.storeId
        endpoint := s.2.endpoint
        modalities := s.2.modalities
        trustLevel := s.2.trustLevel })
  mappings := registry.mappings.entries.map fun m =>
    (m.1,
      { octadId := m.2.octadId
        locations := m.2.locations
        primaryStore := m.2.primaryStore })

/-- The times are not stored; a time that is `nil` is `0` here. -/
def deserializeRegistry (map : RegistryObject) : Registry N where
  stores := List.toAList <| map.stores.map fun (k, v) =>
    ⟨k,
      { storeId := v.storeId
        endpoint := v.endpoint
        modalities := v.modalities
        trustLevel := v.trustLevel
        lastSeen := 0
        responseTimeMs := none }⟩
  mappings := List.toAList <| map.mappings.map fun (k, v) =>
    ⟨k,
      { octadId := v.octadId
        locations := v.locations
        primaryStore := v.primaryStore
        created := 0
        modified := 0 }⟩
  config := (initialRegistry N).config

/-! ### The log file -/

/-- A line of the log file; a corrupt one does not decode. -/
inductive Line where
  | object (map : EntryObject)
  | corrupt
deriving DecidableEq, Repr

/-- Complete lines, and what follows the last newline. -/
structure LogFile where
  lines : List Line
  rest : Option Line
deriving DecidableEq, Repr

/-- Where a crash cuts the line that is being written. -/
inductive Cut where
  /-- Before the line. -/
  | before
  /-- Inside the line. -/
  | inside
  /-- Between the line and its newline. -/
  | newline
deriving DecidableEq, Repr

namespace LogFile

def empty : LogFile := ⟨[], none⟩

/-- `String.split(data, "\n", trim: true)` -/
def split (f : LogFile) : List Line := f.lines ++ f.rest.toList

/-- Lines written at the end; the first one is glued to a line without newline. -/
def append (f : LogFile) (maps : List EntryObject) : LogFile :=
  match f.rest, maps with
  | _, [] => f
  | none, maps => ⟨f.lines ++ maps.map .object, none⟩
  | some _, _ :: maps => ⟨f.lines ++ .corrupt :: maps.map .object, none⟩

/-- The same when only `n` lines and a part of the next one reach the file. -/
def appendTorn (f : LogFile) (maps : List EntryObject) (n : ℕ) (cut : Cut) : LogFile :=
  let written := f.append (maps.take n)
  match cut, maps[n]? with
  | .before, _ | _, none => written
  | .inside, some _ => { written with rest := some .corrupt }
  | .newline, some map =>
    { written with rest := some (if written.rest = none then .object map else .corrupt) }

/-- The objects of the lines that decode and whose index is kept. -/
def kept (f : LogFile) (keep : ℕ → Bool) : List EntryObject :=
  f.split.filterMap fun
    | .object map => if keep map.index then some map else none
    | .corrupt => none

end LogFile

/-! ### The directory -/

structure Snapshot where
  registry : RegistryObject
  lastIncludedIndex : ℕ
  lastIncludedTerm : ℕ

/-- A missing log file reads like an empty one. -/
structure Directory (N : Type*) where
  state : Option (ℕ × Option N)
  snapshot : Option Snapshot
  log : LogFile

def Directory.empty (N : Type*) : Directory N := ⟨none, none, .empty⟩

/-- One write to a file. -/
inductive Write (N : Type*) where
  | state (currentTerm : ℕ) (votedFor : Option N)
  | snapshot (snapshot : Snapshot)
  | append (maps : List EntryObject)
  /-- Rewrite the log file with the entries up to the index. -/
  | truncateAfter (keepUpToIndex : ℕ)
  /-- Rewrite the log file with the entries after the index. -/
  | truncateWal (upToIndex : ℕ)

def WalOp.writes : WalOp N → List (Write N)
  | .persistState currentTerm votedFor => [.state currentTerm votedFor]
  | .appendEntry entry => [.append [serializeEntry entry]]
  | .appendEntries [] => []
  | .appendEntries entries => [.append (entries.map serializeEntry)]
  | .truncateAfter index => [.truncateAfter index]
  | .saveSnapshot registry lastIncludedIndex lastIncludedTerm =>
    [.snapshot ⟨serializeRegistry registry, lastIncludedIndex, lastIncludedTerm⟩,
      .truncateWal lastIncludedIndex]

namespace Directory

def write (d : Directory N) : Write N → Directory N
  | .state currentTerm votedFor => { d with state := some (currentTerm, votedFor) }
  | .snapshot snapshot => { d with snapshot := some snapshot }
  | .append maps => { d with log := d.log.append maps }
  | .truncateAfter index => { d with log := LogFile.empty.append (d.log.kept (· ≤ index)) }
  | .truncateWal index => { d with log := LogFile.empty.append (d.log.kept (index < ·)) }

/-- A write that a crash interrupts: a file that is replaced as a whole stays as it was. -/
def writeTorn (d : Directory N) (n : ℕ) (cut : Cut) : Write N → Directory N
  | .state _ _ | .snapshot _ => d
  | .append maps => { d with log := d.log.appendTorn maps n cut }
  | .truncateAfter index =>
    { d with log := LogFile.empty.appendTorn (d.log.kept (· ≤ index)) n cut }
  | .truncateWal index =>
    { d with log := LogFile.empty.appendTorn (d.log.kept (index < ·)) n cut }

end Directory

/-- What a callback does, one thing at a time. -/
inductive Deed (N : Type*) where
  | write (w : Write N)
  | send (message : Message N)
  | reply (ref : CallRef) (answer : Reply N)

/-- Without a path the log is not kept. -/
def Effect.deeds : Effect N → List (Deed N)
  | .wal none _ => []
  | .wal (some _) op => op.writes.map .write
  | .send message => [.send message]
  | .reply ref answer => [.reply ref answer]

def deeds (fx : List (Effect N)) : List (Deed N) := fx.flatMap Effect.deeds

namespace Directory

def act (d : Directory N) : Deed N → Directory N
  | .write w => d.write w
  | .send _ | .reply _ _ => d

def perform (d : Directory N) (fx : List (Effect N)) : Directory N := (deeds fx).foldl act d

/-- A crash after `done` deeds and, if the next one is a write, in the middle of it. -/
def crashed (d : Directory N) (fx : List (Effect N)) (done n : ℕ) (cut : Cut) : Directory N :=
  let d := ((deeds fx).take done).foldl act d
  match (deeds fx)[done]? with
  | some (.write w) => d.writeTorn n cut w
  | _ => d

/-! ### Recovery -/

def recoverState (d : Directory N) : ℕ × Option N := d.state.getD (0, none)

def recoverSnapshot (d : Directory N) : Option (Registry N) × ℕ × ℕ :=
  match d.snapshot with
  | none => (none, 0, 0)
  | some s => (some (deserializeRegistry s.registry), s.lastIncludedIndex, s.lastIncludedTerm)

def recoverLog (d : Directory N) (afterIndex : ℕ) : List (Entry N) :=
  d.log.split.flatMap fun
    | .object map =>
      let entry := deserializeEntry map
      if afterIndex < entry.index then [entry] else []
    | .corrupt => []

end Directory

structure Recovered (N : Type*) where
  currentTerm : ℕ
  votedFor : Option N
  log : List (Entry N)
  registry : Option (Registry N)
  snapshotIndex : ℕ
  snapshotTerm : ℕ

/-- `init` has made the directory, so only a missing path leaves nothing to recover. -/
def recover (walPath : Option String) (d : Directory N) : Option (Recovered N) :=
  walPath.map fun _ =>
    let (currentTerm, votedFor) := d.recoverState
    let (registry, snapshotIndex, snapshotTerm) := d.recoverSnapshot
    { currentTerm := currentTerm
      votedFor := votedFor
      log := d.recoverLog snapshotIndex
      registry := registry
      snapshotIndex := snapshotIndex
      snapshotTerm := snapshotTerm }

def recoverFromWal (walPath : Option String) (d : Directory N) :
    ℕ × Option N × List (Entry N) × Registry N × ℕ :=
  match recover walPath d with
  | none => (0, none, [], initialRegistry N, 0)
  | some recovered =>
    (recovered.currentTerm, recovered.votedFor, recovered.log,
      recovered.registry.getD (initialRegistry N), recovered.snapshotIndex)

/-- `init`: the state of a node that starts on its directory. -/
def State.init (nodeId : N) (peers : List N) (walPath : Option String) (d : Directory N) :
    State N :=
  let (currentTerm, votedFor, log, registry, snapshotIndex) := recoverFromWal walPath d
  { nodeId := nodeId
    peers := peers
    role := .follower
    currentTerm := currentTerm
    votedFor := votedFor
    log := log
    commitIndex := snapshotIndex
    lastApplied := snapshotIndex
    nextIndex := ∅
    matchIndex := ∅
    leaderId := none
    votesReceived := ∅
    registry := registry
    pendingRequests := []
    electionCount := 0
    walPath := walPath }

/-- On an empty directory a node starts fresh. -/
theorem State.init_empty (nodeId : N) (peers : List N) (walPath : Option String) :
    State.init nodeId peers walPath (.empty N) = State.fresh nodeId peers walPath := by
  cases walPath <;> rfl

/-! ### Entries in the file -/

/-- What is read back for an entry. -/
def Entry.stored (entry : Entry N) : Entry N := deserializeEntry (serializeEntry entry)

/-- Membership changes are read back as `noop`. -/
theorem stored_eq_iff (entry : Entry N) : entry.stored = entry ↔ ¬ entry.command.IsMembership := by
  obtain ⟨term, index, command, timestamp⟩ := entry
  cases command <;>
    simp [Entry.stored, deserializeEntry, serializeEntry, serializeCommand, deserializeCommand,
      Command.IsMembership]

@[simp] theorem stored_index (entry : Entry N) : entry.stored.index = entry.index := rfl

@[simp] theorem stored_deserializeEntry (map : EntryObject) :
    (deserializeEntry map : Entry N).stored = deserializeEntry map := by
  obtain ⟨term, index, command, timestamp⟩ := map
  cases command <;> rfl

def Line.entry? : Line → Option (Entry N)
  | .object map => some (deserializeEntry map)
  | .corrupt => none

namespace LogFile

/-- The entries that are read back from the file. -/
def entries (f : LogFile) : List (Entry N) := f.split.filterMap Line.entry?

variable {f : LogFile} {maps : List EntryObject}

theorem filterMap_object (maps : List EntryObject) :
    (maps.map Line.object).filterMap Line.entry? =
      maps.map (deserializeEntry : EntryObject → Entry N) := by
  rw [List.filterMap_map]
  exact congrFun List.filterMap_eq_map maps

@[simp] theorem entries_empty : (empty.entries : List (Entry N)) = [] := rfl

theorem append_rest (hf : f.rest = none) : (f.append maps).rest = none := by
  unfold append
  rw [hf]
  cases maps with
  | nil => exact hf
  | cons map maps => rfl

theorem entries_append (hf : f.rest = none) :
    (f.append maps).entries = (f.entries : List (Entry N)) ++ maps.map deserializeEntry := by
  unfold append
  rw [hf]
  cases maps with
  | nil => simp
  | cons map maps =>
    simp only [entries, split, hf, Option.toList_none, List.append_nil, List.filterMap_append,
      filterMap_object]

/-- A torn append brings some of the entries, from the first one on. -/
theorem entries_appendTorn (hf : f.rest = none) (n : ℕ) (cut : Cut) :
    ∃ m, (f.appendTorn maps n cut).entries =
      (f.entries : List (Entry N)) ++ (maps.take m).map deserializeEntry := by
  have hwritten : (f.append (maps.take n)).rest = none := append_rest hf
  have hentries : (f.append (maps.take n)).entries =
      (f.entries : List (Entry N)) ++ (maps.take n).map deserializeEntry := entries_append hf
  have hsplit (r : Option Line) :
      ({ f.append (maps.take n) with rest := r } : LogFile).entries =
        ((f.append (maps.take n)).entries : List (Entry N)) ++
          r.toList.filterMap Line.entry? := by
    simp [entries, split, hwritten]
  cases hnext : maps[n]? with
  | none => exact ⟨n, by cases cut <;> simp [appendTorn, hnext, hentries]⟩
  | some map =>
    cases cut with
    | before => exact ⟨n, by simp [appendTorn, hentries]⟩
    | inside =>
      refine ⟨n, ?_⟩
      simp only [appendTorn, hnext]
      rw [hsplit, hentries]
      simp [Line.entry?]
    | newline =>
      refine ⟨n + 1, ?_⟩
      simp only [appendTorn, hnext, hwritten, if_true]
      rw [hsplit, hentries, List.take_add_one, hnext, List.map_append, List.append_assoc]
      rfl

theorem entries_kept (f : LogFile) (keep : ℕ → Bool) :
    (f.kept keep).map (deserializeEntry : EntryObject → Entry N) =
      f.entries.filter fun e => keep e.index := by
  unfold kept entries
  rw [List.map_filterMap, List.filter_filterMap]
  refine List.filterMap_congr fun line _ => ?_
  cases line with
  | object map =>
    by_cases hkeep : keep map.index <;>
      simp [Line.entry?, deserializeEntry, Option.filter_some, hkeep]
  | corrupt => rfl

end LogFile

theorem Directory.recoverLog_eq (d : Directory N) (afterIndex : ℕ) :
    d.recoverLog afterIndex = d.log.entries.filter fun e => afterIndex < e.index := by
  unfold recoverLog LogFile.entries
  rw [List.filter_filterMap, List.filterMap_eq_flatMap_toList]
  refine List.flatMap_congr fun line _ => ?_
  cases line with
  | object map =>
    by_cases hlt : afterIndex < map.index <;>
      simp [Line.entry?, deserializeEntry, Option.filter_some, hlt]
  | corrupt => rfl

end NextgenDatabases.Kraft
