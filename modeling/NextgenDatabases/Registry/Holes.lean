import NextgenDatabases.Registry.Serializer
import Mathlib.Data.List.Forall2

/-!
# Logs with holes

The decoders of node states and of requests leave out elements of a log that are not log entries.
Which JSON values are log entries, node states and requests is told by their members, and a
decoded log is whole just when all elements of its array are log entries.
-/
namespace NextgenDatabases.KRaftSerializer

open Foundations (Dict Json)
open Foundations.Json (stringAt numberAt arrayAt objectAt)

/-! ### The form of entries -/

/-- The members that a command of the type needs. -/
inductive CommandForm (d : Dict Json) : Prop
  | registerStore (htype : stringAt d "type" = some "RegisterStore")
    (hstoreId : (stringAt d "storeId").isSome) (hendpoint : (stringAt d "endpoint").isSome)
    (hmodalities : (arrayAt d "modalities").isSome)
  | unregisterStore (htype : stringAt d "type" = some "UnregisterStore")
    (hstoreId : (stringAt d "storeId").isSome)
  | mapHexad (htype : stringAt d "type" = some "MapHexad")
    (hhexadId : (stringAt d "hexadId").isSome)
    (hlocations : (objectAt d "locations").isSome)
  | unmapHexad (htype : stringAt d "type" = some "UnmapHexad")
    (hhexadId : (stringAt d "hexadId").isSome)
  | updateTrust (htype : stringAt d "type" = some "UpdateTrust")
    (hstoreId : (stringAt d "storeId").isSome) (hnewTrust : (numberAt d "newTrust").isSome)
  | noOp (htype : stringAt d "type" = some "NoOp")

/-- The value is an object of one of the six types of commands. -/
def IsCommand (j : Json) : Prop := ∃ d, j.decodeObject = some d ∧ CommandForm d

structure LogEntryForm (d : Dict Json) : Prop where
  term : (numberAt d "term").isSome
  index : (numberAt d "index").isSome
  command : ∃ j, d.get "command" = some j ∧ IsCommand j
  timestamp : (numberAt d "timestamp").isSome

/-- The value is an object with the members of a log entry. -/
def IsLogEntry (j : Json) : Prop := ∃ d, j.decodeObject = some d ∧ LogEntryForm d

theorem any_const {α : Type*} (x : Option α) (c : Bool) : (x.any fun _ => c) = (x.isSome && c) := by
  cases x <;> simp

theorem commandFromJson_isSome_iff (j : Json) : (commandFromJson j).isSome ↔ IsCommand j := by
  unfold commandFromJson IsCommand
  cases hd : j.decodeObject with
  | none => simp
  | some d =>
    simp only [Option.bind_eq_bind, Option.bind_some, Option.some.injEq, exists_eq_left']
    constructor
    · intro h
      split at h
      · next htype =>
        simp only [Option.isSome_bind, any_const, Option.pure_def, Option.isSome_some,
          Bool.and_true, Bool.and_eq_true] at h
        exact .registerStore htype h.1 h.2.1 h.2.2
      · next htype => exact .unregisterStore htype (by simpa [Option.isSome_bind] using h)
      · next htype =>
        simp only [Option.isSome_bind, any_const, Option.pure_def, Option.isSome_some,
          Bool.and_true, Bool.and_eq_true] at h
        exact .mapHexad htype h.1 h.2
      · next htype => exact .unmapHexad htype (by simpa [Option.isSome_bind] using h)
      · next htype =>
        simp only [Option.isSome_bind, any_const, Option.pure_def, Option.isSome_some,
          Bool.and_true, Bool.and_eq_true] at h
        exact .updateTrust htype h.1 h.2
      · next htype => exact .noOp htype
      · cases h
    · intro h
      cases h with
      | registerStore htype hstoreId hendpoint hmodalities =>
        simp [htype, Option.isSome_bind, hstoreId, hendpoint, hmodalities]
      | unregisterStore htype hstoreId => simp [htype, Option.isSome_bind, hstoreId]
      | mapHexad htype hhexadId hlocations =>
        simp [htype, Option.isSome_bind, hhexadId, hlocations]
      | unmapHexad htype hhexadId => simp [htype, Option.isSome_bind, hhexadId]
      | updateTrust htype hstoreId hnewTrust =>
        simp [htype, Option.isSome_bind, hstoreId, hnewTrust]
      | noOp htype => simp [htype]

theorem logEntryFromJson_isSome_iff (j : Json) : (logEntryFromJson j).isSome ↔ IsLogEntry j := by
  unfold logEntryFromJson IsLogEntry
  cases hd : j.decodeObject with
  | none => simp
  | some d =>
    have hcommand : (∃ c, d.get "command" = some c ∧ IsCommand c) ↔
        (d.get "command" >>= commandFromJson).isSome := by
      cases d.get "command" with
      | none => simp
      | some c => simp [commandFromJson_isSome_iff]
    simp only [Option.bind_eq_bind, Option.bind_some, Option.some.injEq, exists_eq_left', intAt]
    rw [Option.bind_eq_bind] at hcommand
    simp only [Option.isSome_bind, any_const, Option.pure_def, Option.isSome_some, Bool.and_true,
      Bool.and_eq_true, Option.isSome_map]
    constructor
    · rintro ⟨hterm, hindex, hany, htimestamp⟩
      exact ⟨hterm, hindex, hcommand.mpr (by rwa [Option.isSome_bind]), htimestamp⟩
    · intro h
      have hany := hcommand.mp h.command
      rw [Option.isSome_bind] at hany
      exact ⟨h.term, h.index, hany, h.timestamp⟩

/-! ### The form of states and requests -/

/-- What a node state needs beside its log. -/
structure NodeStateForm (d : Dict Json) : Prop where
  role : (stringAt d "role" >>= roleFromString).isSome
  currentTerm : (numberAt d "currentTerm").isSome
  votedFor : (d.get "votedFor" >>= votedForFromJson).isSome
  commitIndex : (numberAt d "commitIndex").isSome
  lastApplied : (numberAt d "lastApplied").isSome

/-- What a request needs beside its entries. -/
structure AppendEntriesRequestForm (d : Dict Json) : Prop where
  term : (numberAt d "term").isSome
  leaderId : (stringAt d "leaderId").isSome
  prevLogIndex : (numberAt d "prevLogIndex").isSome
  prevLogTerm : (numberAt d "prevLogTerm").isSome
  leaderCommit : (numberAt d "leaderCommit").isSome

/-- The elements of the array, in their order, are decoded to the entries. -/
def Decoded (items : List Json) (log : List LogEntry) : Prop :=
  List.Forall₂ (fun item entry => logEntryFromJson item = some entry) items log

theorem decoded_filterMap_iff (items : List Json) :
    Decoded items (items.filterMap logEntryFromJson) ↔ ∀ item ∈ items, IsLogEntry item := by
  simp only [← logEntryFromJson_isSome_iff]
  induction items with
  | nil => simp [Decoded]
  | cons item items ih =>
    rw [Decoded, List.forall_mem_cons, ← ih, List.filterMap_cons]
    cases hitem : logEntryFromJson item with
    | some entry => simp [Decoded, hitem]
    | none =>
      simp only [Option.isSome_none, Bool.false_eq_true, false_and, iff_false]
      intro hall
      obtain ⟨entry, log, hentry, -⟩ := List.forall₂_cons_left_iff.mp hall
      rw [hitem] at hentry
      cases hentry

/-- A decoded log is decoded from all elements of the array under the key. -/
def Whole (d : Dict Json) (key : String) (log : List LogEntry) : Prop :=
  ∃ items, arrayAt d key = some items ∧ Decoded items log

section decode

variable {j : Json} {d : Dict Json}

theorem nodeStateFromJson_cases {v : NodeState} (hd : j.decodeObject = some d)
    (h : nodeStateFromJson j = some v) : NodeStateForm d ∧ ∃ items,
      arrayAt d "log" = some items ∧ v.log = items.filterMap logEntryFromJson := by
  simp only [nodeStateFromJson, hd, Option.bind_eq_bind, Option.bind_some, intAt] at h
  simp only [Option.bind_eq_some_iff, Option.map_eq_some_iff, Option.pure_def,
    Option.some.injEq] at h
  obtain ⟨role, ⟨roleText, hrole, hrole'⟩, _, ⟨term, hterm, -⟩, _, ⟨vote, hvote, hvote'⟩, items,
    hitems, _, ⟨commit, hcommit, -⟩, _, ⟨applied, happlied, -⟩, rfl⟩ := h
  refine ⟨⟨?_, ?_, ?_, ?_, ?_⟩, items, hitems, rfl⟩
  · simp [hrole, hrole']
  · simp [hterm]
  · simp [hvote, hvote']
  · simp [hcommit]
  · simp [happlied]

theorem exists_nodeState {items : List Json} (hd : j.decodeObject = some d) (h : NodeStateForm d)
    (hitems : arrayAt d "log" = some items) :
    ∃ v, nodeStateFromJson j = some v ∧ v.log = items.filterMap logEntryFromJson := by
  obtain ⟨role, hrole⟩ := Option.isSome_iff_exists.mp h.role
  obtain ⟨term, hterm⟩ := Option.isSome_iff_exists.mp h.currentTerm
  obtain ⟨vote, hvote⟩ := Option.isSome_iff_exists.mp h.votedFor
  obtain ⟨commit, hcommit⟩ := Option.isSome_iff_exists.mp h.commitIndex
  obtain ⟨applied, happlied⟩ := Option.isSome_iff_exists.mp h.lastApplied
  rw [Option.bind_eq_bind] at hrole hvote
  simp only [nodeStateFromJson, hd, hrole, hterm, hvote, hcommit, happlied, hitems, intAt,
    Option.bind_eq_bind, Option.bind_some, Option.map_some, Option.pure_def]
  exact ⟨_, rfl, rfl⟩

theorem appendEntriesRequestFromJson_cases {v : AppendEntriesRequest}
    (hd : j.decodeObject = some d) (h : appendEntriesRequestFromJson j = some v) :
    AppendEntriesRequestForm d ∧ ∃ items,
      arrayAt d "entries" = some items ∧ v.entries = items.filterMap logEntryFromJson := by
  simp only [appendEntriesRequestFromJson, hd, Option.bind_eq_bind, Option.bind_some, intAt] at h
  simp only [Option.bind_eq_some_iff, Option.map_eq_some_iff, Option.pure_def,
    Option.some.injEq] at h
  obtain ⟨_, ⟨term, hterm, -⟩, leader, hleader, _, ⟨index, hindex, -⟩, _, ⟨prev, hprev, -⟩, items,
    hitems, _, ⟨commit, hcommit, -⟩, rfl⟩ := h
  refine ⟨⟨?_, ?_, ?_, ?_, ?_⟩, items, hitems, rfl⟩
  · simp [hterm]
  · simp [hleader]
  · simp [hindex]
  · simp [hprev]
  · simp [hcommit]

theorem exists_appendEntriesRequest {items : List Json} (hd : j.decodeObject = some d)
    (h : AppendEntriesRequestForm d) (hitems : arrayAt d "entries" = some items) :
    ∃ v, appendEntriesRequestFromJson j = some v ∧
      v.entries = items.filterMap logEntryFromJson := by
  obtain ⟨term, hterm⟩ := Option.isSome_iff_exists.mp h.term
  obtain ⟨leader, hleader⟩ := Option.isSome_iff_exists.mp h.leaderId
  obtain ⟨index, hindex⟩ := Option.isSome_iff_exists.mp h.prevLogIndex
  obtain ⟨prev, hprev⟩ := Option.isSome_iff_exists.mp h.prevLogTerm
  obtain ⟨commit, hcommit⟩ := Option.isSome_iff_exists.mp h.leaderCommit
  simp only [appendEntriesRequestFromJson, hd, hterm, hleader, hindex, hprev, hcommit, hitems,
    intAt, Option.bind_eq_bind, Option.bind_some, Option.map_some, Option.pure_def]
  exact ⟨_, rfl, rfl⟩

end decode

/-- What is decoded from a value has no holes in its log. -/
structure NoHoles (j : Json) : Prop where
  state : ∀ v, nodeStateFromJson j = some v →
    ∃ d, j.decodeObject = some d ∧ Whole d "log" v.log
  request : ∀ v, appendEntriesRequestFromJson j = some v →
    ∃ d, j.decodeObject = some d ∧ Whole d "entries" v.entries

theorem no_holes_iff (j : Json) : NoHoles j ↔ ∀ d, j.decodeObject = some d →
    (NodeStateForm d → ∀ items, arrayAt d "log" = some items → ∀ item ∈ items, IsLogEntry item) ∧
    (AppendEntriesRequestForm d → ∀ items, arrayAt d "entries" = some items →
      ∀ item ∈ items, IsLogEntry item) := by
  constructor
  · intro h d hd
    constructor
    · intro hform items hitems
      obtain ⟨v, hv, hlog⟩ := exists_nodeState hd hform hitems
      obtain ⟨d', hd', items', hitems', hdecoded⟩ := h.state v hv
      obtain rfl : d = d' := Option.some.inj (hd.symm.trans hd')
      obtain rfl : items = items' := Option.some.inj (hitems.symm.trans hitems')
      rw [hlog] at hdecoded
      exact (decoded_filterMap_iff items).mp hdecoded
    · intro hform items hitems
      obtain ⟨v, hv, hentries⟩ := exists_appendEntriesRequest hd hform hitems
      obtain ⟨d', hd', items', hitems', hdecoded⟩ := h.request v hv
      obtain rfl : d = d' := Option.some.inj (hd.symm.trans hd')
      obtain rfl : items = items' := Option.some.inj (hitems.symm.trans hitems')
      rw [hentries] at hdecoded
      exact (decoded_filterMap_iff items).mp hdecoded
  · intro h
    constructor
    · intro v hv
      cases hd : j.decodeObject with
      | none => simp [nodeStateFromJson, hd] at hv
      | some d =>
        obtain ⟨hform, items, hitems, hlog⟩ := nodeStateFromJson_cases hd hv
        refine ⟨d, rfl, items, hitems, ?_⟩
        rw [hlog, decoded_filterMap_iff]
        exact (h d hd).1 hform items hitems
    · intro v hv
      cases hd : j.decodeObject with
      | none => simp [appendEntriesRequestFromJson, hd] at hv
      | some d =>
        obtain ⟨hform, items, hitems, hentries⟩ := appendEntriesRequestFromJson_cases hd hv
        refine ⟨d, rfl, items, hitems, ?_⟩
        rw [hentries, decoded_filterMap_iff]
        exact (h d hd).2 hform items hitems

/-! ### An unknown command -/

/-- An entry whose command has a type that no command has. -/
def compaction : Json :=
  .object [("term", .number 1), ("index", .number 1),
    ("command", .object [("type", .string "Compact")]), ("timestamp", .number 0)]

/-- A request with that entry alone. -/
def compactionRequest : Json :=
  .object [("term", .number 1), ("leaderId", .string "a"), ("prevLogIndex", .number 0),
    ("prevLogTerm", .number 0), ("entries", .array [compaction]), ("leaderCommit", .number 0)]

theorem compaction_dropped : ¬ NoHoles compactionRequest := by
  intro h
  have hrequest : appendEntriesRequestFromJson compactionRequest = some ⟨1, "a", 0, 0, [], 0⟩ := by
    rfl
  obtain ⟨d, hd, items, hitems, hdecoded⟩ := h.request _ hrequest
  cases hd
  cases hitems
  cases hdecoded

end NextgenDatabases.KRaftSerializer
