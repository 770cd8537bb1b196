import NextgenDatabases.Foundations.Json
import NextgenDatabases.Vcl.Combinators
import Mathlib.Data.List.DropRight

/-!
# The serializer

The JSON form of the log, the node state and the messages of the metadata log, and the lines of
its write-ahead log.
-/
namespace NextgenDatabases.KRaftSerializer

open Foundations (Dict Json toFloat toInt)
open Foundations.Json (decodeObject decodeString decodeNumber stringAt numberAt booleanAt arrayAt
  objectAt)
open Vcl (Text)
open Vcl.Parser (isSpace)

/-! ### The types of the metadata log -/

inductive Command
  | registerStore (storeId endpoint : String) (modalities : List String)
  | unregisterStore (storeId : String)
  | mapHexad (hexadId : String) (locations : Dict Json)
  | unmapHexad (hexadId : String)
  | updateTrust (storeId : String) (newTrust : ℚ)
  | noOp

structure LogEntry where
  term : Int32
  index : Int32
  command : Command
  timestamp : ℚ

inductive NodeRole
  | leader | follower | candidate
  deriving DecidableEq, Repr

structure NodeState where
  role : NodeRole
  currentTerm : Int32
  votedFor : Option String
  log : List LogEntry
  commitIndex : Int32
  lastApplied : Int32
  nextIndex : Dict Int32
  matchIndex : Dict Int32

structure VoteRequest where
  term : Int32
  candidateId : String
  lastLogIndex : Int32
  lastLogTerm : Int32
  deriving DecidableEq, Repr

structure VoteResponse where
  term : Int32
  voteGranted : Bool
  deriving DecidableEq, Repr

structure AppendEntriesRequest where
  term : Int32
  leaderId : String
  prevLogIndex : Int32
  prevLogTerm : Int32
  entries : List LogEntry
  leaderCommit : Int32

structure AppendEntriesResponse where
  term : Int32
  success : Bool
  matchIndex : Int32
  deriving DecidableEq, Repr

/-! ### Numbers -/

def intAt (d : Dict Json) (key : String) : Option Int32 := (numberAt d key).map toInt

def int (i : Int32) : Json := .number (toFloat i)

/-! ### Commands -/

def commandToJson : Command → Json
  | .registerStore storeId endpoint modalities =>
    .ofDict (.fromArray
      [("type", .string "RegisterStore"), ("storeId", .string storeId),
        ("endpoint", .string endpoint), ("modalities", .array (modalities.map .string))])
  | .unregisterStore storeId =>
    .ofDict (.fromArray [("type", .string "UnregisterStore"), ("storeId", .string storeId)])
  | .mapHexad hexadId locations =>
    .ofDict (.fromArray
      [("type", .string "MapHexad"), ("hexadId", .string hexadId),
        ("locations", .ofDict locations)])
  | .unmapHexad hexadId =>
    .ofDict (.fromArray [("type", .string "UnmapHexad"), ("hexadId", .string hexadId)])
  | .updateTrust storeId newTrust =>
    .ofDict (.fromArray
      [("type", .string "UpdateTrust"), ("storeId", .string storeId),
        ("newTrust", .number newTrust)])
  | .noOp => .ofDict (.fromArray [("type", .string "NoOp")])

def commandFromJson (json : Json) : Option Command := do
  let d ← json.decodeObject
  match stringAt d "type" with
  | some "RegisterStore" =>
    let storeId ← stringAt d "storeId"
    let endpoint ← stringAt d "endpoint"
    let modalities ← arrayAt d "modalities"
    return .registerStore storeId endpoint (modalities.filterMap decodeString)
  | some "UnregisterStore" => return .unregisterStore (← stringAt d "storeId")
  | some "MapHexad" =>
    let hexadId ← stringAt d "hexadId"
    let locations ← objectAt d "locations"
    return .mapHexad hexadId locations
  | some "UnmapHexad" => return .unmapHexad (← stringAt d "hexadId")
  | some "UpdateTrust" =>
    let storeId ← stringAt d "storeId"
    let newTrust ← numberAt d "newTrust"
    return .updateTrust storeId newTrust
  | some "NoOp" => return .noOp
  | _ => none

/-! ### Log entries -/

def logEntryToJson (entry : LogEntry) : Json :=
  .ofDict (.fromArray
    [("term", int entry.term), ("index", int entry.index),
      ("command", commandToJson entry.command), ("timestamp", .number entry.timestamp)])

def logEntryFromJson (json : Json) : Option LogEntry := do
  let d ← json.decodeObject
  let term ← intAt d "term"
  let index ← intAt d "index"
  let command ← d.get "command" >>= commandFromJson
  let timestamp ← numberAt d "timestamp"
  return { term, index, command, timestamp }

/-! ### The node state -/

def roleToString : NodeRole → String
  | .leader => "leader"
  | .follower => "follower"
  | .candidate => "candidate"

def roleFromString : String → Option NodeRole
  | "leader" => some .leader
  | "follower" => some .follower
  | "candidate" => some .candidate
  | _ => none

def dictToJsonNumbers (d : Dict Int32) : Json :=
  .ofDict (.fromArray (d.entries.map fun e => (e.1, int e.2)))

def jsonToDictNumbers (json : Json) : Dict Int32 :=
  match json.decodeObject with
  | none => .empty
  | some d => .fromArray (d.entries.filterMap fun e =>
      (decodeNumber e.2).map fun n => (e.1, toInt n))

/-- The absent vote is `null`. -/
def votedForToJson : Option String → Json
  | some id => .string id
  | none => .null

def votedForFromJson : Json → Option (Option String)
  | .null => some none
  | json => json.decodeString.map some

def nodeStateToJson (state : NodeState) : Json :=
  .ofDict (.fromArray
    [("role", .string (roleToString state.role)), ("currentTerm", int state.currentTerm),
      ("votedFor", votedForToJson state.votedFor),
      ("log", .array (state.log.map logEntryToJson)), ("commitIndex", int state.commitIndex),
      ("lastApplied", int state.lastApplied), ("nextIndex", dictToJsonNumbers state.nextIndex),
      ("matchIndex", dictToJsonNumbers state.matchIndex)])

/-- Elements of the log that cannot be decoded are left out. -/
def nodeStateFromJson (json : Json) : Option NodeState := do
  let d ← json.decodeObject
  let role ← stringAt d "role" >>= roleFromString
  let currentTerm ← intAt d "currentTerm"
  let votedFor ← d.get "votedFor" >>= votedForFromJson
  let log ← arrayAt d "log"
  let commitIndex ← intAt d "commitIndex"
  let lastApplied ← intAt d "lastApplied"
  let nextIndex := ((d.get "nextIndex").map jsonToDictNumbers).getD .empty
  let matchIndex := ((d.get "matchIndex").map jsonToDictNumbers).getD .empty
  return { role, currentTerm, votedFor, log := log.filterMap logEntryFromJson, commitIndex,
           lastApplied, nextIndex, matchIndex }

/-! ### Messages -/

def voteRequestToJson (req : VoteRequest) : Json :=
  .ofDict (.fromArray
    [("term", int req.term), ("candidateId", .string req.candidateId),
      ("lastLogIndex", int req.lastLogIndex), ("lastLogTerm", int req.lastLogTerm)])

def voteRequestFromJson (json : Json) : Option VoteRequest := do
  let d ← json.decodeObject
  let term ← intAt d "term"
  let candidateId ← stringAt d "candidateId"
  let lastLogIndex ← intAt d "lastLogIndex"
  let lastLogTerm ← intAt d "lastLogTerm"
  return { term, candidateId, lastLogIndex, lastLogTerm }

def voteResponseToJson (res : VoteResponse) : Json :=
  .ofDict (.fromArray [("term", int res.term), ("voteGranted", .boolean res.voteGranted)])

def voteResponseFromJson (json : Json) : Option VoteResponse := do
  let d ← json.decodeObject
  let term ← intAt d "term"
  let voteGranted ← booleanAt d "voteGranted"
  return { term, voteGranted }

def appendEntriesRequestToJson (req : AppendEntriesRequest) : Json :=
  .ofDict (.fromArray
    [("term", int req.term), ("leaderId", .string req.leaderId),
      ("prevLogIndex", int req.prevLogIndex), ("prevLogTerm", int req.prevLogTerm),
      ("entries", .array (req.entries.map logEntryToJson)),
      ("leaderCommit", int req.leaderCommit)])

/-- Entries that cannot be decoded are left out. -/
def appendEntriesRequestFromJson (json : Json) : Option AppendEntriesRequest := do
  let d ← json.decodeObject
  let term ← intAt d "term"
  let leaderId ← stringAt d "leaderId"
  let prevLogIndex ← intAt d "prevLogIndex"
  let prevLogTerm ← intAt d "prevLogTerm"
  let entries ← arrayAt d "entries"
  let leaderCommit ← intAt d "leaderCommit"
  return { term, leaderId, prevLogIndex, prevLogTerm,
           entries := entries.filterMap logEntryFromJson, leaderCommit }

def appendEntriesResponseToJson (res : AppendEntriesResponse) : Json :=
  .ofDict (.fromArray
    [("term", int res.term), ("success", .boolean res.success),
      ("matchIndex", int res.matchIndex)])

def appendEntriesResponseFromJson (json : Json) : Option AppendEntriesResponse := do
  let d ← json.decodeObject
  let term ← intAt d "term"
  let success ← booleanAt d "success"
  let matchIndex ← intAt d "matchIndex"
  return { term, success, matchIndex }

/-! ### Lines of the write-ahead log -/

/-- `Js.Json.stringify` and `Js.Json.parseExn`, where `none` stands for an exception. -/
structure JsonText where
  stringify : Json → Text
  parseExn : Text → Option Json

def trim (s : Text) : Text := (s.dropWhile isSpace).rdropWhile isSpace

def walEncode (text : JsonText) (entry : LogEntry) : Text := text.stringify (logEntryToJson entry)

def walDecode (text : JsonText) (line : Text) : Option LogEntry :=
  text.parseExn line >>= logEntryFromJson

def walEncodeAll (text : JsonText) (entries : List LogEntry) : Text :=
  ['\n'].intercalate (entries.map (walEncode text))

def walDecodeAll (text : JsonText) (data : Text) : List LogEntry :=
  (data.splitOn '\n').filterMap fun line =>
    let trimmed := trim line
    if 0 < trimmed.length then walDecode text trimmed else none

end NextgenDatabases.KRaftSerializer
