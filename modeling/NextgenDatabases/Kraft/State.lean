import NextgenDatabases.Raft.Log
import Mathlib.Data.List.AList
import Mathlib.Data.Rat.Init
import Mathlib.Data.Finset.Insert

/-!
# The data of a KRaft node

Commands, log entries, the registry they are applied to, the state of the
`KRaftNode` server and what it exchanges with its peers. Timers only decide when
an event happens and are not part of the state.
-/
namespace NextgenDatabases.Kraft

/-- Registry commands; node identifiers are generic. -/
inductive Command (N : Type*) where
  | registerStore (storeId endpoint : String) (modalities : List String)
  | unregisterStore (storeId : String)
  | mapOctad (octadId : String) (locations : List String)
  | unmapOctad (octadId : String)
  | updateTrust (storeId : String) (newTrust : ℚ)
  | addServer (newNodeId : N) (peerList : List N)
  | removeServer (targetNodeId : N)
  | noop
deriving DecidableEq, Repr

def Command.IsMembership {N : Type*} : Command N → Prop
  | .addServer _ _ => True
  | .removeServer _ => True
  | _ => False

instance {N : Type*} (command : Command N) : Decidable command.IsMembership := by
  cases command <;> first | exact isTrue trivial | exact isFalse id

/-- A log entry. -/
structure Entry (N : Type*) where
  term : ℕ
  index : ℕ
  command : Command N
  timestamp : ℕ
deriving DecidableEq, Repr

instance {N : Type*} : Raft.Termed (Entry N) := ⟨Entry.term⟩

@[simp] theorem termOf_entry {N : Type*} (e : Entry N) : Raft.Termed.termOf e = e.term := rfl

/-! ### The replicated registry -/

structure Store where
  storeId : String
  endpoint : String
  modalities : List String
  trustLevel : ℚ
  lastSeen : ℕ
  responseTimeMs : Option ℕ
deriving DecidableEq, Repr

structure Mapping where
  octadId : String
  locations : List String
  primaryStore : Option String
  created : ℕ
  modified : ℕ
deriving DecidableEq, Repr

inductive ConsistencyMode where
  | eventual
  | quorum
  | strong
deriving DecidableEq, Repr

/-- `members` is absent until the first membership change. -/
structure Config (N : Type*) where
  minTrustLevel : ℚ
  maxStoreDowntimeMs : ℕ
  replicationFactor : ℕ
  consistencyMode : ConsistencyMode
  members : Option (List N)
deriving DecidableEq, Repr

structure Registry (N : Type*) where
  stores : AList fun _ : String => Store
  mappings : AList fun _ : String => Mapping
  config : Config N

def initialRegistry (N : Type*) : Registry N where
  stores := ∅
  mappings := ∅
  config :=
    { minTrustLevel := 1 / 2
      maxStoreDowntimeMs := 300000
      replicationFactor := 3
      consistencyMode := .quorum
      members := none }

/-! ### Node state -/

inductive Role where
  | follower
  | candidate
  | leader
deriving DecidableEq, Repr

/-- Identifies a client call that waits for its reply. -/
abbrev CallRef := ℕ

structure State (N : Type*) where
  nodeId : N
  peers : List N
  role : Role
  currentTerm : ℕ
  votedFor : Option N
  log : List (Entry N)
  commitIndex : ℕ
  lastApplied : ℕ
  nextIndex : AList fun _ : N => ℕ
  matchIndex : AList fun _ : N => ℕ
  leaderId : Option N
  votesReceived : Finset N
  registry : Registry N
  pendingRequests : List (ℕ × CallRef)
  electionCount : ℕ
  walPath : Option String

/-- A node started on an empty write-ahead log. -/
def State.fresh {N : Type*} (nodeId : N) (peers : List N) (walPath : Option String) : State N where
  nodeId := nodeId
  peers := peers
  role := .follower
  currentTerm := 0
  votedFor := none
  log := []
  commitIndex := 0
  lastApplied := 0
  nextIndex := ∅
  matchIndex := ∅
  leaderId := none
  votesReceived := ∅
  registry := initialRegistry N
  pendingRequests := []
  electionCount := 0
  walPath := walPath

/-! ### Messages and effects -/

structure VoteRequest (N : Type*) where
  term : ℕ
  candidateId : N
  lastLogIndex : ℕ
  lastLogTerm : ℕ
deriving DecidableEq, Repr

structure VoteResponse where
  term : ℕ
  voteGranted : Bool
deriving DecidableEq, Repr

structure AppendEntriesRequest (N : Type*) where
  term : ℕ
  leaderId : N
  prevLogIndex : ℕ
  prevLogTerm : ℕ
  entries : List (Entry N)
  leaderCommit : ℕ
deriving DecidableEq, Repr

structure AppendEntriesResponse where
  term : ℕ
  success : Bool
  matchIndex : ℕ
deriving DecidableEq, Repr

/-- A request is sent to a peer; a response names the node it goes back to and
the peer it comes from. -/
inductive Message (N : Type*) where
  | requestVote (dest : N) (request : VoteRequest N)
  | voteResponse (dest fromPeer : N) (response : VoteResponse)
  | appendEntries (dest : N) (request : AppendEntriesRequest N)
  | appendEntriesResponse (dest fromPeer : N) (response : AppendEntriesResponse)
deriving DecidableEq, Repr

/-- What a client call is answered with. -/
inductive Reply (N : Type*) where
  | ok (index : ℕ)
  | notLeader (leaderId : Option N)
deriving DecidableEq, Repr

/-- Calls of `KRaftWAL`. -/
inductive WalOp (N : Type*) where
  | persistState (currentTerm : ℕ) (votedFor : Option N)
  | appendEntry (entry : Entry N)
  | appendEntries (entries : List (Entry N))
  | truncateAfter (index : ℕ)
  | saveSnapshot (registry : Registry N) (lastIncludedIndex lastIncludedTerm : ℕ)

inductive Effect (N : Type*) where
  | wal (walPath : Option String) (op : WalOp N)
  | send (message : Message N)
  | reply (ref : CallRef) (answer : Reply N)

/-- The messages among a list of effects. -/
def sends {N : Type*} (fx : List (Effect N)) : List (Message N) :=
  fx.filterMap fun
    | .send m => some m
    | _ => none

/-- The answers to client calls among a list of effects. -/
def answers {N : Type*} (fx : List (Effect N)) : List (CallRef × Reply N) :=
  fx.filterMap fun
    | .reply ref answer => some (ref, answer)
    | _ => none

section Effects

variable {N : Type*} (fx gx : List (Effect N))

@[simp] theorem sends_nil : sends ([] : List (Effect N)) = [] := rfl

@[simp] theorem sends_append : sends (fx ++ gx) = sends fx ++ sends gx :=
  List.filterMap_append

@[simp] theorem sends_wal (w : Option String) (op : WalOp N) :
    sends (.wal w op :: fx) = sends fx := rfl

@[simp] theorem sends_send (m : Message N) : sends (.send m :: fx) = m :: sends fx := rfl

@[simp] theorem sends_reply (ref : CallRef) (a : Reply N) :
    sends (.reply ref a :: fx) = sends fx := rfl

@[simp] theorem sends_map_send {α : Type*} (l : List α) (f : α → Message N) :
    sends (l.map fun a => .send (f a)) = l.map f := by
  simp [sends, List.filterMap_map]

@[simp] theorem answers_nil : answers ([] : List (Effect N)) = [] := rfl

@[simp] theorem answers_append : answers (fx ++ gx) = answers fx ++ answers gx :=
  List.filterMap_append

@[simp] theorem answers_wal (w : Option String) (op : WalOp N) :
    answers (.wal w op :: fx) = answers fx := rfl

@[simp] theorem answers_send (m : Message N) : answers (.send m :: fx) = answers fx := rfl

@[simp] theorem answers_reply (ref : CallRef) (a : Reply N) :
    answers (.reply ref a :: fx) = (ref, a) :: answers fx := rfl

@[simp] theorem answers_map_send {α : Type*} (l : List α) (f : α → Message N) :
    answers (l.map fun a => .send (f a)) = [] := by
  simp [answers, List.filterMap_map]

end Effects

end NextgenDatabases.Kraft
