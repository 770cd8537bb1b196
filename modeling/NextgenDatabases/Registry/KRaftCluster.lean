import NextgenDatabases.Registry.MetadataLog
import Mathlib.Data.Int.Init

/-!
# The cluster manager of a node

What a node does with timeouts, vote requests, votes, replicated entries, their
acknowledgements and client commands. The clock is an argument, and the registry
is the list of the commands that were applied to it.
-/
namespace NextgenDatabases.Registry

structure ClusterConfig (N : Type*) where
  nodeId : N
  peers : List N
  electionTimeoutMinMs : ℤ
  electionTimeoutMaxMs : ℤ

structure ElectionTimer where
  timeoutMs : ℤ
  elapsedMs : ℤ
deriving DecidableEq, Repr

structure PendingRequest where
  command : Command
  index : ℕ
  timestamp : ℕ
deriving DecidableEq, Repr

structure ClusterState (N : Type*) where
  config : ClusterConfig N
  raft : NodeState N
  registry : List Command
  electionTimer : ElectionTimer
  votesReceived : List N
  pendingRequests : List PendingRequest
  leaderId : Option (LeaderName N)
  totalCommitted : ℕ
  totalApplied : ℕ
  electionCount : ℕ

inductive ClientResult (N : Type*) where
  | accepted (index : ℕ)
  | notLeader (leaderId : Option (LeaderName N))
deriving DecidableEq, Repr

namespace KRaftCluster

open MetadataLog

variable {N : Type*}

/-- The clock as a 32-bit integer. -/
def clock (now : ℕ) : ℤ := Int.bmod now (2 ^ 32)

def createCluster (now : ℕ) (config : ClusterConfig N) : ClusterState N where
  config := config
  raft := createNode
  registry := []
  electionTimer :=
    { timeoutMs := config.electionTimeoutMinMs +
        (clock now).tmod (config.electionTimeoutMaxMs - config.electionTimeoutMinMs)
      elapsedMs := 0 }
  votesReceived := []
  pendingRequests := []
  leaderId := none
  totalCommitted := 0
  totalApplied := 0
  electionCount := 0

def resetElectionTimer (now : ℕ) (state : ClusterState N) : ClusterState N :=
  let range := state.config.electionTimeoutMaxMs - state.config.electionTimeoutMinMs
  let jitter := (clock now).tmod (max range 1)
  { state with electionTimer := ⟨state.config.electionTimeoutMinMs + jitter, 0⟩ }

@[simp] theorem resetElectionTimer_config (now : ℕ) (state : ClusterState N) :
    (resetElectionTimer now state).config = state.config := rfl

@[simp] theorem resetElectionTimer_raft (now : ℕ) (state : ClusterState N) :
    (resetElectionTimer now state).raft = state.raft := rfl

/-! ### Elections -/

def startElection (now : ℕ) (state : ClusterState N) :
    ClusterState N × List (N × VoteRequest N) :=
  let raft := { becomeCandidate state.raft with votedFor := some state.config.nodeId }
  let voteRequest : VoteRequest N :=
    { term := raft.currentTerm
      candidateId := state.config.nodeId
      lastLogIndex := getLastLogIndex raft
      lastLogTerm := getLastLogTerm raft }
  let requests := state.config.peers.map fun peer => (peer, voteRequest)
  let newState := resetElectionTimer now
    { state with
      raft := raft
      votesReceived := [state.config.nodeId]
      electionCount := state.electionCount + 1 }
  (newState, requests)

/-- The number of votes that wins an election. -/
def quorum (state : ClusterState N) : ℕ := (state.config.peers.length + 1) / 2 + 1

/-- A granted vote counts whatever its term and whoever else it was counted from. -/
def handleVoteResponse [DecidableEq N] (now : ℕ) (state : ClusterState N) (fromPeer : N)
    (response : VoteResponse) : ClusterState N × Bool :=
  if state.raft.currentTerm < response.term then
    let newState :=
      { state with
        raft := becomeFollower state.raft response.term
        votesReceived := []
        leaderId := none }
    (resetElectionTimer now newState, false)
  else if response.voteGranted = true ∧ state.raft.role = .candidate then
    let newVotes := state.votesReceived ++ [fromPeer]
    if quorum state ≤ newVotes.length then
      let raft := becomeLeader state.raft state.config.peers
      let raft := appendEntry now raft .noOp
      ({ state with
          raft := raft
          votesReceived := newVotes
          leaderId := some (.node state.config.nodeId) }, true)
    else ({ state with votesReceived := newVotes }, false)
  else (state, false)

def handleVoteRequest (now : ℕ) (state : ClusterState N) (request : VoteRequest N) :
    ClusterState N × VoteResponse :=
  let (newRaft, response) := MetadataLog.handleVoteRequest state.raft request
  let newState :=
    if response.voteGranted = true then resetElectionTimer now { state with raft := newRaft }
    else { state with raft := newRaft }
  (newState, response)

/-! ### Log replication -/

def createHeartbeats (state : ClusterState N) : List (N × AppendEntriesRequest N) :=
  if state.raft.role ≠ .leader then []
  else state.config.peers.filterMap fun peer =>
    match createAppendEntriesRequest state.raft peer with
    | some request => some (peer, request)
    | none => none

def handleAppendEntries (now : ℕ) (state : ClusterState N) (request : AppendEntriesRequest N) :
    ClusterState N × AppendEntriesResponse :=
  let (newRaft, response) := MetadataLog.handleAppendEntries state.raft request
  let newState :=
    if response.success = true then
      resetElectionTimer now { state with raft := newRaft, leaderId := some request.leaderId }
    else if state.raft.currentTerm ≤ request.term then
      resetElectionTimer now { state with raft := newRaft, leaderId := some request.leaderId }
    else { state with raft := newRaft }
  (newState, response)

/-- A success response counts whatever its term. -/
def handleAppendEntriesResponse [DecidableEq N] (now : ℕ) (state : ClusterState N) (fromPeer : N)
    (response : AppendEntriesResponse) : ClusterState N :=
  if state.raft.currentTerm < response.term then
    resetElectionTimer now
      { state with
        raft := becomeFollower state.raft response.term
        leaderId := none }
  else if state.raft.role = .leader then
    if response.success = true then
      let raft :=
        { state.raft with
          nextIndex := Function.update state.raft.nextIndex fromPeer (some (response.matchIndex + 1))
          matchIndex := Function.update state.raft.matchIndex fromPeer (some response.matchIndex) }
      let raft := updateCommitIndex raft state.config.peers
      { state with raft := raft }
    else
      let currentNext := (state.raft.nextIndex fromPeer).getD 1
      { state with raft := { state.raft with
          nextIndex := Function.update state.raft.nextIndex fromPeer
            (some (max (currentNext - 1) 1)) } }
  else state

/-! ### Clients and the registry -/

def propose (now : ℕ) (state : ClusterState N) (command : Command) :
    ClusterState N × ClientResult N :=
  match state.raft.role with
  | .leader =>
    let raft := appendEntry now state.raft command
    let index := getLastLogIndex raft
    let pending : PendingRequest := ⟨command, index, now⟩
    ({ state with raft := raft, pendingRequests := state.pendingRequests ++ [pending] },
      .accepted index)
  | _ => (state, .notLeader state.leaderId)

def applyCommitted (state : ClusterState N) : ClusterState N :=
  let (newRaft, commands) := applyCommittedEntries state.raft
  { state with
    raft := newRaft
    registry := state.registry ++ commands
    pendingRequests := state.pendingRequests.filter fun req => newRaft.lastApplied < req.index
    totalApplied := state.totalApplied + commands.length
    totalCommitted := max state.totalCommitted newRaft.commitIndex }

end KRaftCluster

end NextgenDatabases.Registry
