import NextgenDatabases.Foundations.Runs
import NextgenDatabases.Foundations.Majority

/-!
# The consensus nodes of distributed mode

Nodes that answer vote requests and requests to append entries. The network is left to the caller,
who carries requests and answers, counts votes and sends entries from the log of a leader.
-/
namespace NextgenDatabases.Lithoglyph.Distributed

open Foundations

variable {N J : Type}

inductive LogEntryType (N J : Type)
  | command (command : J)
  | configuration (members : List N)
  | noOp
  deriving DecidableEq

/-- Times are in milliseconds. -/
structure LogEntry (N J : Type) where
  index : ℕ
  term : ℕ
  entryType : LogEntryType N J
  timestamp : ℕ
  deriving DecidableEq

inductive RaftState
  | follower
  | candidate
  | leader
  deriving DecidableEq

structure VoteRequest (N : Type) where
  term : ℕ
  candidateId : N
  lastLogIndex : ℕ
  lastLogTerm : ℕ
  deriving DecidableEq

structure VoteResponse where
  term : ℕ
  voteGranted : Bool
  deriving DecidableEq

structure AppendEntriesRequest (N J : Type) where
  term : ℕ
  leaderId : N
  prevLogIndex : ℕ
  prevLogTerm : ℕ
  entries : List (LogEntry N J)
  leaderCommit : ℕ
  deriving DecidableEq

structure AppendEntriesResponse where
  term : ℕ
  success : Bool
  matchIndex : ℕ
  deriving DecidableEq

structure ConsensusNode (N J : Type) where
  nodeId : N
  state : RaftState
  currentTerm : ℕ
  votedFor : Option N
  log : List (LogEntry N J)
  commitIndex : ℕ
  lastApplied : ℕ
  nextIndex : N → Option ℕ
  matchIndex : N → Option ℕ
  lastHeartbeat : ℕ
  electionTimeout : ℕ
  heartbeatInterval : ℕ

namespace ConsensusNode

def make (nodeId : N) (electionTimeout heartbeatInterval now : ℕ) : ConsensusNode N J where
  nodeId := nodeId
  state := .follower
  currentTerm := 0
  votedFor := none
  log := []
  commitIndex := 0
  lastApplied := 0
  nextIndex _ := none
  matchIndex _ := none
  lastHeartbeat := now
  electionTimeout := electionTimeout
  heartbeatInterval := heartbeatInterval

def getLastLogIndex (log : List (LogEntry N J)) : ℕ :=
  match log.getLast? with
  | some entry => entry.index
  | none => 0

def getLastLogTerm (log : List (LogEntry N J)) : ℕ :=
  match log.getLast? with
  | some entry => entry.term
  | none => 0

/-- Both handlers first take over a higher term. -/
def adoptTerm (node : ConsensusNode N J) (term : ℕ) : ConsensusNode N J :=
  if node.currentTerm < term then
    { node with
      currentTerm := term
      state := .follower
      votedFor := none }
  else node

def logOk (node : ConsensusNode N J) (request : VoteRequest N) : Prop :=
  getLastLogTerm node.log < request.lastLogTerm ∨
    request.lastLogTerm = getLastLogTerm node.log ∧
      getLastLogIndex node.log ≤ request.lastLogIndex

instance (node : ConsensusNode N J) (request : VoteRequest N) : Decidable (node.logOk request) :=
  inferInstanceAs (Decidable (_ ∨ _))

def canVote (node : ConsensusNode N J) (candidateId : N) : Prop :=
  ∀ id ∈ node.votedFor, id = candidateId

instance [DecidableEq N] (node : ConsensusNode N J) (candidateId : N) :
    Decidable (node.canVote candidateId) :=
  match h : node.votedFor with
  | none => isTrue (by simp [canVote, h])
  | some id => decidable_of_iff (id = candidateId) (by simp [canVote, h])

/-- The vote of a node that has taken over the term of the request. -/
def vote [DecidableEq N] (node : ConsensusNode N J) (request : VoteRequest N) (now : ℕ) :
    VoteResponse × ConsensusNode N J :=
  if node.currentTerm ≤ request.term ∧ node.logOk request ∧ node.canVote request.candidateId then
    (⟨node.currentTerm, true⟩,
      { node with
        votedFor := some request.candidateId
        lastHeartbeat := now })
  else (⟨node.currentTerm, false⟩, node)

def handleVoteRequest [DecidableEq N] (node : ConsensusNode N J) (request : VoteRequest N)
    (now : ℕ) : VoteResponse × ConsensusNode N J :=
  (node.adoptTerm request.term).vote request now

def logConsistent (log : List (LogEntry N J)) (request : AppendEntriesRequest N J) : Prop :=
  request.prevLogIndex = 0 ∨
    ∃ entry ∈ log[request.prevLogIndex - 1]?, entry.term = request.prevLogTerm

instance (log : List (LogEntry N J)) (request : AppendEntriesRequest N J) :
    Decidable (logConsistent log request) :=
  match h : log[request.prevLogIndex - 1]? with
  | none => decidable_of_iff (request.prevLogIndex = 0) (by simp [logConsistent, h])
  | some entry => decidable_of_iff (request.prevLogIndex = 0 ∨ entry.term = request.prevLogTerm)
      (by simp [logConsistent, h])

/-- Each entry takes the place of those from its index on. -/
def appendEntry (log : List (LogEntry N J)) (entry : LogEntry N J) : List (LogEntry N J) :=
  log.filter (·.index < entry.index) ++ [entry]

def commitUpTo (commitIndex leaderCommit lastNewEntry : ℕ) : ℕ :=
  if commitIndex < leaderCommit then min leaderCommit lastNewEntry else commitIndex

/-- The answer of a node that has taken over the term of the request. -/
def append (node : ConsensusNode N J) (request : AppendEntriesRequest N J) (now : ℕ) :
    AppendEntriesResponse × ConsensusNode N J :=
  let heard := { node with lastHeartbeat := now }
  if request.term < node.currentTerm then (⟨node.currentTerm, false, 0⟩, heard)
  else if logConsistent node.log request then
    let log := request.entries.foldl appendEntry node.log
    (⟨node.currentTerm, true, getLastLogIndex log⟩,
      { heard with
        log := log
        commitIndex := commitUpTo node.commitIndex request.leaderCommit (getLastLogIndex log) })
  else (⟨node.currentTerm, false, 0⟩, heard)

def handleAppendEntries (node : ConsensusNode N J) (request : AppendEntriesRequest N J)
    (now : ℕ) : AppendEntriesResponse × ConsensusNode N J :=
  (node.adoptTerm request.term).append request now

def startElection (node : ConsensusNode N J) (now : ℕ) : VoteRequest N × ConsensusNode N J :=
  (⟨node.currentTerm + 1, node.nodeId, getLastLogIndex node.log, getLastLogTerm node.log⟩,
    { node with
      currentTerm := node.currentTerm + 1
      state := .candidate
      votedFor := some node.nodeId
      lastHeartbeat := now })

def becomeLeader [DecidableEq N] (node : ConsensusNode N J) (peers : List N) :
    ConsensusNode N J :=
  { node with
    state := .leader
    nextIndex := peers.foldl (fun dict peer =>
      Function.update dict peer (some (getLastLogIndex node.log + 1))) node.nextIndex
    matchIndex := peers.foldl (fun dict peer => Function.update dict peer (some 0)) node.matchIndex }

def appendCommand (node : ConsensusNode N J) (command : J) (now : ℕ) :
    Option (LogEntry N J) × ConsensusNode N J :=
  if node.state ≠ .leader then (none, node)
  else
    let entry : LogEntry N J := ⟨getLastLogIndex node.log + 1, node.currentTerm, .command command, now⟩
    (some entry, { node with log := node.log ++ [entry] })

def electionTimeoutElapsed (node : ConsensusNode N J) (now : ℕ) : Bool :=
  node.electionTimeout < now - node.lastHeartbeat

/-- Entries after position `i` of a log, with what the request says about the ones before. -/
def request (node : ConsensusNode N J) (i k : ℕ) : AppendEntriesRequest N J where
  term := node.currentTerm
  leaderId := node.nodeId
  prevLogIndex := i
  prevLogTerm := if i = 0 then 0 else ((node.log[i - 1]?).map LogEntry.term).getD 0
  entries := (node.log.drop i).take k
  leaderCommit := node.commitIndex

end ConsensusNode

/-! ### Nodes and the caller -/

/-- What the caller has been given; anything may be carried at any time, again or never. -/
inductive Message (N J : Type)
  | voteRequest (request : VoteRequest N)
  | voteResponse (voter candidate : N) (response : VoteResponse)
  | appendEntries (request : AppendEntriesRequest N J)
  | appendEntriesResponse (response : AppendEntriesResponse)
  deriving DecidableEq

structure Cluster (N J : Type) where
  node : N → ConsensusNode N J
  sent : List (Message N J)

/-- `becomeLeader` with the voters that the caller has counted, `sendEntries` with the position after
which entries of a leader are sent, and how many. -/
inductive Event (N J : Type)
  | startElection (p : N) (now : ℕ)
  | voteRequest (p : N) (request : VoteRequest N) (now : ℕ)
  | becomeLeader (p : N) (peers : List N) (voters : Finset N)
  | appendCommand (p : N) (command : J) (now : ℕ)
  | sendEntries (p : N) (i k : ℕ)
  | appendEntries (p : N) (request : AppendEntriesRequest N J) (now : ℕ)

namespace Cluster

variable [DecidableEq N]

def make (electionTimeout heartbeatInterval now : ℕ) : Cluster N J :=
  ⟨fun p => .make p electionTimeout heartbeatInterval now, []⟩

def put (c : Cluster N J) (p : N) (node : ConsensusNode N J) (out : List (Message N J)) :
    Cluster N J :=
  ⟨Function.update c.node p node, c.sent ++ out⟩

/-- The voter has voted for the candidate in its term. -/
def Counted (c : Cluster N J) (p v : N) : Prop :=
  v = p ∨ .voteResponse v p ⟨(c.node p).currentTerm, true⟩ ∈ c.sent

instance [DecidableEq J] (c : Cluster N J) (p v : N) : Decidable (c.Counted p v) :=
  inferInstanceAs (Decidable (_ ∨ _))

/-- Of `members`, more than half have to vote for a leader. -/
def step [DecidableEq J] (members : Finset N) (c : Cluster N J) : Event N J → Option (Cluster N J)
  | .startElection p now =>
    let (request, node) := (c.node p).startElection now
    some (c.put p node [.voteRequest request])
  | .voteRequest p request now =>
    if .voteRequest request ∈ c.sent then
      let (response, node) := (c.node p).handleVoteRequest request now
      some (c.put p node [.voteResponse p request.candidateId response])
    else none
  | .becomeLeader p peers voters =>
    if (c.node p).state = .candidate ∧ IsMajority members voters ∧ ∀ v ∈ voters, c.Counted p v then
      some (c.put p ((c.node p).becomeLeader peers) [])
    else none
  | .appendCommand p command now => some (c.put p ((c.node p).appendCommand command now).2 [])
  | .sendEntries p i k =>
    if (c.node p).state = .leader then
      some (c.put p (c.node p) [.appendEntries ((c.node p).request i k)])
    else none
  | .appendEntries p request now =>
    if .appendEntries request ∈ c.sent ∧ p ≠ request.leaderId then
      let (response, node) := (c.node p).handleAppendEntries request now
      some (c.put p node [.appendEntriesResponse response])
    else none

end Cluster

end NextgenDatabases.Lithoglyph.Distributed
