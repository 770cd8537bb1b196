import NextgenDatabases.Raft.Log
import Mathlib

/-!
# The metadata log

The node state of the ReScript metadata log and its operations: elections,
replication, the commit index and the application of committed entries. Terms
and indices are natural numbers, and times are milliseconds.
-/
namespace NextgenDatabases.Registry

inductive Command where
  | registerStore (storeId endpoint : String) (modalities : List String)
  | unregisterStore (storeId : String)
  | mapHexad (hexadId : String) (locations : List (String × String))
  | unmapHexad (hexadId : String)
  | updateTrust (storeId : String) (newTrust : ℚ)
  | noOp
deriving DecidableEq, Repr

structure LogEntry where
  term : ℕ
  index : ℕ
  command : Command
  timestamp : ℕ
deriving DecidableEq, Repr

instance : Raft.Termed LogEntry := ⟨LogEntry.term⟩

@[simp] theorem termOf_logEntry (e : LogEntry) : Raft.Termed.termOf e = e.term := rfl

inductive NodeRole where
  | leader
  | follower
  | candidate
deriving DecidableEq, Repr

/-- A dictionary, with the value of each key it has. -/
abbrev Dict (N V : Type*) := N → Option V

structure NodeState (N : Type*) where
  role : NodeRole
  currentTerm : ℕ
  votedFor : Option N
  log : List LogEntry
  commitIndex : ℕ
  lastApplied : ℕ
  nextIndex : Dict N ℕ
  matchIndex : Dict N ℕ

structure VoteRequest (N : Type*) where
  term : ℕ
  candidateId : N
  lastLogIndex : ℕ
  lastLogTerm : ℕ
deriving DecidableEq, Repr

structure VoteResponse where
  term : ℕ
  voteGranted : Bool
deriving DecidableEq, Repr

/-- How a node is named as the leader: by its identifier, or by the fixed string
`"self"` that every request carries. -/
inductive LeaderName (N : Type*) where
  | node (id : N)
  | self
deriving DecidableEq, Repr

structure AppendEntriesRequest (N : Type*) where
  term : ℕ
  leaderId : LeaderName N
  prevLogIndex : ℕ
  prevLogTerm : ℕ
  entries : List LogEntry
  leaderCommit : ℕ
deriving DecidableEq, Repr

structure AppendEntriesResponse where
  term : ℕ
  success : Bool
  matchIndex : ℕ
deriving DecidableEq, Repr

namespace MetadataLog

variable {N : Type*}

def createNode : NodeState N where
  role := .follower
  currentTerm := 0
  votedFor := none
  log := []
  commitIndex := 0
  lastApplied := 0
  nextIndex _ := none
  matchIndex _ := none

def appendEntry (now : ℕ) (state : NodeState N) (command : Command) : NodeState N :=
  { state with
    log := state.log ++ [⟨state.currentTerm, state.log.length + 1, command, now⟩] }

def getLastLogEntry (state : NodeState N) : Option LogEntry :=
  state.log[state.log.length - 1]?

def getLastLogTerm (state : NodeState N) : ℕ :=
  match getLastLogEntry state with
  | none => 0
  | some entry => entry.term

def getLastLogIndex (state : NodeState N) : ℕ := state.log.length

/-- The entry at a position counted from 1. -/
def entryAt (log : List LogEntry) (index : ℕ) : Option LogEntry :=
  if index = 0 then none else log[index - 1]?

/-! ### Leader election -/

def becomeCandidate (state : NodeState N) : NodeState N :=
  { state with
    role := .candidate
    currentTerm := state.currentTerm + 1
    votedFor := none }

def becomeLeader [DecidableEq N] (state : NodeState N) (peers : List N) : NodeState N :=
  { state with
    role := .leader
    nextIndex := peers.foldl (fun d peer => Function.update d peer (some (getLastLogIndex state + 1)))
      fun _ => none
    matchIndex := peers.foldl (fun d peer => Function.update d peer (some 0)) fun _ => none }

def becomeFollower (state : NodeState N) (newTerm : ℕ) : NodeState N :=
  { state with
    role := .follower
    currentTerm := newTerm
    votedFor := none }

/-- The comparison of logs that a vote in the node's own term depends on. -/
def logUpToDate (state : NodeState N) (request : VoteRequest N) : Bool :=
  if getLastLogTerm state < request.lastLogTerm then true
  else if request.lastLogTerm = getLastLogTerm state ∧
      getLastLogIndex state ≤ request.lastLogIndex then true
  else false

def grantVote (state : NodeState N) (request : VoteRequest N) : Bool :=
  if request.term < state.currentTerm then false
  else if state.currentTerm < request.term then true
  else
    match state.votedFor with
    | some _ => false
    | none => logUpToDate state request

/-- A vote in a higher term is granted without a look at the log, and the role stays. -/
def handleVoteRequest (state : NodeState N) (request : VoteRequest N) :
    NodeState N × VoteResponse :=
  let granted := grantVote state request
  let newState :=
    if granted = true ∧ state.currentTerm ≤ request.term then
      { state with currentTerm := request.term, votedFor := some request.candidateId }
    else if state.currentTerm < request.term then becomeFollower state request.term
    else state
  (newState, ⟨newState.currentTerm, granted⟩)

/-! ### Log replication -/

/-- A request of the node's own term leaves the role as it is. -/
def followTerm (state : NodeState N) (term : ℕ) : NodeState N :=
  if state.currentTerm < term then becomeFollower state term else state

def prevEntry (log : List LogEntry) (request : AppendEntriesRequest N) : Option LogEntry :=
  if request.prevLogIndex = 0 then some ⟨0, 0, .noOp, 0⟩ else log[request.prevLogIndex - 1]?

def handleAppendEntries (state : NodeState N) (request : AppendEntriesRequest N) :
    NodeState N × AppendEntriesResponse :=
  if request.term < state.currentTerm then (state, ⟨state.currentTerm, false, 0⟩)
  else
    let newState := followTerm state request.term
    match prevEntry newState.log request with
    | none => (newState, ⟨newState.currentTerm, false, 0⟩)
    | some entry =>
      if entry.term ≠ request.prevLogTerm then
        (newState, ⟨newState.currentTerm, false, entry.index⟩)
      else
        let newLog := newState.log.take request.prevLogIndex ++ request.entries
        let finalState :=
          { newState with
            log := newLog
            commitIndex := min request.leaderCommit newLog.length }
        (finalState, ⟨finalState.currentTerm, true, getLastLogIndex finalState⟩)

def createAppendEntriesRequest (state : NodeState N) (followerId : N) :
    Option (AppendEntriesRequest N) :=
  match state.role with
  | .leader =>
    let nextIdx := (state.nextIndex followerId).getD 1
    let prevLogIndex := nextIdx - 1
    some
      { term := state.currentTerm
        leaderId := .self
        prevLogIndex := prevLogIndex
        prevLogTerm :=
          if prevLogIndex = 0 then 0
          else ((state.log[prevLogIndex - 1]?).map LogEntry.term).getD 0
        entries := state.log.drop (nextIdx - 1)
        leaderCommit := state.commitIndex }
  | _ => none

/-! ### Commit and apply -/

/-- The match indices of the peers and the length of the own log, greatest first. -/
def matchIndices (state : NodeState N) (peers : List N) : List ℕ :=
  (peers.map (fun peer => (state.matchIndex peer).getD 0) ++ [getLastLogIndex state]).insertionSort
    (· ≥ ·)

def newCommitIndex (state : NodeState N) (peers : List N) : ℕ :=
  ((matchIndices state peers)[(peers.length + 1) / 2]?).getD state.commitIndex

def updateCommitIndex (state : NodeState N) (peers : List N) : NodeState N :=
  match state.role with
  | .leader =>
    let newIndex := newCommitIndex state peers
    let canCommit :=
      match entryAt state.log newIndex with
      | none => false
      | some entry => entry.term == state.currentTerm
    if canCommit = true ∧ state.commitIndex < newIndex then { state with commitIndex := newIndex }
    else state
  | _ => state

def applyCommittedEntries (state : NodeState N) : NodeState N × List Command :=
  if state.commitIndex ≤ state.lastApplied then (state, [])
  else
    let toApply := (state.log.drop state.lastApplied).take (state.commitIndex - state.lastApplied)
    ({ state with lastApplied := state.commitIndex }, toApply.map LogEntry.command)

/-! ### What the operations do -/

theorem getLastLogTerm_eq (state : NodeState N) :
    getLastLogTerm state = Raft.lastTerm state.log := by
  unfold getLastLogTerm getLastLogEntry Raft.lastTerm
  rw [List.getLast?_eq_getElem?]
  cases state.log[state.log.length - 1]? <;> rfl

/-- The comparison is the election restriction. -/
theorem upToDate_of_logUpToDate {state : NodeState N} {request : VoteRequest N}
    {l : List LogEntry} (hlen : request.lastLogIndex = l.length)
    (hterm : request.lastLogTerm = Raft.lastTerm l) (hup : logUpToDate state request = true) :
    Raft.UpToDate l state.log := by
  unfold logUpToDate at hup
  rw [getLastLogTerm_eq, hlen, hterm] at hup
  split_ifs at hup with h1 h2
  · exact Or.inl h1
  · exact Or.inr h2

/-- A new leader knows of no entries that its peers have. -/
theorem becomeLeader_matchIndex [DecidableEq N] {state : NodeState N} {peers : List N} {q : N}
    {n : ℕ} (hq : (becomeLeader state peers).matchIndex q = some n) : n = 0 := by
  have hfold : ∀ (ps : List N) (d : Dict N ℕ), (∀ q n, d q = some n → n = 0) →
      ∀ q n, ps.foldl (fun d peer => Function.update d peer (some 0)) d q = some n → n = 0 := by
    intro ps
    induction ps with
    | nil => exact fun d hd => hd
    | cons p ps ih =>
      intro d hd
      refine ih (Function.update d p (some 0)) fun q n hq => ?_
      by_cases hqp : q = p
      · subst hqp
        rw [Function.update_self, Option.some.injEq] at hq
        exact hq.symm
      · rw [Function.update_of_ne hqp] at hq
        exact hd q n hq
  exact hfold peers _ (by simp) q n hq

/-- A vote is refused, granted in the node's own term to a candidate whose log was compared,
or granted in a higher term. -/
theorem handleVoteRequest_cases (state : NodeState N) (request : VoteRequest N) :
    handleVoteRequest state request = (state, ⟨state.currentTerm, false⟩) ∨
    handleVoteRequest state request =
        ({ state with currentTerm := request.term, votedFor := some request.candidateId },
          ⟨request.term, true⟩) ∧
      (state.currentTerm < request.term ∨
        request.term = state.currentTerm ∧ state.votedFor = none ∧
          logUpToDate state request = true) := by
  unfold handleVoteRequest grantVote
  dsimp only
  by_cases hlt : request.term < state.currentTerm
  · left
    have hnot : ¬ state.currentTerm < request.term := by omega
    simp [hlt, hnot]
  · by_cases hgt : state.currentTerm < request.term
    · right
      simp [hlt, hgt, hgt.le]
    · have heq : request.term = state.currentTerm := by omega
      cases hv : state.votedFor with
      | some x =>
        left
        simp [heq]
      | none =>
        by_cases hup : logUpToDate state request = true
        · right
          simp [heq, hup]
        · left
          simp [heq, hup]

/-- The entry of the log before those of the request has the term that the request names. -/
def prevOk (log : List LogEntry) (request : AppendEntriesRequest N) : Prop :=
  (prevEntry log request).map LogEntry.term = some request.prevLogTerm

instance (log : List LogEntry) (request : AppendEntriesRequest N) : Decidable (prevOk log request) :=
  inferInstanceAs (Decidable (_ = _))

/-- The log after the entries of the request were taken in. -/
def newLog (log : List LogEntry) (request : AppendEntriesRequest N) : List LogEntry :=
  log.take request.prevLogIndex ++ request.entries

@[simp] theorem followTerm_log (state : NodeState N) (term : ℕ) :
    (followTerm state term).log = state.log := by
  unfold followTerm
  split_ifs <;> rfl

theorem followTerm_currentTerm {state : NodeState N} {term : ℕ} (h : state.currentTerm ≤ term) :
    (followTerm state term).currentTerm = term := by
  unfold followTerm
  split_ifs with hlt
  · rfl
  · omega

/-- A request is stale, does not fit the log, or is taken in. -/
theorem handleAppendEntries_cases (state : NodeState N) (request : AppendEntriesRequest N) :
    request.term < state.currentTerm ∧
        handleAppendEntries state request = (state, ⟨state.currentTerm, false, 0⟩) ∨
    state.currentTerm ≤ request.term ∧ ¬ prevOk state.log request ∧ (∃ n,
        handleAppendEntries state request =
          (followTerm state request.term, ⟨request.term, false, n⟩)) ∨
    state.currentTerm ≤ request.term ∧ prevOk state.log request ∧
        handleAppendEntries state request =
          ({ followTerm state request.term with
              log := newLog state.log request
              commitIndex := min request.leaderCommit (newLog state.log request).length },
            ⟨request.term, true, (newLog state.log request).length⟩) := by
  unfold handleAppendEntries prevOk
  dsimp only
  by_cases hlt : request.term < state.currentTerm
  · left
    simp [hlt]
  · right
    have hle : state.currentTerm ≤ request.term := by omega
    rw [if_neg hlt, followTerm_log, followTerm_currentTerm hle]
    cases hp : prevEntry state.log request with
    | none =>
      left
      exact ⟨hle, by simp, 0, rfl⟩
    | some entry =>
      by_cases hterm : entry.term = request.prevLogTerm
      · right
        simp [hle, hterm, newLog, getLastLogIndex]
      · left
        exact ⟨hle, by simp [hterm], entry.index, by simp [hterm]⟩

theorem entry_of_prevOk {log : List LogEntry} {request : AppendEntriesRequest N}
    (hok : prevOk log request) (hpos : 0 < request.prevLogIndex) :
    ∃ entry, log[request.prevLogIndex - 1]? = some entry ∧ entry.term = request.prevLogTerm := by
  unfold prevOk prevEntry at hok
  rw [if_neg hpos.ne'] at hok
  exact Option.map_eq_some_iff.mp hok

theorem prevLogIndex_le {log : List LogEntry} {request : AppendEntriesRequest N}
    (hok : prevOk log request) : request.prevLogIndex ≤ log.length := by
  rcases Nat.eq_zero_or_pos request.prevLogIndex with h0 | hpos
  · omega
  · obtain ⟨entry, he, -⟩ := entry_of_prevOk hok hpos
    have := (List.getElem?_eq_some_iff.mp he).1
    omega

/-- The commit index of a leader rises to an entry of its own term, or stays. -/
theorem updateCommitIndex_cases (state : NodeState N) (peers : List N) :
    updateCommitIndex state peers = state ∨
    state.role = .leader ∧ state.commitIndex < newCommitIndex state peers ∧
      (∃ entry, state.log[newCommitIndex state peers - 1]? = some entry ∧
        entry.term = state.currentTerm) ∧
      updateCommitIndex state peers =
        { state with commitIndex := newCommitIndex state peers } := by
  unfold updateCommitIndex entryAt
  cases hr : state.role with
  | follower => exact Or.inl rfl
  | candidate => exact Or.inl rfl
  | leader =>
    dsimp only
    by_cases hlt : state.commitIndex < newCommitIndex state peers
    · have hpos : newCommitIndex state peers ≠ 0 := by omega
      rw [if_neg hpos]
      cases he : state.log[newCommitIndex state peers - 1]? with
      | none =>
        left
        simp
      | some entry =>
        dsimp only
        by_cases hterm : entry.term = state.currentTerm
        · right
          exact ⟨rfl, hlt, ⟨entry, rfl, hterm⟩, if_pos ⟨by simp [hterm], hlt⟩⟩
        · left
          exact if_neg fun hcan => hterm (by simpa using hcan.1)
    · left
      exact if_neg fun hcan => hlt hcan.2

end MetadataLog

end NextgenDatabases.Registry
