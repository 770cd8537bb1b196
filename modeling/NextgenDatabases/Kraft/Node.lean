import NextgenDatabases.Kraft.State
import Mathlib.Data.List.Sort
import Mathlib.Data.Finset.Card

/-!
# The KRaft node

The callbacks of `KRaftNode`. A callback takes the node's state and returns the
new state together with its effects: calls of the write-ahead log, messages to
peers and answers to clients, in the order in which the code performs them.
-/
namespace NextgenDatabases.Kraft

variable {N : Type*} [DecidableEq N]

/-- `Enum.at`: a negative index counts from the end. -/
def enumAt {α : Type*} (l : List α) (i : ℤ) : Option α :=
  if 0 ≤ i then l[i.toNat]? else if -i ≤ l.length then l[l.length - (-i).toNat]? else none

/-- The entry with the one-based index `n`. -/
theorem enumAt_pred {α : Type*} (l : List α) {n : ℕ} (hn : 0 < n) :
    enumAt l ((n : ℤ) - 1) = l[n - 1]? := by
  have hcast : (n : ℤ) - 1 = ((n - 1 : ℕ) : ℤ) := by omega
  simp [enumAt, hcast]

/-! ### Applying commands -/

def applyMembershipChange (peers : List N) (selfId : N) : Command N → List N
  | .addServer newNodeId _ =>
    if newNodeId ≠ selfId ∧ newNodeId ∉ peers then peers ++ [newNodeId] else peers
  | .removeServer targetNodeId =>
    if targetNodeId ≠ selfId then peers.erase targetNodeId else peers
  | _ => peers

def applyCommand (now : ℕ) (registry : Registry N) : Command N → Registry N
  | .registerStore storeId endpoint modalities =>
    { registry with
      stores := registry.stores.insert storeId
        { storeId := storeId
          endpoint := endpoint
          modalities := modalities
          trustLevel := 1
          lastSeen := now
          responseTimeMs := none } }
  | .unregisterStore storeId => { registry with stores := registry.stores.erase storeId }
  | .mapOctad octadId locations =>
    { registry with
      mappings := registry.mappings.insert octadId
        { octadId := octadId
          locations := locations
          primaryStore := none
          created := now
          modified := now } }
  | .unmapOctad octadId => { registry with mappings := registry.mappings.erase octadId }
  | .updateTrust storeId newTrust =>
    match registry.stores.lookup storeId with
    | none => registry
    | some store =>
      { registry with stores := registry.stores.insert storeId { store with trustLevel := newTrust } }
  | .addServer nodeId _ =>
    let members := registry.config.members.getD []
    if nodeId ∈ members then registry
    else { registry with config := { registry.config with members := some (members ++ [nodeId]) } }
  | .removeServer nodeId =>
    let members := registry.config.members.getD []
    { registry with config := { registry.config with members := some (members.erase nodeId) } }
  | .noop => registry

def snapshotInterval : ℕ := 1000

def maybeTriggerSnapshot (s : State N) : List (Effect N) :=
  if s.walPath ≠ none ∧ 0 < s.lastApplied ∧ s.lastApplied % snapshotInterval = 0 then
    match enumAt s.log (s.lastApplied - 1) with
    | some lastEntry => [.wal s.walPath (.saveSnapshot s.registry s.lastApplied lastEntry.term)]
    | none => []
  else []

omit [DecidableEq N] in
theorem sends_maybeTriggerSnapshot (s : State N) : sends (maybeTriggerSnapshot s) = [] := by
  unfold maybeTriggerSnapshot
  split_ifs
  · split <;> rfl
  · rfl

omit [DecidableEq N] in
theorem answers_maybeTriggerSnapshot (s : State N) : answers (maybeTriggerSnapshot s) = [] := by
  unfold maybeTriggerSnapshot
  split_ifs
  · split <;> rfl
  · rfl

/-- `Map.put_new` for each peer. -/
def putNew (peers : List N) (value : ℕ) (m : AList fun _ : N => ℕ) : AList fun _ : N => ℕ :=
  peers.foldl (fun m peer => if peer ∈ m then m else m.insert peer value) m

/-- `Map.drop`. -/
def dropKeys (keys : List N) (m : AList fun _ : N => ℕ) : AList fun _ : N => ℕ :=
  keys.foldl (fun m k => m.erase k) m

def applyCommitted (now : ℕ) (s : State N) : State N × List (Effect N) :=
  if s.commitIndex ≤ s.lastApplied then (s, [])
  else
    let entriesToApply := (s.log.drop s.lastApplied).take (s.commitIndex - s.lastApplied)
    let (newRegistry, newPeers) :=
      entriesToApply.foldl
        (fun (reg, peers) entry =>
          (applyCommand now reg entry.command,
            applyMembershipChange peers s.nodeId entry.command))
        (s.registry, s.peers)
    let s := { s with lastApplied := s.commitIndex, registry := newRegistry, peers := newPeers }
    -- the peers have just been replaced, so the comparison never differs
    let s :=
      if s.role = .leader ∧ s.peers ≠ newPeers then
        let removed := s.nextIndex.keys.filter (· ∉ newPeers)
        { s with
          nextIndex := dropKeys removed (putNew newPeers (s.log.length + 1) s.nextIndex)
          matchIndex := dropKeys removed (putNew newPeers 0 s.matchIndex) }
      else s
    (s, maybeTriggerSnapshot s)

/-- Applying entries changes the registry, the peers and `lastApplied` only. -/
theorem applyCommitted_eq (now : ℕ) (s : State N) : ∃ n registry peers,
    (applyCommitted now s).1 =
      { s with lastApplied := n, registry := registry, peers := peers } ∧
    peers = ((s.log.drop s.lastApplied).take (s.commitIndex - s.lastApplied)).foldl
      (fun ps e => applyMembershipChange ps s.nodeId e.command) s.peers ∧
    sends (applyCommitted now s).2 = [] ∧ answers (applyCommitted now s).2 = [] := by
  unfold applyCommitted
  split_ifs with hle
  · exact ⟨s.lastApplied, s.registry, s.peers, rfl, by simp [Nat.sub_eq_zero_of_le hle], rfl, rfl⟩
  · simp only [ne_eq, not_true_eq_false, and_false, if_false]
    refine ⟨_, _, _, rfl, (List.foldl_hom Prod.snd fun _ _ => rfl).symm, ?_, ?_⟩
    · exact sends_maybeTriggerSnapshot _
    · exact answers_maybeTriggerSnapshot _

/-- Without membership changes the peers stay. -/
theorem foldl_peers_eq (selfId : N) {l : List (Entry N)}
    (hl : ∀ e ∈ l, ¬ e.command.IsMembership) (peers : List N) :
    l.foldl (fun ps e => applyMembershipChange ps selfId e.command) peers = peers := by
  induction l with
  | nil => rfl
  | cons e l ih =>
    have he : applyMembershipChange peers selfId e.command = peers := by
      have := hl e List.mem_cons_self
      unfold applyMembershipChange
      split
      · next h => simp [h, Command.IsMembership] at this
      · next h => simp [h, Command.IsMembership] at this
      · rfl
    rw [List.foldl_cons, he]
    exact ih fun f hf => hl f (List.mem_cons_of_mem e hf)

/-- A node never becomes its own peer. -/
theorem self_not_mem_foldl_peers (selfId : N) (l : List (Entry N)) {peers : List N}
    (hp : selfId ∉ peers) :
    selfId ∉ l.foldl (fun ps e => applyMembershipChange ps selfId e.command) peers := by
  induction l generalizing peers with
  | nil => exact hp
  | cons e l ih =>
    refine ih ?_
    simp only [applyMembershipChange]
    split
    · split_ifs with hnew
      · simp [hp, Ne.symm hnew.1]
      · exact hp
    · split_ifs
      · exact fun hmem => hp (List.mem_of_mem_erase hmem)
      · exact hp
    · exact hp

def replyToPending (s : State N) : State N × List (Effect N) :=
  let (fulfilled, remaining) := s.pendingRequests.partition fun r => r.1 ≤ s.commitIndex
  ({ s with pendingRequests := remaining }, fulfilled.map fun r => .reply r.2 (.ok r.1))

omit [DecidableEq N] in
theorem replyToPending_eq (s : State N) : ∃ remaining,
    (replyToPending s).1 = { s with pendingRequests := remaining } ∧
    sends (replyToPending s).2 = [] := by
  refine ⟨_, rfl, ?_⟩
  simp [replyToPending, sends, List.filterMap_map, Function.comp_def]

omit [DecidableEq N] in
/-- The calls answered are those whose index is committed. -/
theorem mem_answers_replyToPending {s : State N} {ref : CallRef} {a : Reply N} :
    (ref, a) ∈ answers (replyToPending s).2 ↔
      ∃ i, a = .ok i ∧ (i, ref) ∈ s.pendingRequests ∧ i ≤ s.commitIndex := by
  simp only [answers, replyToPending, List.partition_eq_filter_filter, List.mem_filterMap,
    List.mem_map, List.mem_filter, decide_eq_true_eq]
  constructor
  · rintro ⟨x, ⟨⟨i, ref'⟩, ⟨hi, hle⟩, rfl⟩, hx⟩
    simp only [Option.some.injEq, Prod.mk.injEq] at hx
    obtain ⟨rfl, rfl⟩ := hx
    exact ⟨i, rfl, hi, hle⟩
  · rintro ⟨i, rfl, hi, hle⟩
    exact ⟨_, ⟨(i, ref), ⟨hi, hle⟩, rfl⟩, rfl⟩

/-- `Map.values`. -/
def mapValues (m : AList fun _ : N => ℕ) : List ℕ := m.entries.map Sigma.snd

/-- `Enum.sort(:desc)`. -/
def sortDesc (l : List ℕ) : List ℕ := l.insertionSort (· ≥ ·)

/-- The candidate for the new commit index. -/
def quorumMatch (s : State N) : ℕ :=
  (enumAt (sortDesc (mapValues s.matchIndex ++ [s.log.length]))
    (((s.peers.length + 1) / 2 : ℕ) : ℤ)).getD s.commitIndex

def maybeAdvanceCommit (s : State N) : State N :=
  let newCommit := quorumMatch s
  let canCommit : Bool :=
    match enumAt s.log ((newCommit : ℤ) - 1) with
    | none => false
    | some entry => entry.term = s.currentTerm
  if canCommit && decide (s.commitIndex < newCommit) then { s with commitIndex := newCommit } else s

omit [DecidableEq N] in
/-- The commit index moves only up, to an entry of the current term. -/
theorem maybeAdvanceCommit_cases (s : State N) : maybeAdvanceCommit s = s ∨
    s.commitIndex < quorumMatch s ∧
      (∃ e, s.log[quorumMatch s - 1]? = some e ∧ e.term = s.currentTerm) ∧
      maybeAdvanceCommit s = { s with commitIndex := quorumMatch s } := by
  unfold maybeAdvanceCommit
  dsimp only
  split_ifs with hif
  · simp only [Bool.and_eq_true, decide_eq_true_eq] at hif
    obtain ⟨hcan, hlt⟩ := hif
    refine Or.inr ⟨hlt, ?_, rfl⟩
    rw [enumAt_pred _ (by omega)] at hcan
    cases he : s.log[quorumMatch s - 1]? with
    | none => simp [he] at hcan
    | some e => exact ⟨e, rfl, by simpa [he] using hcan⟩
  · exact Or.inl rfl

/-- Advancing, applying and replying leave the protocol state alone. -/
theorem settle_eq (now : ℕ) (s : State N) : ∃ n la registry peers pending,
    (replyToPending (applyCommitted now (maybeAdvanceCommit s)).1).1 =
      { s with
        commitIndex := n
        lastApplied := la
        registry := registry
        peers := peers
        pendingRequests := pending } := by
  obtain ⟨la, registry, peers, happly, -⟩ := applyCommitted_eq now (maybeAdvanceCommit s)
  obtain ⟨pending, hreply, -⟩ := replyToPending_eq (applyCommitted now (maybeAdvanceCommit s)).1
  rw [hreply, happly]
  rcases maybeAdvanceCommit_cases s with heq | ⟨-, -, heq⟩
  · exact ⟨s.commitIndex, la, registry, peers, pending, by rw [heq]⟩
  · exact ⟨quorumMatch s, la, registry, peers, pending, by rw [heq]⟩

/-! ### Helpers -/

def stepDown (s : State N) (newTerm : ℕ) : State N × List (Effect N) :=
  ({ s with
      role := .follower
      currentTerm := newTerm
      votedFor := none
      votesReceived := ∅ },
    [.wal s.walPath (.persistState newTerm none)])

def lastLogTerm (s : State N) : ℕ :=
  match s.log.getLast? with
  | none => 0
  | some entry => entry.term

def logUpToDate (s : State N) (request : VoteRequest N) : Bool :=
  if lastLogTerm s < request.lastLogTerm then true
  else if request.lastLogTerm = lastLogTerm s ∧ s.log.length ≤ request.lastLogIndex then true
  else false

def quorum (s : State N) : ℕ := (s.peers.length + 1) / 2 + 1

/-! ### Log replication -/

def appendEntriesRequest (s : State N) (peer : N) : AppendEntriesRequest N :=
  let nextIdx := (s.nextIndex.lookup peer).getD 1
  let prevLogIndex := nextIdx - 1
  { term := s.currentTerm
    leaderId := s.nodeId
    prevLogIndex := prevLogIndex
    prevLogTerm :=
      if 0 < prevLogIndex then
        match enumAt s.log ((prevLogIndex : ℤ) - 1) with
        | none => 0
        | some entry => entry.term
      else 0
    entries := s.log.drop (nextIdx - 1)
    leaderCommit := s.commitIndex }

def sendAppendEntries (s : State N) : List (Effect N) :=
  s.peers.map fun peer => .send (.appendEntries peer (appendEntriesRequest s peer))

theorem mem_sends_sendAppendEntries {m : Message N} {s : State N} :
    m ∈ sends (sendAppendEntries s) ↔
      ∃ peer ∈ s.peers, m = .appendEntries peer (appendEntriesRequest s peer) := by
  simp [sendAppendEntries, eq_comm]

/-- The check of the entry before the new ones. -/
def prevOk (log : List (Entry N)) (request : AppendEntriesRequest N) : Bool :=
  if request.prevLogIndex = 0 then true
  else
    match enumAt log ((request.prevLogIndex : ℤ) - 1) with
    | none => false
    | some entry => entry.term = request.prevLogTerm

/-- `handle_append_entries_rpc` once the node is at the term of the request. -/
def receiveEntries (now : ℕ) (s : State N) (request : AppendEntriesRequest N) :
    State N × AppendEntriesResponse × List (Effect N) :=
  let s := { s with leaderId := some request.leaderId }
  if prevOk s.log request then
    let newLog := s.log.take request.prevLogIndex ++ request.entries
    let newCommit := min request.leaderCommit newLog.length
    let walFx : List (Effect N) :=
      if request.entries ≠ [] then
        (if request.prevLogIndex < s.log.length then
          [.wal s.walPath (.truncateAfter request.prevLogIndex)]
        else []) ++ [.wal s.walPath (.appendEntries request.entries)]
      else []
    let (s, applyFx) := applyCommitted now { s with log := newLog, commitIndex := newCommit }
    (s, { term := s.currentTerm, success := true, matchIndex := s.log.length }, walFx ++ applyFx)
  else (s, { term := s.currentTerm, success := false, matchIndex := 0 }, [])

def handleAppendEntriesRpc (now : ℕ) (s : State N) (request : AppendEntriesRequest N) :
    State N × AppendEntriesResponse × List (Effect N) :=
  if request.term < s.currentTerm then
    (s, { term := s.currentTerm, success := false, matchIndex := 0 }, [])
  else
    let (s, fx) := if s.currentTerm < request.term then stepDown s request.term else (s, [])
    let (s, response, receiveFx) := receiveEntries now s request
    (s, response, fx ++ receiveFx)

def handleAeResponse (now : ℕ) (s : State N) (fromPeer : N) (response : AppendEntriesResponse) :
    State N × List (Effect N) :=
  if s.currentTerm < response.term then stepDown s response.term
  else if s.role = .leader ∧ response.success then
    let s := { s with
      nextIndex := s.nextIndex.insert fromPeer (response.matchIndex + 1)
      matchIndex := s.matchIndex.insert fromPeer response.matchIndex }
    let s := maybeAdvanceCommit s
    let (s, applyFx) := applyCommitted now s
    let (s, replyFx) := replyToPending s
    (s, applyFx ++ replyFx)
  else if s.role = .leader then
    let currentNext := (s.nextIndex.lookup fromPeer).getD 1
    ({ s with nextIndex := s.nextIndex.insert fromPeer (max (currentNext - 1) 1) }, [])
  else (s, [])

/-- The entry a leader appends for a command. -/
def newEntry (now : ℕ) (s : State N) (command : Command N) : Entry N where
  term := s.currentTerm
  index := s.log.length + 1
  command := command
  timestamp := now

/-! ### Elections -/

/-- `Map.new` over the peers with one value. -/
def peerMap (peers : List N) (value : ℕ) : AList fun _ : N => ℕ :=
  peers.foldl (fun m peer => m.insert peer value) ∅

def becomeLeader (now : ℕ) (s : State N) : State N × List (Effect N) :=
  let lastLogIndex := s.log.length + 1
  let s := { s with
    role := .leader
    leaderId := some s.nodeId
    nextIndex := peerMap s.peers lastLogIndex
    matchIndex := peerMap s.peers 0 }
  let noop := newEntry now s .noop
  let s := { s with log := s.log ++ [noop] }
  (s, .wal s.walPath (.appendEntry noop) :: sendAppendEntries s)

def startElection (now : ℕ) (s : State N) : State N × List (Effect N) :=
  let newTerm := s.currentTerm + 1
  let s := { s with
    role := .candidate
    currentTerm := newTerm
    votedFor := some s.nodeId
    votesReceived := {s.nodeId}
    electionCount := s.electionCount + 1 }
  let request : VoteRequest N :=
    { term := newTerm
      candidateId := s.nodeId
      lastLogIndex := s.log.length
      lastLogTerm := lastLogTerm s }
  let fx := .wal s.walPath (.persistState newTerm (some s.nodeId)) ::
    s.peers.map fun peer => .send (.requestVote peer request)
  if quorum s ≤ s.votesReceived.card then
    let (s, leaderFx) := becomeLeader now s
    (s, fx ++ leaderFx)
  else (s, fx)

/-- The two branches of `handle_vote_request` that may grant the vote. -/
def considerVote (s : State N) (request : VoteRequest N) :
    State N × VoteResponse × List (Effect N) :=
  if logUpToDate s request then
    let s := { s with votedFor := some request.candidateId }
    (s, { term := s.currentTerm, voteGranted := true },
      [.wal s.walPath (.persistState s.currentTerm s.votedFor)])
  else (s, { term := s.currentTerm, voteGranted := false }, [])

def handleVoteRequest (s : State N) (request : VoteRequest N) :
    State N × VoteResponse × List (Effect N) :=
  if request.term < s.currentTerm then
    (s, { term := s.currentTerm, voteGranted := false }, [])
  else if s.currentTerm < request.term then
    let (s, fx) := stepDown s request.term
    let (s, response, voteFx) := considerVote s request
    (s, response, fx ++ voteFx)
  else if s.votedFor = none ∨ s.votedFor = some request.candidateId then considerVote s request
  else (s, { term := s.currentTerm, voteGranted := false }, [])

def handleVoteResponse (now : ℕ) (s : State N) (fromPeer : N) (response : VoteResponse) :
    State N × List (Effect N) :=
  if s.currentTerm < response.term then stepDown s response.term
  else if s.role = .candidate ∧ response.voteGranted then
    let s := { s with votesReceived := insert fromPeer s.votesReceived }
    if quorum s ≤ s.votesReceived.card then becomeLeader now s else (s, [])
  else (s, [])

/-! ### Callbacks -/

def handlePropose (now : ℕ) (s : State N) (ref : CallRef) (command : Command N) :
    State N × List (Effect N) :=
  if s.role = .leader then
    let entry := newEntry now s command
    let s := { s with
      log := s.log ++ [entry]
      pendingRequests := (entry.index, ref) :: s.pendingRequests }
    let fx := .wal s.walPath (.appendEntry entry) :: sendAppendEntries s
    let s := maybeAdvanceCommit s
    let (s, applyFx) := applyCommitted now s
    let (s, replyFx) := replyToPending s
    (s, fx ++ applyFx ++ replyFx)
  else (s, [.reply ref (.notLeader s.leaderId)])

/-- Leaders ignore election timeouts. -/
def handleElectionTimeout (now : ℕ) (s : State N) : State N × List (Effect N) :=
  if s.role = .leader then (s, []) else startElection now s

/-- Only leaders act on heartbeats. -/
def handleHeartbeat (s : State N) : State N × List (Effect N) :=
  if s.role = .leader then (s, sendAppendEntries s) else (s, [])

/-- What a node receives from its timers, its clients and its peers. -/
inductive Input (N : Type*) where
  | electionTimeout (now : ℕ)
  | heartbeat
  | propose (ref : CallRef) (command : Command N) (now : ℕ)
  | requestVote (request : VoteRequest N)
  | voteResponse (fromPeer : N) (response : VoteResponse) (now : ℕ)
  | appendEntries (request : AppendEntriesRequest N) (now : ℕ)
  | appendEntriesResponse (fromPeer : N) (response : AppendEntriesResponse) (now : ℕ)

/-- The callbacks of the server. A request is answered at once; the answer
travels back to the node that asked. -/
def handle (s : State N) : Input N → State N × List (Effect N)
  | .electionTimeout now => handleElectionTimeout now s
  | .heartbeat => handleHeartbeat s
  | .propose ref command now => handlePropose now s ref command
  | .requestVote request =>
    let (s', response, fx) := handleVoteRequest s request
    (s', fx ++ [.send (.voteResponse request.candidateId s.nodeId response)])
  | .voteResponse fromPeer response now => handleVoteResponse now s fromPeer response
  | .appendEntries request now =>
    let (s', response, fx) := handleAppendEntriesRpc now s request
    (s', fx ++ [.send (.appendEntriesResponse request.leaderId s.nodeId response)])
  | .appendEntriesResponse fromPeer response now => handleAeResponse now s fromPeer response

end NextgenDatabases.Kraft
