import NextgenDatabases.Kraft.Actions

/-!
# What a callback does to the log

Each callback is a sequence of moves. A move changes the term and the vote, the
log, the commit index or the last applied index, and comes with the calls of the
write-ahead log that belong to the change.
-/
namespace NextgenDatabases.Kraft

variable {N : Type*} [DecidableEq N]

/-- The log and what was done with it are the same. -/
structure SameLog (s s' : State N) : Prop where
  nodeId : s'.nodeId = s.nodeId
  walPath : s'.walPath = s.walPath
  peers : s'.peers = s.peers
  log : s'.log = s.log
  commitIndex : s'.commitIndex = s.commitIndex
  lastApplied : s'.lastApplied = s.lastApplied

/-- So are the term and the vote. -/
structure Same (s s' : State N) : Prop extends SameLog s s' where
  currentTerm : s'.currentTerm = s.currentTerm
  votedFor : s'.votedFor = s.votedFor

/-- The effect is no call of the write-ahead log and replicates no entries. -/
def Effect.Plain : Effect N → Prop
  | .wal _ _ | .send (.appendEntries _ _) => False
  | .send _ | .reply _ _ => True

/-- The node takes the entries of the request into its log only at its end. -/
def Lengthens (s : State N) (r : AppendEntriesRequest N) : Prop :=
  r.entries ≠ [] ∧ s.log.length ≤ r.prevLogIndex

/-- The input makes the node append to its log file without rewriting it. -/
def Appends (s : State N) : Input N → Prop
  | .electionTimeout _ => s.role ≠ .leader ∧ quorum s ≤ 1
  | .propose _ _ _ => s.role = .leader
  | .voteResponse v r _ => ¬ s.currentTerm < r.term ∧ s.role = .candidate ∧
      r.voteGranted = true ∧ quorum s ≤ (insert v s.votesReceived).card
  | .appendEntries r _ => Accepted s r ∧ Lengthens s r
  | _ => False

/-- The calls of the write-ahead log for an accepted request. -/
def received (s : State N) (r : AppendEntriesRequest N) : List (Effect N) :=
  if r.entries ≠ [] then
    (if r.prevLogIndex < s.log.length then
      [.wal s.walPath (.truncateAfter r.prevLogIndex)]
    else []) ++ [.wal s.walPath (.appendEntries r.entries)]
  else []

/-- One move of a callback that the node `s₀` runs on the input `i`. -/
inductive Move (s₀ : State N) (i : Input N) : State N → State N → List (Effect N) → Prop
  | quiet {s s' fx} (hsame : Same s s') (hplain : ∀ f ∈ fx, f.Plain) : Move s₀ i s s' fx
  | persist {s s'} (hsame : SameLog s s')
      (hvote : s.currentTerm < s'.currentTerm ∨
        s'.currentTerm = s.currentTerm ∧ (s.votedFor = none ∨ s.votedFor = s'.votedFor)) :
      Move s₀ i s s' [.wal s.walPath (.persistState s'.currentTerm s'.votedFor)]
  | append {s} (now : ℕ) (command : Command N) (happends : Appends s₀ i)
      (hcommand : command = .noop ∨ ∃ ref now', i = .propose ref command now') :
      Move s₀ i s { s with log := s.log ++ [newEntry now s command] }
        [.wal s.walPath (.appendEntry (newEntry now s command))]
  | replicate {s} : Move s₀ i s s (sendAppendEntries s)
  | receive {s r now} (hi : i = .appendEntries r now) (haccepted : Accepted s₀ r)
      (hlog : s.log = s₀.log) (happlied : s.lastApplied = s₀.lastApplied) :
      Move s₀ i s
        { s with
          log := s.log.take r.prevLogIndex ++ r.entries
          commitIndex := min r.leaderCommit (s.log.take r.prevLogIndex ++ r.entries).length }
        (received s r)
  | advance {s n} (hn : n ≤ s.log.length) : Move s₀ i s { s with commitIndex := n } []
  | apply {s registry peers} (hlt : s.lastApplied < s.commitIndex)
      (hpeers : peers = ((s.log.drop s.lastApplied).take (s.commitIndex - s.lastApplied)).foldl
        (fun ps e => applyMembershipChange ps s.nodeId e.command) s.peers) :
      Move s₀ i s
        { s with lastApplied := s.commitIndex, registry := registry, peers := peers }
        (maybeTriggerSnapshot
          { s with lastApplied := s.commitIndex, registry := registry, peers := peers })

/-- The moves from the start of the callback on, with all their effects. -/
inductive Moves (s₀ : State N) (i : Input N) : State N → List (Effect N) → Prop
  | refl : Moves s₀ i s₀ []
  | tail {s s' fx gx} : Moves s₀ i s fx → Move s₀ i s s' gx → Moves s₀ i s' (fx ++ gx)

variable {s₀ s s' : State N} {i : Input N} {fx gx : List (Effect N)}

omit [DecidableEq N] in
theorem Same.refl (s : State N) : Same s s := ⟨⟨rfl, rfl, rfl, rfl, rfl, rfl⟩, rfl, rfl⟩

/-- A state that is the same takes the place of the last one. -/
theorem Moves.same (h : Moves s₀ i s fx) (hsame : Same s s') : Moves s₀ i s' fx := by
  have hnone : ∀ f ∈ ([] : List (Effect N)), f.Plain := fun f hf => absurd hf List.not_mem_nil
  simpa using h.tail (.quiet hsame hnone)

theorem Moves.walPath (h : Moves s₀ i s fx) : s.walPath = s₀.walPath := by
  induction h with
  | refl => rfl
  | tail _ hmove ih =>
    cases hmove with
    | quiet hsame _ => exact hsame.walPath.trans ih
    | persist hsame _ => exact hsame.walPath.trans ih
    | append _ _ _ _ | replicate | receive _ _ _ _ | advance _ | apply _ _ => exact ih

theorem Moves.plain (h : Moves s₀ i s fx) (hplain : ∀ f ∈ gx, f.Plain) :
    Moves s₀ i s (fx ++ gx) :=
  h.tail (.quiet (Same.refl s) hplain)

/-! ### The helpers -/

theorem Moves.stepDown (h : Moves s₀ i s fx) {t : ℕ} (ht : s.currentTerm < t) :
    Moves s₀ i (stepDown s t).1 (fx ++ (stepDown s t).2) := by
  have hmove : Move s₀ i s (Kraft.stepDown s t).1 (Kraft.stepDown s t).2 :=
    .persist ⟨rfl, rfl, rfl, rfl, rfl, rfl⟩ (.inl ht)
  exact h.tail hmove

theorem Moves.becomeLeader (h : Moves s₀ i s fx) (now : ℕ) (happends : Appends s₀ i) :
    Moves s₀ i (becomeLeader now s).1 (fx ++ (becomeLeader now s).2) := by
  have hlead : Moves s₀ i { s with
      role := .leader
      leaderId := some s.nodeId
      nextIndex := peerMap s.peers (s.log.length + 1)
      matchIndex := peerMap s.peers 0 } fx :=
    h.same ⟨⟨rfl, rfl, rfl, rfl, rfl, rfl⟩, rfl, rfl⟩
  have happend := (hlead.tail (.append now .noop happends (.inl rfl))).tail .replicate
  rwa [List.append_assoc] at happend

theorem Moves.startElection (h : Moves s₀ i s fx) (now : ℕ)
    (happends : quorum s ≤ 1 → Appends s₀ i) :
    Moves s₀ i (startElection now s).1 (fx ++ (startElection now s).2) := by
  have hpersist : Move s₀ i s (candidateState s)
      [.wal s.walPath (.persistState (s.currentTerm + 1) (some s.nodeId))] :=
    .persist ⟨rfl, rfl, rfl, rfl, rfl, rfl⟩ (.inl (Nat.lt_succ_self _))
  have hrequests : ∀ f ∈ (voteRequests (candidateState s)).map Effect.send, f.Plain := by
    intro f hf
    obtain ⟨m, hm, rfl⟩ := List.mem_map.mp hf
    obtain ⟨peer, -, rfl⟩ := List.mem_map.mp hm
    trivial
  have hcandidate := (h.tail hpersist).plain hrequests
  rw [List.append_assoc, voteRequests, List.map_map] at hcandidate
  unfold Kraft.startElection
  dsimp only
  split_ifs with hq
  · have hone : quorum s ≤ 1 := by simpa [quorum] using hq
    have hlead := hcandidate.becomeLeader now (happends hone)
    rw [List.append_assoc] at hlead
    exact hlead
  · exact hcandidate

/-- A vote is given in the term of the node, to whoever has it already. -/
theorem Moves.considerVote (h : Moves s₀ i s fx) (r : VoteRequest N)
    (hfree : s.votedFor = none ∨ s.votedFor = some r.candidateId) :
    Moves s₀ i (considerVote s r).1 (fx ++ (considerVote s r).2.2) := by
  unfold Kraft.considerVote
  split_ifs
  · have hmove : Move s₀ i s { s with votedFor := some r.candidateId } _ :=
      .persist ⟨rfl, rfl, rfl, rfl, rfl, rfl⟩ (.inr ⟨rfl, hfree⟩)
    exact h.tail hmove
  · simpa using h

theorem Moves.applyCommitted (h : Moves s₀ i s fx) (now : ℕ) :
    Moves s₀ i (applyCommitted now s).1 (fx ++ (applyCommitted now s).2) := by
  unfold Kraft.applyCommitted
  split_ifs with hle
  · simpa using h
  · simp only [ne_eq, not_true_eq_false, and_false, if_false]
    exact h.tail (.apply (not_le.mp hle) (List.foldl_hom Prod.snd fun _ _ => rfl).symm)

omit [DecidableEq N] in
theorem plain_replyToPending (s : State N) : ∀ f ∈ (replyToPending s).2, f.Plain := by
  intro f hf
  obtain ⟨x, -, rfl⟩ := List.mem_map.mp hf
  trivial

omit [DecidableEq N] in
theorem same_replyToPending (s : State N) : Same s (replyToPending s).1 :=
  ⟨⟨rfl, rfl, rfl, rfl, rfl, rfl⟩, rfl, rfl⟩

theorem Moves.settle (h : Moves s₀ i s fx) (now : ℕ) :
    Moves s₀ i (replyToPending (Kraft.applyCommitted now (maybeAdvanceCommit s)).1).1
      (fx ++ ((Kraft.applyCommitted now (maybeAdvanceCommit s)).2 ++
        (replyToPending (Kraft.applyCommitted now (maybeAdvanceCommit s)).1).2)) := by
  have hadvance : Moves s₀ i (maybeAdvanceCommit s) fx := by
    rcases maybeAdvanceCommit_cases s with heq | ⟨-, ⟨e, he, -⟩, heq⟩
    · rwa [heq]
    · rw [heq]
      have hle : quorumMatch s ≤ s.log.length := by
        have := (List.getElem?_eq_some_iff.mp he).1
        omega
      simpa using h.tail (.advance hle)
  have happly := hadvance.applyCommitted now
  have hreply := happly.plain
    (plain_replyToPending (Kraft.applyCommitted now (maybeAdvanceCommit s)).1)
  rw [List.append_assoc] at hreply
  exact hreply.same (same_replyToPending _)

/-! ### The callbacks -/

theorem Moves.receiveEntries (h : Moves s₀ i s fx) {now : ℕ} {r : AppendEntriesRequest N}
    (hi : i = .appendEntries r now) (hterm : s₀.currentTerm ≤ r.term) (hlog : s.log = s₀.log)
    (happlied : s.lastApplied = s₀.lastApplied) :
    Moves s₀ i (receiveEntries now s r).1 (fx ++ (receiveEntries now s r).2.2) := by
  have hleader : Moves s₀ i { s with leaderId := some r.leaderId } fx :=
    h.same ⟨⟨rfl, rfl, rfl, rfl, rfl, rfl⟩, rfl, rfl⟩
  unfold Kraft.receiveEntries
  dsimp only
  by_cases hok : prevOk s.log r = true
  · simp only [hok, if_true]
    have haccepted : Accepted s₀ r := ⟨hterm, hlog ▸ hok⟩
    have hreceive := (hleader.tail (.receive hi haccepted hlog happlied)).applyCommitted now
    rwa [List.append_assoc] at hreceive
  · simpa [hok] using hleader

theorem moves_appendEntries (s : State N) (r : AppendEntriesRequest N) (now : ℕ) :
    Moves s (.appendEntries r now) (handleAppendEntriesRpc now s r).1
      (handleAppendEntriesRpc now s r).2.2 := by
  unfold handleAppendEntriesRpc
  split_ifs with hstale hgt
  · exact .refl
  · have hdown : Moves s (.appendEntries r now) (stepDown s r.term).1 ([] ++ (stepDown s r.term).2) :=
      Moves.refl.stepDown hgt
    exact hdown.receiveEntries rfl (not_lt.mp hstale) rfl rfl
  · have hreceive : Moves s (.appendEntries r now) (receiveEntries now s r).1
        ([] ++ (receiveEntries now s r).2.2) :=
      Moves.refl.receiveEntries rfl (not_lt.mp hstale) rfl rfl
    exact hreceive

theorem moves_requestVote (s : State N) (r : VoteRequest N) :
    Moves s (.requestVote r) (handleVoteRequest s r).1 (handleVoteRequest s r).2.2 := by
  unfold handleVoteRequest
  split_ifs with hstale hgt hfree
  · exact .refl
  · have hdown : Moves s (.requestVote r) (stepDown s r.term).1 ([] ++ (stepDown s r.term).2) :=
      Moves.refl.stepDown hgt
    exact hdown.considerVote r (.inl rfl)
  · exact Moves.refl.considerVote r hfree
  · exact .refl

theorem moves_propose (s : State N) (ref : CallRef) (command : Command N) (now : ℕ) :
    Moves s (.propose ref command now) (handlePropose now s ref command).1
      (handlePropose now s ref command).2 := by
  unfold handlePropose
  split_ifs with hr
  · have happends : Appends s (.propose ref command now) := hr
    have happend : Moves s (.propose ref command now)
        { s with
          log := s.log ++ [newEntry now s command]
          pendingRequests := ((newEntry now s command).index, ref) :: s.pendingRequests }
        ([] ++ [.wal s.walPath (.appendEntry (newEntry now s command))]) :=
      (Moves.refl.tail (.append now command happends (.inr ⟨ref, now, rfl⟩))).same
        ⟨⟨rfl, rfl, rfl, rfl, rfl, rfl⟩, rfl, rfl⟩
    have hsettle := (happend.tail .replicate).settle now
    simpa using hsettle
  · refine Moves.refl.plain fun f hf => ?_
    rw [List.mem_singleton.mp hf]
    trivial

theorem moves_voteResponse (s : State N) (v : N) (r : VoteResponse) (now : ℕ) :
    Moves s (.voteResponse v r now) (handleVoteResponse now s v r).1
      (handleVoteResponse now s v r).2 := by
  unfold handleVoteResponse
  dsimp only
  have hcount : Moves s (.voteResponse v r now)
      { s with votesReceived := insert v s.votesReceived } [] :=
    Moves.refl.same ⟨⟨rfl, rfl, rfl, rfl, rfl, rfl⟩, rfl, rfl⟩
  split_ifs with hgt hcand hq
  · exact Moves.refl.stepDown hgt
  · exact hcount.becomeLeader now ⟨hgt, hcand.1, hcand.2, hq⟩
  · exact hcount
  · exact .refl

theorem moves_appendEntriesResponse (s : State N) (v : N) (r : AppendEntriesResponse) (now : ℕ) :
    Moves s (.appendEntriesResponse v r now) (handleAeResponse now s v r).1
      (handleAeResponse now s v r).2 := by
  unfold handleAeResponse
  split_ifs with hgt hack hlead
  · exact Moves.refl.stepDown hgt
  · have hmatch : Moves s (.appendEntriesResponse v r now)
        { s with
          nextIndex := s.nextIndex.insert v (r.matchIndex + 1)
          matchIndex := s.matchIndex.insert v r.matchIndex } [] :=
      Moves.refl.same ⟨⟨rfl, rfl, rfl, rfl, rfl, rfl⟩, rfl, rfl⟩
    exact hmatch.settle now
  · exact Moves.refl.same ⟨⟨rfl, rfl, rfl, rfl, rfl, rfl⟩, rfl, rfl⟩
  · exact .refl

/-- Each callback is a sequence of moves. -/
theorem handle_moves (s : State N) (i : Input N) : Moves s i (handle s i).1 (handle s i).2 := by
  have hanswer : ∀ m : Message N, (∀ dest r, m ≠ .appendEntries dest r) →
      ∀ f ∈ [Effect.send m], f.Plain := by
    intro m hm f hf
    rw [List.mem_singleton.mp hf]
    cases m with
    | appendEntries dest r => exact absurd rfl (hm dest r)
    | requestVote _ _ | voteResponse _ _ _ | appendEntriesResponse _ _ _ => trivial
  cases i with
  | electionTimeout now =>
    unfold handle handleElectionTimeout
    dsimp only
    split_ifs with hr
    · exact .refl
    · exact Moves.refl.startElection now fun hq => ⟨hr, hq⟩
  | heartbeat =>
    unfold handle handleHeartbeat
    dsimp only
    split_ifs
    · exact Moves.refl.tail .replicate
    · exact .refl
  | propose ref command now => exact moves_propose s ref command now
  | requestVote r => exact (moves_requestVote s r).plain (hanswer _ (by simp))
  | voteResponse v r now => exact moves_voteResponse s v r now
  | appendEntries r now => exact (moves_appendEntries s r now).plain (hanswer _ (by simp))
  | appendEntriesResponse v r now => exact moves_appendEntriesResponse s v r now

end NextgenDatabases.Kraft
