import NextgenDatabases.Kraft.Membership
import NextgenDatabases.Kraft.Quorum
import NextgenDatabases.Kraft.Recovery

/-!
# Whose progress counts

A leader raises its commit index by the sorted values of `match_index` and the
number of its peers. The keys of `match_index` are set when the leader is elected
and by the responses; applying a membership change does not touch them.
-/
namespace NextgenDatabases.Kraft

open Raft Foundations

variable {N : Type*} [DecidableEq N]

/-! ### Counting -/

/-- The state in which the callback calls `maybe_advance_commit`, if it does. -/
def counting (s : State N) : Input N → Option (State N)
  | .propose ref command now =>
    if s.role = .leader then
      some { s with
        log := s.log ++ [newEntry now s command]
        pendingRequests := ((newEntry now s command).index, ref) :: s.pendingRequests }
    else none
  | .appendEntriesResponse fromPeer response _ =>
    if s.currentTerm < response.term then none
    else if s.role = .leader ∧ response.success then
      some { s with
        nextIndex := s.nextIndex.insert fromPeer (response.matchIndex + 1)
        matchIndex := s.matchIndex.insert fromPeer response.matchIndex }
    else none
  | _ => none

/-- How far a member has come: the leader itself has its whole log. -/
def progress (s : State N) (q : N) : ℕ :=
  if q = s.nodeId then s.log.length else (s.matchIndex.lookup q).getD 0

/-- The members that have come as far as `n`. -/
def reached (s : State N) (n : ℕ) : Finset N := (members s).filter fun q => n ≤ progress s q

/-- If the commit index rises, most members have come as far as the new one. -/
def RaisedByMajority (s : State N) : Prop :=
  s.commitIndex < (maybeAdvanceCommit s).commitIndex →
    IsMajority (members s) (reached s (maybeAdvanceCommit s).commitIndex)

/-- All progress that is counted is that of peers. -/
def TracksPeers (s : State N) : Prop := ∀ q ∈ s.matchIndex, q ∈ s.peers

variable {s s' u : State N} {i : Input N}

/-- If all that is tracked are peers, the count is one of members. -/
theorem raisedByMajority_of_tracksPeers (hself : s.nodeId ∉ s.peers) (htracks : TracksPeers s) :
    RaisedByMajority s := by
  intro hlt
  rcases maybeAdvanceCommit_cases s with heq | ⟨hrise, ⟨entry, hentry, -⟩, heq⟩
  · rw [heq] at hlt
    exact absurd hlt (lt_irrefl _)
  rw [heq]
  have hle : quorumMatch s ≤ s.log.length := by
    have hindex := (List.getElem?_eq_some_iff.mp hentry).1
    omega
  have hpeer : ∀ q ∈ matched s.matchIndex (quorumMatch s), q ∈ s.peers := by
    intro q hq
    obtain ⟨n, hn, -⟩ := mem_matched.mp hq
    exact htracks q (AList.lookup_isSome.mp (by simp [hn]))
  have hnew : s.nodeId ∉ matched s.matchIndex (quorumMatch s) := fun hq => hself (hpeer _ hq)
  have hsub : insert s.nodeId (matched s.matchIndex (quorumMatch s)) ⊆
      reached s (quorumMatch s) := by
    intro q hq
    rw [reached, Finset.mem_filter, members, progress]
    rcases Finset.mem_insert.mp hq with rfl | hq
    · simpa using hle
    · obtain ⟨n, hn, hreach⟩ := mem_matched.mp hq
      have hne : q ≠ s.nodeId := fun h => hself (h ▸ hpeer q hq)
      simpa [hne, hn, hpeer q hq] using hreach
  have hcard := Finset.card_le_card hsub
  rw [Finset.card_insert_of_notMem hnew] at hcard
  have hmembers : (members s).card ≤ s.peers.length + 1 :=
    (Finset.card_insert_le _ _).trans (Nat.succ_le_succ (List.toFinset_card_le _))
  have hcount := quorumMatch_le_card hrise hle
  refine ⟨Finset.filter_subset _ _, ?_⟩
  change (members s).card < 2 * (reached s (quorumMatch s)).card
  omega

/-! ### What a callback does to the tally -/

/-- The entries that a callback applies. -/
def applied (s s' : State N) : List (Entry N) :=
  (s'.log.drop s.lastApplied).take (s'.lastApplied - s.lastApplied)

/-- The peers after the entries are applied. -/
def peersAfter (s : State N) (entries : List (Entry N)) : List N :=
  entries.foldl (fun ps e => applyMembershipChange ps s.nodeId e.command) s.peers

/-- The node settles from the state `u`, which has applied the same entries. -/
structure SettlesFrom (s u s' : State N) : Prop where
  role : s'.role = u.role
  matchIndex : s'.matchIndex = u.matchIndex
  peers : s'.peers = peersAfter s (applied s s')

theorem applyCommitted_lastApplied (now : ℕ) (u : State N) :
    (applyCommitted now u).1.lastApplied = max u.lastApplied u.commitIndex := by
  unfold applyCommitted
  split_ifs with hle
  · exact (max_eq_left hle).symm
  · simp only [ne_eq, not_true_eq_false, and_false, if_false]
    exact (max_eq_right (not_le.mp hle).le).symm

theorem settlesFrom_applyCommitted (now : ℕ) (hid : u.nodeId = s.nodeId) (hpeers : u.peers = s.peers)
    (happlied : u.lastApplied = s.lastApplied) : SettlesFrom s u (applyCommitted now u).1 := by
  have hlast := applyCommitted_lastApplied now u
  obtain ⟨n, registry, peers, heq, hfold, -, -⟩ := applyCommitted_eq now u
  rw [heq] at hlast ⊢
  refine ⟨rfl, rfl, ?_⟩
  change peers = peersAfter s ((u.log.drop s.lastApplied).take (n - s.lastApplied))
  rw [hfold, hid, hpeers, happlied, show n = max s.lastApplied u.commitIndex from happlied ▸ hlast]
  congr 2
  omega

theorem SettlesFrom.replyToPending (h : SettlesFrom s u s') :
    SettlesFrom s u (Kraft.replyToPending s').1 :=
  ⟨h.role, h.matchIndex, h.peers⟩

/-- Nothing is applied where the last applied index stays. -/
theorem settlesFrom_of_same (hpeers : s'.peers = s.peers) (happlied : s'.lastApplied = s.lastApplied)
    (hrole : s'.role = u.role) (hmatch : s'.matchIndex = u.matchIndex) : SettlesFrom s u s' := by
  refine ⟨hrole, hmatch, ?_⟩
  rw [applied, happlied, Nat.sub_self, List.take_zero]
  exact hpeers

theorem settlesFrom_settle (now : ℕ) (hid : u.nodeId = s.nodeId) (hpeers : u.peers = s.peers)
    (happlied : u.lastApplied = s.lastApplied) :
    SettlesFrom s u (replyToPending (applyCommitted now (maybeAdvanceCommit u)).1).1 := by
  have hadvance : SettlesFrom s (maybeAdvanceCommit u)
      (applyCommitted now (maybeAdvanceCommit u)).1 := by
    rcases maybeAdvanceCommit_cases u with heq | ⟨-, -, heq⟩
    · exact settlesFrom_applyCommitted now (by rwa [heq]) (by rwa [heq]) (by rwa [heq])
    · exact settlesFrom_applyCommitted now (by rwa [heq]) (by rwa [heq]) (by rwa [heq])
  obtain ⟨hrole, hmatch, hafter⟩ := hadvance.replyToPending
  rcases maybeAdvanceCommit_cases u with heq | ⟨-, -, heq⟩
  · exact ⟨hrole.trans (by rw [heq]), hmatch.trans (by rw [heq]), hafter⟩
  · exact ⟨hrole.trans (by rw [heq]), hmatch.trans (by rw [heq]), hafter⟩

/-- Where the tally of a leader comes from. -/
inductive Tally (s : State N) (i : Input N) (s' : State N) : Prop
  | resting (hrole : s'.role ≠ .leader)
  | elected (hpeers : s'.peers = s.peers) (hmatch : s'.matchIndex = peerMap s.peers 0)
  | kept (hsettles : SettlesFrom s s s')
  | counted {u : State N} (hcounting : counting s i = some u) (hsettles : SettlesFrom s u s')

theorem Tally.refl (s : State N) (i : Input N) : Tally s i s :=
  .kept (settlesFrom_of_same rfl rfl rfl rfl)

theorem tally_electionTimeout (now : ℕ) (s : State N) :
    Tally s i (handleElectionTimeout now s).1 := by
  unfold handleElectionTimeout startElection
  dsimp only
  split_ifs
  · exact .refl s i
  · exact .elected rfl rfl
  · exact .resting nofun

theorem tally_propose (now : ℕ) (s : State N) (ref : CallRef) (command : Command N) :
    Tally s (.propose ref command now) (handlePropose now s ref command).1 := by
  unfold handlePropose
  split_ifs with hlead
  · exact .counted (if_pos hlead) (settlesFrom_settle now rfl rfl rfl)
  · exact .refl s _

theorem tally_requestVote (s : State N) (r : VoteRequest N) :
    Tally s i (handleVoteRequest s r).1 := by
  unfold handleVoteRequest considerVote
  dsimp only
  split_ifs
  · exact .refl s i
  · exact .resting nofun
  · exact .resting nofun
  · exact .kept (settlesFrom_of_same rfl rfl rfl rfl)
  · exact .refl s i
  · exact .refl s i

theorem tally_voteResponse (now : ℕ) (s : State N) (v : N) (r : VoteResponse) :
    Tally s i (handleVoteResponse now s v r).1 := by
  unfold handleVoteResponse
  dsimp only
  split_ifs
  · exact .resting nofun
  · exact .elected rfl rfl
  · exact .kept (settlesFrom_of_same rfl rfl rfl rfl)
  · exact .refl s i

theorem tally_appendEntries (now : ℕ) (s : State N) (r : AppendEntriesRequest N) :
    Tally s i (handleAppendEntriesRpc now s r).1 := by
  unfold handleAppendEntriesRpc
  split_ifs
  · exact .refl s i
  · obtain ⟨hrole, -⟩ := receiveEntries_ballot now (stepDown s r.term).1 r
    refine .resting fun hlead => ?_
    rw [hrole] at hlead
    cases hlead
  · unfold receiveEntries
    dsimp only
    by_cases hok : prevOk s.log r = true
    · simp only [hok, if_true]
      obtain ⟨hrole, hmatch, hpeers⟩ : SettlesFrom s
          { s with
            leaderId := some r.leaderId
            log := s.log.take r.prevLogIndex ++ r.entries
            commitIndex := min r.leaderCommit (s.log.take r.prevLogIndex ++ r.entries).length } _ :=
        settlesFrom_applyCommitted now rfl rfl rfl
      exact .kept ⟨hrole, hmatch, hpeers⟩
    · rw [if_neg hok]
      exact .kept (settlesFrom_of_same rfl rfl rfl rfl)

theorem tally_appendEntriesResponse (now : ℕ) (s : State N) (v : N) (r : AppendEntriesResponse) :
    Tally s (.appendEntriesResponse v r now) (handleAeResponse now s v r).1 := by
  unfold handleAeResponse
  split_ifs with hgt hack hlead
  · exact .resting nofun
  · exact .counted ((if_neg hgt).trans (if_pos hack)) (settlesFrom_settle now rfl rfl rfl)
  · exact .kept (settlesFrom_of_same rfl rfl rfl rfl)
  · exact .refl s _

theorem handle_tally (s : State N) (i : Input N) : Tally s i (handle s i).1 := by
  cases i with
  | electionTimeout now => exact tally_electionTimeout now s
  | heartbeat =>
    unfold handle handleHeartbeat
    dsimp only
    split_ifs
    · exact .refl s _
    · exact .refl s _
  | propose ref command now => exact tally_propose now s ref command
  | requestVote r => exact tally_requestVote s r
  | voteResponse v r now => exact tally_voteResponse now s v r
  | appendEntries r now => exact tally_appendEntries now s r
  | appendEntriesResponse v r now => exact tally_appendEntriesResponse now s v r

/-- The counting state is a leader's, with what it tracks or a response more. -/
theorem counting_cases (h : counting s i = some u) :
    s.role = .leader ∧ u.nodeId = s.nodeId ∧ u.peers = s.peers ∧ (u.matchIndex = s.matchIndex ∨
      ∃ v r now, i = .appendEntriesResponse v r now ∧ r.success = true ∧
        ¬ s.currentTerm < r.term ∧ u.matchIndex = s.matchIndex.insert v r.matchIndex) := by
  unfold counting at h
  split at h
  · split_ifs at h with hlead
    cases h
    exact ⟨hlead, rfl, rfl, .inl rfl⟩
  · split_ifs at h with hgt hack
    cases h
    exact ⟨hack.1, rfl, rfl, .inr ⟨_, _, _, rfl, hack.2, hgt, rfl⟩⟩
  · cases h

theorem settle_commitIndex (now : ℕ) (u : State N) :
    (replyToPending (applyCommitted now u).1).1.commitIndex = u.commitIndex := by
  obtain ⟨n, registry, peers, heq, -, -, -⟩ := applyCommitted_eq now u
  exact (congrArg State.commitIndex heq :)

/-- The callback leaves the commit index to which the counting state advances. -/
theorem handle_of_counting (h : counting s i = some u) :
    (handle s i).1.commitIndex = (maybeAdvanceCommit u).commitIndex := by
  cases i with
  | propose ref command now =>
    rw [counting] at h
    split_ifs at h with hlead
    cases h
    rw [handle, handlePropose, if_pos hlead]
    exact settle_commitIndex now _
  | appendEntriesResponse fromPeer response now =>
    rw [counting] at h
    split_ifs at h with hgt hack
    cases h
    rw [handle, handleAeResponse, if_neg hgt, if_pos hack]
    exact settle_commitIndex now _
  | electionTimeout now => cases h
  | heartbeat => cases h
  | requestVote r => cases h
  | voteResponse v r now => cases h
  | appendEntries r now => cases h

/-! ### Tracked nodes stay peers -/

/-- A success that a leader counts is reported by one of its peers. -/
def FromPeer (s : State N) : Input N → Prop
  | .appendEntriesResponse fromPeer response _ =>
    s.role = .leader → response.success = true → ¬ s.currentTerm < response.term →
      fromPeer ∈ s.peers
  | _ => True

/-- A leader applies no removal of a peer that it tracks. -/
def KeepsTracked (s s' : State N) : Prop :=
  s.role = .leader → ∀ q ∈ s'.matchIndex, q ∈ s.peers → q ∈ peersAfter s (applied s s')

/-- What a node tracks are its peers, and it is none of them. -/
structure Tracked (s : State N) : Prop where
  self : s.nodeId ∉ s.peers
  peers : s.role = .leader → TracksPeers s

theorem Moves.self_notMem {s₀ : State N} {fx : List (Effect N)} (h : Moves s₀ i s fx)
    (hself : s₀.nodeId ∉ s₀.peers) : s.nodeId ∉ s.peers := by
  induction h with
  | refl => exact hself
  | tail _ hmove ih =>
    cases hmove with
    | quiet hsame _ => rwa [hsame.nodeId, hsame.peers]
    | persist hsame _ => rwa [hsame.nodeId, hsame.peers]
    | apply hlt hpeers => exact hpeers ▸ self_not_mem_foldl_peers _ _ ih
    | append _ _ _ _ | replicate | receive _ _ _ _ | advance _ => exact ih

theorem mem_peerMap {peers : List N} {n : ℕ} {q : N} : q ∈ peerMap peers n ↔ q ∈ peers := by
  have hfold (m : AList fun _ : N => ℕ) :
      q ∈ peers.foldl (fun m peer => m.insert peer n) m ↔ q ∈ peers ∨ q ∈ m := by
    induction peers generalizing m with
    | nil => simp
    | cons p peers ih =>
      rw [List.foldl_cons, ih, AList.mem_insert, List.mem_cons]
      tauto
  simpa [peerMap] using hfold ∅

/-- The state in which the leader counts tracks its peers only. -/
theorem Tracked.counting (h : Tracked s) (hfrom : FromPeer s i) (hu : counting s i = some u) :
    u.nodeId ∉ u.peers ∧ TracksPeers u := by
  obtain ⟨hlead, hid, hpeers, hmatch⟩ := counting_cases hu
  refine ⟨by rw [hid, hpeers]; exact h.self, fun q hq => ?_⟩
  rw [hpeers]
  rcases hmatch with hmatch | ⟨v, r, now, rfl, hsuccess, hterm, hmatch⟩
  · exact h.peers hlead q (hmatch ▸ hq)
  · rw [hmatch, AList.mem_insert] at hq
    rcases hq with rfl | hq
    · exact hfrom hlead hsuccess hterm
    · exact h.peers hlead q hq

theorem Tracked.handle (h : Tracked s) (hfrom : FromPeer s i)
    (hkeep : KeepsTracked s (handle s i).1) : Tracked (handle s i).1 := by
  refine ⟨(handle_moves s i).self_notMem h.self, fun hlead q hq => ?_⟩
  cases handle_tally s i with
  | resting hrole => exact absurd hlead hrole
  | elected hpeers hmatch =>
    rw [hmatch, mem_peerMap] at hq
    rwa [hpeers]
  | kept hsettles =>
    have hled : s.role = .leader := hsettles.role ▸ hlead
    rw [hsettles.peers]
    exact hkeep hled q hq (h.peers hled q (hsettles.matchIndex ▸ hq))
  | counted hcounting hsettles =>
    obtain ⟨hled, -, hpeers, -⟩ := counting_cases hcounting
    have htracks := (h.counting hfrom hcounting).2 q (hsettles.matchIndex ▸ hq)
    rw [hsettles.peers]
    exact hkeep hled q hq (hpeers ▸ htracks)

namespace Site

variable {x y : Site N}

/-- The conditions for the members alone to be counted. -/
def CountsPeers (x : Site N) : Incident N → Prop
  | .handled e => FromPeer (x.cluster.node e.node) e.input ∧
      KeepsTracked (x.cluster.node e.node) (handle (x.cluster.node e.node) e.input).1
  | .crashed _ _ _ _ => True
  | .restarted p peers => p ∉ peers

theorem tracked_step {incident : Incident N} (h : ∀ p, Tracked (x.cluster.node p))
    (hok : x.CountsPeers incident) (hstep : x.step incident = some y) (p : N) :
    Tracked (y.cluster.node p) := by
  cases incident with
  | handled e =>
    have hhandles := step_handled hstep
    by_cases hp : p = e.node
    · subst hp
      rw [hhandles.node]
      exact (h e.node).handle hok.1 hok.2
    · rw [hhandles.node_of_ne p hp]
      exact h p
  | crashed e done n cut =>
    rw [(step_crashed hstep).node]
    exact h p
  | restarted q peers =>
    cases hstep
    by_cases hp : p = q
    · subst hp
      simp only [Function.update_self]
      exact ⟨hok, nofun⟩
    · simp only [Function.update_of_ne hp]
      exact h p

omit [DecidableEq N] in
theorem Fresh.tracked (h : x.Fresh) (p : N) : Tracked (x.cluster.node p) := by
  refine ⟨?_, fun hlead => ?_⟩
  · rw [h.booted.node_fresh p]
    exact h.booted.self_notMem p
  · rw [h.booted.node_fresh p] at hlead
    cases hlead

end Site

/-- As long as leaders count the successes of their peers only and apply no removal of a peer
that they track, every leader, whenever it counts, raises its commit index only to what most of
its members have reached, and counts nobody else. -/
theorem commit_counts_members {x₀ x : Site N} (h₀ : x₀.Fresh)
    (r : Run Site.step Site.CountsPeers x₀ x) (p : N) (hlead : (x.cluster.node p).role = .leader) :
    RaisedByMajority (x.cluster.node p) ∧ TracksPeers (x.cluster.node p) ∧
      ∀ i u, FromPeer (x.cluster.node p) i → counting (x.cluster.node p) i = some u →
        RaisedByMajority u ∧ TracksPeers u := by
  have htracked : ∀ p, Tracked (x.cluster.node p) :=
    r.invariant (I := fun x : Site N => ∀ p, Tracked (x.cluster.node p))
      (fun _ _ _ h hok hstep => Site.tracked_step h hok hstep) h₀.tracked
  have hpeers := (htracked p).peers hlead
  refine ⟨raisedByMajority_of_tracksPeers (htracked p).self hpeers, hpeers, ?_⟩
  intro i u hfrom hcounting
  obtain ⟨hself, htracks⟩ := (htracked p).counting hfrom hcounting
  exact ⟨raisedByMajority_of_tracksPeers hself htracks, htracks⟩

instance (s : State N) : DecidablePred (FromPeer s)
  | .appendEntriesResponse fromPeer response _ =>
    inferInstanceAs (Decidable (s.role = .leader → response.success = true →
      ¬ s.currentTerm < response.term → fromPeer ∈ s.peers))
  | .electionTimeout _ | .heartbeat | .propose _ _ _ => isTrue trivial
  | .requestVote _ | .voteResponse _ _ _ | .appendEntries _ _ => isTrue trivial

instance (s s' : State N) : Decidable (KeepsTracked s s') :=
  decidable_of_iff (s.role = .leader → ∀ q ∈ s'.matchIndex.keys, q ∈ s.peers →
    q ∈ peersAfter s (applied s s')) Iff.rfl

instance (x : Site N) : DecidablePred x.CountsPeers
  | .handled _ => inferInstanceAs (Decidable (_ ∧ _))
  | .crashed _ _ _ _ => isTrue trivial
  | .restarted p peers => inferInstanceAs (Decidable (p ∉ peers))

/-- The entries of a leader of term 1. -/
def numbered (index : ℕ) (command : Command N) : Entry N where
  term := 1
  index := index
  command := command
  timestamp := 0

/-- What the leader of term 1 sends from its first entry on. -/
def fromFirst (leader : N) (commands : List (Command N)) : AppendEntriesRequest N where
  term := 1
  leaderId := leader
  prevLogIndex := 0
  prevLogTerm := 0
  entries := commands.mapIdx fun k command => numbered (k + 1) command
  leaderCommit := 0

def ack (leader fromPeer : N) (matchIndex : ℕ) : Event N :=
  .deliver (.appendEntriesResponse leader fromPeer
    { term := 1, success := true, matchIndex := matchIndex }) 0

/-- Node 0 is started with one peer, adds node 2 and has another entry acknowledged. -/
def growing : List (Incident (Fin 3)) :=
  let events : List (Event (Fin 3)) :=
    [.electionTimeout 0 0,
      .deliver (.requestVote 1 { term := 1, candidateId := 0, lastLogIndex := 0, lastLogTerm := 0 }) 0,
      .deliver (.voteResponse 0 1 { term := 1, voteGranted := true }) 0,
      .propose 0 0 (.addServer 2 []) 0,
      .deliver (.appendEntries 1 (fromFirst 0 [.noop, .addServer 2 []])) 0,
      ack 0 1 2,
      .propose 0 1 .noop 0,
      .deliver (.appendEntries 1
        { term := 1
          leaderId := 0
          prevLogIndex := 2
          prevLogTerm := 1
          entries := [numbered 3 .noop]
          leaderCommit := 2 }) 0]
  .restarted 0 [1] :: events.map .handled

theorem commit_counts_members_growing : ∃ x u,
    exec (guarded Site.CountsPeers Site.step) (Site.started 3) growing = some x ∧
      (x.cluster.node 0).peers = [1, 2] ∧ (x.step (.handled (ack 0 1 3))).isSome ∧
      counting (x.cluster.node 0) (ack 0 1 3).input = some u ∧
      u.commitIndex < (handle (x.cluster.node 0) (ack 0 1 3).input).1.commitIndex ∧
      RaisedByMajority u ∧ TracksPeers u := by
  obtain ⟨x, u, hx, hlead, hfrom, hpeers, hsome, hu, hrise⟩ : ∃ x u,
      exec (guarded Site.CountsPeers Site.step) (Site.started 3) growing = some x ∧
        (x.cluster.node 0).role = .leader ∧ FromPeer (x.cluster.node 0) (ack 0 1 3).input ∧
        (x.cluster.node 0).peers = [1, 2] ∧ (x.step (.handled (ack 0 1 3))).isSome ∧
        counting (x.cluster.node 0) (ack 0 1 3).input = some u ∧
        u.commitIndex < (maybeAdvanceCommit u).commitIndex :=
    ⟨_, _, rfl, rfl, by decide, rfl, rfl, rfl, by decide⟩
  exact ⟨x, u, hx, hpeers, hsome, hu, (handle_of_counting hu).symm ▸ hrise,
    (commit_counts_members (Site.started_fresh 3) (run_of_exec hx) 0 hlead).2.2 _ u hfrom hu⟩

/-- Node 1 is removed while it is ahead of node 2. -/
def shrunk : List (Incident (Fin 4)) :=
  let commands : List (Command (Fin 4)) := [.noop, .removeServer 1, .noop]
  let events : List (Event (Fin 4)) :=
    [.electionTimeout 0 0,
      .deliver (.requestVote 1 { term := 1, candidateId := 0, lastLogIndex := 0, lastLogTerm := 0 }) 0,
      .deliver (.requestVote 2 { term := 1, candidateId := 0, lastLogIndex := 0, lastLogTerm := 0 }) 0,
      .deliver (.voteResponse 0 1 { term := 1, voteGranted := true }) 0,
      .deliver (.voteResponse 0 2 { term := 1, voteGranted := true }) 0,
      .propose 0 0 (.removeServer 1) 0,
      .propose 0 1 .noop 0,
      .deliver (.appendEntries 1 (fromFirst 0 commands)) 0,
      ack 0 1 3,
      .deliver (.appendEntries 2 (fromFirst 0 (commands.take 2))) 0,
      ack 0 2 2]
  events.map .handled

/-- The progress of the removed node commits an entry that no other server has. -/
theorem removed_progress_counts : ¬ ∀ x₀ x : Site (Fin 4), x₀.Fresh →
    Run Site.step Site.Handled x₀ x → ∀ p, (x.cluster.node p).role = .leader →
      ∀ e u, e.node = p → (x.step (.handled e)).isSome →
        counting (x.cluster.node p) e.input = some u → RaisedByMajority u := by
  intro hall
  obtain ⟨x, u, hx, hlead, hsome, hu, hrise, hfew⟩ : ∃ x u,
      exec (guarded Site.Handled Site.step) (Site.started 4) shrunk = some x ∧
        (x.cluster.node 0).role = .leader ∧ (x.step (.handled (ack 0 2 2))).isSome ∧
        counting (x.cluster.node 0) (ack 0 2 2).input = some u ∧
        u.commitIndex < (maybeAdvanceCommit u).commitIndex ∧
        ¬ IsMajority (members u) (reached u (maybeAdvanceCommit u).commitIndex) :=
    ⟨_, _, rfl, rfl, rfl, rfl, by decide, by decide⟩
  exact hfew (hall _ x (Site.started_fresh 4) (run_of_exec hx) 0 hlead (ack 0 2 2) u rfl hsome hu hrise)

end NextgenDatabases.Kraft
