import NextgenDatabases.Registry.Elections
import NextgenDatabases.Raft.Nodes

/-!
# Replication

Each reaction of a node is a sequence of events of the history of the cluster,
and nodes and messages keep to what the history says of them.
-/
namespace NextgenDatabases.Registry

open Raft Raft.History Foundations MetadataLog

variable {N : Type*} [DecidableEq N]

/-! ### Nodes and messages against the history -/

def standing : NodeRole → Standing
  | .leader => .leader
  | .follower => .follower
  | .candidate => .candidate

/-- What the theory sees of a node. -/
def view (s : ClusterState N) : View N LogEntry where
  id := s.config.nodeId
  term := s.raft.currentTerm
  vote := s.raft.votedFor
  role := standing s.raft.role
  log := s.raft.log

/-- What a node says about the history. A leader has acknowledged its whole log to itself,
and its match indices are no more than its followers have acknowledged. -/
structure Knows (h : History N LogEntry) (v : View N LogEntry) (matchIndex : Dict N ℕ) : Prop where
  mirrors : Mirrors h v
  own : v.role = .leader → v.log.length ≤ h.ack v.id v.term
  acked : v.role = .leader → ∀ q n, matchIndex q = some n → n ≤ h.ack q v.term

/-- What a message says about the history. -/
def Carries (h : History N LogEntry) : Message N → Prop
  | .voteRequest _ r => ∃ l, h.vote r.candidateId r.term = some (r.candidateId, l) ∧
      r.lastLogIndex = l.length ∧ r.lastLogTerm = lastTerm l
  | .voteResponse dest v r => r.voteGranted = true → ∃ l, h.vote v r.term = some (dest, l)
  | .appendEntries dest leader r => dest ≠ leader ∧ ∃ X L, h.leader r.term = some (leader, L) ∧
      X <+: L ∧ Cut X r.prevLogIndex r.prevLogTerm r.entries
  | .appendEntriesResponse _ v r => r.success = true → r.matchIndex ≤ h.ack v r.term

variable (qs : QuorumSystem N)

/-- What holds of the history. -/
structure HistInv (h : History N LogEntry) : Prop where
  coherent : Coherent h
  elected : h.Elected qs
  kept : h.Kept qs

/-- What is asked of an event of the history. -/
structure Fair (h : History N LogEntry) (e : Raft.Event N LogEntry) : Prop where
  allowed : h.Allowed e
  byQuorum : h.ByQuorum qs e
  careful : h.Careful e

/-- The history moves on by events at node `p`. -/
def Steps (p : N) (h h' : History N LogEntry) : Prop :=
  ∃ es, h' = h.applyAll es ∧ Admits (Fair qs) h es ∧ ∀ e ∈ es, e.actor = p

/-- A reaction is matched by events at the node that reacts. -/
def Does (h : History N LogEntry) (s : ClusterState N)
    (out : ClusterState N × List (Message N)) : Prop :=
  ∃ h', Steps qs s.config.nodeId h h' ∧ Knows h' (view out.1) out.1.raft.matchIndex ∧
    ∀ m ∈ out.2, Carries h' m

variable {qs} {h h' h'' : History N LogEntry} {s : ClusterState N} {v : View N LogEntry}
  {mi : Dict N ℕ}

omit [DecidableEq N] in
theorem Carries.mono (hx : Extends h h') {m : Message N} (hm : Carries h m) : Carries h' m := by
  cases m with
  | voteRequest dest r =>
    obtain ⟨l, hl, hlast⟩ := hm
    exact ⟨l, hx.vote_keep hl, hlast⟩
  | voteResponse dest v r =>
    intro hg
    obtain ⟨l, hl⟩ := hm hg
    exact ⟨l, hx.vote_keep hl⟩
  | appendEntries dest leader r =>
    obtain ⟨hne, X, L, hL, hpre, hcut⟩ := hm
    obtain ⟨t, ht, -⟩ := hx.leader_grow hL
    exact ⟨hne, X, L ++ t, ht, hpre.trans (List.prefix_append _ _), hcut⟩
  | appendEntriesResponse dest v r => exact fun hr => (hm hr).trans (hx.ack_le _ _)

theorem HistInv.apply (hh : HistInv qs h) {e : Raft.Event N LogEntry} (he : Fair qs h e) :
    HistInv qs (h.apply e) where
  coherent := coherent_apply hh.coherent he.allowed
  elected := elected_apply hh.coherent hh.elected he.allowed he.byQuorum
  kept := kept_apply hh.coherent hh.kept he.allowed he.byQuorum he.careful

/-! ### Sequences of events -/

theorem Steps.refl (p : N) (h : History N LogEntry) : Steps qs p h h :=
  ⟨[], rfl, trivial, by simp⟩

theorem Steps.single {e : Raft.Event N LogEntry} (he : Fair qs h e) :
    Steps qs e.actor h (h.apply e) :=
  ⟨[e], rfl, ⟨he, trivial⟩, by simp⟩

theorem Steps.trans {p : N} (ha : Steps qs p h h') (hb : Steps qs p h' h'') :
    Steps qs p h h'' := by
  obtain ⟨es, rfl, hes, hact⟩ := ha
  obtain ⟨fs, rfl, hfs, hact'⟩ := hb
  refine ⟨es ++ fs, (applyAll_append es fs).symm, hes.append hfs, fun e he => ?_⟩
  exact (List.mem_append.mp he).elim (hact e) (hact' e)

/-- What holds of the history is kept, and what other nodes know stays true. -/
theorem Steps.sound {p : N} (hsteps : Steps qs p h h') (hh : HistInv qs h) :
    HistInv qs h' ∧ Extends h h' ∧ ∀ v mi, v.id ≠ p → Knows h v mi → Knows h' v mi := by
  obtain ⟨es, rfl, hes, hact⟩ := hsteps
  induction es generalizing h with
  | nil => exact ⟨hh, Extends.refl h, fun _ _ _ hu => hu⟩
  | cons e es ih =>
    have hx := extends_apply hh.coherent hes.1.allowed
    obtain ⟨hinv, hgrow, hframe⟩ := ih (hh.apply hes.1) hes.2
      fun f hf => hact f (List.mem_cons_of_mem e hf)
    refine ⟨hinv, hx.trans hgrow, fun v mi hv hknows => hframe v mi hv ?_⟩
    have hne : v.id ≠ e.actor := hact e List.mem_cons_self ▸ hv
    exact {
      mirrors := hknows.mirrors.frame hh.coherent hes.1.allowed hne
      own := fun hr => (hknows.own hr).trans (hx.ack_le _ _)
      acked := fun hr q n hq => (hknows.acked hr q n hq).trans (hx.ack_le _ _) }

/-! ### The events of a node -/

omit [DecidableEq N] in
/-- A node that does not lead knows what its state says. -/
theorem Knows.of_mirrors (hv : Mirrors h v) (hr : v.role ≠ .leader) : Knows h v mi where
  mirrors := hv
  own hl := absurd hl hr
  acked hl := absurd hl hr

theorem Knows.adopt (hh : HistInv qs h) (hv : Knows h v mi) {t : ℕ} (ht : v.term < t) :
    Steps qs v.id h (h.apply (.adopt v.id t)) ∧
      Knows (h.apply (.adopt v.id t)) { v with term := t, vote := none, role := .follower } mi := by
  obtain ⟨hallowed, hmirrors⟩ := hv.mirrors.adopt hh.coherent ht
  constructor
  · exact .single ⟨hallowed, trivial, trivial⟩
  · exact .of_mirrors hmirrors nofun

theorem Knows.stand (hh : HistInv qs h) (hv : Knows h v mi) :
    Steps qs v.id h (h.apply (.stand v.id)) ∧ Knows (h.apply (.stand v.id))
      { v with term := v.term + 1, vote := some v.id, role := .candidate } mi := by
  constructor
  · exact .single ⟨trivial, trivial, trivial⟩
  · exact .of_mirrors (hv.mirrors.stand hh.coherent) nofun

theorem Knows.grant (hv : Knows h v mi) {c : N} (hfree : v.vote = none)
    (hup : ∃ l, h.vote c v.term = some (c, l) ∧ UpToDate l v.log) :
    Steps qs v.id h (h.apply (.grant v.id c)) ∧
      Knows (h.apply (.grant v.id c)) { v with vote := some c } mi := by
  obtain ⟨hallowed, hmirrors⟩ := hv.mirrors.grant hfree hup
  constructor
  · exact .single ⟨hallowed, trivial, trivial⟩
  · exact { hv with mirrors := hmirrors }

theorem Knows.append (hv : Knows h v mi) (hr : v.role = .leader) {e : LogEntry}
    (he : e.term = v.term) :
    Steps qs v.id h (h.apply (.append v.id e)) ∧
      Knows (h.apply (.append v.id e)) { v with log := v.log ++ [e] } mi := by
  obtain ⟨hallowed, hmirrors⟩ := hv.mirrors.append hr he
  constructor
  · exact .single ⟨hallowed, trivial, trivial⟩
  · exact {
      mirrors := hmirrors
      own := fun _ => by simp [History.apply, ← hv.mirrors.term, hv.mirrors.log]
      acked := fun _ q n hq => (hv.acked hr q n hq).trans (ack_le_raise _ _ _ _ _) }

/-- A candidate that wins appends an entry, with match indices that say nothing yet. -/
theorem Knows.lead (hh : HistInv qs h) (hv : Knows h v mi) (hr : v.role = .candidate)
    (hwon : h.Won qs v.term v.id) {e : LogEntry} (he : e.term = v.term)
    {mi' : Dict N ℕ} (hzero : ∀ q n, mi' q = some n → n = 0) :
    ∃ h', Steps qs v.id h h' ∧ Knows h' { v with role := .leader, log := v.log ++ [e] } mi' := by
  have hnone := hv.mirrors.sole hh.elected hr hwon
  obtain ⟨hallowed, hmirrors⟩ := hv.mirrors.elect hr hnone
  obtain ⟨hallowed', hmirrors'⟩ := hmirrors.append rfl he
  have helect : Steps qs v.id h (h.apply (.elect v.id)) := by
    refine .single ⟨hallowed, ?_, trivial⟩
    simpa [ByQuorum, hv.mirrors.term] using hwon
  refine ⟨_, helect.trans (.single ⟨hallowed', trivial, trivial⟩), hmirrors', fun _ => ?_,
    fun _ q n hq => ?_⟩
  · simp [History.apply, ← hv.mirrors.term, hv.mirrors.log]
  · simp [hzero q n hq]

theorem Knows.acknowledge (hv : Knows h v mi) {q : N} {n : ℕ} (hn : n ≤ h.ack q v.term) :
    Knows h v (Function.update mi q (some n)) where
  mirrors := hv.mirrors
  own := hv.own
  acked hr p k hp := by
    by_cases hpq : p = q
    · subst hpq
      rw [Function.update_self, Option.some.injEq] at hp
      exact hp ▸ hn
    · rw [Function.update_of_ne hpq] at hp
      exact hv.acked hr p k hp

theorem Knows.accept (hv : Knows h v mi) {c : N} {l L : List LogEntry}
    (hL : h.leader v.term = some (c, L)) (hne : v.id ≠ c) (hl : l <+: L)
    (hcut : l <+: v.log → l = v.log) :
    Steps qs v.id h (h.apply (.accept v.id l)) ∧
      Knows (h.apply (.accept v.id l)) { v with log := l } mi ∧
      l.length ≤ (h.apply (.accept v.id l)).ack v.id v.term := by
  obtain ⟨hallowed, hmirrors⟩ := hv.mirrors.accept hL hne hl
  have hrole : v.role ≠ .leader := by
    intro hr
    have := hv.mirrors.leader hr
    rw [hL, Option.some.injEq, Prod.mk.injEq] at this
    exact hne this.1.symm
  refine ⟨.single ⟨hallowed, trivial, ?_⟩, .of_mirrors hmirrors hrole, ?_⟩
  · simpa [Careful, hv.mirrors.log] using hcut
  · simp [History.apply, ← hv.mirrors.term]

/-! ### Reactions of a node -/

/-- What the node of a state knows. -/
abbrev NodeKnows (h : History N LogEntry) (s : ClusterState N) : Prop :=
  Knows h (view s) s.raft.matchIndex

theorem does_startElection (now : ℕ) (p : N) (hh : HistInv qs h) (hs : NodeKnows h s) :
    Does qs h s (react s (.startElection p now)) := by
  obtain ⟨hsteps, hknows⟩ := hs.stand hh
  refine ⟨_, hsteps, hknows, fun m hm => ?_⟩
  simp only [react, KRaftCluster.startElection, List.map_map, List.mem_map] at hm
  obtain ⟨peer, -, rfl⟩ := hm
  have hterm : h.term s.config.nodeId = s.raft.currentTerm := hs.mirrors.term
  have hlog : h.log s.config.nodeId = s.raft.log := hs.mirrors.log
  refine ⟨s.raft.log, ?_, rfl, getLastLogTerm_eq _⟩
  simp [History.apply, becomeCandidate, view, hterm, hlog]

theorem does_heartbeats (hself : s.config.nodeId ∉ s.config.peers) (hs : NodeKnows h s) :
    Does qs h s (react s (.heartbeats s.config.nodeId)) := by
  refine ⟨h, .refl _ h, hs, fun m hm => ?_⟩
  simp only [react, KRaftCluster.createHeartbeats, List.mem_map] at hm
  obtain ⟨⟨peer, r⟩, hmem, rfl⟩ := hm
  split_ifs at hmem with hr
  · simp at hmem
  · have hlead : s.raft.role = .leader := not_not.mp hr
    obtain ⟨q, hq, hqr⟩ := List.mem_filterMap.mp hmem
    simp only [createAppendEntriesRequest, hlead, Option.some.injEq, Prod.mk.injEq] at hqr
    obtain ⟨rfl, rfl⟩ := hqr
    have hleader := hs.mirrors.leader (by simp [view, standing, hlead])
    refine ⟨fun heq => hself (heq ▸ hq), s.raft.log, s.raft.log, hleader, List.prefix_rfl, rfl,
      fun hpos => if_neg hpos.ne'⟩

theorem does_propose (now : ℕ) (p : N) (command : Command) (hs : NodeKnows h s) :
    Does qs h s (react s (.propose p command now)) := by
  unfold react KRaftCluster.propose
  cases hr : s.raft.role with
  | leader =>
    have hlead : (view s).role = .leader := by simp [view, standing, hr]
    obtain ⟨hsteps, hknows⟩ := hs.append hlead
      (e := ⟨s.raft.currentTerm, s.raft.log.length + 1, command, now⟩) rfl
    exact ⟨_, hsteps, by simpa [view, appendEntry, hr] using hknows, by simp⟩
  | follower => exact ⟨h, .refl _ h, hs, by simp⟩
  | candidate => exact ⟨h, .refl _ h, hs, by simp⟩

theorem does_applyCommitted (p : N) (hs : NodeKnows h s) :
    Does qs h s (react s (.applyCommitted p)) := by
  unfold react KRaftCluster.applyCommitted applyCommittedEntries
  dsimp only
  split_ifs
  · exact ⟨h, .refl _ h, hs, by simp⟩
  · exact ⟨h, .refl _ h, hs, by simp⟩

theorem does_voteRequest (now : ℕ) {dest : N} {r : VoteRequest N} (hdest : dest = s.config.nodeId)
    (hh : HistInv qs h) (hs : NodeKnows h s) (hm : Carries h (.voteRequest dest r))
    (hdown : s.raft.currentTerm < r.term → s.raft.role = .follower)
    (hfair : s.raft.currentTerm < r.term → logUpToDate s.raft r = true) :
    Does qs h s (react s (.deliver (.voteRequest dest r) now)) := by
  obtain ⟨l, hl, hlen, hlast⟩ := hm
  have hlog : h.log s.config.nodeId = s.raft.log := hs.mirrors.log
  simp only [react, receive, KRaftCluster.handleVoteRequest]
  rcases handleVoteRequest_cases s.raft r with heq | ⟨heq, hwhy⟩
  · rw [heq]
    refine ⟨h, .refl _ h, hs, fun m hm => ?_⟩
    rw [List.mem_singleton.mp hm]
    rintro ⟨⟩
  · rw [heq]
    rcases hwhy with hgt | ⟨hterm, hfree, hup⟩
    · -- the node moves to the term of the request and then votes
      obtain ⟨hsteps, hknows⟩ := hs.adopt hh hgt
      obtain ⟨hsteps', hknows'⟩ := hknows.grant (c := r.candidateId) rfl
        ⟨l, hl, upToDate_of_logUpToDate hlen hlast (hfair hgt)⟩
      refine ⟨_, hsteps.trans hsteps', ?_, fun m hm => ?_⟩
      · simpa [view, standing, hdown hgt] using hknows'
      · rw [List.mem_singleton.mp hm]
        exact fun _ => ⟨s.raft.log, by simp [History.apply, hdest, hlog, view]⟩
    · obtain ⟨hsteps, hknows⟩ := hs.grant (c := r.candidateId) hfree
        ⟨l, by simpa [view, hterm] using hl, upToDate_of_logUpToDate hlen hlast hup⟩
      refine ⟨_, hsteps, ?_, fun m hm => ?_⟩
      · simpa [view, hterm] using hknows
      · rw [List.mem_singleton.mp hm]
        have hsame : h.term s.config.nodeId = r.term := hterm ▸ hs.mirrors.term
        exact fun _ => ⟨s.raft.log, by simp [History.apply, hdest, hlog, view, hsame]⟩

theorem does_voteResponse (now : ℕ) {dest v : N} {r : VoteResponse} (hh : HistInv qs h)
    (hs : NodeKnows h s) (hwon : s.raft.role = .candidate →
      (KRaftCluster.handleVoteResponse now s v r).1.raft.role = .leader →
      h.Won qs s.raft.currentTerm s.config.nodeId) :
    Does qs h s (react s (.deliver (.voteResponse dest v r) now)) := by
  simp only [react, receive]
  unfold KRaftCluster.handleVoteResponse at hwon ⊢
  dsimp only at hwon ⊢
  split_ifs at hwon ⊢ with hgt hcount hquorum
  · obtain ⟨hsteps, hknows⟩ := hs.adopt hh hgt
    exact ⟨_, hsteps, hknows, by simp⟩
  · have hcand : (view s).role = .candidate := by simp [view, standing, hcount.2]
    obtain ⟨h', hsteps, hknows⟩ := hs.lead hh hcand (hwon hcount.2 rfl)
      (e := ⟨s.raft.currentTerm, s.raft.log.length + 1, .noOp, now⟩) rfl
      fun q n hq => @becomeLeader_matchIndex _ _ s.raft s.config.peers q n hq
    exact ⟨h', hsteps, hknows, by simp⟩
  · exact ⟨h, .refl _ h, hs, by simp⟩
  · exact ⟨h, .refl _ h, hs, by simp⟩

/-- A node that catches up with a term. -/
theorem Knows.follow (hh : HistInv qs h) (hs : NodeKnows h s) (t : ℕ) :
    ∃ h', Steps qs s.config.nodeId h h' ∧
      NodeKnows h' { s with raft := followTerm s.raft t } := by
  unfold followTerm
  split_ifs with hlt
  · obtain ⟨hsteps, hknows⟩ := hs.adopt hh hlt
    exact ⟨_, hsteps, hknows⟩
  · exact ⟨h, .refl _ h, hs⟩

theorem does_appendEntries (now : ℕ) {dest leader : N} {r : AppendEntriesRequest N}
    (hdest : dest = s.config.nodeId) (hh : HistInv qs h) (hs : NodeKnows h s)
    (hm : Carries h (.appendEntries dest leader r))
    (hcut : Accepted s.raft r → Held s.raft r →
      s.raft.log.length = r.prevLogIndex + r.entries.length) :
    Does qs h s (react s (.deliver (.appendEntries dest leader r) now)) := by
  subst hdest
  obtain ⟨hraft, hconfig, -⟩ := handleAppendEntries_follow (s := s) now r
  have hanswer : (KRaftCluster.handleAppendEntries now s r).2 =
      (handleAppendEntries s.raft r).2 := rfl
  unfold Does
  simp only [react, receive, hanswer, view, hraft, hconfig, List.mem_singleton, forall_eq]
  rcases handleAppendEntries_cases s.raft r with ⟨-, heq⟩ | ⟨hle, -, n, heq⟩ | ⟨hle, hok, heq⟩
  · rw [heq]
    exact ⟨h, .refl _ h, hs, by rintro ⟨⟩⟩
  · rw [heq]
    obtain ⟨h₁, hsteps, hknows⟩ := hs.follow hh r.term
    exact ⟨h₁, hsteps, hknows, by rintro ⟨⟩⟩
  · rw [heq]
    obtain ⟨h₁, hsteps, hknows⟩ := hs.follow hh r.term
    obtain ⟨hinv, hgrow, -⟩ := hsteps.sound hh
    obtain ⟨hne, X, L, hL, hXL, hseg⟩ := hm.mono hgrow
    have hterm : (followTerm s.raft r.term).currentTerm = r.term := followTerm_currentTerm hle
    -- the log becomes the part of the leader's log that the request was cut from
    have hlog : h₁.Backed s.raft.log := by
      have := hinv.coherent.log_backed s.config.nodeId
      have hsame : h₁.log s.config.nodeId = s.raft.log :=
        hknows.mirrors.log.trans (followTerm_log s.raft r.term)
      rwa [hsame] at this
    have hX : newLog s.raft.log r = X :=
      hseg.take_append hinv.coherent hlog ((hinv.coherent.leader_backed hL).of_isPrefix hXL)
        (entry_of_prevOk hok)
    have hcareful : X <+: (followTerm s.raft r.term).log → X = (followTerm s.raft r.term).log := by
      rw [followTerm_log, ← hX]
      exact fun hpre => eq_of_take_append_isPrefix (prevLogIndex_le hok) (hcut ⟨hle, hok⟩) hpre
    rw [← hterm] at hL
    obtain ⟨hsteps', hknows', hack⟩ := hknows.accept hL hne hXL hcareful
    refine ⟨_, hsteps.trans hsteps', ?_, fun _ => ?_⟩
    · rw [hX]
      exact hknows'
    · rw [hX]
      simpa [view, hterm] using hack

omit [DecidableEq N] in
/-- What a node knows does not depend on its commit index. -/
theorem updateCommitIndex_frame (raft : NodeState N) (peers : List N) :
    ∃ n, updateCommitIndex raft peers = { raft with commitIndex := n } := by
  rcases updateCommitIndex_cases raft peers with heq | ⟨-, -, -, heq⟩
  · exact ⟨raft.commitIndex, heq⟩
  · exact ⟨_, heq⟩

theorem does_appendEntriesResponse (now : ℕ) {dest v : N} {r : AppendEntriesResponse}
    (hh : HistInv qs h) (hs : NodeKnows h s) (hm : Carries h (.appendEntriesResponse dest v r))
    (hfresh : s.raft.role = .leader → r.success = true → s.raft.currentTerm ≤ r.term) :
    Does qs h s (react s (.deliver (.appendEntriesResponse dest v r) now)) := by
  simp only [react, receive]
  unfold KRaftCluster.handleAppendEntriesResponse
  dsimp only
  split_ifs with hgt hlead hok
  · obtain ⟨hsteps, hknows⟩ := hs.adopt hh hgt
    exact ⟨_, hsteps, hknows, by simp⟩
  · have hterm : r.term = s.raft.currentTerm := by
      have := hfresh hlead hok
      omega
    have hacked : r.matchIndex ≤ h.ack v s.raft.currentTerm := hterm ▸ hm hok
    obtain ⟨n, heq⟩ := updateCommitIndex_frame
      { s.raft with
        nextIndex := Function.update s.raft.nextIndex v (some (r.matchIndex + 1))
        matchIndex := Function.update s.raft.matchIndex v (some r.matchIndex) } s.config.peers
    rw [heq]
    exact ⟨h, .refl _ h, hs.acknowledge hacked, by simp⟩
  · exact ⟨h, .refl _ h, hs, by simp⟩
  · exact ⟨h, .refl _ h, hs, by simp⟩

/-! ### The cluster and its history -/

/-- The conditions for leader completeness. -/
def SoundLogs (c : Cluster N) (e : Event N) : Prop :=
  TermLasts c e ∧ OnDeliver (fun m => (StepsDown c m ∧ FreshVotes c m ∧ NewVoters c m) ∧
    FairVotes c m ∧ FreshAcks c m ∧ NoCut c m) e

instance (c : Cluster N) : DecidablePred (SoundLogs c) :=
  fun _ => inferInstanceAs (Decidable (_ ∧ _))

theorem SoundLogs.elections {c : Cluster N} {e : Event N} (he : SoundLogs c e) :
    SoundElections c e := by
  refine ⟨he.1, ?_⟩
  cases e with
  | deliver m now => exact he.2.1
  | startElection p now => trivial
  | heartbeats p => trivial
  | propose p command now => trivial
  | applyCommitted p => trivial

variable [Fintype N]

/-- The nodes and the messages of a cluster agree with the history. -/
structure Refines (c : Cluster N) (h : History N LogEntry) : Prop where
  hist : HistInv (majority Finset.univ) h
  elections : ElectionInv c
  knows : ∀ p, NodeKnows h (c.node p)
  carries : ∀ m ∈ c.sent, Carries h m

variable {c c' : Cluster N}

omit [DecidableEq N] in
/-- At the start nothing has happened. -/
theorem Cluster.Initial.refines [DecidableEq N] (hi : c.Initial) :
    Refines c
      { term := fun _ => 0, log := fun _ => [], vote := fun _ _ => none, leader := fun _ => none,
        ack := fun _ _ => 0 } where
  hist :=
    { coherent :=
        { voted_term := nofun
          voted_for := nofun
          own_vote := nofun
          leader_vote := nofun
          leader_log := nofun
          leader_term := nofun
          log_term := nofun
          log_backed := fun _ => backed_nil
          vote_backed := nofun
          leader_backed := nofun
          ack_leader := nofun }
      elected := nofun
      kept :=
        { log_kept := fun hP => by obtain ⟨-, -, c, L, hL, -⟩ := hP; cases hL
          vote_kept := fun hP => by obtain ⟨-, -, c, L, hL, -⟩ := hP; cases hL
          quorum_kept := nofun } }
  elections := hi.electionInv
  knows p := by
    obtain ⟨now, heq⟩ := hi.created p
    rw [heq]
    exact {
      mirrors :=
        { term := rfl
          log := rfl
          vote := rfl
          candidate := nofun
          leader := nofun
          leading := nofun }
      own := nofun
      acked := nofun }
  carries m hm := by simp [hi.sent_nil] at hm

/-- A candidate that becomes the leader has the votes of a majority. -/
theorem Refines.won (hr : Refines c h) {dest v : N} {r : VoteResponse} {now : ℕ}
    (hok : SoundLogs c (.deliver (.voteResponse dest v r) now))
    (hnext : ElectionInv
      (c.after dest (react (c.node dest) (.deliver (.voteResponse dest v r) now))))
    (hcand : (c.node dest).raft.role = .candidate)
    (hlead : (react (c.node dest) (.deliver (.voteResponse dest v r) now)).1.raft.role = .leader) :
    h.Won (majority Finset.univ) (c.node dest).raft.currentTerm dest := by
  obtain ⟨hprog, hpolls⟩ := hok.elections.polls
  have hterm : (react (c.node dest) (.deliver (.voteResponse dest v r) now)).1.raft.currentTerm =
      (c.node dest).raft.currentTerm := by
    cases hpolls with
    | yields hrole hv => exact absurd (hlead.symm.trans hrole) nofun
    | stays hrole ht hv => exact ht
    | stands now' he hrole ht hvote hv => cases he
    | counts p w r' now' he hc ht hv hw => exact ht
  have hid : (react (c.node dest) (.deliver (.voteResponse dest v r) now)).1.config.nodeId =
      dest := (congrArg ClusterConfig.nodeId hprog.config).trans (hr.elections.node_id dest)
  have hmajority := hnext.majority (p := dest) (by rw [Cluster.after_self]; exact hlead)
  have hpolled := hnext.polled dest
  rw [Cluster.after_self] at hmajority hpolled
  have hcounted := hpolled.counted (by simp [hlead])
  rw [hid, hterm] at hcounted
  refine ⟨_, hmajority, fun w hw => ?_⟩
  rcases hcounted w (List.mem_toFinset.mp hw) with rfl | ⟨x, hx, hg, hxt⟩
  · obtain ⟨l, hl, -⟩ := (hr.knows w).mirrors.candidate (by simp [view, standing, hcand])
    exact ⟨l, by simpa [view, hr.elections.node_id] using hl⟩
  · have hsent : .voteResponse dest w x ∈ c.sent := by
      simpa [Cluster.after, react, receive] using hx
    rw [← hxt]
    exact hr.carries _ hsent hg

/-- Whatever an event does, it does by events of the history. -/
theorem Refines.does (hr : Refines c h) {e : Event N} (hok : SoundLogs c e)
    (hsent : ∀ m now, e = .deliver m now → m ∈ c.sent)
    (hnext : ElectionInv (c.after e.node (react (c.node e.node) e))) :
    Does (majority Finset.univ) h (c.node e.node) (react (c.node e.node) e) := by
  have hid : ∀ p, (c.node p).config.nodeId = p := hr.elections.node_id
  cases e with
  | startElection p now => exact does_startElection now p hr.hist (hr.knows p)
  | heartbeats p =>
    have hself : (c.node p).config.nodeId ∉ (c.node p).config.peers := by
      rw [hid]
      exact fun hp => (hr.elections.mem_peers p p).mp hp rfl
    have hdoes : Does (majority Finset.univ) h (c.node p)
        (react (c.node p) (.heartbeats (c.node p).config.nodeId)) :=
      does_heartbeats hself (hr.knows p)
    rwa [hid] at hdoes
  | propose p command now => exact does_propose now p command (hr.knows p)
  | applyCommitted p => exact does_applyCommitted p (hr.knows p)
  | deliver m now =>
    have hm := hr.carries m (hsent m now rfl)
    cases m with
    | voteRequest dest r =>
      exact does_voteRequest now (hid dest).symm hr.hist (hr.knows dest) hm hok.2.1.1 hok.2.2.1
    | voteResponse dest v r =>
      refine does_voteResponse now hr.hist (hr.knows dest) fun hcand hlead => ?_
      rw [hid]
      exact hr.won hok hnext hcand hlead
    | appendEntries dest leader r =>
      exact does_appendEntries now (hid dest).symm hr.hist (hr.knows dest) hm hok.2.2.2.2
    | appendEntriesResponse dest v r =>
      exact does_appendEntriesResponse now hr.hist (hr.knows dest) hm hok.2.2.2.1

/-- Every step that meets the conditions is matched by events of the history. -/
theorem Refines.step (hr : Refines c h) {e : Event N} (hok : SoundLogs c e)
    (hstep : c.step e = some c') : ∃ h', Refines c' h' ∧ Extends h h' := by
  have hnext := hr.elections.step hok.elections hstep
  obtain ⟨rfl, hsent⟩ := Cluster.step_spec hstep
  obtain ⟨h', hsteps, hknows, hcarries⟩ := hr.does hok hsent hnext
  obtain ⟨hist, hgrow, hframe⟩ := hsteps.sound hr.hist
  refine ⟨h', ⟨hist, hnext, fun p => ?_, fun m hm => ?_⟩, hgrow⟩
  · by_cases hp : p = e.node
    · subst hp
      rw [Cluster.after_self]
      exact hknows
    · rw [Cluster.after_of_ne _ hp]
      refine hframe _ _ ?_ (hr.knows p)
      simpa [view, hr.elections.node_id] using hp
  · rcases List.mem_append.mp hm with hm | hm
    · exact (hr.carries m hm).mono hgrow
    · exact hcarries m hm

theorem Refines.run (hr : Refines c h) (r : Run Cluster.step SoundLogs c c') :
    ∃ h', Refines c' h' ∧ Extends h h' := by
  induction r with
  | refl => exact ⟨h, hr, Extends.refl h⟩
  | tail _ hnext ih =>
    obtain ⟨h₁, hr₁, hgrow⟩ := ih
    obtain ⟨e, hok, hstep⟩ := hnext
    obtain ⟨h₂, hr₂, hgrow'⟩ := hr₁.step hok hstep
    exact ⟨h₂, hr₂, hgrow.trans hgrow'⟩

end NextgenDatabases.Registry
