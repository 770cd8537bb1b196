import NextgenDatabases.Registry.Network
import Mathlib.Data.Fintype.Card

/-!
# Elections

What a reaction does to the role, the term and the votes of a node. In the runs
where no leader or candidate adopts a higher term through a vote request, and
every counted vote is the first one of its sender and of the candidate's term,
a term has one leader.
-/
namespace NextgenDatabases.Registry

open Foundations

variable {N : Type*} {s s' : ClusterState N} {e : Event N}

/-! ### What a reaction does to the votes of a node -/

/-- Terms only rise, a vote stays for its term, and the configuration never changes. -/
structure Progress (s s' : ClusterState N) : Prop where
  config : s'.config = s.config
  term_le : s.raft.currentTerm ≤ s'.raft.currentTerm
  vote_keep : s'.raft.currentTerm = s.raft.currentTerm →
    ∀ x, s.raft.votedFor = some x → s'.raft.votedFor = some x

theorem Progress.of_eq (hc : s'.config = s.config) (ht : s'.raft.currentTerm = s.raft.currentTerm)
    (hv : s'.raft.votedFor = s.raft.votedFor) : Progress s s' where
  config := hc
  term_le := ht.ge
  vote_keep _ _ hx := hv.trans hx

/-- What becomes of the role and of the counted votes. -/
inductive Polls (s : ClusterState N) (e : Event N) (s' : ClusterState N) : Prop
  | yields (hr : s'.raft.role = .follower)
      (hv : s'.votesReceived = s.votesReceived ∨ s'.votesReceived = [])
  | stays (hr : s'.raft.role = s.raft.role) (ht : s'.raft.currentTerm = s.raft.currentTerm)
      (hv : s'.votesReceived = s.votesReceived)
  | stands (now : ℕ) (he : e = .startElection e.node now) (hr : s'.raft.role = .candidate)
      (ht : s'.raft.currentTerm = s.raft.currentTerm + 1)
      (hvote : s'.raft.votedFor = some s.config.nodeId)
      (hv : s'.votesReceived = [s.config.nodeId])
  | counts (dest fromPeer : N) (response : VoteResponse) (now : ℕ)
      (he : e = .deliver (.voteResponse dest fromPeer response) now)
      (hc : Counts s response) (ht : s'.raft.currentTerm = s.raft.currentTerm)
      (hv : s'.votesReceived = s.votesReceived ++ [fromPeer])
      (hw : s'.raft.role = .leader → KRaftCluster.quorum s ≤ s'.votesReceived.length)

theorem polls_startElection (p : N) (now : ℕ) :
    Progress s (KRaftCluster.startElection now s).1 ∧
      Polls s (.startElection p now) (KRaftCluster.startElection now s).1 := by
  constructor
  · exact {
      config := rfl
      term_le := Nat.le_succ _
      vote_keep := fun ht => absurd ht (Nat.succ_ne_self _) }
  · exact .stands now rfl rfl rfl rfl rfl

theorem polls_handleVoteRequest {dest : N} {request : VoteRequest N} (now : ℕ)
    (hdown : s.raft.currentTerm < request.term → s.raft.role = .follower) :
    Progress s (KRaftCluster.handleVoteRequest now s request).1 ∧
      Polls s (.deliver (.voteRequest dest request) now)
        (KRaftCluster.handleVoteRequest now s request).1 := by
  rcases MetadataLog.handleVoteRequest_cases s.raft request with heq | ⟨heq, hwhy⟩
  · simp only [KRaftCluster.handleVoteRequest, heq]
    exact ⟨.of_eq rfl rfl rfl, .stays rfl rfl rfl⟩
  · simp only [KRaftCluster.handleVoteRequest, heq, if_true]
    rcases hwhy with hgt | ⟨hterm, hfree, -⟩
    · refine ⟨⟨rfl, hgt.le, fun ht => ?_⟩, .yields (hdown hgt) (Or.inl rfl)⟩
      exact absurd ht (Nat.ne_of_gt hgt)
    · refine ⟨⟨rfl, hterm.ge, fun _ x hx => ?_⟩, .stays rfl hterm rfl⟩
      simp [hfree] at hx

theorem polls_handleVoteResponse [DecidableEq N] {dest fromPeer : N} {response : VoteResponse} (now : ℕ) :
    Progress s (KRaftCluster.handleVoteResponse now s fromPeer response).1 ∧
      Polls s (.deliver (.voteResponse dest fromPeer response) now)
        (KRaftCluster.handleVoteResponse now s fromPeer response).1 := by
  unfold KRaftCluster.handleVoteResponse
  dsimp only
  split_ifs with hgt hcount hwon
  · refine ⟨⟨rfl, hgt.le, fun ht => ?_⟩, .yields rfl (Or.inr rfl)⟩
    exact absurd ht (Nat.ne_of_gt hgt)
  · refine ⟨.of_eq rfl rfl rfl, .counts dest fromPeer response now rfl ?_ rfl rfl fun _ => hwon⟩
    exact ⟨by omega, hcount⟩
  · refine ⟨.of_eq rfl rfl rfl, .counts dest fromPeer response now rfl ?_ rfl rfl fun hl => ?_⟩
    · exact ⟨by omega, hcount⟩
    · have hcand := hcount.2
      simp only [hcand] at hl
      cases hl
  · exact ⟨.of_eq rfl rfl rfl, .stays rfl rfl rfl⟩

theorem polls_follow {t : ℕ} (hle : s.raft.currentTerm ≤ t)
    (hr : s'.raft.role = (MetadataLog.followTerm s.raft t).role) (ht : s'.raft.currentTerm = t)
    (hv : s'.raft.votedFor = (MetadataLog.followTerm s.raft t).votedFor)
    (hc : s'.config = s.config) (hvotes : s'.votesReceived = s.votesReceived) :
    Progress s s' ∧ Polls s e s' := by
  unfold MetadataLog.followTerm at hr hv
  by_cases hlt : s.raft.currentTerm < t
  · rw [if_pos hlt] at hr
    refine ⟨⟨hc, ht ▸ hle, fun heq => ?_⟩, .yields hr (Or.inl hvotes)⟩
    omega
  · have heq : s'.raft.currentTerm = s.raft.currentTerm := by omega
    rw [if_neg hlt] at hr hv
    exact ⟨.of_eq hc heq hv, .stays hr heq hvotes⟩

/-- The node after a request: it has seen the request's term, and its log may be another. -/
theorem handleAppendEntries_follow (now : ℕ) (request : AppendEntriesRequest N) :
    (KRaftCluster.handleAppendEntries now s request).1.raft =
        (MetadataLog.handleAppendEntries s.raft request).1 ∧
      (KRaftCluster.handleAppendEntries now s request).1.config = s.config ∧
      (KRaftCluster.handleAppendEntries now s request).1.votesReceived = s.votesReceived := by
  unfold KRaftCluster.handleAppendEntries
  dsimp only
  split_ifs <;> exact ⟨rfl, rfl, rfl⟩

theorem polls_handleAppendEntries {dest leader : N} {request : AppendEntriesRequest N} (now : ℕ) :
    Progress s (KRaftCluster.handleAppendEntries now s request).1 ∧
      Polls s (.deliver (.appendEntries dest leader request) now)
        (KRaftCluster.handleAppendEntries now s request).1 := by
  obtain ⟨hraft, hconfig, hvotes⟩ := handleAppendEntries_follow (s := s) now request
  rcases MetadataLog.handleAppendEntries_cases s.raft request with
    ⟨-, heq⟩ | ⟨hle, -, n, heq⟩ | ⟨hle, -, heq⟩
  · rw [heq] at hraft
    exact ⟨.of_eq hconfig (by rw [hraft]) (by rw [hraft]),
      .stays (by rw [hraft]) (by rw [hraft]) hvotes⟩
  · rw [heq] at hraft
    have hterm := MetadataLog.followTerm_currentTerm hle
    exact polls_follow hle (by rw [hraft]) (by rw [hraft, hterm]) (by rw [hraft]) hconfig hvotes
  · rw [heq] at hraft
    have hterm := MetadataLog.followTerm_currentTerm hle
    exact polls_follow hle (by rw [hraft]) (by rw [hraft]; exact hterm) (by rw [hraft]) hconfig
      hvotes

theorem polls_handleAppendEntriesResponse [DecidableEq N] {dest fromPeer : N} {response : AppendEntriesResponse}
    (now : ℕ) :
    Progress s (KRaftCluster.handleAppendEntriesResponse now s fromPeer response) ∧
      Polls s (.deliver (.appendEntriesResponse dest fromPeer response) now)
        (KRaftCluster.handleAppendEntriesResponse now s fromPeer response) := by
  unfold KRaftCluster.handleAppendEntriesResponse
  dsimp only
  split_ifs with hgt hlead hok
  · refine ⟨⟨rfl, hgt.le, fun ht => ?_⟩, .yields rfl (Or.inl rfl)⟩
    exact absurd ht (Nat.ne_of_gt hgt)
  · rcases MetadataLog.updateCommitIndex_cases _ s.config.peers with heq | ⟨-, -, -, heq⟩
    · rw [heq]
      exact ⟨.of_eq rfl rfl rfl, .stays rfl rfl rfl⟩
    · rw [heq]
      exact ⟨.of_eq rfl rfl rfl, .stays rfl rfl rfl⟩
  · exact ⟨.of_eq rfl rfl rfl, .stays rfl rfl rfl⟩
  · exact ⟨.of_eq rfl rfl rfl, .stays rfl rfl rfl⟩

/-- Every reaction, if no leader or candidate is asked for a vote in a higher term. -/
theorem polls_react [DecidableEq N]
    (hdown : ∀ dest request now, e = .deliver (.voteRequest dest request) now →
      s.raft.currentTerm < request.term → s.raft.role = .follower) :
    Progress s (react s e).1 ∧ Polls s e (react s e).1 := by
  cases e with
  | startElection p now => exact polls_startElection p now
  | heartbeats p => exact ⟨.of_eq rfl rfl rfl, .stays rfl rfl rfl⟩
  | propose p command now =>
    unfold react KRaftCluster.propose
    cases hr : s.raft.role with
    | leader => exact ⟨.of_eq rfl rfl rfl, .stays rfl rfl rfl⟩
    | follower => exact ⟨.of_eq rfl rfl rfl, .stays rfl rfl rfl⟩
    | candidate => exact ⟨.of_eq rfl rfl rfl, .stays rfl rfl rfl⟩
  | applyCommitted p =>
    unfold react KRaftCluster.applyCommitted MetadataLog.applyCommittedEntries
    dsimp only
    split_ifs
    · exact ⟨.of_eq rfl rfl rfl, .stays rfl rfl rfl⟩
    · exact ⟨.of_eq rfl rfl rfl, .stays rfl rfl rfl⟩
  | deliver m now =>
    cases m with
    | voteRequest dest request => exact polls_handleVoteRequest now (hdown dest request now rfl)
    | voteResponse dest fromPeer response => exact polls_handleVoteResponse now
    | appendEntries dest leader request => exact polls_handleAppendEntries now
    | appendEntriesResponse dest fromPeer response => exact polls_handleAppendEntriesResponse now

/-! ### Counted votes -/

/-- A granted vote for `c` in term `t` that `v` sent. -/
def VoteFrom (sent : List (Message N)) (c v : N) (t : ℕ) : Prop :=
  ∃ r : VoteResponse, .voteResponse c v r ∈ sent ∧ r.voteGranted = true ∧ r.term = t

/-- A node counts no voter twice, and while it stands or leads, only its own vote and votes
granted to it in its term. -/
structure Polled (sent : List (Message N)) (s : ClusterState N) : Prop where
  standing : s.raft.role ≠ .follower → s.raft.votedFor = some s.config.nodeId
  nodup : s.votesReceived.Nodup
  counted : s.raft.role ≠ .follower → ∀ v ∈ s.votesReceived,
    v = s.config.nodeId ∨ VoteFrom sent s.config.nodeId v s.raft.currentTerm
  won : s.raft.role = .leader → KRaftCluster.quorum s ≤ s.votesReceived.length

/-- The conditions for election safety. -/
def SoundElections [DecidableEq N] (c : Cluster N) (e : Event N) : Prop :=
  TermLasts c e ∧ OnDeliver (fun m => StepsDown c m ∧ FreshVotes c m ∧ NewVoters c m) e

instance [DecidableEq N] (c : Cluster N) : DecidablePred (SoundElections c) :=
  fun _ => inferInstanceAs (Decidable (_ ∧ _))

theorem VoteFrom.mono {sent sent' : List (Message N)} (h : ∀ m ∈ sent, m ∈ sent') {c v : N} {t : ℕ}
    (hv : VoteFrom sent c v t) : VoteFrom sent' c v t := by
  obtain ⟨r, hr, hgranted, hterm⟩ := hv
  exact ⟨r, h _ hr, hgranted, hterm⟩

theorem Polled.mono {sent sent' : List (Message N)} (h : ∀ m ∈ sent, m ∈ sent')
    (hs : Polled sent s) : Polled sent' s where
  standing := hs.standing
  nodup := hs.nodup
  counted hr v hv := (hs.counted hr v hv).imp id (VoteFrom.mono h)
  won := hs.won

/-- A counted response of the candidate's term, from a voter not yet counted, is a new vote. -/
theorem Polled.next {sent : List (Message N)} (hs : Polled sent s) (hprog : Progress s s')
    (hpolls : Polls s e s')
    (hnew : ∀ dest v r now, e = .deliver (.voteResponse dest v r) now → Counts s r →
      v ∉ s.votesReceived ∧ VoteFrom sent s.config.nodeId v s.raft.currentTerm) :
    Polled sent s' := by
  cases hpolls with
  | yields hr hv =>
    have hnot {P : Prop} (h : s'.raft.role ≠ .follower) : P := absurd hr h
    refine ⟨hnot, ?_, hnot, fun hl => hnot (by simp [hl])⟩
    rcases hv with hv | hv
    · exact hv ▸ hs.nodup
    · exact hv ▸ List.nodup_nil
  | stays hr ht hv =>
    refine ⟨fun h => ?_, hv ▸ hs.nodup, ?_, ?_⟩
    · rw [hprog.config]
      exact hprog.vote_keep ht _ (hs.standing (hr ▸ h))
    · rw [hr, ht, hv, hprog.config]
      exact hs.counted
    · rw [hr, hv, KRaftCluster.quorum, hprog.config]
      exact hs.won
  | stands now he hr ht hvote hv =>
    refine ⟨fun _ => ?_, ?_, fun _ v hmem => ?_, fun hl => ?_⟩
    · rw [hvote, hprog.config]
    · simp [hv]
    · rw [hv, List.mem_singleton] at hmem
      exact Or.inl (hmem.trans (congrArg ClusterConfig.nodeId hprog.config).symm)
    · simp [hr] at hl
  | counts dest v r now he hc ht hv hw =>
    obtain ⟨hnotin, hvote⟩ := hnew dest v r now he hc
    have hstood : s.raft.role ≠ .follower := by simp [hc.2.2]
    refine ⟨fun _ => ?_, ?_, fun _ w hmem => ?_, fun hl => ?_⟩
    · rw [hprog.config]
      exact hprog.vote_keep ht _ (hs.standing hstood)
    · rw [hv]
      exact List.nodup_append.mpr ⟨hs.nodup, List.nodup_singleton v, by
        rintro x hx y hy rfl
        exact hnotin (List.mem_singleton.mp hy ▸ hx)⟩
    · rw [ht, hprog.config]
      rw [hv, List.mem_append, List.mem_singleton] at hmem
      rcases hmem with hmem | rfl
      · exact hs.counted hstood w hmem
      · exact Or.inr hvote
    · rw [KRaftCluster.quorum, hprog.config]
      exact hw hl

/-! ### The nodes of a run -/

variable [DecidableEq N]

/-- The nodes keep their names and peers, and count votes properly. -/
structure ElectionInv (c : Cluster N) : Prop where
  peers_nodup : ∀ p, (c.node p).config.peers.Nodup
  mem_peers : ∀ p q, q ∈ (c.node p).config.peers ↔ q ≠ p
  node_id : ∀ p, (c.node p).config.nodeId = p
  polled : ∀ p, Polled c.sent (c.node p)

variable {c c' : Cluster N}

omit [DecidableEq N] in
theorem Cluster.Initial.electionInv (hi : c.Initial) : ElectionInv c where
  peers_nodup := hi.peers_nodup
  mem_peers := hi.mem_peers
  node_id := hi.node_id
  polled p := by
    obtain ⟨now, heq⟩ := hi.created p
    rw [heq]
    exact ⟨fun h => absurd rfl h, List.nodup_nil, fun h => absurd rfl h, nofun⟩

/-- What one reaction does under the conditions. -/
theorem SoundElections.polls (hok : SoundElections c e) :
    Progress (c.node e.node) (react (c.node e.node) e).1 ∧
      Polls (c.node e.node) e (react (c.node e.node) e).1 := by
  apply polls_react
  rintro dest request now rfl
  exact hok.2.1

theorem ElectionInv.step (hinv : ElectionInv c) (hok : SoundElections c e)
    (hstep : c.step e = some c') : ElectionInv c' := by
  obtain ⟨rfl, hsent⟩ := Cluster.step_spec hstep
  obtain ⟨hprog, hpolls⟩ := hok.polls
  have hmono : ∀ m ∈ c.sent, m ∈ (c.after e.node (react (c.node e.node) e)).sent :=
    fun m hm => List.mem_append_left _ hm
  have hconfig : ∀ p, ((c.after e.node (react (c.node e.node) e)).node p).config =
      (c.node p).config := by
    intro p
    by_cases hp : p = e.node
    · subst hp
      simp only [Cluster.after_self, hprog.config]
    · rw [Cluster.after_of_ne _ hp]
  exact {
    peers_nodup := fun p => by rw [hconfig]; exact hinv.peers_nodup p
    mem_peers := fun p => by rw [hconfig]; exact hinv.mem_peers p
    node_id := fun p => by rw [hconfig]; exact hinv.node_id p
    polled := fun p => by
      refine Polled.mono hmono ?_
      by_cases hp : p = e.node
      · subst hp
        rw [Cluster.after_self]
        refine (hinv.polled e.node).next hprog hpolls ?_
        rintro dest v r now rfl hc
        have hid : (c.node dest).config.nodeId = dest := hinv.node_id dest
        exact ⟨hok.2.2.2 hc, r, hid.symm ▸ hsent _ now rfl, hc.2.1, hok.2.2.1 hc⟩
      · rw [Cluster.after_of_ne _ hp]
        exact hinv.polled p }

theorem ElectionInv.run (hinv : ElectionInv c) (r : Run Cluster.step SoundElections c c') :
    ElectionInv c' :=
  r.invariant (fun _ _ _ hi he hs => hi.step he hs) hinv

/-! ### One ballot a term -/

/-- The ballots cast so far agree with the nodes and with the votes they sent. -/
structure Cast (ballot : N → ℕ → Option N) (c : Cluster N) : Prop where
  current : ∀ p, ballot p (c.node p).raft.currentTerm = (c.node p).raft.votedFor
  later : ∀ p t, (c.node p).raft.currentTerm < t → ballot p t = none
  granted : ∀ dest v r, .voteResponse dest v r ∈ c.sent → r.voteGranted = true →
    ballot v r.term = some dest

/-- The ballot of a node for its term is put on record. -/
def record (ballot : N → ℕ → Option N) (p : N) (s : ClusterState N) : N → ℕ → Option N :=
  Function.update ballot p (Function.update (ballot p) s.raft.currentTerm s.raft.votedFor)

/-- A majority voted for `a` in term `t`. -/
def Carried [Fintype N] (ballot : N → ℕ → Option N) (a : N) (t : ℕ) : Prop :=
  ∃ Q, IsMajority Finset.univ Q ∧ ∀ v ∈ Q, ballot v t = some a

theorem Carried.unique [Fintype N] {ballot : N → ℕ → Option N} {a b : N} {t : ℕ}
    (ha : Carried ballot a t) (hb : Carried ballot b t) : a = b := by
  obtain ⟨P, hP, hPa⟩ := ha
  obtain ⟨Q, hQ, hQb⟩ := hb
  obtain ⟨v, hvP, hvQ⟩ := hP.inter hQ
  exact Option.some.inj ((hPa v hvP).symm.trans (hQb v hvQ))

omit [DecidableEq N] in
theorem Cluster.Initial.cast (hi : c.Initial) : Cast (fun _ _ => none) c where
  current p := by
    obtain ⟨now, heq⟩ := hi.created p
    rw [heq]
    rfl
  later _ _ _ := rfl
  granted dest v r hm := by simp [hi.sent_nil] at hm

/-- A vote that a reaction sends is the node's vote of its term. -/
theorem react_grants {dest v : N} {r : VoteResponse}
    (hm : Message.voteResponse dest v r ∈ (react s e).2) (hg : r.voteGranted = true) :
    v = e.node ∧ r.term = (react s e).1.raft.currentTerm ∧
      (react s e).1.raft.votedFor = some dest := by
  cases e with
  | startElection p now => simp [react] at hm
  | heartbeats p => simp [react] at hm
  | propose p command now => simp [react] at hm
  | applyCommitted p => simp [react] at hm
  | deliver m now =>
    cases m with
    | voteRequest p request =>
      simp only [react, receive, List.mem_singleton, Message.voteResponse.injEq] at hm ⊢
      obtain ⟨rfl, rfl, rfl⟩ := hm
      rcases MetadataLog.handleVoteRequest_cases s.raft request with heq | ⟨heq, -⟩
      · simp [KRaftCluster.handleVoteRequest, heq] at hg
      · simp only [KRaftCluster.handleVoteRequest, heq, if_true]
        exact ⟨rfl, rfl, rfl⟩
    | voteResponse p fromPeer response => simp [react, receive] at hm
    | appendEntries p leader request => simp [react, receive] at hm
    | appendEntriesResponse p fromPeer response => simp [react, receive] at hm

theorem Cast.step {ballot : N → ℕ → Option N} (hb : Cast ballot c) (hok : SoundElections c e)
    (hstep : c.step e = some c') :
    ∃ ballot', Cast ballot' c' ∧ ∀ v t a, ballot v t = some a → ballot' v t = some a := by
  obtain ⟨rfl, -⟩ := Cluster.step_spec hstep
  obtain ⟨hprog, -⟩ := hok.polls
  generalize hs : (react (c.node e.node) e).1 = s at hprog
  have hgrow : ∀ v t a, ballot v t = some a → record ballot e.node s v t = some a := by
    intro v t a hv
    by_cases hp : v = e.node
    · subst hp
      by_cases ht : t = s.raft.currentTerm
      · subst ht
        -- an earlier ballot for the term is one for the node's term before
        have hle : s.raft.currentTerm ≤ (c.node e.node).raft.currentTerm := by
          by_contra hlt
          simp [hb.later e.node _ (not_le.mp hlt)] at hv
        have heq := le_antisymm hle hprog.term_le
        rw [heq, hb.current] at hv
        simpa [record] using hprog.vote_keep heq a hv
      · simpa [record, Function.update_of_ne ht] using hv
    · simpa [record, Function.update_of_ne hp] using hv
  refine ⟨record ballot e.node s, ⟨fun p => ?_, fun p t ht => ?_, fun dest v r hm hg => ?_⟩, hgrow⟩
  · by_cases hp : p = e.node
    · subst hp
      simp [record, hs]
    · rw [Cluster.after_of_ne _ hp]
      simpa [record, Function.update_of_ne hp] using hb.current p
  · by_cases hp : p = e.node
    · subst hp
      rw [Cluster.after_self, hs] at ht
      have hlate := hb.later e.node t (hprog.term_le.trans_lt ht)
      simpa [record, Function.update_of_ne ht.ne'] using hlate
    · rw [Cluster.after_of_ne _ hp] at ht
      simpa [record, Function.update_of_ne hp] using hb.later p t ht
  · rcases List.mem_append.mp hm with hm | hm
    · exact hgrow v _ dest (hb.granted dest v r hm hg)
    · obtain ⟨rfl, hterm, hvote⟩ := react_grants hm hg
      rw [hs] at hterm hvote
      simp [record, hterm, hvote]

/-- Along a run ballots are only added. -/
theorem Cast.run {ballot : N → ℕ → Option N} (hb : Cast ballot c)
    (r : Run Cluster.step SoundElections c c') :
    ∃ ballot', Cast ballot' c' ∧ ∀ v t a, ballot v t = some a → ballot' v t = some a := by
  induction r with
  | refl => exact ⟨ballot, hb, fun _ _ _ h => h⟩
  | tail _ hnext ih =>
    obtain ⟨b₁, hb₁, hgrow₁⟩ := ih
    obtain ⟨e, hok, hstep⟩ := hnext
    obtain ⟨b₂, hb₂, hgrow₂⟩ := hb₁.step hok hstep
    exact ⟨b₂, hb₂, fun v t a h => hgrow₂ v t a (hgrow₁ v t a h)⟩

/-! ### One leader a term -/

section Safety

variable [Fintype N]

theorem ElectionInv.card (hinv : ElectionInv c) (p : N) :
    Fintype.card N = (c.node p).config.peers.length + 1 := by
  have hset : (c.node p).config.peers.toFinset = Finset.univ.erase p := by
    ext q
    simp [hinv.mem_peers p q]
  have hcard := List.toFinset_card_of_nodup (hinv.peers_nodup p)
  rw [hset, Finset.card_erase_of_mem (Finset.mem_univ p), Finset.card_univ] at hcard
  have hpos : 0 < Fintype.card N := Fintype.card_pos_iff.mpr ⟨p⟩
  omega

/-- The counted votes of a leader are a majority. -/
theorem ElectionInv.majority (hinv : ElectionInv c) {p : N}
    (hr : (c.node p).raft.role = .leader) :
    IsMajority Finset.univ (c.node p).votesReceived.toFinset := by
  refine ⟨Finset.subset_univ _, ?_⟩
  rw [List.toFinset_card_of_nodup (hinv.polled p).nodup, Finset.card_univ, hinv.card p]
  have hwon := (hinv.polled p).won hr
  unfold KRaftCluster.quorum at hwon
  omega

theorem ElectionInv.carried (hinv : ElectionInv c) {ballot : N → ℕ → Option N}
    (hb : Cast ballot c) {p : N} (hr : (c.node p).raft.role = .leader) :
    Carried ballot p (c.node p).raft.currentTerm := by
  have hstood : (c.node p).raft.role ≠ .follower := by simp [hr]
  refine ⟨_, hinv.majority hr, fun v hv => ?_⟩
  rcases (hinv.polled p).counted hstood v (List.mem_toFinset.mp hv) with rfl | ⟨r, hm, hg, hterm⟩
  · rw [hinv.node_id] at *
    rw [hb.current, (hinv.polled p).standing hstood, hinv.node_id]
  · rw [← hterm, hb.granted _ v r hm hg, hinv.node_id]

/-- Two nodes that lead the same term, now or later, are the same node. -/
theorem ElectionInv.unique {c₁ c₂ : Cluster N} (h₁ : ElectionInv c₁)
    {ballot : N → ℕ → Option N} (hb : Cast ballot c₁) (r : Run Cluster.step SoundElections c₁ c₂)
    {a b : N} (ha : (c₁.node a).raft.role = .leader) (hl : (c₂.node b).raft.role = .leader)
    (hterm : (c₁.node a).raft.currentTerm = (c₂.node b).raft.currentTerm) : a = b := by
  obtain ⟨ballot', hb', hgrow⟩ := hb.run r
  obtain ⟨Q, hQ, hvotes⟩ := h₁.carried hb ha
  have hcarried : Carried ballot' a (c₂.node b).raft.currentTerm :=
    hterm ▸ ⟨Q, hQ, fun v hv => hgrow v _ a (hvotes v hv)⟩
  exact hcarried.unique ((h₁.run r).carried hb' hl)

/-- In every run in which no leader or candidate is asked for a vote in a higher term, and
every counted vote is of the candidate's term and from a new voter, while no term reaches
`2 ^ 31`, two nodes that lead the same term, now or later, are the same node. A node that adopts a higher term is a
follower unless it stands for election, no voter is counted twice, and a node that stands or
leads counts its own vote and votes of its term. -/
theorem single_leader {c₀ : Cluster N} (hi : c₀.Initial) :
    (∀ c₁ c₂, Run Cluster.step SoundElections c₀ c₁ → Run Cluster.step SoundElections c₁ c₂ →
      ∀ a b, (c₁.node a).raft.role = .leader → (c₂.node b).raft.role = .leader →
        (c₁.node a).raft.currentTerm = (c₂.node b).raft.currentTerm → a = b) ∧
    (∀ c e c', Run Cluster.step SoundElections c₀ c → SoundElections c e → c.step e = some c' →
      ∀ p, (c.node p).raft.currentTerm < (c'.node p).raft.currentTerm →
        (c'.node p).raft.role = .follower ∨ ∃ now, e = .startElection p now) ∧
    ∀ c, Run Cluster.step SoundElections c₀ c → ∀ p, (c.node p).votesReceived.Nodup ∧
      ((c.node p).raft.role ≠ .follower → ∀ v ∈ (c.node p).votesReceived,
        v = p ∨ VoteFrom c.sent p v (c.node p).raft.currentTerm) := by
  refine ⟨fun c₁ c₂ r₁ r₂ a b ha hb hterm => ?_, fun c e c' _ hok hstep p hlt => ?_,
    fun c r p => ?_⟩
  · obtain ⟨ballot, hcast, -⟩ := hi.cast.run r₁
    exact (hi.electionInv.run r₁).unique hcast r₂ ha hb hterm
  · obtain ⟨rfl, -⟩ := Cluster.step_spec hstep
    by_cases hp : p = e.node
    · subst hp
      rw [Cluster.after_self] at hlt ⊢
      cases hok.polls.2 with
      | yields hr hv => exact Or.inl hr
      | stays hr ht hv => exact absurd ht hlt.ne'
      | stands now he hr ht hvote hv => exact Or.inr ⟨now, he⟩
      | counts dest v r now he hc ht hv hw => exact absurd ht hlt.ne'
    · rw [Cluster.after_of_ne _ hp] at hlt
      exact absurd hlt (lt_irrefl _)
  · have hpolled := (hi.electionInv.run r).polled p
    have hcounted := hpolled.counted
    rw [(hi.electionInv.run r).node_id] at hcounted
    exact ⟨hpolled.nodup, hcounted⟩

end Safety

/-- Nodes that have just been created. -/
def started (n : ℕ) : Cluster (Fin n) where
  node p := KRaftCluster.createCluster 0 ⟨p, (List.finRange n).erase p, 150, 300⟩
  sent := []

theorem started_initial (n : ℕ) : (started n).Initial where
  peers_nodup p := (List.nodup_finRange n).erase p
  mem_peers p q := by
    simp [started, KRaftCluster.createCluster, (List.nodup_finRange n).mem_erase_iff]
  node_id _ := rfl
  created _ := ⟨0, rfl⟩
  sent_nil := rfl

/-- Node 0 wins term 1 with the vote of node 1. -/
def firstElection : List (Event (Fin 3)) :=
  [.startElection 0 0, .deliver (.voteRequest 1 ⟨1, 0, 0, 0⟩) 0,
    .deliver (.voteResponse 0 1 ⟨1, true⟩) 0]

/-- Up to here the election is sound. -/
theorem single_leader_firstElection : ∃ c,
    exec (guarded SoundElections Cluster.step) (started 3) firstElection = some c ∧
    (c.node 0).raft.role = .leader ∧ (c.node 0).votesReceived.Nodup := by
  obtain ⟨c, h, hr⟩ : ∃ c,
      exec (guarded SoundElections Cluster.step) (started 3) firstElection = some c ∧
      (c.node 0).raft.role = .leader := ⟨_, rfl, by decide⟩
  exact ⟨c, h, hr, ((single_leader (started_initial 3)).2.2 c (run_of_exec h) 0).1⟩

/-! ### Elections that go wrong -/

/-- A term has one leader in all runs of `n` nodes whose deliveries meet a condition. -/
def OneLeader (n : ℕ) (ok : Cluster (Fin n) → Message (Fin n) → Prop) : Prop :=
  ∀ c₀ c₁ c₂ : Cluster (Fin n), c₀.Initial → Run Cluster.step (fun c => OnDeliver (ok c)) c₀ c₁ →
    Run Cluster.step (fun c => OnDeliver (ok c)) c₁ c₂ →
    ∀ a b, (c₁.node a).raft.role = .leader → (c₂.node b).raft.role = .leader →
      (c₁.node a).raft.currentTerm = (c₂.node b).raft.currentTerm → a = b

theorem not_oneLeader {n : ℕ} {ok : Cluster (Fin n) → Message (Fin n) → Prop}
    [∀ c, DecidablePred (ok c)] (es : List (Event (Fin n))) {c : Cluster (Fin n)} (a b : Fin n)
    (h : exec (guarded (fun c => OnDeliver (ok c)) Cluster.step) (started n) es = some c)
    (hne : a ≠ b) (ha : (c.node a).raft.role = .leader) (hb : (c.node b).raft.role = .leader)
    (hterm : (c.node a).raft.currentTerm = (c.node b).raft.currentTerm) : ¬ OneLeader n ok :=
  fun hall => hne (hall _ c c (started_initial n) (run_of_exec h) .refl a b ha hb hterm)

/-- Node 2 then wins term 2 with the vote of node 1, and node 0 has voted for it as well. -/
def secondElection : List (Event (Fin 3)) :=
  [.startElection 2 0, .startElection 2 0, .deliver (.voteRequest 0 ⟨2, 2, 0, 0⟩) 0,
    .deliver (.voteRequest 1 ⟨2, 2, 0, 0⟩) 0, .deliver (.voteResponse 2 1 ⟨2, true⟩) 0]

/-- Node 0 counts a vote of term 1 in term 2. -/
def staleVote : List (Event (Fin 3)) :=
  [.startElection 0 0, .deliver (.voteRequest 1 ⟨1, 0, 0, 0⟩) 0, .startElection 0 0,
    .deliver (.voteResponse 0 1 ⟨1, true⟩) 0, .startElection 2 0, .startElection 2 0,
    .deliver (.voteRequest 1 ⟨2, 2, 0, 0⟩) 0, .deliver (.voteResponse 2 1 ⟨2, true⟩) 0]

/-- Of four nodes two count the vote of one other node twice. -/
def repeatedVotes : List (Event (Fin 4)) :=
  [.startElection 0 0, .deliver (.voteRequest 1 ⟨1, 0, 0, 0⟩) 0,
    .deliver (.voteResponse 0 1 ⟨1, true⟩) 0, .deliver (.voteResponse 0 1 ⟨1, true⟩) 0,
    .startElection 2 0, .deliver (.voteRequest 3 ⟨1, 2, 0, 0⟩) 0,
    .deliver (.voteResponse 2 3 ⟨1, true⟩) 0, .deliver (.voteResponse 2 3 ⟨1, true⟩) 0]

/-- A term can have two leaders, whichever one of the three conditions is dropped: when a
leader keeps its role in a higher term, when a vote of an older term is counted, and when a
vote is counted twice. -/
theorem two_leaders :
    ¬ OneLeader 3 (fun c m => FreshVotes c m ∧ NewVoters c m) ∧
    ¬ OneLeader 3 (fun c m => StepsDown c m ∧ NewVoters c m) ∧
    ¬ OneLeader 4 (fun c m => StepsDown c m ∧ FreshVotes c m) := by
  refine ⟨?_, ?_, ?_⟩
  · exact not_oneLeader (firstElection ++ secondElection) 0 2 rfl (by decide) (by decide)
      (by decide) (by decide)
  · exact not_oneLeader staleVote 0 2 rfl (by decide) (by decide) (by decide) (by decide)
  · exact not_oneLeader repeatedVotes 0 2 rfl (by decide) (by decide) (by decide) (by decide)

end NextgenDatabases.Registry
