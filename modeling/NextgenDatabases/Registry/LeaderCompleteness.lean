import NextgenDatabases.Registry.Replication

/-!
# Leader completeness

In the runs whose elections are sound, whose votes in a higher term go to logs that
are at least as up to date, whose leaders hear acknowledgements of their own term
only, and in which no accepted request cuts off entries it has, every leader of a
later term has what a leader committed of its own term.
-/
namespace NextgenDatabases.Registry

open Raft Raft.History Foundations MetadataLog

variable {N : Type*} [DecidableEq N] [Fintype N] {h : History N LogEntry} {c c' : Cluster N}

/-! ### What a leader commits -/

/-- The peers whose match index has reached `n`. -/
def matched (raft : NodeState N) (peers : List N) (n : ℕ) : List N :=
  peers.filter fun peer => decide (n ≤ (raft.matchIndex peer).getD 0)

omit [DecidableEq N] [Fintype N] in
/-- When the commit index rises, half of the peers have reached the new one. -/
theorem length_matched {raft : NodeState N} {peers : List N}
    (hlt : raft.commitIndex < newCommitIndex raft peers)
    (hle : newCommitIndex raft peers ≤ raft.log.length) :
    (peers.length + 1) / 2 ≤ (matched raft peers (newCommitIndex raft peers)).length := by
  have hat : (matchIndices raft peers)[(peers.length + 1) / 2]? =
      some (newCommitIndex raft peers) := by
    unfold newCommitIndex at hlt ⊢
    cases hk : (matchIndices raft peers)[(peers.length + 1) / 2]? with
    | none => simp [hk] at hlt
    | some n => rfl
  have hcount := count_ge_of_descending (List.perm_insertionSort _ _)
    (List.pairwise_insertionSort _ _) hat
  have hlen : (matched raft peers (newCommitIndex raft peers)).length =
      (peers.map fun peer => (raft.matchIndex peer).getD 0).countP
        fun x => decide (newCommitIndex raft peers ≤ x) := by
    rw [List.countP_map, List.countP_eq_length_filter]
    rfl
  rw [List.countP_append, ← hlen] at hcount
  simp only [List.countP_cons, List.countP_nil, getLastLogIndex, hle, decide_true, if_true]
    at hcount
  omega

/-- What a leader commits, a majority has acknowledged to it. -/
theorem Refines.chosen (hr : Refines c h) {p : N} {raft : NodeState N}
    (hk : Knows h (view { c.node p with raft := raft }) raft.matchIndex)
    (hlead : raft.role = .leader)
    (hlt : raft.commitIndex < newCommitIndex raft (c.node p).config.peers)
    (hentry : ∃ entry, raft.log[newCommitIndex raft (c.node p).config.peers - 1]? = some entry ∧
      entry.term = raft.currentTerm) :
    h.Chosen (majority Finset.univ) raft.currentTerm
      (raft.log.take (newCommitIndex raft (c.node p).config.peers)) := by
  obtain ⟨entry, he, hterm⟩ := hentry
  have hrole : (view { c.node p with raft := raft }).role = .leader := by
    simp [view, standing, hlead]
  have hid := hr.elections.node_id p
  generalize hn : newCommitIndex raft (c.node p).config.peers = n at *
  have hle : n ≤ raft.log.length := by
    have := (List.getElem?_eq_some_iff.mp he).1
    omega
  have hhalf := length_matched
    (by rw [hn]; exact hlt) (by rw [hn]; exact hle)
  rw [hn] at hhalf
  have hnodup : (matched raft (c.node p).config.peers n).Nodup :=
    (hr.elections.peers_nodup p).filter _
  have hnot : p ∉ (matched raft (c.node p).config.peers n).toFinset := by
    intro hmem
    have := List.mem_of_mem_filter (List.mem_toFinset.mp hmem)
    exact (hr.elections.mem_peers p p).mp this rfl
  have hQ : (majority Finset.univ).IsQuorum
      (insert p (matched raft (c.node p).config.peers n).toFinset) := by
    refine ⟨Finset.subset_univ _, ?_⟩
    rw [Finset.card_univ, hr.elections.card p, Finset.card_insert_of_notMem hnot,
      List.toFinset_card_of_nodup hnodup]
    omega
  refine chosen_of_acks (hk.mirrors.leader hrole) (by omega) he hterm hQ fun q hq => ?_
  rcases Finset.mem_insert.mp hq with rfl | hq
  · exact hle.trans (by simpa [view, hid] using hk.own hrole)
  · have hreach : n ≤ (raft.matchIndex q).getD 0 := by
      simpa using List.of_mem_filter (List.mem_toFinset.mp hq)
    cases hm : raft.matchIndex q with
    | none =>
      simp only [hm, Option.getD_none] at hreach
      omega
    | some m =>
      simp only [hm, Option.getD_some] at hreach
      exact hreach.trans (hk.acked hrole q m hm)

omit [Fintype N] in
/-- Only requests and success responses change a commit index. -/
theorem react_commitIndex (s : ClusterState N) (e : Event N) :
    (react s e).1.raft.commitIndex = s.raft.commitIndex ∨
    (∃ dest leader r now, e = .deliver (.appendEntries dest leader r) now) ∨
    ∃ dest v r now, e = .deliver (.appendEntriesResponse dest v r) now ∧ r.success = true ∧
      ¬ s.raft.currentTerm < r.term ∧ s.raft.role = .leader ∧
      (react s e).1.raft = updateCommitIndex
        { s.raft with
          nextIndex := Function.update s.raft.nextIndex v (some (r.matchIndex + 1))
          matchIndex := Function.update s.raft.matchIndex v (some r.matchIndex) }
        s.config.peers := by
  cases e with
  | startElection p now => exact Or.inl rfl
  | heartbeats p => exact Or.inl rfl
  | propose p command now =>
    left
    simp only [react, KRaftCluster.propose]
    cases s.raft.role <;> rfl
  | applyCommitted p =>
    left
    simp only [react, KRaftCluster.applyCommitted, applyCommittedEntries]
    split_ifs <;> rfl
  | deliver m now =>
    cases m with
    | voteRequest dest r =>
      left
      simp only [react, receive, KRaftCluster.handleVoteRequest]
      rcases handleVoteRequest_cases s.raft r with heq | ⟨heq, -⟩ <;> rw [heq] <;> rfl
    | voteResponse dest v r =>
      left
      simp only [react, receive, KRaftCluster.handleVoteResponse]
      split_ifs <;> rfl
    | appendEntries dest leader r => exact Or.inr (Or.inl ⟨dest, leader, r, now, rfl⟩)
    | appendEntriesResponse dest v r =>
      simp only [react, receive, KRaftCluster.handleAppendEntriesResponse]
      split_ifs with hgt hlead hok
      · exact Or.inl rfl
      · exact Or.inr (Or.inr ⟨dest, v, r, now, rfl, hok, hgt, hlead, rfl⟩)
      · exact Or.inl rfl
      · exact Or.inl rfl

/-- A request does not change the commit index of a leader that stays one. -/
theorem Refines.commit_appendEntries (hr : Refines c h) {dest leader : N}
    {r : AppendEntriesRequest N} (now : ℕ) (hm : Carries h (.appendEntries dest leader r))
    (hlead : (KRaftCluster.handleAppendEntries now (c.node dest) r).1.raft.role = .leader) :
    (KRaftCluster.handleAppendEntries now (c.node dest) r).1.raft.commitIndex =
      (c.node dest).raft.commitIndex := by
  have hfollow : ∀ t, (followTerm (c.node dest).raft t).commitIndex =
      (c.node dest).raft.commitIndex := by
    intro t
    unfold followTerm
    split_ifs <;> rfl
  rw [(handleAppendEntries_follow now r).1] at hlead ⊢
  rcases handleAppendEntries_cases (c.node dest).raft r with
    ⟨-, heq⟩ | ⟨-, -, n, heq⟩ | ⟨hle, -, heq⟩
  · rw [heq]
  · rw [heq]
    exact hfollow r.term
  · -- a leader of the request's term would be the one that sent it
    rw [heq] at hlead
    unfold followTerm at hlead
    split_ifs at hlead with hgt
    · cases hlead
    · have hterm : r.term = (c.node dest).raft.currentTerm := by omega
      have hrole : (view (c.node dest)).role = .leader := congrArg standing hlead
      have hown := (hr.knows dest).mirrors.leader hrole
      obtain ⟨hne, X, L, hL, -⟩ := hm
      simp only [view, hr.elections.node_id, ← hterm, hL, Option.some.injEq, Prod.mk.injEq] at hown
      exact absurd hown.1.symm hne

/-- A leader's commit index rises to what a majority has acknowledged. -/
theorem Refines.commits (hr : Refines c h) {e : Event N} (hok : SoundLogs c e)
    (hstep : c.step e = some c') {p : N} (hlead : (c'.node p).raft.role = .leader)
    (hlt : (c.node p).raft.commitIndex < (c'.node p).raft.commitIndex) :
    h.Chosen (majority Finset.univ) (c'.node p).raft.currentTerm
      ((c'.node p).raft.log.take (c'.node p).raft.commitIndex) := by
  obtain ⟨rfl, hsent⟩ := Cluster.step_spec hstep
  by_cases hp : p = e.node
  swap
  · rw [Cluster.after_of_ne _ hp] at hlt
    exact absurd hlt (lt_irrefl _)
  subst hp
  rw [Cluster.after_self] at hlead hlt ⊢
  rcases react_commitIndex (c.node e.node) e with
    hsame | ⟨dest, leader, r, now, rfl⟩ | ⟨dest, v, r, now, rfl, hack, hnot, hrole, hraft⟩
  · exact absurd hsame hlt.ne'
  · have hsame := hr.commit_appendEntries now (hr.carries _ (hsent _ now rfl)) hlead
    exact absurd hsame hlt.ne'
  · simp only [Event.node, Message.dest] at hrole hnot hraft hlt ⊢
    have hterm : r.term = (c.node dest).raft.currentTerm := by
      have := hok.2.2.2.1 hrole hack
      omega
    have hacked : r.matchIndex ≤ h.ack v (c.node dest).raft.currentTerm :=
      hterm ▸ hr.carries _ (hsent _ now rfl) hack
    have hknows := (hr.knows dest).acknowledge (q := v) hacked
    rw [hraft] at hlt ⊢
    rcases updateCommitIndex_cases _ (c.node dest).config.peers with heq | ⟨-, hup, hentry, heq⟩
    · rw [heq] at hlt
      exact absurd hlt (lt_irrefl _)
    · rw [heq] at hlt ⊢
      exact hr.chosen (p := dest) hknows hrole hup hentry

/-! ### What later leaders have -/

/-- In every run that meets the conditions, when a leader raises its commit index, every leader
of a later term, before or after, has all that is committed at its place in its log. Votes
are only granted to candidates whose log is at least as up to date. -/
theorem leaders_complete {c₀ : Cluster N} (hi : c₀.Initial) :
    (∀ c e c', Run Cluster.step SoundLogs c₀ c → SoundLogs c e → c.step e = some c' →
      ∀ p, (c'.node p).raft.role = .leader →
        (c.node p).raft.commitIndex < (c'.node p).raft.commitIndex →
      ∀ c₁, (Run Cluster.step SoundLogs c₀ c₁ ∧ Run Cluster.step SoundLogs c₁ c ∨
          Run Cluster.step SoundLogs c' c₁) →
      ∀ q, (c₁.node q).raft.role = .leader →
        (c'.node p).raft.currentTerm < (c₁.node q).raft.currentTerm →
      ∀ k entry, k < (c'.node p).raft.commitIndex → (c'.node p).raft.log[k]? = some entry →
        (c₁.node q).raft.log[k]? = some entry) ∧
    ∀ c dest request now, Run Cluster.step SoundLogs c₀ c →
      SoundLogs c (.deliver (.voteRequest dest request) now) →
      (handleVoteRequest (c.node dest).raft request).2.voteGranted = true →
      logUpToDate (c.node dest).raft request = true := by
  constructor
  · intro c e c' r hok hstep p hp hlt c₁ hwhen q hq hterm k entry hk hentry
    have hcommitted : ((c'.node p).raft.log.take (c'.node p).raft.commitIndex)[k]? =
        some entry := by
      rw [List.getElem?_take_of_lt hk, hentry]
    have hrole : (view (c₁.node q)).role = .leader := congrArg standing hq
    apply getElem?_of_isPrefix _ hcommitted
    rcases hwhen with ⟨r₁, r₂⟩ | r₂
    · -- the later leader was there first
      obtain ⟨h₁, hr₁, -⟩ := hi.refines.run r₁
      obtain ⟨h, hr, hgrow⟩ := hr₁.run r₂
      have hL := (hr₁.knows q).mirrors.leader hrole
      exact (hr.commits hok hstep hp hlt).complete_before hgrow hr.hist.coherent hr.hist.kept hterm hL
    · obtain ⟨h, hr, -⟩ := hi.refines.run r
      obtain ⟨h', hr', hgrow⟩ := hr.step hok hstep
      obtain ⟨h₁, hr₁, hgrow₁⟩ := hr'.run r₂
      have hchosen := (hr.commits hok hstep hp hlt).mono (hgrow.trans hgrow₁)
      have hL := (hr₁.knows q).mirrors.leader hrole
      exact hchosen.complete hr₁.hist.coherent hr₁.hist.kept hterm hL
  · intro c dest request now _ hok hg
    rcases handleVoteRequest_cases (c.node dest).raft request with heq | ⟨-, hgt | ⟨-, -, hup⟩⟩
    · simp [heq] at hg
    · exact hok.2.2.1 hgt
    · exact hup

/-- Node 0 wins term 1, and node 1 takes in its first entry. -/
def replicated : List (Event (Fin 3)) :=
  firstElection ++ [.heartbeats 0,
    .deliver (.appendEntries 1 0 ⟨1, .self, 0, 0, [⟨1, 1, .noOp, 0⟩], 0⟩) 0]

/-- Node 0 hears of it. -/
def acknowledged : Event (Fin 3) := .deliver (.appendEntriesResponse 0 1 ⟨1, true, 1⟩) 0

/-- Node 1 then wins term 2. -/
def succession : List (Event (Fin 3)) :=
  [.startElection 1 0, .deliver (.voteRequest 2 ⟨2, 1, 1, 1⟩) 0,
    .deliver (.voteResponse 1 2 ⟨2, true⟩) 0]

/-- The leader of term 2 has the entry that the leader of term 1 committed. -/
theorem leaders_complete_succession : ∃ c₁ : Cluster (Fin 3),
    (c₁.node 1).raft.role = .leader ∧ (c₁.node 1).raft.currentTerm = 2 ∧
    (c₁.node 1).raft.log[0]? = some ⟨1, 1, .noOp, 0⟩ := by
  obtain ⟨c, h, hok, hbefore⟩ : ∃ c,
      exec (guarded SoundLogs Cluster.step) (started 3) replicated = some c ∧
      SoundLogs c acknowledged ∧ (c.node 0).raft.commitIndex = 0 :=
    ⟨_, rfl, by decide, by decide⟩
  obtain ⟨c', h', hrole, hterm, hafter, hentry⟩ : ∃ c', c.step acknowledged = some c' ∧
      (c'.node 0).raft.role = .leader ∧ (c'.node 0).raft.currentTerm = 1 ∧
      (c'.node 0).raft.commitIndex = 1 ∧
      (c'.node 0).raft.log[0]? = some ⟨1, 1, .noOp, 0⟩ := by
    cases h
    exact ⟨_, rfl, by decide, by decide, by decide, by decide⟩
  obtain ⟨c₁, h₁, hrole₁, hterm₁⟩ : ∃ c₁,
      exec (guarded SoundLogs Cluster.step) c' succession = some c₁ ∧
      (c₁.node 1).raft.role = .leader ∧ (c₁.node 1).raft.currentTerm = 2 := by
    cases h
    cases h'
    exact ⟨_, rfl, by decide, by decide⟩
  exact ⟨c₁, hrole₁, hterm₁, (leaders_complete (started_initial 3)).1 c _ c' (run_of_exec h) hok h' 0
    hrole (by omega) c₁ (Or.inr (run_of_exec h₁)) 1 hrole₁ (by omega) 0 _ (by omega) hentry⟩

/-! ### Leaders that lack a committed entry -/

/-- In all runs of `n` nodes whose deliveries meet a condition, later leaders have the entries
of its term that a leader commits. -/
def Complete (n : ℕ) (ok : Cluster (Fin n) → Message (Fin n) → Prop) : Prop :=
  ∀ (c₀ c : Cluster (Fin n)) e c' c₁, c₀.Initial →
    Run Cluster.step (fun c => OnDeliver (ok c)) c₀ c → OnDeliver (ok c) e → c.step e = some c' →
    Run Cluster.step (fun c => OnDeliver (ok c)) c' c₁ →
    ∀ p q k entry, (c'.node p).raft.role = .leader → (c.node p).raft.commitIndex ≤ k →
      k < (c'.node p).raft.commitIndex → (c'.node p).raft.log[k]? = some entry →
      entry.term = (c'.node p).raft.currentTerm → (c₁.node q).raft.role = .leader →
      (c'.node p).raft.currentTerm < (c₁.node q).raft.currentTerm →
      (c₁.node q).raft.log[k]? = some entry

/-- The leader `p` commits the entry at `k`, and `q` leads a later term with another one. -/
def Misses {n : ℕ} (c c' c₁ : Cluster (Fin n)) (p q : Fin n) (k : ℕ) : Prop :=
  (c'.node p).raft.role = .leader ∧ (c.node p).raft.commitIndex ≤ k ∧
    k < (c'.node p).raft.commitIndex ∧
    ((c'.node p).raft.log[k]?).map LogEntry.term = some (c'.node p).raft.currentTerm ∧
    (c₁.node q).raft.role = .leader ∧
    (c'.node p).raft.currentTerm < (c₁.node q).raft.currentTerm ∧
    (c₁.node q).raft.log[k]? ≠ (c'.node p).raft.log[k]?

instance {n : ℕ} (c c' c₁ : Cluster (Fin n)) (p q : Fin n) (k : ℕ) :
    Decidable (Misses c c' c₁ p q k) :=
  inferInstanceAs (Decidable (_ ∧ _))

theorem not_complete {n : ℕ} {ok : Cluster (Fin n) → Message (Fin n) → Prop}
    [∀ c, DecidablePred (ok c)] (es : List (Event (Fin n))) (e : Event (Fin n))
    (es₁ : List (Event (Fin n))) (p q : Fin n) (k : ℕ) {c c' c₁ : Cluster (Fin n)}
    (h : exec (guarded (fun c => OnDeliver (ok c)) Cluster.step) (started n) es = some c)
    (hok : OnDeliver (ok c) e) (h' : c.step e = some c')
    (h₁ : exec (guarded (fun c => OnDeliver (ok c)) Cluster.step) c' es₁ = some c₁)
    (hmiss : Misses c c' c₁ p q k) : ¬ Complete n ok := by
  intro hall
  obtain ⟨hp, hle, hlt, hterm, hq, hlater, hne⟩ := hmiss
  obtain ⟨entry, hentry, hterm⟩ := Option.map_eq_some_iff.mp hterm
  have hlog := hall _ c e c' c₁ (started_initial n) (run_of_exec h) hok h' (run_of_exec h₁) p q k
    entry hp hle hlt hentry hterm hq hlater
  exact hne (hlog.trans hentry.symm)

/-- Node 2, whose log is empty, asks for votes in term 2. -/
def unfairVote : List (Event (Fin 3)) :=
  [.startElection 2 0, .startElection 2 0, .deliver (.voteRequest 1 ⟨2, 2, 0, 0⟩) 0,
    .deliver (.voteResponse 2 1 ⟨2, true⟩) 0]

/-- Node 0 leads term 1 on its own, and node 1 wins term 2 with the vote of node 2. -/
def leftBehind : List (Event (Fin 3)) :=
  firstElection ++ [.startElection 1 0, .deliver (.voteRequest 2 ⟨2, 1, 0, 0⟩) 0,
    .deliver (.voteResponse 1 2 ⟨2, true⟩) 0, .heartbeats 1,
    .deliver (.appendEntries 2 1 ⟨2, .self, 0, 0, [⟨2, 1, .noOp, 0⟩], 0⟩) 0]

/-- Node 1 holds two entries of node 0, and node 2 the first of them. -/
def twoEntries : List (Event (Fin 3)) :=
  firstElection ++ [.heartbeats 0, .propose 0 (.unmapHexad "") 0, .heartbeats 0,
    .deliver (.appendEntries 1 0
      ⟨1, .self, 0, 0, [⟨1, 1, .noOp, 0⟩, ⟨1, 2, .unmapHexad "", 0⟩], 0⟩) 0,
    .deliver (.appendEntries 2 0 ⟨1, .self, 0, 0, [⟨1, 1, .noOp, 0⟩], 0⟩) 0]

/-- The request with the first entry comes to node 1 once more, and node 2 wins term 2. -/
def entryCut : List (Event (Fin 3)) :=
  [.deliver (.appendEntries 1 0 ⟨1, .self, 0, 0, [⟨1, 1, .noOp, 0⟩], 0⟩) 0, .startElection 2 0,
    .deliver (.voteRequest 1 ⟨2, 2, 1, 1⟩) 0, .deliver (.voteResponse 2 1 ⟨2, true⟩) 0]

/-- Node 1 acknowledges two entries of term 1 and loses them to the leader of term 2. Node 0
leads term 3 and has its second entry on node 3 only. -/
def overwritten : List (Event (Fin 5)) :=
  [.startElection 0 0, .deliver (.voteRequest 1 ⟨1, 0, 0, 0⟩) 0,
    .deliver (.voteRequest 2 ⟨1, 0, 0, 0⟩) 0, .deliver (.voteResponse 0 1 ⟨1, true⟩) 0,
    .deliver (.voteResponse 0 2 ⟨1, true⟩) 0, .propose 0 (.unmapHexad "") 0, .heartbeats 0,
    .deliver (.appendEntries 1 0
      ⟨1, .self, 0, 0, [⟨1, 1, .noOp, 0⟩, ⟨1, 2, .unmapHexad "", 0⟩], 0⟩) 0,
    .startElection 2 0, .deliver (.voteRequest 3 ⟨2, 2, 0, 0⟩) 0,
    .deliver (.voteRequest 4 ⟨2, 2, 0, 0⟩) 0, .deliver (.voteResponse 2 3 ⟨2, true⟩) 0,
    .deliver (.voteResponse 2 4 ⟨2, true⟩) 0, .heartbeats 2,
    .deliver (.appendEntries 0 2 ⟨2, .self, 0, 0, [⟨2, 1, .noOp, 0⟩], 0⟩) 0,
    .deliver (.appendEntries 1 2 ⟨2, .self, 0, 0, [⟨2, 1, .noOp, 0⟩], 0⟩) 0,
    .deliver (.appendEntries 3 2 ⟨2, .self, 0, 0, [⟨2, 1, .noOp, 0⟩], 0⟩) 0,
    .startElection 0 0, .deliver (.voteRequest 1 ⟨3, 0, 1, 2⟩) 0,
    .deliver (.voteRequest 3 ⟨3, 0, 1, 2⟩) 0, .deliver (.voteResponse 0 1 ⟨3, true⟩) 0,
    .deliver (.voteResponse 0 3 ⟨3, true⟩) 0, .heartbeats 0,
    .deliver (.appendEntries 3 0 ⟨3, .self, 1, 2, [⟨3, 2, .noOp, 0⟩], 0⟩) 0,
    .deliver (.appendEntriesResponse 0 3 ⟨3, true, 2⟩) 0]

/-- Node 2 hears of term 3, and node 1 wins term 4. -/
def withoutEntry : List (Event (Fin 5)) :=
  [.deliver (.appendEntries 3 2 ⟨2, .self, 0, 0, [⟨2, 1, .noOp, 0⟩], 0⟩) 0,
    .deliver (.appendEntriesResponse 2 3 ⟨3, false, 0⟩) 0, .startElection 1 0,
    .deliver (.voteRequest 2 ⟨4, 1, 1, 2⟩) 0, .deliver (.voteRequest 4 ⟨4, 1, 1, 2⟩) 0,
    .deliver (.voteResponse 1 2 ⟨4, true⟩) 0, .deliver (.voteResponse 1 4 ⟨4, true⟩) 0]

/-- With votes that are fresh and from new voters, a later leader can lack a committed entry,
whichever one of the other conditions is dropped, and in the first place where each term has
one leader: when a vote in a higher term goes to a log that
is not up to date, when a leader keeps its role in a higher term, when an accepted request cuts off
entries it has, and when an acknowledgement of an older term is counted. -/
theorem leaders_incomplete :
    ¬ Complete 3 (fun c m => (StepsDown c m ∧ FreshVotes c m ∧ NewVoters c m) ∧
      FreshAcks c m ∧ NoCut c m) ∧
    ¬ Complete 3 (fun c m => (FreshVotes c m ∧ NewVoters c m) ∧
      FairVotes c m ∧ FreshAcks c m ∧ NoCut c m) ∧
    ¬ Complete 3 (fun c m => (StepsDown c m ∧ FreshVotes c m ∧ NewVoters c m) ∧
      FairVotes c m ∧ FreshAcks c m) ∧
    ¬ Complete 5 (fun c m => (StepsDown c m ∧ FreshVotes c m ∧ NewVoters c m) ∧
      FairVotes c m ∧ NoCut c m) := by
  refine ⟨?_, ?_, ?_, ?_⟩
  · exact not_complete replicated acknowledged unfairVote 0 2 0 rfl (by decide) rfl rfl (by decide)
  · exact not_complete leftBehind (.deliver (.appendEntriesResponse 1 2 ⟨2, true, 1⟩) 0)
      [.startElection 2 0, .deliver (.voteRequest 0 ⟨3, 2, 1, 2⟩) 0] 1 0 0 rfl (by decide) rfl rfl
      (by decide)
  · exact not_complete twoEntries (.deliver (.appendEntriesResponse 0 1 ⟨1, true, 2⟩) 0) entryCut
      0 2 1 rfl (by decide) rfl rfl (by decide)
  · exact not_complete overwritten (.deliver (.appendEntriesResponse 0 1 ⟨1, true, 2⟩) 0)
      withoutEntry 0 1 1 rfl (by decide) rfl rfl (by decide)

end NextgenDatabases.Registry
