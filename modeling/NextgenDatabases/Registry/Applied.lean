import NextgenDatabases.Registry.LeaderCompleteness

/-!
# The applied commands

A follower takes over whatever commit index a request brings, so its commit index may fall below
what it has applied. What it has applied stays settled all the same: in the runs with sound logs
the registries of the nodes are parts of one list.
-/
namespace NextgenDatabases.Registry

open Raft Raft.History Foundations MetadataLog

variable {N : Type*} [DecidableEq N]

/-! ### What a reaction leaves alone -/

/-- Only a request can take entries from a log. -/
theorem react_log (s : ClusterState N) {e : Event N}
    (he : ∀ dest leader r now, e ≠ .deliver (.appendEntries dest leader r) now) :
    s.raft.log <+: (react s e).1.raft.log := by
  cases e with
  | startElection p now => exact List.prefix_rfl
  | heartbeats p => exact List.prefix_rfl
  | propose p command now =>
    simp only [react, KRaftCluster.propose]
    cases s.raft.role with
    | leader => exact List.prefix_append _ _
    | follower => exact List.prefix_rfl
    | candidate => exact List.prefix_rfl
  | applyCommitted p =>
    simp only [react, KRaftCluster.applyCommitted, applyCommittedEntries]
    split_ifs <;> exact List.prefix_rfl
  | deliver m now =>
    cases m with
    | voteRequest dest r =>
      simp only [react, receive, KRaftCluster.handleVoteRequest]
      rcases handleVoteRequest_cases s.raft r with heq | ⟨heq, -⟩ <;> rw [heq] <;>
        exact List.prefix_rfl
    | voteResponse dest v r =>
      simp only [react, receive, KRaftCluster.handleVoteResponse]
      split_ifs
      · exact List.prefix_rfl
      · exact List.prefix_append _ _
      · exact List.prefix_rfl
      · exact List.prefix_rfl
    | appendEntries dest leader r => exact absurd rfl (he dest leader r now)
    | appendEntriesResponse dest v r =>
      simp only [react, receive, KRaftCluster.handleAppendEntriesResponse]
      split_ifs
      · exact List.prefix_rfl
      · obtain ⟨n, heq⟩ := updateCommitIndex_frame
          { s.raft with
            nextIndex := Function.update s.raft.nextIndex v (some (r.matchIndex + 1))
            matchIndex := Function.update s.raft.matchIndex v (some r.matchIndex) } s.config.peers
        rw [heq]
      · exact List.prefix_rfl
      · exact List.prefix_rfl

/-- Only applying changes what is applied. -/
theorem react_registry (s : ClusterState N) {e : Event N} (he : ∀ p, e ≠ .applyCommitted p) :
    (react s e).1.registry = s.registry ∧
      (react s e).1.raft.lastApplied = s.raft.lastApplied := by
  cases e with
  | startElection p now => exact ⟨rfl, rfl⟩
  | heartbeats p => exact ⟨rfl, rfl⟩
  | propose p command now =>
    simp only [react, KRaftCluster.propose]
    cases s.raft.role <;> exact ⟨rfl, rfl⟩
  | applyCommitted p => exact absurd rfl (he p)
  | deliver m now =>
    cases m with
    | voteRequest dest r =>
      simp only [react, receive, KRaftCluster.handleVoteRequest]
      rcases handleVoteRequest_cases s.raft r with heq | ⟨heq, -⟩ <;> rw [heq] <;> exact ⟨rfl, rfl⟩
    | voteResponse dest v r =>
      simp only [react, receive, KRaftCluster.handleVoteResponse]
      split_ifs <;> exact ⟨rfl, rfl⟩
    | appendEntries dest leader r =>
      have hfollow : ∀ t, (followTerm s.raft t).lastApplied = s.raft.lastApplied := by
        intro t
        unfold followTerm
        split_ifs <;> rfl
      have hraft := (handleAppendEntries_follow (s := s) now r).1
      have hlast : (handleAppendEntries s.raft r).1.lastApplied = s.raft.lastApplied := by
        rcases handleAppendEntries_cases s.raft r with
          ⟨-, heq⟩ | ⟨-, -, n, heq⟩ | ⟨-, -, heq⟩ <;> rw [heq]
        · exact hfollow r.term
        · exact hfollow r.term
      constructor
      · simp only [react, receive, KRaftCluster.handleAppendEntries]
        split_ifs <;> rfl
      · exact (congrArg NodeState.lastApplied hraft).trans hlast
    | appendEntriesResponse dest v r =>
      simp only [react, receive, KRaftCluster.handleAppendEntriesResponse]
      split_ifs
      · exact ⟨rfl, rfl⟩
      · obtain ⟨n, heq⟩ := updateCommitIndex_frame
          { s.raft with
            nextIndex := Function.update s.raft.nextIndex v (some (r.matchIndex + 1))
            matchIndex := Function.update s.raft.matchIndex v (some r.matchIndex) } s.config.peers
        rw [heq]
        exact ⟨rfl, rfl⟩
      · exact ⟨rfl, rfl⟩
      · exact ⟨rfl, rfl⟩

/-- Requests for entries are sent as heartbeats only. -/
theorem request_of_react {s : ClusterState N} {e : Event N} {dest leader : N}
    {r : AppendEntriesRequest N} (hm : .appendEntries dest leader r ∈ (react s e).2) :
    e = .heartbeats leader ∧ s.raft.role = .leader ∧ r.term = s.raft.currentTerm ∧
      r.leaderCommit = s.raft.commitIndex := by
  cases e with
  | heartbeats p =>
    simp only [react, KRaftCluster.createHeartbeats, List.mem_map] at hm
    obtain ⟨⟨peer, request⟩, hmem, heq⟩ := hm
    cases heq
    split_ifs at hmem with hrole
    · simp at hmem
    · have hlead : s.raft.role = .leader := by simpa using hrole
      simp only [List.mem_filterMap, createAppendEntriesRequest, hlead] at hmem
      obtain ⟨q, -, hq⟩ := hmem
      cases hq
      exact ⟨rfl, hlead, rfl, rfl⟩
  | startElection p now => simp [react, KRaftCluster.startElection] at hm
  | propose p command now => simp [react] at hm
  | applyCommitted p => simp [react] at hm
  | deliver m now => cases m <;> simp [react, receive] at hm

/-! ### Settled prefixes -/

section Settled

variable [Fintype N] {h h' : History N LogEntry} {c c' : Cluster N} {s : ClusterState N}

omit [DecidableEq N] [Fintype N] in
theorem settled_of_prefix {qs : QuorumSystem N} {t : ℕ} {l m : List LogEntry}
    (hm : h.Settled qs t m) (hl : l <+: m) : h.Settled qs t l := by
  rcases hm with rfl | ⟨u, P, hu, hP, hpre⟩
  · exact Or.inl (List.prefix_nil.mp hl)
  · exact Or.inr ⟨u, P, hu, hP, hl.trans hpre⟩

/-- What the node counts as committed is settled, and so is what it has applied. -/
structure NodeCommits (h : History N LogEntry) (s : ClusterState N) : Prop where
  commit_le : s.raft.commitIndex ≤ s.raft.log.length
  committed : h.Settled (majority Finset.univ) s.raft.currentTerm
    (s.raft.log.take s.raft.commitIndex)
  applied : ∃ A, h.Settled (majority Finset.univ) s.raft.currentTerm A ∧
    A.length = s.raft.lastApplied ∧ s.registry = A.map LogEntry.command

/-- The commit index of a request is that of a settled part of the leader's log. -/
def Offers (h : History N LogEntry) : Message N → Prop
  | .appendEntries _ leader r => ∃ L, h.leader r.term = some (leader, L) ∧
      r.leaderCommit ≤ L.length ∧
      h.Settled (majority Finset.univ) r.term (L.take r.leaderCommit)
  | _ => True

theorem NodeCommits.mono (hx : Extends h h') (hs : NodeCommits h s) : NodeCommits h' s where
  commit_le := hs.commit_le
  committed := hs.committed.mono hx le_rfl
  applied := by
    obtain ⟨A, hA, hlen⟩ := hs.applied
    exact ⟨A, hA.mono hx le_rfl, hlen⟩

theorem Offers.mono (hx : Extends h h') {m : Message N} (hm : Offers h m) : Offers h' m := by
  cases m with
  | appendEntries dest leader r =>
    obtain ⟨L, hL, hle, hsettled⟩ := hm
    obtain ⟨rest, hL', -⟩ := hx.leader_grow hL
    refine ⟨L ++ rest, hL', by rw [List.length_append]; omega, ?_⟩
    rw [List.take_append_of_le_length hle]
    exact hsettled.mono hx le_rfl
  | voteRequest | voteResponse | appendEntriesResponse => trivial

theorem Refines.term_eq (hr : Refines c h) (p : N) :
    h.term p = (c.node p).raft.currentTerm := by
  have hterm := (hr.knows p).mirrors.term
  simpa only [view, hr.elections.node_id] using hterm

theorem Refines.log_eq (hr : Refines c h) (p : N) : h.log p = (c.node p).raft.log := by
  have hlog := (hr.knows p).mirrors.log
  simpa only [view, hr.elections.node_id] using hlog

/-- What a request for entries that is taken in leaves in the log is a part of the leader's. -/
theorem Refines.newLog_prefix (hr : Refines c h) {dest leader : N} {r : AppendEntriesRequest N}
    (hm : Carries h (.appendEntries dest leader r)) (hok : prevOk (c.node dest).raft.log r) :
    ∃ L, h.leader r.term = some (leader, L) ∧ newLog (c.node dest).raft.log r <+: L := by
  obtain ⟨-, X, L, hL, hXL, hcut⟩ := hm
  have hlog : h.Backed (c.node dest).raft.log := by
    rw [← hr.log_eq dest]
    exact hr.hist.coherent.log_backed dest
  have hX : newLog (c.node dest).raft.log r = X :=
    hcut.take_append hr.hist.coherent hlog
      ((hr.hist.coherent.leader_backed hL).of_isPrefix hXL) (entry_of_prevOk hok)
  exact ⟨L, hL, hX ▸ hXL⟩

/-! ### One reaction -/

/-- A request leaves a settled commit index. -/
theorem Refines.commit_request (hr : Refines c h) {dest leader : N} {r : AppendEntriesRequest N}
    (now : ℕ) (hs : NodeCommits h (c.node dest)) (hm : Carries h (.appendEntries dest leader r))
    (hoffer : Offers h (.appendEntries dest leader r)) {raft : NodeState N}
    (hraft : (KRaftCluster.handleAppendEntries now (c.node dest) r).1.raft = raft) :
    raft.commitIndex ≤ raft.log.length ∧
      h.Settled (majority Finset.univ) raft.currentTerm (raft.log.take raft.commitIndex) := by
  have hsub := (handleAppendEntries_follow (s := c.node dest) now r).1
  have hfollow : ∀ t, (followTerm (c.node dest).raft t).commitIndex =
      (c.node dest).raft.commitIndex := by
    intro t
    unfold followTerm
    split_ifs <;> rfl
  rw [hsub] at hraft
  subst hraft
  rcases handleAppendEntries_cases (c.node dest).raft r with
    ⟨-, heq⟩ | ⟨hle, -, n, heq⟩ | ⟨hle, hok, heq⟩
  · rw [heq]
    exact ⟨hs.commit_le, hs.committed⟩
  · rw [heq]
    dsimp only
    rw [hfollow, followTerm_log, followTerm_currentTerm hle]
    exact ⟨hs.commit_le, hs.committed.mono (Extends.refl h) hle⟩
  · rw [heq]
    dsimp only
    rw [followTerm_currentTerm hle]
    refine ⟨min_le_right _ _, ?_⟩
    obtain ⟨L, hL, hpre⟩ := hr.newLog_prefix hm hok
    obtain ⟨L', hL', -, hsettled⟩ := hoffer
    rw [hL, Option.some.injEq, Prod.mk.injEq] at hL'
    rw [← hL'.2] at hsettled
    rw [← List.take_eq_take_min]
    exact settled_of_prefix hsettled (hpre.take _)

/-- A success response leaves a settled commit index. -/
theorem Refines.commit_response (hr : Refines c h) {e : Event N} (hok : SoundLogs c e)
    (hstep : c.step e = some c') {dest v : N} {r : AppendEntriesResponse}
    (hs : NodeCommits h (c.node dest)) (hlead : (c.node dest).raft.role = .leader)
    (hraft : (c'.node dest).raft = updateCommitIndex
        { (c.node dest).raft with
          nextIndex := Function.update (c.node dest).raft.nextIndex v (some (r.matchIndex + 1))
          matchIndex := Function.update (c.node dest).raft.matchIndex v (some r.matchIndex) }
        (c.node dest).config.peers) :
    (c'.node dest).raft.commitIndex ≤ (c'.node dest).raft.log.length ∧
      h.Settled (majority Finset.univ) (c'.node dest).raft.currentTerm
        ((c'.node dest).raft.log.take (c'.node dest).raft.commitIndex) := by
  rcases updateCommitIndex_cases
    { (c.node dest).raft with
      nextIndex := Function.update (c.node dest).raft.nextIndex v (some (r.matchIndex + 1))
      matchIndex := Function.update (c.node dest).raft.matchIndex v (some r.matchIndex) }
    (c.node dest).config.peers with heq | ⟨-, hlt, ⟨entry, hentry, -⟩, heq⟩
  · rw [hraft, heq]
    exact ⟨hs.commit_le, hs.committed⟩
  · have hchosen := hr.commits hok hstep (p := dest) (by rw [hraft, heq]; exact hlead)
      (by rw [hraft, heq]; exact hlt)
    refine ⟨?_, hchosen.settled⟩
    rw [hraft, heq]
    have hlast := (List.getElem?_eq_some_iff.mp hentry).1
    dsimp only at hlast ⊢
    omega

/-- Whatever happens at a node leaves it with a settled commit index. -/
theorem Refines.commit_react (hr : Refines c h) {e : Event N} (hok : SoundLogs c e)
    (hstep : c.step e = some c') (hs : NodeCommits h (c.node e.node))
    (hoffer : ∀ m ∈ c.sent, Offers h m)
    (hterm : (c.node e.node).raft.currentTerm ≤ (c'.node e.node).raft.currentTerm) :
    (c'.node e.node).raft.commitIndex ≤ (c'.node e.node).raft.log.length ∧
      h.Settled (majority Finset.univ) (c'.node e.node).raft.currentTerm
        ((c'.node e.node).raft.log.take (c'.node e.node).raft.commitIndex) := by
  obtain ⟨hafter, hsent⟩ := Cluster.step_spec hstep
  have hnode : c'.node e.node = (react (c.node e.node) e).1 := by rw [hafter, Cluster.after_self]
  by_cases hrequest : ∃ dest leader r now, e = .deliver (.appendEntries dest leader r) now
  · obtain ⟨dest, leader, r, now, rfl⟩ := hrequest
    have hm := hsent _ now rfl
    exact hr.commit_request now hs (hr.carries _ hm) (hoffer _ hm) (congrArg _ hnode.symm)
  · have hlog : (c.node e.node).raft.log <+: (c'.node e.node).raft.log :=
      hnode ▸ react_log (c.node e.node) fun dest leader r now he =>
        hrequest ⟨dest, leader, r, now, he⟩
    rcases react_commitIndex (c.node e.node) e with
      hsame | ⟨dest, leader, r, now, he⟩ | ⟨dest, v, r, now, rfl, -, -, hlead, hraft⟩
    · rw [← hnode] at hsame
      obtain ⟨rest, hrest⟩ := hlog
      rw [hsame, ← hrest, List.take_append_of_le_length hs.commit_le, List.length_append]
      have hle := hs.commit_le
      exact ⟨by omega, hs.committed.mono (Extends.refl h) hterm⟩
    · exact absurd ⟨dest, leader, r, now, he⟩ hrequest
    · rw [← hnode] at hraft
      exact hr.commit_response hok hstep hs hlead hraft

omit [DecidableEq N] [Fintype N] in
/-- Applying moves the registry on to the commit index. -/
theorem applyCommitted_registry (s : ClusterState N)
    (hlt : s.raft.lastApplied < s.raft.commitIndex) :
    (KRaftCluster.applyCommitted s).raft.lastApplied = s.raft.commitIndex ∧
      (KRaftCluster.applyCommitted s).registry = s.registry ++
        ((s.raft.log.drop s.raft.lastApplied).take
          (s.raft.commitIndex - s.raft.lastApplied)).map LogEntry.command := by
  simp only [KRaftCluster.applyCommitted, applyCommittedEntries, if_neg (Nat.not_le.mpr hlt),
    true_and]

/-- What is applied next continues what has been applied. -/
theorem NodeCommits.apply (hh : HistInv (majority Finset.univ) h) (hs : NodeCommits h s) :
    ∃ A, h.Settled (majority Finset.univ) s.raft.currentTerm A ∧
      A.length = (KRaftCluster.applyCommitted s).raft.lastApplied ∧
      (KRaftCluster.applyCommitted s).registry = A.map LogEntry.command := by
  obtain ⟨A, hA, hlen, hregistry⟩ := hs.applied
  by_cases hlt : s.raft.lastApplied < s.raft.commitIndex
  · obtain ⟨hlast, hnew⟩ := applyCommitted_registry s hlt
    have hcommitted := List.length_take_of_le hs.commit_le
    have hpre : A <+: s.raft.log.take s.raft.commitIndex := by
      rcases hA.total hh.coherent hh.kept hs.committed with hpre | hpre
      · exact hpre
      · have hle := hpre.length_le
        omega
    have hA' : A = s.raft.log.take s.raft.lastApplied := by
      have htake := List.prefix_iff_eq_take.mp hpre
      rwa [hlen, List.take_take, min_eq_left hlt.le] at htake
    refine ⟨s.raft.log.take s.raft.commitIndex, hs.committed, by rw [hlast, hcommitted], ?_⟩
    rw [hnew, hregistry, hA', ← List.map_append, ← List.take_add, Nat.add_sub_cancel' hlt.le]
  · have hle : s.raft.commitIndex ≤ s.raft.lastApplied := by omega
    refine ⟨A, hA, ?_, ?_⟩
    · simpa [KRaftCluster.applyCommitted, applyCommittedEntries, hle] using hlen
    · simpa [KRaftCluster.applyCommitted, applyCommittedEntries, hle] using hregistry

/-! ### Runs -/

/-- The commit indices of nodes and requests are settled. -/
structure Commits (c : Cluster N) (h : History N LogEntry) : Prop where
  node : ∀ p, NodeCommits h (c.node p)
  offers : ∀ m ∈ c.sent, Offers h m

theorem Commits.step (hc : Commits c h) (hr : Refines c h) {e : Event N} (hok : SoundLogs c e)
    (hstep : c.step e = some c') (hr' : Refines c' h') (hx : Extends h h') : Commits c' h' := by
  have hterm : ∀ p, (c.node p).raft.currentTerm ≤ (c'.node p).raft.currentTerm := by
    intro p
    rw [← hr.term_eq, ← hr'.term_eq]
    exact hx.term_le p
  obtain ⟨hle, hcommitted⟩ := hr.commit_react hok hstep (hc.node e.node) hc.offers (hterm e.node)
  obtain ⟨hafter, -⟩ := Cluster.step_spec hstep
  have hnode : c'.node e.node = (react (c.node e.node) e).1 := by rw [hafter, Cluster.after_self]
  constructor
  · intro p
    by_cases hp : p = e.node
    · subst hp
      refine ⟨hle, hcommitted.mono hx le_rfl, ?_⟩
      by_cases happly : ∃ q, e = .applyCommitted q
      · obtain ⟨q, rfl⟩ := happly
        obtain ⟨A, hA, hlen, hregistry⟩ := (hc.node q).apply hr.hist
        refine ⟨A, hA.mono hx (hterm q), ?_, ?_⟩
        · rw [hlen, hnode]
          rfl
        · rw [hnode, ← hregistry]
          rfl
      · obtain ⟨hregistry, hlast⟩ := react_registry (c.node e.node) fun q he => happly ⟨q, he⟩
        obtain ⟨A, hA, hlen, hA'⟩ := (hc.node e.node).applied
        rw [← hnode] at hregistry hlast
        exact ⟨A, hA.mono hx (hterm e.node), hlen.trans hlast.symm, hregistry.trans hA'⟩
    · have hsame : c'.node p = c.node p := by rw [hafter, Cluster.after_of_ne _ hp]
      rw [hsame]
      exact (hc.node p).mono hx
  · intro m hm
    rw [hafter] at hm
    rcases List.mem_append.mp hm with hm | hm
    · exact (hc.offers m hm).mono hx
    · cases m with
      | appendEntries dest leader r =>
        obtain ⟨rfl, hlead, ht, hci⟩ := request_of_react hm
        dsimp only [Event.node] at ht hci
        have hL := (hr.knows leader).mirrors.leader (congrArg standing hlead)
        have hn := hc.node leader
        have hoffer : Offers h (.appendEntries dest leader r) := by
          refine ⟨(c.node leader).raft.log, ?_, ?_, ?_⟩
          · rw [ht]
            simpa only [view, hr.elections.node_id] using hL
          · rw [hci]
            exact hn.commit_le
          · rw [ht, hci]
            exact hn.committed
        exact hoffer.mono hx
      | voteRequest | voteResponse | appendEntriesResponse => trivial

variable {c₀ c₁ c₂ : Cluster N}

theorem Cluster.Initial.commits (hi : c₀.Initial) (r : Run Cluster.step SoundLogs c₀ c) :
    ∃ h, Refines c h ∧ Commits c h := by
  induction r with
  | refl =>
    refine ⟨_, hi.refines, fun p => ?_, fun m hm => by simp [hi.sent_nil] at hm⟩
    obtain ⟨now, heq⟩ := hi.created p
    rw [heq]
    exact ⟨le_rfl, Or.inl rfl, [], Or.inl rfl, rfl, rfl⟩
  | tail _ hnext ih =>
    obtain ⟨h, hr, hc⟩ := ih
    obtain ⟨e, hok, hstep⟩ := hnext
    obtain ⟨h', hr', hx⟩ := hr.step hok hstep
    exact ⟨h', hr', hc.step hr hok hstep hr' hx⟩

theorem Commits.run (hc : Commits c₁ h) (hr : Refines c₁ h)
    (r : Run Cluster.step SoundLogs c₁ c₂) : ∃ h', Refines c₂ h' ∧ Commits c₂ h' ∧ Extends h h' := by
  induction r with
  | refl => exact ⟨h, hr, hc, Extends.refl h⟩
  | tail _ hnext ih =>
    obtain ⟨h₁, hr₁, hc₁, hx₁⟩ := ih
    obtain ⟨e, hok, hstep⟩ := hnext
    obtain ⟨h₂, hr₂, hx₂⟩ := hr₁.step hok hstep
    exact ⟨h₂, hr₂, hc₁.step hr₁ hok hstep hr₂ hx₂, hx₁.trans hx₂⟩

/-- No node takes an applied command back. -/
theorem registry_prefix (r : Run Cluster.step SoundLogs c₁ c₂) (p : N) :
    (c₁.node p).registry <+: (c₂.node p).registry := by
  induction r with
  | refl => exact List.prefix_rfl
  | tail _ hnext ih =>
    obtain ⟨e, -, hstep⟩ := hnext
    obtain ⟨rfl, -⟩ := Cluster.step_spec hstep
    refine ih.trans ?_
    by_cases hp : p = e.node
    · subst hp
      rw [Cluster.after_self]
      by_cases happly : ∃ q, e = .applyCommitted q
      · obtain ⟨q, rfl⟩ := happly
        exact List.prefix_append _ _
      · rw [(react_registry _ fun q he => happly ⟨q, he⟩).1]
    · rw [Cluster.after_of_ne _ hp]

/-- In every run with sound logs the applied commands of any two nodes, at the same time or one
later than the other, are parts of one list; no node takes an applied command back, and the log of
every leader begins with what was applied anywhere in a term up to its own. -/
theorem registries_agree (hi : c₀.Initial) (r₁ : Run Cluster.step SoundLogs c₀ c₁)
    (r₂ : Run Cluster.step SoundLogs c₁ c₂) (p q : N) :
    ((c₁.node p).registry <+: (c₂.node q).registry ∨
      (c₂.node q).registry <+: (c₁.node p).registry) ∧
    (c₁.node p).registry <+: (c₂.node p).registry ∧
    ((c₂.node q).raft.role = .leader →
      (c₁.node p).raft.currentTerm ≤ (c₂.node q).raft.currentTerm →
      (c₁.node p).registry <+: (c₂.node q).raft.log.map LogEntry.command) := by
  obtain ⟨h₁, hr₁, hc₁⟩ := hi.commits r₁
  obtain ⟨h₂, hr₂, hc₂, hx⟩ := hc₁.run hr₁ r₂
  obtain ⟨A, hA, -, hAp⟩ := (hc₁.node p).applied
  obtain ⟨B, hB, -, hBq⟩ := (hc₂.node q).applied
  refine ⟨?_, registry_prefix r₂ p, fun hlead hterm => ?_⟩
  · rw [hAp, hBq]
    rcases (hA.mono hx le_rfl).total hr₂.hist.coherent hr₂.hist.kept hB with hpre | hpre
    · exact Or.inl (hpre.map _)
    · exact Or.inr (hpre.map _)
  · have hL := (hr₂.knows q).mirrors.leader (congrArg standing hlead)
    rw [hAp]
    exact ((hA.mono hx hterm).prefix_leader hr₂.hist.coherent hr₂.hist.kept le_rfl hL).map _

end Settled

/-- Node 0 applies the first entry of term 1, and node 1 then leads term 2. -/
theorem registries_agree_succession : ∃ c₁ c₂ : Cluster (Fin 3),
    (c₁.node 0).registry = [.noOp] ∧ (c₂.node 1).raft.currentTerm = 2 ∧
    (c₁.node 0).registry <+: (c₂.node 1).raft.log.map LogEntry.command := by
  obtain ⟨c₁, h₁, hregistry, hterm⟩ : ∃ c₁, exec (guarded SoundLogs Cluster.step) (started 3)
      (replicated ++ [acknowledged, .applyCommitted 0]) = some c₁ ∧
      (c₁.node 0).registry = [.noOp] ∧ (c₁.node 0).raft.currentTerm = 1 :=
    ⟨_, rfl, by decide, by decide⟩
  obtain ⟨c₂, h₂, hlead, hterm₂⟩ : ∃ c₂,
      exec (guarded SoundLogs Cluster.step) c₁ succession = some c₂ ∧
      (c₂.node 1).raft.role = .leader ∧ (c₂.node 1).raft.currentTerm = 2 := by
    cases h₁
    exact ⟨_, rfl, by decide, by decide⟩
  have hagree := registries_agree (started_initial 3) (run_of_exec h₁) (run_of_exec h₂) 0 1
  exact ⟨c₁, c₂, hregistry, hterm₂, hagree.2.2 hlead (by omega)⟩

end NextgenDatabases.Registry
