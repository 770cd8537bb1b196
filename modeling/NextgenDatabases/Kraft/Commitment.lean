import NextgenDatabases.Kraft.Durability

/-!
# What a leader commits

A leader takes the match index of any success response, also of one from an
earlier term whose entries the follower has lost since. In the runs where leaders
hear acknowledgements of their own term only, a majority holds what is committed.
-/
namespace NextgenDatabases.Kraft

open Raft Raft.History Foundations

variable {N : Type*} [DecidableEq N] [Fintype N]

/-- Elections and logs are sound; a commit index may fall. -/
def ackDiscipline : Discipline where
  elections := True
  logs := True
  commits := False
  logs_elections := id
  commits_logs := False.elim

/-- Leaders hear what holds in their own term and no request cuts a log off. -/
def SoundAcks (c : Cluster N) (e : Event N) : Prop :=
  SoundLeaders c e ∧ NoCut c e

instance (c : Cluster N) : DecidablePred (SoundAcks c) :=
  fun _ => inferInstanceAs (Decidable (_ ∧ _))

omit [DecidableEq N] [Fintype N] in
theorem SoundAcks.respects {c : Cluster N} {e : Event N} (he : SoundAcks c e) :
    Respects ackDiscipline c e where
  fixedPeers := he.1.1
  freshVotes := he.1.2.1
  freshAcks _ := he.1.2.2
  noCut _ := he.2
  keepsCommit := False.elim

theorem Cluster.Initial.soundAcks {c₀ c : Cluster N} (hi : c₀.Initial)
    (r : Run Cluster.step SoundAcks c₀ c) : ∃ h, Refines ackDiscipline c h :=
  have ⟨h, ha⟩ := Refines.run (d := ackDiscipline) trivial (r.mono fun _ _ he => he.respects)
    hi.refines
  ⟨h, ha.refines⟩

/-- In every state of a run that meets the conditions, a majority with the node
itself holds all that the node has committed. -/
theorem Refines.committed_held {c : Cluster N} {h : History N (Entry N)}
    (hr : Refines ackDiscipline c h) (p : N) :
    ∃ Q, IsMajority Finset.univ Q ∧ p ∈ Q ∧ ∀ q ∈ Q,
      (c.node p).log.take (c.node p).commitIndex <+: (c.node q).log := by
  have hlog : ∀ q, h.log q = (c.node q).log := fun q => by
    have := (hr.node q).tracks.log
    rwa [hr.node_id] at this
  have hself : (c.node p).log.take (c.node p).commitIndex <+: (c.node p).log := List.take_prefix _ _
  rcases ((hr.node p).led trivial).settled with hnil | ⟨u, P, -, hP, hpre⟩
  · refine ⟨Finset.univ, ⟨subset_rfl, ?_⟩, Finset.mem_univ p, fun q _ => ?_⟩
    · have := Finset.card_pos.mpr ⟨p, Finset.mem_univ p⟩
      omega
    · rw [hnil]
      exact List.nil_prefix
  · obtain ⟨Q, ⟨hsub, hcard⟩, hheld⟩ := hP.held hr.hist.coherent (hr.hist.kept trivial)
    refine ⟨insert p Q, ⟨Finset.subset_univ _, ?_⟩, Finset.mem_insert_self p Q, fun q hq => ?_⟩
    · have := Finset.card_le_card (Finset.subset_insert p Q)
      omega
    · rcases Finset.mem_insert.mp hq with rfl | hq
      · exact hself
      · exact hlog q ▸ hpre.trans (hheld q hq)

/-- Whenever a leader raises its commit index in a run that meets the conditions,
a majority with the leader holds the leader's entry at the new index, and every
match index of a leader was reported to it in its own term. -/
theorem commit_held_by_majority {c₀ : Cluster N} (hi : c₀.Initial) :
    (∀ c e c', Run Cluster.step SoundAcks c₀ c → SoundAcks c e → c.step e = some c' → ∀ p,
      (c'.node p).role = .leader → (c.node p).commitIndex < (c'.node p).commitIndex →
      ∃ Q entry, IsMajority Finset.univ Q ∧ p ∈ Q ∧
        (c'.node p).log[(c'.node p).commitIndex - 1]? = some entry ∧
        ∀ q ∈ Q, (c'.node q).log[(c'.node p).commitIndex - 1]? = some entry) ∧
    ∀ c, Run Cluster.step SoundAcks c₀ c → ∀ p, (c.node p).role = .leader → ∀ q n,
      (c.node p).matchIndex.lookup q = some n →
      n = 0 ∨ AckFrom (· ∈ c.sent) p q (c.node p).currentTerm n := by
  constructor
  · intro c e c' r hok hstep p _ hlt
    obtain ⟨h, hr⟩ := hi.soundAcks (r.trans (Run.single hok hstep))
    obtain ⟨Q, hQ, hp, hheld⟩ := hr.committed_held p
    have hle := ((hr.node p).led trivial).commit_le
    have hget : (c'.node p).log[(c'.node p).commitIndex - 1]? =
        some (c'.node p).log[(c'.node p).commitIndex - 1] := List.getElem?_eq_getElem (by omega)
    refine ⟨Q, _, hQ, hp, hget, fun q hq => getElem?_of_isPrefix (hheld q hq) ?_⟩
    rw [List.getElem?_take_of_lt (by omega), hget]
  · intro c r p hrole q n hq
    obtain ⟨h, hr⟩ := hi.soundAcks r
    have hack := (((hr.node p).led trivial).acked hrole q n hq).2.2
    rwa [hr.node_id] at hack

/-- A copy of the first request lowers the commit index of node 1, which then takes a
third entry. -/
def copiedRequest : List (Event (Fin 3)) :=
  committedByTwo ++ [
    .deliver (.appendEntries 1
      { term := 1, leaderId := 0, prevLogIndex := 0, prevLogTerm := 0, leaderCommit := 0,
        entries := [⟨1, 1, .noop, 0⟩, ⟨1, 2, .unmapOctad "", 0⟩] }) 0,
    .propose 0 8 (.unmapOctad "") 0,
    .deliver (.appendEntries 1
      { term := 1, leaderId := 0, prevLogIndex := 2, prevLogTerm := 1, leaderCommit := 2,
        entries := [⟨1, 3, .unmapOctad "", 0⟩] }) 0]

/-- Node 0 hears of the third entry. -/
def thirdAck : Event (Fin 3) :=
  .deliver (.appendEntriesResponse 0 1 { term := 1, success := true, matchIndex := 3 }) 0

/-- Node 0 commits its third entry on the acknowledgement of node 1. -/
theorem commit_held_thirdAck : ∃ (c : Cluster (Fin 3)) (Q : Finset (Fin 3))
    (entry : Entry (Fin 3)), (c.node 0).commitIndex = 3 ∧ IsMajority Finset.univ Q ∧ 0 ∈ Q ∧
    ∀ q ∈ Q, (c.node q).log[(c.node 0).commitIndex - 1]? = some entry := by
  obtain ⟨c, h, hok, hcommit⟩ : ∃ c,
      exec (guarded SoundAcks Cluster.step) (started 3) copiedRequest = some c ∧
      SoundAcks c thirdAck ∧ (c.node 0).commitIndex = 2 := ⟨_, rfl, by decide, by decide⟩
  obtain ⟨c', h', hrole, hcommit'⟩ : ∃ c', c.step thirdAck = some c' ∧
      (c'.node 0).role = .leader ∧ (c'.node 0).commitIndex = 3 := by
    cases h
    exact ⟨_, rfl, by decide, by decide⟩
  obtain ⟨Q, entry, hQ, hmem, -, hheld⟩ := (commit_held_by_majority (started_initial 3)).1 c _ c'
    (run_of_exec h) hok h' 0 hrole (by omega)
  exact ⟨c', Q, entry, hcommit', hQ, hmem, hheld⟩

/-- Node 1 acknowledges two entries to node 0 in term 1 and loses them to node 2 in
term 2. Node 0 leads term 3 and has its second entry on node 3 only. -/
def leaderAgain : List (Event (Fin 5)) :=
  [.electionTimeout 0 0,
    .deliver (.requestVote 1 { term := 1, candidateId := 0, lastLogIndex := 0, lastLogTerm := 0 }) 0,
    .deliver (.requestVote 2 { term := 1, candidateId := 0, lastLogIndex := 0, lastLogTerm := 0 }) 0,
    .deliver (.voteResponse 0 1 { term := 1, voteGranted := true }) 0,
    .deliver (.voteResponse 0 2 { term := 1, voteGranted := true }) 0,
    .propose 0 7 (.unmapOctad "") 0,
    .deliver (.appendEntries 1
      { term := 1, leaderId := 0, prevLogIndex := 0, prevLogTerm := 0, leaderCommit := 0,
        entries := [⟨1, 1, .noop, 0⟩, ⟨1, 2, .unmapOctad "", 0⟩] }) 0,
    .electionTimeout 2 0,
    .deliver (.requestVote 3 { term := 2, candidateId := 2, lastLogIndex := 0, lastLogTerm := 0 }) 0,
    .deliver (.requestVote 4 { term := 2, candidateId := 2, lastLogIndex := 0, lastLogTerm := 0 }) 0,
    .deliver (.voteResponse 2 3 { term := 2, voteGranted := true }) 0,
    .deliver (.voteResponse 2 4 { term := 2, voteGranted := true }) 0,
    .deliver (.appendEntries 0
      { term := 2, leaderId := 2, prevLogIndex := 0, prevLogTerm := 0, leaderCommit := 0,
        entries := [⟨2, 1, .noop, 0⟩] }) 0,
    .deliver (.appendEntries 1
      { term := 2, leaderId := 2, prevLogIndex := 0, prevLogTerm := 0, leaderCommit := 0,
        entries := [⟨2, 1, .noop, 0⟩] }) 0,
    .deliver (.appendEntries 3
      { term := 2, leaderId := 2, prevLogIndex := 0, prevLogTerm := 0, leaderCommit := 0,
        entries := [⟨2, 1, .noop, 0⟩] }) 0,
    .electionTimeout 0 0,
    .deliver (.requestVote 1 { term := 3, candidateId := 0, lastLogIndex := 1, lastLogTerm := 2 }) 0,
    .deliver (.requestVote 3 { term := 3, candidateId := 0, lastLogIndex := 1, lastLogTerm := 2 }) 0,
    .deliver (.voteResponse 0 1 { term := 3, voteGranted := true }) 0,
    .deliver (.voteResponse 0 3 { term := 3, voteGranted := true }) 0,
    .deliver (.appendEntries 3
      { term := 3, leaderId := 0, prevLogIndex := 1, prevLogTerm := 2, leaderCommit := 0,
        entries := [⟨3, 2, .noop, 0⟩] }) 0,
    .deliver (.appendEntriesResponse 0 3 { term := 3, success := true, matchIndex := 2 }) 0]

/-- The acknowledgement of term 1 arrives. -/
def staleAck : Event (Fin 5) :=
  .deliver (.appendEntriesResponse 0 1 { term := 1, success := true, matchIndex := 2 }) 0

/-- A stale acknowledgement makes a leader commit what two nodes of five hold. -/
theorem commit_without_majority : ¬ ∀ (c₀ c : Cluster (Fin 5)) e c', c₀.Initial →
    Run Cluster.step FixedPeers c₀ c → FixedPeers c e → c.step e = some c' → ∀ p,
      (c'.node p).role = .leader → (c.node p).commitIndex < (c'.node p).commitIndex →
      ∃ Q entry, IsMajority Finset.univ Q ∧ p ∈ Q ∧
        (c'.node p).log[(c'.node p).commitIndex - 1]? = some entry ∧
        ∀ q ∈ Q, (c'.node q).log[(c'.node p).commitIndex - 1]? = some entry := by
  intro hall
  obtain ⟨c, h₁, ha⟩ : ∃ c, exec (guarded FixedPeers Cluster.step) (started 5) leaderAgain = some c ∧
      (c.node 0).commitIndex = 0 := ⟨_, rfl, by decide⟩
  obtain ⟨c', h₂, hrole, hcommit, hholds⟩ : ∃ c', c.step staleAck = some c' ∧
      (c'.node 0).role = .leader ∧ (c'.node 0).commitIndex = 2 ∧
      ∀ q : Fin 5, ((c'.node q).log[1]?).isSome → q = 0 ∨ q = 3 := by
    cases h₁
    exact ⟨_, rfl, by decide, by decide, by decide⟩
  obtain ⟨Q, entry, hQ, -, -, hheld⟩ := hall (started 5) c staleAck c' (started_initial 5)
    (run_of_exec h₁) trivial h₂ 0 hrole (by omega)
  have hsub : Q ⊆ {0, 3} := fun q hq => by
    have hq' := hheld q hq
    rw [hcommit] at hq'
    have := hholds q (by rw [hq']; rfl)
    simpa using this
  have hcard := Finset.card_le_card hsub
  have hmaj := hQ.2
  simp only [Finset.card_univ, Fintype.card_fin] at hmaj
  have : ({0, 3} : Finset (Fin 5)).card = 2 := by decide
  omega

end NextgenDatabases.Kraft
