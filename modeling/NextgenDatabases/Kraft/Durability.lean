import NextgenDatabases.Kraft.ElectionSafety

/-!
# Committed entries

A follower rebuilds its log from whatever request it accepts, so a late request
can cut entries off and pull the commit index back. In the runs where no accepted
request does that, and leaders are elected and commit on current votes and
acknowledgements, committed entries stay and a majority holds them.
-/
namespace NextgenDatabases.Kraft

open Raft Raft.History Foundations

variable {N : Type*} [DecidableEq N]

/-- The elections, the logs and the commit indices of the run are sound. -/
def logDiscipline : Discipline where
  elections := True
  logs := True
  commits := True
  logs_elections := id
  commits_logs := id

/-- Leaders are elected and commit on what they hear in their own term. -/
def SoundLeaders (c : Cluster N) (e : Event N) : Prop :=
  FixedPeers c e ∧ FreshVotes c e ∧ FreshAcks c e

instance (c : Cluster N) : DecidablePred (SoundLeaders c) :=
  fun _ => inferInstanceAs (Decidable (_ ∧ _ ∧ _))

/-- The conditions for the durability of committed entries. -/
def SoundLogs (c : Cluster N) (e : Event N) : Prop :=
  SoundLeaders c e ∧ NoCut c e ∧ KeepsCommit c e

instance (c : Cluster N) : DecidablePred (SoundLogs c) :=
  fun _ => inferInstanceAs (Decidable (_ ∧ _ ∧ _))

omit [DecidableEq N] in
theorem SoundLogs.respects [Fintype N] {c : Cluster N} {e : Event N} (he : SoundLogs c e) :
    Respects logDiscipline c e where
  fixedPeers := he.1.1
  freshVotes := he.1.2.1
  freshAcks _ := he.1.2.2
  noCut _ := he.2.1
  keepsCommit _ := he.2.2

section Runs

variable [Fintype N] {c₀ c c₁ c₂ : Cluster N}

theorem Cluster.Initial.soundLogs (hi : c₀.Initial) (r : Run Cluster.step SoundLogs c₀ c) :
    ∃ h, Refines logDiscipline c h :=
  have ⟨h, ha⟩ := Refines.run (d := logDiscipline) trivial (r.mono fun _ _ he => he.respects)
    hi.refines
  ⟨h, ha.refines⟩

end Runs

/-! ### What a request does to the log -/

section Request

variable (now : ℕ) {s : State N} {r : AppendEntriesRequest N}

theorem receiveEntries_log (hok : prevOk s.log r = true) :
    (receiveEntries now s r).1.log = s.log.take r.prevLogIndex ++ r.entries ∧
      (receiveEntries now s r).1.commitIndex =
        min r.leaderCommit (s.log.take r.prevLogIndex ++ r.entries).length := by
  unfold receiveEntries
  dsimp only
  simp only [hok, if_true]
  obtain ⟨n, reg, peers, heq, -⟩ := applyCommitted_eq now
    { s with
      leaderId := some r.leaderId
      log := s.log.take r.prevLogIndex ++ r.entries
      commitIndex := min r.leaderCommit (s.log.take r.prevLogIndex ++ r.entries).length }
  rw [heq]
  exact ⟨rfl, rfl⟩

theorem handleAppendEntriesRpc_accepted (ha : Accepted s r) :
    (handleAppendEntriesRpc now s r).1.log = s.log.take r.prevLogIndex ++ r.entries ∧
      (handleAppendEntriesRpc now s r).1.commitIndex =
        min r.leaderCommit (s.log.take r.prevLogIndex ++ r.entries).length := by
  unfold handleAppendEntriesRpc
  dsimp only
  rw [if_neg (by have := ha.1; omega)]
  split_ifs
  · exact receiveEntries_log now (s := (stepDown s r.term).1) ha.2
  · exact receiveEntries_log now ha.2

theorem handleAppendEntriesRpc_refused (ha : ¬ Accepted s r) :
    (handleAppendEntriesRpc now s r).1.log = s.log ∧
      (handleAppendEntriesRpc now s r).1.commitIndex = s.commitIndex := by
  unfold handleAppendEntriesRpc
  dsimp only
  by_cases hstale : r.term < s.currentTerm
  · rw [if_pos hstale]
    exact ⟨rfl, rfl⟩
  · have hno : ¬ prevOk s.log r = true := fun hok => ha ⟨by omega, hok⟩
    rw [if_neg hstale]
    split_ifs
    · simp [receiveEntries, stepDown, hno]
    · simp [receiveEntries, hno]

/-- A request whose entries the follower has leaves it unchanged exactly when it is
refused, or it ends where the log ends and brings no other commit index. -/
theorem held_unchanged_iff (hheld : Held s r) :
    ((handleAppendEntriesRpc now s r).1.log = s.log ∧
      (handleAppendEntriesRpc now s r).1.commitIndex = s.commitIndex) ↔
    (Accepted s r → s.log.length = r.prevLogIndex + r.entries.length ∧
      min r.leaderCommit s.log.length = s.commitIndex) := by
  by_cases ha : Accepted s r
  · obtain ⟨hlog, hcommit⟩ := handleAppendEntriesRpc_accepted now ha
    have hle := prevLogIndex_le ha.2
    have hpre : s.log.take r.prevLogIndex ++ r.entries <+: s.log := by
      conv_rhs => rw [← List.take_append_drop r.prevLogIndex s.log]
      exact (List.prefix_append_right_inj _).mpr hheld
    have hlen : (s.log.take r.prevLogIndex ++ r.entries).length =
        r.prevLogIndex + r.entries.length := by
      rw [List.length_append, List.length_take_of_le hle]
    have hsame : s.log.take r.prevLogIndex ++ r.entries = s.log ↔
        s.log.length = r.prevLogIndex + r.entries.length := by
      rw [← hlen]
      exact ⟨fun heq => heq.symm ▸ rfl, fun heq => hpre.eq_of_length heq.symm⟩
    rw [hlog, hcommit]
    simp only [ha, true_imp_iff]
    constructor
    · rintro ⟨hl, hc⟩
      exact ⟨hsame.mp hl, by rw [← hc, hl]⟩
    · rintro ⟨hl, hc⟩
      exact ⟨hsame.mpr hl, by rw [hsame.mpr hl, hc]⟩
  · simp [ha, handleAppendEntriesRpc_refused now ha]

end Request

/-! ### Durability -/

/-- In the runs that meet the conditions no commit index falls, no log is shorter
than its commit index and no committed entry changes. A request whose entries are
held changes nothing exactly when it is refused or reaches the end of the log and
brings no other commit index. -/
theorem committed_durable [Fintype N] {c₀ : Cluster N} (hi : c₀.Initial) :
    (∀ c₁ c₂, Run Cluster.step SoundLogs c₀ c₁ → Run Cluster.step SoundLogs c₁ c₂ → ∀ p,
      (c₁.node p).commitIndex ≤ (c₂.node p).commitIndex ∧
      (c₂.node p).commitIndex ≤ (c₂.node p).log.length ∧
      (c₂.node p).log.take (c₁.node p).commitIndex =
        (c₁.node p).log.take (c₁.node p).commitIndex) ∧
    ∀ (s : State N) r now, Held s r →
      (((handleAppendEntriesRpc now s r).1.log = s.log ∧
        (handleAppendEntriesRpc now s r).1.commitIndex = s.commitIndex) ↔
      (Accepted s r → s.log.length = r.prevLogIndex + r.entries.length ∧
        min r.leaderCommit s.log.length = s.commitIndex)) := by
  refine ⟨fun c₁ c₂ r₁ r₂ p => ?_, fun s r now => held_unchanged_iff now⟩
  obtain ⟨h₁, hr₁⟩ := hi.soundLogs r₁
  obtain ⟨h₂, ha⟩ := hr₁.run (d := logDiscipline) trivial (r₂.mono fun _ _ he => he.respects)
  obtain ⟨hle, hkeep⟩ := ha.durable trivial p
  exact ⟨hle, ((ha.refines.node p).led trivial).commit_le, hkeep⟩

/-- Node 0 leads term 1 and has two entries replicated to node 1. -/
def replicated : List (Event (Fin 3)) :=
  [.electionTimeout 0 0,
    .deliver (.requestVote 1 { term := 1, candidateId := 0, lastLogIndex := 0, lastLogTerm := 0 }) 0,
    .deliver (.voteResponse 0 1 { term := 1, voteGranted := true }) 0,
    .propose 0 7 (.unmapOctad "") 0,
    .deliver (.appendEntries 1
      { term := 1, leaderId := 0, prevLogIndex := 0, prevLogTerm := 0, leaderCommit := 0,
        entries := [⟨1, 1, .noop, 0⟩, ⟨1, 2, .unmapOctad "", 0⟩] }) 0]

/-- Node 0 hears of it. -/
def replicatedAck : Event (Fin 3) :=
  .deliver (.appendEntriesResponse 0 1 { term := 1, success := true, matchIndex := 2 }) 0

/-- Node 1 learns from a heartbeat that the entries are committed. -/
def committedByTwo : List (Event (Fin 3)) :=
  replicated ++ [replicatedAck,
    .heartbeat 0,
    .deliver (.appendEntries 1
      { term := 1, leaderId := 0, prevLogIndex := 2, prevLogTerm := 1, leaderCommit := 2,
        entries := [] }) 0]

/-- Up to here nothing committed is lost. -/
theorem committed_durable_committedByTwo : ∃ c,
    exec (guarded SoundLogs Cluster.step) (started 3) committedByTwo = some c ∧
    (c.node 1).commitIndex = 2 ∧ (c.node 1).commitIndex ≤ (c.node 1).log.length := by
  obtain ⟨c, h, hcommit⟩ : ∃ c,
      exec (guarded SoundLogs Cluster.step) (started 3) committedByTwo = some c ∧
      (c.node 1).commitIndex = 2 := ⟨_, rfl, by decide⟩
  exact ⟨c, h, hcommit,
    ((committed_durable (started_initial 3)).1 (started 3) c .refl (run_of_exec h) 1).2.1⟩

/-- The first request of term 1 arrives late. -/
def lateRequest : List (Event (Fin 3)) :=
  [.deliver (.appendEntries 1
    { term := 1, leaderId := 0, prevLogIndex := 0, prevLogTerm := 0, leaderCommit := 0,
      entries := [⟨1, 1, .noop, 0⟩] }) 0]

/-- With legitimate leaders a late request lowers the commit index and cuts a
committed entry off. -/
theorem committed_lost : ¬ ∀ c₀ c₁ c₂ : Cluster (Fin 3), c₀.Initial →
    Run Cluster.step SoundLeaders c₀ c₁ → Run Cluster.step SoundLeaders c₁ c₂ → ∀ p,
      (c₁.node p).commitIndex ≤ (c₂.node p).commitIndex := by
  intro hall
  obtain ⟨c₁, h₁, ha⟩ : ∃ c₁,
      exec (guarded SoundLeaders Cluster.step) (started 3) committedByTwo = some c₁ ∧
      (c₁.node 1).commitIndex = 2 := ⟨_, rfl, by decide⟩
  obtain ⟨c₂, h₂, hb⟩ : ∃ c₂,
      exec (guarded SoundLeaders Cluster.step) c₁ lateRequest = some c₂ ∧
      (c₂.node 1).commitIndex = 0 := by
    cases h₁
    exact ⟨_, rfl, by decide⟩
  have := hall (started 3) c₁ c₂ (started_initial 3) (run_of_exec h₁) (run_of_exec h₂) 1
  omega

end NextgenDatabases.Kraft
