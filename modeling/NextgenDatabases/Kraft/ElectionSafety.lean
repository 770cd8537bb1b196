import NextgenDatabases.Kraft.Refinement
import Mathlib.Data.Fintype.Basic

/-!
# Election safety

A candidate counts a granted vote whatever the term it was granted in. In the
runs where no vote of an older term reaches a candidate, a term has one leader.
-/
namespace NextgenDatabases.Kraft

open Raft Raft.History Foundations

variable {N : Type*} [DecidableEq N]

/-- The elections of the run are sound; nothing is asked of the logs. -/
def electionDiscipline : Discipline where
  elections := True
  logs := False
  commits := False
  logs_elections := False.elim
  commits_logs := id

/-- The conditions for election safety. -/
def SoundElections (c : Cluster N) (e : Event N) : Prop :=
  FixedPeers c e ∧ FreshVotes c e

instance (c : Cluster N) : DecidablePred (SoundElections c) :=
  fun _ => inferInstanceAs (Decidable (_ ∧ _))

omit [DecidableEq N] in
theorem SoundElections.respects [Fintype N] {c : Cluster N} {e : Event N}
    (he : SoundElections c e) : Respects electionDiscipline c e where
  fixedPeers := he.1
  freshVotes := he.2
  freshAcks := False.elim
  noCut := False.elim
  keepsCommit := False.elim

/-- A node that runs for election or leads counts its own vote and votes granted
to it in its current term. -/
def CountedFresh (c : Cluster N) : Prop :=
  ∀ p, (c.node p).role ≠ .follower → ∀ v ∈ (c.node p).votesReceived,
    v = p ∨ VoteFrom (· ∈ c.sent) p v (c.node p).currentTerm

/-! ### One leader a term -/

section Safety

variable [Fintype N]

theorem Cluster.Initial.sound {c₀ c : Cluster N} (hi : c₀.Initial)
    (r : Run Cluster.step SoundElections c₀ c) :
    ∃ h, Refines electionDiscipline c h :=
  have ⟨h, ha⟩ := Refines.run (d := electionDiscipline) trivial
    (r.mono fun _ _ he => he.respects) hi.refines
  ⟨h, ha.refines⟩

/-- In a run without membership changes in which no granted vote of an older term
reaches a candidate, two nodes that lead the same term, now or later, are the same
node, and every counted vote was granted in the term it is counted for. -/
theorem election_safety {c₀ : Cluster N} (hi : c₀.Initial) :
    (∀ c₁ c₂, Run Cluster.step SoundElections c₀ c₁ → Run Cluster.step SoundElections c₁ c₂ →
      ∀ a b, (c₁.node a).role = .leader → (c₂.node b).role = .leader →
        (c₁.node a).currentTerm = (c₂.node b).currentTerm → a = b) ∧
    ∀ c, Run Cluster.step SoundElections c₀ c → CountedFresh c := by
  constructor
  · intro c₁ c₂ r₁ r₂ a b ha hb hterm
    obtain ⟨h₁, hr₁⟩ := hi.sound r₁
    obtain ⟨h₂, hadv⟩ := hr₁.run (d := electionDiscipline) trivial
      (r₂.mono fun _ _ he => he.respects)
    -- the first leader is still recorded when the second one leads
    obtain ⟨t, hL₁, -⟩ := hadv.grow.leader_grow ((hr₁.node a).tracks.leader ha)
    have hL₂ := (hadv.refines.node b).tracks.leader hb
    rw [hterm, hL₂, Option.some.injEq, Prod.mk.injEq, hr₁.node_id, hadv.refines.node_id] at hL₁
    exact hL₁.1.symm
  · intro c r p hp v hv
    obtain ⟨h, hr⟩ := hi.sound r
    have hsrc := ((hr.node p).counted trivial hp v hv).2
    rwa [hr.node_id] at hsrc

end Safety

/-- Nodes that have just been started without a log on disk. -/
def started (n : ℕ) : Cluster (Fin n) where
  node p := State.fresh p ((List.finRange n).erase p) none
  sent := []
  calls := []
  replies := []

theorem started_initial (n : ℕ) : (started n).Initial where
  peers_nodup p := (List.nodup_finRange n).erase p
  mem_peers p q := by simp [started, State.fresh, (List.nodup_finRange n).mem_erase_iff]
  node_fresh _ := rfl
  sent_nil := rfl
  calls_nil := rfl
  replies_nil := rfl

/-- Node 0 wins term 1 with the vote of node 1. -/
def firstWinner : List (Event (Fin 3)) :=
  [.electionTimeout 0 0,
    .deliver (.requestVote 1 { term := 1, candidateId := 0, lastLogIndex := 0, lastLogTerm := 0 }) 0,
    .deliver (.voteResponse 0 1 { term := 1, voteGranted := true }) 0]

/-- Node 2 then wins term 2 with the vote that node 1 casts in that term. -/
def secondWinner : List (Event (Fin 3)) :=
  [.electionTimeout 2 0,
    .electionTimeout 2 0,
    .deliver (.requestVote 1 { term := 2, candidateId := 2, lastLogIndex := 0, lastLogTerm := 0 }) 0,
    .deliver (.voteResponse 2 1 { term := 2, voteGranted := true }) 0]

/-- Node 0 keeps term 1 for itself while node 2 wins term 2, and all counted votes
are of the term they are counted for. -/
theorem election_safety_secondWinner : ∃ c₁ c₂,
    exec (guarded SoundElections Cluster.step) (started 3) firstWinner = some c₁ ∧
    exec (guarded SoundElections Cluster.step) c₁ secondWinner = some c₂ ∧
    (c₁.node 0).role = .leader ∧ (c₁.node 0).currentTerm = 1 ∧
    (c₂.node 2).role = .leader ∧ (c₂.node 2).currentTerm = 2 ∧ 1 ∈ (c₂.node 2).votesReceived ∧
    (∀ b, (c₂.node b).role = .leader → (c₂.node b).currentTerm = 1 → b = 0) ∧
    CountedFresh c₂ := by
  obtain ⟨c₁, h₁, hrole, hterm⟩ : ∃ c₁,
      exec (guarded SoundElections Cluster.step) (started 3) firstWinner = some c₁ ∧
      (c₁.node 0).role = .leader ∧ (c₁.node 0).currentTerm = 1 := ⟨_, rfl, by decide, by decide⟩
  obtain ⟨c₂, h₂, hsecond⟩ : ∃ c₂,
      exec (guarded SoundElections Cluster.step) c₁ secondWinner = some c₂ ∧
      ((c₂.node 2).role = .leader ∧ (c₂.node 2).currentTerm = 2 ∧
        1 ∈ (c₂.node 2).votesReceived) := by
    cases h₁
    exact ⟨_, rfl, by decide⟩
  have hsafe := election_safety (started_initial 3)
  refine ⟨c₁, c₂, h₁, h₂, hrole, hterm, hsecond.1, hsecond.2.1, hsecond.2.2, fun b hb ht => ?_,
    hsafe.2 c₂ ((run_of_exec h₁).trans (run_of_exec h₂))⟩
  exact (hsafe.1 c₁ c₂ (run_of_exec h₁) (run_of_exec h₂) 0 b hrole hb (hterm.trans ht.symm)).symm

/-- Node 0 counts a vote of term 1 in term 2 and leads term 2. -/
def staleVote : List (Event (Fin 3)) :=
  [.electionTimeout 0 0,
    .deliver (.requestVote 1 { term := 1, candidateId := 0, lastLogIndex := 0, lastLogTerm := 0 }) 0,
    .electionTimeout 0 0,
    .deliver (.voteResponse 0 1 { term := 1, voteGranted := true }) 0]

/-- A delayed vote gives term 2 two leaders. -/
theorem two_leaders_of_one_term : ¬ ∀ c₀ c₁ c₂ : Cluster (Fin 3), c₀.Initial →
    Run Cluster.step FixedPeers c₀ c₁ → Run Cluster.step FixedPeers c₁ c₂ →
    ∀ a b, (c₁.node a).role = .leader → (c₂.node b).role = .leader →
      (c₁.node a).currentTerm = (c₂.node b).currentTerm → a = b := by
  intro hall
  obtain ⟨c₁, h₁, ha⟩ : ∃ c₁, exec (guarded FixedPeers Cluster.step) (started 3) staleVote = some c₁ ∧
      (c₁.node 0).role = .leader ∧ (c₁.node 0).currentTerm = 2 := ⟨_, rfl, by decide, by decide⟩
  obtain ⟨c₂, h₂, hb⟩ : ∃ c₂, exec (guarded FixedPeers Cluster.step) c₁ secondWinner = some c₂ ∧
      (c₂.node 2).role = .leader ∧ (c₂.node 2).currentTerm = 2 := by
    cases h₁
    exact ⟨_, rfl, by decide, by decide⟩
  have := hall (started 3) c₁ c₂ (started_initial 3) (run_of_exec h₁) (run_of_exec h₂) 0 2 ha.1 hb.1
    (ha.2.trans hb.2.symm)
  exact absurd this (by decide)

end NextgenDatabases.Kraft
