import NextgenDatabases.Kraft.Cluster
import NextgenDatabases.Raft.Completeness

/-!
# Nodes and messages against the history

What the state of a node and a message in flight say about the history of the
cluster, and how the events of the history change it.
-/
namespace NextgenDatabases.Kraft

open Raft Raft.History Foundations

variable {N : Type*} [DecidableEq N] {h : History N (Entry N)} {s : State N}

/-! ### Relating a node and a message to the history -/

/-- What the state of a node says about the history. -/
structure Tracks (h : History N (Entry N)) (s : State N) : Prop where
  term : h.term s.nodeId = s.currentTerm
  log : h.log s.nodeId = s.log
  vote : s.votedFor = (h.vote s.nodeId s.currentTerm).map Prod.fst
  candidate : s.role = .candidate → ∃ l, h.vote s.nodeId s.currentTerm = some (s.nodeId, l) ∧
    (l = s.log ∨ ∃ x, h.leader s.currentTerm = some x)
  leader : s.role = .leader → h.leader s.currentTerm = some (s.nodeId, s.log)
  leading : ∀ L, h.leader s.currentTerm = some (s.nodeId, L) → s.role = .leader

/-- The request repeats the log `X` from `prevLogIndex` on. -/
def Segment (X : List (Entry N)) (r : AppendEntriesRequest N) : Prop :=
  r.entries = X.drop r.prevLogIndex ∧
    (0 < r.prevLogIndex → r.prevLogTerm = ((X[r.prevLogIndex - 1]?).map Entry.term).getD 0)

/-- What a message says about the history. -/
def Carries (h : History N (Entry N)) : Message N → Prop
  | .requestVote _ r => ∃ l, h.vote r.candidateId r.term = some (r.candidateId, l) ∧
      r.lastLogIndex = l.length ∧ r.lastLogTerm = lastTerm l
  | .voteResponse dest fromPeer r => r.term ≤ h.term fromPeer ∧
      (r.voteGranted = true → ∃ l, h.vote fromPeer r.term = some (dest, l))
  | .appendEntries dest r => dest ≠ r.leaderId ∧
      ∃ X L, h.leader r.term = some (r.leaderId, L) ∧ X <+: L ∧ Segment X r
  | .appendEntriesResponse dest fromPeer r => fromPeer ≠ dest ∧ r.term ≤ h.term fromPeer

omit [DecidableEq N] in
theorem Carries.mono {h' : History N (Entry N)} (hx : Extends h h') {m : Message N}
    (hm : Carries h m) : Carries h' m := by
  cases m with
  | requestVote dest r =>
    obtain ⟨l, hl, hlast⟩ := hm
    exact ⟨l, hx.vote_keep hl, hlast⟩
  | voteResponse dest fromPeer r =>
    refine ⟨hm.1.trans (hx.term_le _), fun hg => ?_⟩
    obtain ⟨l, hl⟩ := hm.2 hg
    exact ⟨l, hx.vote_keep hl⟩
  | appendEntries dest r =>
    obtain ⟨hne, X, L, hL, hpre, hseg⟩ := hm
    obtain ⟨t, ht, -⟩ := hx.leader_grow hL
    exact ⟨hne, X, L ++ t, ht, hpre.trans (List.prefix_append _ _), hseg⟩
  | appendEntriesResponse dest fromPeer r => exact ⟨hm.1, hm.2.trans (hx.term_le _)⟩

/-- An event at one node leaves the others as they were. -/
theorem Tracks.frame (hs : Tracks h s) {e : Raft.Event N (Entry N)} (he : h.Allowed e)
    (hne : e.actor ≠ s.nodeId) : Tracks (h.apply e) s := by
  cases e with
  | adopt p t =>
    have hne' : s.nodeId ≠ p := Ne.symm hne
    exact { hs with term := by simpa [apply, Function.update_of_ne hne'] using hs.term }
  | stand p =>
    have hne' : s.nodeId ≠ p := Ne.symm hne
    have hv : ∀ t, (h.apply (.stand p)).vote s.nodeId t = h.vote s.nodeId t := by
      simp [apply, record, Function.update_of_ne hne']
    exact { hs with
      term := by simpa [apply, Function.update_of_ne hne'] using hs.term
      vote := by rw [hv]; exact hs.vote
      candidate := by rw [hv]; exact hs.candidate }
  | grant v c =>
    have hne' : s.nodeId ≠ v := Ne.symm hne
    have hv : ∀ t, (h.apply (.grant v c)).vote s.nodeId t = h.vote s.nodeId t := by
      simp [apply, record, Function.update_of_ne hne']
    exact { hs with
      vote := by rw [hv]; exact hs.vote
      candidate := by rw [hv]; exact hs.candidate }
  | elect c =>
    have hne' : s.nodeId ≠ c := Ne.symm hne
    by_cases ht : s.currentTerm = h.term c
    · have hnone : h.leader s.currentTerm = none := ht ▸ he.1
      have hlead : (h.apply (.elect c)).leader s.currentTerm = some (c, h.log c) := by
        simp [apply, ht]
      exact { hs with
        candidate := fun hr => by
          obtain ⟨l, hl, -⟩ := hs.candidate hr
          exact ⟨l, hl, Or.inr ⟨_, hlead⟩⟩
        leader := fun hr => by
          have := hs.leader hr
          simp [hnone] at this
        leading := fun L hL => by
          rw [hlead, Option.some.injEq, Prod.mk.injEq] at hL
          exact absurd hL.1 hne }
    · have hlead : (h.apply (.elect c)).leader s.currentTerm = h.leader s.currentTerm := by
        simp [apply, Function.update_of_ne ht]
      exact { hs with
        candidate := by rw [hlead]; exact hs.candidate
        leader := by rw [hlead]; exact hs.leader
        leading := by rw [hlead]; exact hs.leading }
  | append c e =>
    have hne' : s.nodeId ≠ c := Ne.symm hne
    have hlog : (h.apply (.append c e)).log s.nodeId = h.log s.nodeId := by
      simp [apply, Function.update_of_ne hne']
    by_cases ht : s.currentTerm = h.term c
    · have hold : h.leader s.currentTerm = some (c, h.log c) := ht ▸ he.1
      have hlead : (h.apply (.append c e)).leader s.currentTerm = some (c, h.log c ++ [e]) := by
        simp [apply, ht]
      exact { hs with
        log := hlog.trans hs.log
        candidate := fun hr => by
          obtain ⟨l, hl, -⟩ := hs.candidate hr
          exact ⟨l, hl, Or.inr ⟨_, hlead⟩⟩
        leader := fun hr => by
          have := hs.leader hr
          rw [hold, Option.some.injEq, Prod.mk.injEq] at this
          exact absurd this.1 hne
        leading := fun L hL => by
          rw [hlead, Option.some.injEq, Prod.mk.injEq] at hL
          exact absurd hL.1 hne }
    · have hlead : (h.apply (.append c e)).leader s.currentTerm = h.leader s.currentTerm := by
        simp [apply, Function.update_of_ne ht]
      exact { hs with
        log := hlog.trans hs.log
        candidate := by rw [hlead]; exact hs.candidate
        leader := by rw [hlead]; exact hs.leader
        leading := by rw [hlead]; exact hs.leading }
  | accept p l =>
    have hne' : s.nodeId ≠ p := Ne.symm hne
    exact { hs with log := by simpa [apply, Function.update_of_ne hne'] using hs.log }

/-! ### The events of a node -/

theorem Tracks.adopt (hc : Coherent h) (hs : Tracks h s) {t : ℕ} (ht : s.currentTerm < t) :
    h.Allowed (.adopt s.nodeId t) ∧ Tracks (h.apply (.adopt s.nodeId t)) (stepDown s t).1 := by
  have hlt : h.term s.nodeId < t := hs.term ▸ ht
  refine ⟨hlt.le, ?_⟩
  exact {
    term := by simp [apply, stepDown]
    log := hs.log
    vote := by
      cases hv : h.vote s.nodeId t with
      | none => simp [apply, stepDown, hv]
      | some x =>
        have := (hc.voted_term hv).2
        omega
    candidate := by simp [stepDown]
    leader := by simp [stepDown]
    leading := fun L hL => by
      have := hc.leader_le (h := h) hL
      simp only [stepDown] at this
      omega }

theorem Tracks.grant (hs : Tracks h s) {c : N} (hnone : s.votedFor = none)
    (hc : ∃ l, h.vote c s.currentTerm = some (c, l) ∧ UpToDate l s.log) :
    h.Allowed (.grant s.nodeId c) ∧
      Tracks (h.apply (.grant s.nodeId c)) { s with votedFor := some c } := by
  have hv : h.vote s.nodeId s.currentTerm = none := by
    have := hs.vote
    rw [hnone] at this
    simpa using this.symm
  refine ⟨?_, ?_⟩
  · simp only [Allowed, hs.term, hs.log]
    exact ⟨hv, hc⟩
  · exact { hs with
      vote := by simp [apply, hs.term]
      candidate := fun hr => by
        obtain ⟨l, hl, -⟩ := hs.candidate hr
        simp [hv] at hl }

/-- The state of a node that has just become a candidate. -/
def candidateState (s : State N) : State N :=
  { s with
    role := .candidate
    currentTerm := s.currentTerm + 1
    votedFor := some s.nodeId
    votesReceived := {s.nodeId}
    electionCount := s.electionCount + 1 }

theorem Tracks.stand (hc : Coherent h) (hs : Tracks h s) :
    Tracks (h.apply (.stand s.nodeId)) (candidateState s) := by
  have hv : (h.apply (.stand s.nodeId)).vote s.nodeId (s.currentTerm + 1) =
      some (s.nodeId, s.log) := by
    simp [apply, hs.term, hs.log]
  exact {
    term := by simp [apply, candidateState, hs.term]
    log := hs.log
    vote := by simp [candidateState, hv]
    candidate := fun _ => ⟨s.log, hv, Or.inl rfl⟩
    leader := by simp [candidateState]
    leading := fun L hL => by
      have := hc.leader_le (h := h) hL
      simp only [candidateState, hs.term] at this
      omega }

theorem Tracks.append (hs : Tracks h s) (hr : s.role = .leader) {e : Entry N}
    (he : e.term = s.currentTerm) :
    h.Allowed (.append s.nodeId e) ∧
      Tracks (h.apply (.append s.nodeId e)) { s with log := s.log ++ [e] } := by
  have hlead : (h.apply (.append s.nodeId e)).leader s.currentTerm =
      some (s.nodeId, s.log ++ [e]) := by
    simp [apply, hs.term, hs.log]
  refine ⟨?_, ?_⟩
  · simp only [Allowed, hs.term, hs.log]
    exact ⟨hs.leader hr, he⟩
  · exact { hs with
      log := by simp [apply, hs.log]
      candidate := by simp [hr]
      leader := fun _ => hlead
      leading := fun _ _ => hr }

theorem Tracks.elect (hs : Tracks h s) (hr : s.role = .candidate)
    (hnone : h.leader s.currentTerm = none) :
    h.Allowed (.elect s.nodeId) ∧
      Tracks (h.apply (.elect s.nodeId)) { s with role := .leader } := by
  obtain ⟨l, hl, hlog⟩ := hs.candidate hr
  have hlog' : l = s.log := by
    rcases hlog with hlog | ⟨x, hx⟩
    · exact hlog
    · simp [hnone] at hx
  have hlead : (h.apply (.elect s.nodeId)).leader s.currentTerm = some (s.nodeId, s.log) := by
    simp [apply, hs.term, hs.log]
  refine ⟨?_, ?_⟩
  · simp only [Allowed, hs.term, hs.log]
    exact ⟨hnone, hlog' ▸ hl⟩
  · exact { hs with
      candidate := by simp
      leader := fun _ => hlead
      leading := fun _ _ => rfl }

theorem Tracks.accept (hs : Tracks h s) {c : N} {l L : List (Entry N)}
    (hL : h.leader s.currentTerm = some (c, L)) (hne : s.nodeId ≠ c) (hl : l <+: L) :
    h.Allowed (.accept s.nodeId l) ∧
      Tracks (h.apply (.accept s.nodeId l)) { s with log := l } := by
  refine ⟨⟨c, L, hs.term ▸ hL, Ne.symm hne, hl⟩, ?_⟩
  exact { hs with
    log := by simp [apply]
    candidate := fun hr => by
      obtain ⟨m, hm, -⟩ := hs.candidate hr
      exact ⟨m, hm, Or.inr ⟨_, hL⟩⟩
    leader := fun hr => by
      have := hs.leader hr
      rw [hL, Option.some.injEq, Prod.mk.injEq] at this
      exact absurd this.1.symm hne }

end NextgenDatabases.Kraft
