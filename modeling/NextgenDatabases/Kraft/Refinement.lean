import NextgenDatabases.Kraft.Simulation

/-!
# The cluster refines the abstract protocol

Every step of a cluster that keeps to a discipline is matched by events of the
history, so in every run the nodes and messages meet their invariants.
-/
namespace NextgenDatabases.Kraft

open Raft Raft.History Foundations

variable {N : Type*} [DecidableEq N] [Fintype N]

/-- What a discipline asks of the events of a run. -/
structure Respects (d : Discipline) (c : Cluster N) (e : Event N) : Prop where
  fixedPeers : FixedPeers c e
  freshVotes : FreshVotes c e
  freshAcks : d.logs → FreshAcks c e
  noCut : d.logs → NoCut c e
  keepsCommit : d.commits → KeepsCommit c e

/-- The nodes and the messages of a cluster agree with the history. -/
structure Refines (d : Discipline) (c : Cluster N) (h : History N (Entry N)) : Prop where
  hist : HistInv d (majority Finset.univ) h
  node_id : ∀ p, (c.node p).nodeId = p
  node : ∀ p, NodeInv d (majority Finset.univ) (· ∈ c.sent) h (c.node p)
  msg : ∀ m ∈ c.sent, MsgInv d (majority Finset.univ) h m

variable {d : Discipline} {c c' : Cluster N} {h : History N (Entry N)}

/-! ### The start -/

/-- Nothing has happened yet. -/
def emptyHistory (N : Type*) : History N (Entry N) where
  term _ := 0
  log _ := []
  vote _ _ := none
  leader _ := none
  ack _ _ := 0

omit [DecidableEq N] [Fintype N] in
theorem coherent_emptyHistory : Coherent (emptyHistory N) where
  voted_term hv := by simp [emptyHistory] at hv
  voted_for hv := by simp [emptyHistory] at hv
  own_vote hv := by simp [emptyHistory] at hv
  leader_vote hL := by simp [emptyHistory] at hL
  leader_log hL := by simp [emptyHistory] at hL
  leader_term hL := by simp [emptyHistory] at hL
  log_term he := by simp [emptyHistory] at he
  log_backed _ := backed_nil
  vote_backed hv := by simp [emptyHistory] at hv
  leader_backed hL := by simp [emptyHistory] at hL
  ack_leader hpos := by simp [emptyHistory] at hpos

omit [DecidableEq N] [Fintype N] in
theorem histInv_emptyHistory (qs : QuorumSystem N) : HistInv d qs (emptyHistory N) where
  coherent := coherent_emptyHistory
  elected _ t c L hL := by simp [emptyHistory] at hL
  plain _ t c L hL := by simp [emptyHistory] at hL
  kept _ :=
    { log_kept := fun hP => by obtain ⟨-, -, c, L, hL, -⟩ := hP; simp [emptyHistory] at hL
      vote_kept := fun hP => by obtain ⟨-, -, c, L, hL, -⟩ := hP; simp [emptyHistory] at hL
      quorum_kept := fun hL => by simp [emptyHistory] at hL }

theorem Cluster.Initial.refines (hi : c.Initial) : Refines d c (emptyHistory N) where
  hist := histInv_emptyHistory _
  node_id p := by rw [hi.node_fresh p]; rfl
  node p := by
    have hself : p ∉ (c.node p).peers := fun hp => (hi.mem_peers p p).mp hp rfl
    rw [hi.node_fresh p]
    exact {
      tracks :=
        { term := rfl
          log := rfl
          vote := rfl
          candidate := by simp [State.fresh]
          leader := by simp [State.fresh]
          leading := fun L hL => by simp [emptyHistory] at hL }
      self := hself
      peers := fun _ => ⟨hi.peers_nodup p, hi.mem_peers p⟩
      counted := fun _ hr => by simp [State.fresh] at hr
      led := fun _ =>
        { commit_le := le_rfl
          settled := Or.inl rfl
          own := by simp [State.fresh]
          acked := by simp [State.fresh] } }
  msg m hm := by simp [hi.sent_nil] at hm

/-! ### Steps -/

/-- The cluster and its history move on. -/
structure Advance (d : Discipline) (c : Cluster N) (h : History N (Entry N)) (c' : Cluster N)
    (h' : History N (Entry N)) : Prop where
  grow : Extends h h'
  refines : Refines d c' h'
  durable : d.commits → ∀ p, Durable (c.node p) (c'.node p)

theorem Advance.trans {c₁ c₂ c₃ : Cluster N} {h₁ h₂ h₃ : History N (Entry N)}
    (a : Advance d c₁ h₁ c₂ h₂) (b : Advance d c₂ h₂ c₃ h₃) : Advance d c₁ h₁ c₃ h₃ where
  grow := a.grow.trans b.grow
  refines := b.refines
  durable hd p := (a.durable hd p).trans (b.durable hd p)

/-- The only new leaders are nodes that lead their term. -/
def Cluster.Crowns (c : Cluster N) (h h' : History N (Entry N)) : Prop :=
  ∀ t q L, h'.leader t = some (q, L) →
    (∃ L₀, h.leader t = some (q, L₀)) ∨ (c.node q).role = .leader ∧ (c.node q).currentTerm = t

theorem Refines.after (hr : Refines d c h) {p : N} {i : Input N}
    (hdo : Does d (majority Finset.univ) (· ∈ c.sent) h (c.node p) (handle (c.node p) i)) :
    ∃ h', Advance d c h (c.after p i) h' ∧ (c.after p i).Crowns h h' := by
  obtain ⟨h', ms, hacts, hms, hcrowns⟩ := hdo
  have hsound := hacts.sound hr.hist (hr.node p)
  have hsent : ∀ m, m ∈ c.sent → m ∈ (c.after p i).sent := fun m hm => List.mem_append_left _ hm
  refine ⟨h', ⟨hsound.grow, ⟨hsound.hist, fun q => ?_, fun q => ?_, fun m hm => ?_⟩,
    fun hd q => ?_⟩, fun t q L hL => ?_⟩
  · by_cases hq : q = p
    · subst hq
      simp only [Cluster.after, Function.update_self, hsound.nodeId, hr.node_id]
    · simp only [Cluster.after, Function.update_of_ne hq, hr.node_id]
  · refine NodeInv.src_mono hsent ?_
    by_cases hq : q = p
    · subst hq
      simpa only [Cluster.after, Function.update_self] using hsound.node
    · simp only [Cluster.after, Function.update_of_ne hq]
      refine hsound.frame _ (hr.node q) ?_
      rw [hr.node_id, hr.node_id]
      exact Ne.symm hq
  · simp only [Cluster.after, List.mem_append] at hm
    rcases hm with hm | hm
    · exact (hr.msg m hm).mono hsound.grow
    · exact hsound.msgs m (hms m hm)
  · by_cases hq : q = p
    · subst hq
      simpa only [Cluster.after, Function.update_self] using hsound.durable hd
    · simpa only [Cluster.after, Function.update_of_ne hq] using Durable.refl _
  · rcases hcrowns t q L hL with hold | ⟨hlead, hq, ht⟩
    · exact Or.inl hold
    · rw [hsound.nodeId, hr.node_id] at hq
      subst hq
      simp only [Cluster.after, Function.update_self]
      exact Or.inr ⟨hlead, ht⟩

/-- Whatever a message does at the node it is delivered to, it does by actions, if a counted
vote does. -/
theorem Refines.does_message (hr : Refines d c h) {m : Message N} {now : ℕ} (hm : m ∈ c.sent)
    (hok : d.elections → Respects d c (.deliver m now))
    (hvote : ∀ p v r, m = .voteResponse p v r → Does d (majority Finset.univ) (· ∈ c.sent) h
      (c.node p) (handle (c.node p) (.voteResponse v r now))) :
    Does d (majority Finset.univ) (· ∈ c.sent) h (c.node m.dest)
      (handle (c.node m.dest) (m.input now)) := by
  have hinv := hr.msg m hm
  have hs := hr.node m.dest
  have hid := hr.node_id m.dest
  cases m with
  | requestVote p r =>
    refine does_requestVote ?_
    rw [hid]
    exact hinv.carries
  | voteResponse p v r => exact hvote p v r rfl
  | appendEntries p r =>
    refine does_appendEntries hr.hist hs ?_ (fun hl => (hok (d.logs_elections hl)).noCut hl)
      fun hc => (hok (d.logs_elections (d.commits_logs hc))).keepsCommit hc
    rw [hid]
    exact hinv
  | appendEntriesResponse p v r =>
    refine does_appendEntriesResponse ?_ hr.hist hs ?_
      fun hl => (hok (d.logs_elections hl)).freshAcks hl
    · rw [hid]
      exact hm
    · rw [hid]
      exact hinv

/-- Whatever an event does, it does by actions, if a timeout and a message do. -/
theorem Refines.advance (hr : Refines d c h) {e : Event N}
    (hfixed : d.elections → FixedPeers c e)
    (htimeout : ∀ p now, e = .electionTimeout p now → Does d (majority Finset.univ) (· ∈ c.sent) h
      (c.node p) (handle (c.node p) (.electionTimeout now)))
    (hdeliver : ∀ m now, e = .deliver m now → m ∈ c.sent →
      Does d (majority Finset.univ) (· ∈ c.sent) h (c.node m.dest)
        (handle (c.node m.dest) (m.input now)))
    (hstep : c.step e = some c') : ∃ h', Advance d c h c' h' ∧ c'.Crowns h h' := by
  cases e with
  | electionTimeout p now =>
    simp only [Cluster.step, Option.some.injEq] at hstep
    subst hstep
    exact hr.after (htimeout p now rfl)
  | heartbeat p =>
    simp only [Cluster.step, Option.some.injEq] at hstep
    subst hstep
    exact hr.after does_heartbeat
  | propose p ref command now =>
    simp only [Cluster.step] at hstep
    split_ifs at hstep
    cases hstep
    have hdo : Does d (majority Finset.univ) (· ∈ c.sent) h (c.node p)
        (handle (c.node p) (.propose ref command now)) :=
      does_propose hr.hist (hr.node p) hfixed
    obtain ⟨h', ha, hcrowns⟩ := hr.after hdo
    exact ⟨h', { ha with refines := { ha.refines with } }, hcrowns⟩
  | deliver m now =>
    simp only [Cluster.step] at hstep
    split_ifs at hstep with hm
    cases hstep
    exact hr.after (hdeliver m now rfl hm)

/-- A vote that is counted in the term it was granted in makes a leader only once. -/
theorem Refines.does_vote (hr : Refines d c h) (hd : d.elections) {p v : N} {r : VoteResponse}
    {now : ℕ} (hm : .voteResponse p v r ∈ c.sent)
    (hok : Respects d c (.deliver (.voteResponse p v r) now)) :
    Does d (majority Finset.univ) (· ∈ c.sent) h (c.node p)
      (handle (c.node p) (.voteResponse v r now)) := by
  have hid := hr.node_id p
  have hs := hr.node p
  have hvote : (c.node p).role = .candidate → r.voteGranted = true →
      r.term = (c.node p).currentTerm →
      ∃ l, h.vote v (c.node p).currentTerm = some ((c.node p).nodeId, l) := by
    intro _ hg hterm
    rw [← hterm, hid]
    exact (hr.msg _ hm).carries.2 hg
  refine does_voteResponse hs.tracks.term (hid.symm ▸ hm) (fun _ => hvote)
    (fun _ => hok.freshVotes) fun _ hcand _ hq hv => ?_
  have hwon : h.Won (majority Finset.univ) (c.node p).currentTerm (c.node p).nodeId :=
    won_of_votes (hs.peers hd) hq fun w hw => by
      rcases Finset.mem_insert.mp hw with rfl | hw
      · exact hv hd
      · exact (hs.counted hd (by rw [hcand]; simp) w hw).1
  exact ⟨hs.sole hr.hist hd hcand hwon, fun _ => hwon⟩

theorem Refines.step (hr : Refines d c h) (hd : d.elections) {e : Event N}
    (hok : Respects d c e) (hstep : c.step e = some c') : ∃ h', Advance d c h c' h' := by
  have hadvance : ∃ h', Advance d c h c' h' ∧ c'.Crowns h h' := by
    refine hr.advance (fun _ => hok.fixedPeers) ?_ ?_ hstep
    · rintro p now rfl
      exact does_electionTimeout hr.hist (hr.node p) hd
    · rintro m now rfl hm
      refine hr.does_message hm (fun _ => hok) ?_
      rintro p v r rfl
      exact hr.does_vote hd hm hok
  obtain ⟨h', ha, -⟩ := hadvance
  exact ⟨h', ha⟩

/-- Every run that keeps to the discipline is matched by a history. -/
theorem Refines.run (hd : d.elections) (r : Run Cluster.step (Respects d) c c')
    (hr : Refines d c h) : ∃ h', Advance d c h c' h' := by
  induction r with
  | refl => exact ⟨h, Extends.refl h, hr, fun _ _ => .refl _⟩
  | tail _ hnext ih =>
    obtain ⟨h₁, ha⟩ := ih
    obtain ⟨e, hok, hstep⟩ := hnext
    obtain ⟨h₂, hb⟩ := ha.refines.step hd hok hstep
    exact ⟨h₂, ha.trans hb⟩

end NextgenDatabases.Kraft
