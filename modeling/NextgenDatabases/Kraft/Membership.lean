import NextgenDatabases.Kraft.Matching

/-!
# Elections under membership changes

A node counts votes against the peers that it has applied, and nodes apply
changes at different times. In the runs where the configurations with which
nodes stand in one term have no disjoint majorities, a term has one leader.
-/
namespace NextgenDatabases.Kraft

open Raft Raft.History Foundations

variable {N : Type*} [DecidableEq N]

/-- The servers that the node takes the cluster to consist of. -/
def members (s : State N) : Finset N := insert s.nodeId s.peers.toFinset

/-! ### What a callback does to role and votes -/

/-- Role, term and votes after a callback. -/
inductive Ballot (s : State N) (i : Input N) (s' : State N) : Prop
  | kept (hrole : s'.role = s.role) (hterm : s'.currentTerm = s.currentTerm)
      (hvotes : s'.votesReceived = s.votesReceived)
  | follows (hrole : s'.role = .follower)
  | stood {now} (hi : i = .electionTimeout now) (hold : s.role ≠ .leader)
      (hterm : s'.currentTerm = s.currentTerm + 1) (hvotes : s'.votesReceived = {s.nodeId})
      (hrole : s'.role = .candidate ∨ s'.role = .leader ∧ quorum s ≤ 1)
  | counted {v r now} (hi : i = .voteResponse v r now) (hgt : ¬ s.currentTerm < r.term)
      (hold : s.role = .candidate) (hg : r.voteGranted = true)
      (hterm : s'.currentTerm = s.currentTerm)
      (hvotes : s'.votesReceived = insert v s.votesReceived)
      (hrole : s'.role = .candidate ∨
        s'.role = .leader ∧ quorum s ≤ (insert v s.votesReceived).card)

variable {s s' : State N} {i : Input N}

theorem Ballot.refl (s : State N) (i : Input N) : Ballot s i s := .kept rfl rfl rfl

/-- Settling changes none of the three. -/
theorem ballot_settle (now : ℕ) {u : State N} (hrole : u.role = s.role)
    (hterm : u.currentTerm = s.currentTerm) (hvotes : u.votesReceived = s.votesReceived) :
    Ballot s i (replyToPending (applyCommitted now (maybeAdvanceCommit u)).1).1 := by
  obtain ⟨n, la, registry, peers, pending, heq⟩ := settle_eq now u
  rw [heq]
  exact .kept hrole hterm hvotes

theorem receiveEntries_ballot (now : ℕ) (s : State N) (r : AppendEntriesRequest N) :
    (receiveEntries now s r).1.role = s.role ∧
      (receiveEntries now s r).1.currentTerm = s.currentTerm ∧
      (receiveEntries now s r).1.votesReceived = s.votesReceived := by
  unfold receiveEntries
  dsimp only
  by_cases hok : prevOk s.log r = true
  · simp only [hok, if_true]
    obtain ⟨n, registry, peers, heq, -⟩ := applyCommitted_eq now
      { s with
        leaderId := some r.leaderId
        log := s.log.take r.prevLogIndex ++ r.entries
        commitIndex := min r.leaderCommit (s.log.take r.prevLogIndex ++ r.entries).length }
    rw [heq]
    exact ⟨rfl, rfl, rfl⟩
  · rw [if_neg hok]
    exact ⟨rfl, rfl, rfl⟩

theorem ballot_appendEntries (s : State N) (r : AppendEntriesRequest N) (now : ℕ) :
    Ballot s i (handleAppendEntriesRpc now s r).1 := by
  unfold handleAppendEntriesRpc
  split_ifs with hstale hgt
  · exact .refl s i
  · obtain ⟨hrole, -⟩ := receiveEntries_ballot now (stepDown s r.term).1 r
    exact .follows hrole
  · obtain ⟨hrole, hterm, hvotes⟩ := receiveEntries_ballot now s r
    exact .kept hrole hterm hvotes

theorem ballot_requestVote (s : State N) (r : VoteRequest N) :
    Ballot s i (handleVoteRequest s r).1 := by
  unfold handleVoteRequest considerVote
  dsimp only
  split_ifs
  · exact .refl s i
  · exact .follows rfl
  · exact .follows rfl
  · exact .kept rfl rfl rfl
  · exact .refl s i
  · exact .refl s i

theorem ballot_electionTimeout (s : State N) (now : ℕ) :
    Ballot s (.electionTimeout now) (handleElectionTimeout now s).1 := by
  unfold handleElectionTimeout startElection
  dsimp only
  split_ifs with hrole hq
  · exact .refl s _
  · exact .stood rfl hrole rfl rfl (.inr ⟨rfl, by simpa [quorum] using hq⟩)
  · exact .stood rfl hrole rfl rfl (.inl rfl)

theorem ballot_voteResponse (s : State N) (v : N) (r : VoteResponse) (now : ℕ) :
    Ballot s (.voteResponse v r now) (handleVoteResponse now s v r).1 := by
  unfold handleVoteResponse
  dsimp only
  split_ifs with hgt hcand hq
  · exact .follows rfl
  · exact .counted rfl hgt hcand.1 hcand.2 rfl rfl (.inr ⟨rfl, hq⟩)
  · exact .counted rfl hgt hcand.1 hcand.2 rfl rfl (.inl hcand.1)
  · exact .refl s _

/-- Only a timeout or a granted vote makes a leader. -/
theorem handle_ballot (s : State N) (i : Input N) : Ballot s i (handle s i).1 := by
  cases i with
  | electionTimeout now => exact ballot_electionTimeout s now
  | heartbeat =>
    unfold handle handleHeartbeat
    dsimp only
    split_ifs
    · exact .refl s _
    · exact .refl s _
  | propose ref command now =>
    unfold handle handlePropose
    dsimp only
    split_ifs
    · exact ballot_settle now rfl rfl rfl
    · exact .refl s _
  | requestVote r => exact ballot_requestVote s r
  | voteResponse v r now => exact ballot_voteResponse s v r now
  | appendEntries r now => exact ballot_appendEntries s r now
  | appendEntriesResponse v r now =>
    unfold handle handleAeResponse
    dsimp only
    split_ifs
    · exact .follows rfl
    · exact ballot_settle now rfl rfl rfl
    · exact .kept rfl rfl rfl
    · exact .refl s _

/-! ### Peers are listed once -/

theorem nodup_foldl_peers (selfId : N) (l : List (Entry N)) {peers : List N} (hp : peers.Nodup) :
    (l.foldl (fun ps e => applyMembershipChange ps selfId e.command) peers).Nodup := by
  induction l generalizing peers with
  | nil => exact hp
  | cons e l ih =>
    refine ih ?_
    simp only [applyMembershipChange]
    split
    · split_ifs with hnew
      · exact hp.append (List.nodup_singleton _) (List.disjoint_singleton.mpr hnew.2)
      · exact hp
    · split_ifs
      · exact hp.erase _
      · exact hp
    · exact hp

theorem Moves.peers_nodup {s₀ : State N} {fx : List (Effect N)} (h : Moves s₀ i s fx)
    (hp : s₀.peers.Nodup) : s.peers.Nodup := by
  induction h with
  | refl => exact hp
  | tail _ hmove ih =>
    cases hmove with
    | quiet hsame _ => exact hsame.peers ▸ ih
    | persist hsame _ => exact hsame.peers ▸ ih
    | apply hlt hpeers => exact hpeers ▸ nodup_foldl_peers _ _ ih
    | append _ _ _ | replicate | receive _ _ _ _ | advance _ => exact ih

/-! ### Conditions on the configurations -/

/-- The term and the configuration with which a node stands for election, or has stood when a
granted vote comes. -/
def candidacy (c : Cluster N) : Event N → Option (ℕ × Finset N)
  | .electionTimeout p _ =>
    if (c.node p).role = .leader then none
    else some ((c.node p).currentTerm + 1, members (c.node p))
  | .deliver (.voteResponse p _ response) _ =>
    if (c.node p).role = .candidate ∧ response.voteGranted = true then
      some ((c.node p).currentTerm, members (c.node p))
    else none
  | _ => none

/-- All terms and configurations with which nodes stand in the run. -/
def candidacies : Cluster N → List (Event N) → List (ℕ × Finset N)
  | _, [] => []
  | c, e :: es => (candidacy c e).toList ++ (c.step e).elim [] fun c' => candidacies c' es

/-- No two configurations of one term have disjoint majorities. -/
def Overlapping (stood : List (ℕ × Finset N)) : Prop :=
  ∀ t A B, (t, A) ∈ stood → (t, B) ∈ stood → ∀ P Q, IsMajority A P → IsMajority B Q →
    ∃ v, v ∈ P ∧ v ∈ Q

/-- The configuration of a candidate has all whose votes it has counted, and the voter. -/
def FromMembers (c : Cluster N) : Event N → Prop
  | .deliver (.voteResponse p v response) _ =>
    (c.node p).role = .candidate → response.voteGranted = true →
      insert v (c.node p).votesReceived ⊆ members (c.node p)
  | _ => True

instance (c : Cluster N) : DecidablePred (FromMembers c)
  | .deliver (.voteResponse p v response) _ =>
    inferInstanceAs (Decidable ((c.node p).role = .candidate → response.voteGranted = true →
      insert v (c.node p).votesReceived ⊆ members (c.node p)))
  | .electionTimeout _ _ | .heartbeat _ | .propose _ _ _ _ => isTrue trivial
  | .deliver (.requestVote _ _) _ | .deliver (.appendEntries _ _) _ => isTrue trivial
  | .deliver (.appendEntriesResponse _ _ _) _ => isTrue trivial

/-- The conditions on the votes when the membership changes. -/
def SoundVotes (c : Cluster N) (e : Event N) : Prop :=
  FreshVotes c e ∧ FromMembers c e

instance (c : Cluster N) : DecidablePred (SoundVotes c) :=
  fun _ => inferInstanceAs (Decidable (_ ∧ _))

/-- The conditions for election safety when the configurations are among the given ones. -/
def SoundChanges (stood : List (ℕ × Finset N)) (c : Cluster N) (e : Event N) : Prop :=
  SoundVotes c e ∧ ∀ x, candidacy c e = some x → x ∈ stood

/-- A run in which the votes are sound stands in the configurations with which its nodes stand. -/
theorem run_of_soundVotes {es : List (Event N)} {stood : List (ℕ × Finset N)} :
    ∀ {c c' : Cluster N}, exec (guarded SoundVotes Cluster.step) c es = some c' →
      candidacies c es ⊆ stood → Run Cluster.step (SoundChanges stood) c c' := by
  induction es with
  | nil =>
    intro c c' h _
    cases h
    exact .refl
  | cons e es ih =>
    intro c c' h hsub
    obtain ⟨c₁, h₁, hrest⟩ := Option.bind_eq_some_iff.mp h
    have hok : SoundVotes c e := by
      by_contra hno
      simp [guarded, hno] at h₁
    rw [guarded, if_pos hok] at h₁
    rw [candidacies, h₁, List.append_subset] at hsub
    have hcandidacy : ∀ x, candidacy c e = some x → x ∈ stood := fun x hx =>
      hsub.1 (by simp [hx])
    exact (Run.single ⟨hok, hcandidacy⟩ h₁).trans (ih hrest hsub.2)

theorem candidacies_append {es₁ es₂ : List (Event N)} :
    ∀ {c c' : Cluster N}, exec (guarded SoundVotes Cluster.step) c es₁ = some c' →
      candidacies c (es₁ ++ es₂) = candidacies c es₁ ++ candidacies c' es₂ := by
  induction es₁ with
  | nil =>
    intro c c' h
    cases h
    rfl
  | cons e es₁ ih =>
    intro c c' h
    obtain ⟨c₁, h₁, hrest⟩ := Option.bind_eq_some_iff.mp h
    have hstep : c.step e = some c₁ := by
      rw [guarded] at h₁
      split_ifs at h₁
      exact h₁
    rw [List.cons_append, candidacies, candidacies, hstep, Option.elim_some, Option.elim_some,
      ih hrest, List.append_assoc]

omit [DecidableEq N] in
theorem Event.eq_of_timeout {e : Event N} {now : ℕ} (h : e.input = .electionTimeout now) :
    e = .electionTimeout e.node now := by
  cases e with
  | electionTimeout p now' =>
    cases h
    rfl
  | heartbeat _ | propose _ _ _ _ => cases h
  | deliver m now' => cases m <;> cases h

omit [DecidableEq N] in
theorem Event.eq_of_vote {e : Event N} {v : N} {r : VoteResponse} {now : ℕ}
    (h : e.input = .voteResponse v r now) : e = .deliver (.voteResponse e.node v r) now := by
  cases e with
  | deliver m now' =>
    cases m with
    | voteResponse p v' r' =>
      cases h
      rfl
    | requestVote _ _ | appendEntries _ _ | appendEntriesResponse _ _ _ => cases h
  | electionTimeout _ _ | heartbeat _ | propose _ _ _ _ => cases h

/-- A quorum of votes among the members is a majority of them. -/
theorem isMajority_of_quorum (hself : s.nodeId ∉ s.peers) (hp : s.peers.Nodup) {votes : Finset N}
    (hsub : votes ⊆ members s) (hq : quorum s ≤ votes.card) : IsMajority (members s) votes := by
  have hcard : (members s).card = s.peers.length + 1 := by
    rw [members, Finset.card_insert_of_notMem (by simpa using hself), List.toFinset_card_of_nodup hp]
  refine ⟨hsub, ?_⟩
  rw [quorum] at hq
  omega

/-! ### One leader a term -/

/-- Some configuration of the term has a majority that voted for `p`. -/
def WonIn (stood : List (ℕ × Finset N)) (h : History N (Entry N)) (t : ℕ) (p : N) : Prop :=
  ∃ A, (t, A) ∈ stood ∧ ∃ P, IsMajority A P ∧ ∀ v ∈ P, ∃ l, h.vote v t = some (p, l)

/-- What holds in the runs that meet the conditions. -/
structure Contested [Fintype N] (stood : List (ℕ × Finset N)) (c : Cluster N)
    (h : History N (Entry N)) : Prop where
  refines : Refines freeDiscipline c h
  peers : ∀ p, (c.node p).peers.Nodup
  counted : ∀ p, (c.node p).role ≠ .follower → ∀ v ∈ (c.node p).votesReceived,
    ∃ l, h.vote v (c.node p).currentTerm = some (p, l)
  elected : ∀ t q L, h.leader t = some (q, L) → WonIn stood h t q

variable {stood : List (ℕ × Finset N)} {h h' : History N (Entry N)}

omit [DecidableEq N] in
theorem WonIn.mono {t : ℕ} {p : N} (hw : WonIn stood h t p)
    (hx : Extends h h') : WonIn stood h' t p := by
  obtain ⟨A, hA, P, hP, hvote⟩ := hw
  refine ⟨A, hA, P, hP, fun v hv => ?_⟩
  obtain ⟨l, hl⟩ := hvote v hv
  exact ⟨l, hx.vote_keep hl⟩

omit [DecidableEq N] in
theorem WonIn.unique (hover : Overlapping stood) {t : ℕ} {p q : N} (hp : WonIn stood h t p)
    (hq : WonIn stood h t q) : p = q := by
  obtain ⟨A, hA, P, hP, hPv⟩ := hp
  obtain ⟨B, hB, Q, hQ, hQv⟩ := hq
  obtain ⟨v, hvP, hvQ⟩ := hover t A B hA hB P Q hP hQ
  obtain ⟨l, hl⟩ := hPv v hvP
  obtain ⟨m, hm⟩ := hQv v hvQ
  rw [hl, Option.some.injEq, Prod.mk.injEq] at hm
  exact hm.1

namespace Contested

variable [Fintype N] {c c' : Cluster N} {e : Event N}

/-- The votes with which a candidate wins were given to it in its term. -/
theorem votes (hc : Contested stood c h) {p v : N} {r : VoteResponse} {now : ℕ}
    (hm : .voteResponse p v r ∈ c.sent) (hok : FreshVotes c (.deliver (.voteResponse p v r) now))
    (hgt : ¬ (c.node p).currentTerm < r.term) (hcand : (c.node p).role = .candidate)
    (hg : r.voteGranted = true) :
    ∀ w ∈ insert v (c.node p).votesReceived,
      ∃ l, h.vote w (c.node p).currentTerm = some (p, l) := by
  intro w hw
  rcases Finset.mem_insert.mp hw with rfl | hw
  · have hterm : r.term = (c.node p).currentTerm := by
      have hle := hok hcand hg
      omega
    exact hterm ▸ (hc.refines.msg _ hm).carries.2 hg
  · exact hc.counted p (by simp [hcand]) w hw

theorem isMajority (hc : Contested stood c h) {p : N} {votes : Finset N}
    (hsub : votes ⊆ members (c.node p)) (hq : quorum (c.node p) ≤ votes.card) :
    IsMajority (members (c.node p)) votes :=
  isMajority_of_quorum (hc.refines.node p).self (hc.peers p) hsub hq

/-- A candidate that wins on its own vote. -/
theorem own (hc : Contested stood c h) {p : N} (hq : quorum (c.node p) ≤ 1) :
    IsMajority (members (c.node p)) {p} := by
  refine hc.isMajority ?_ (by simpa using hq)
  rw [Finset.singleton_subset_iff, members, hc.refines.node_id]
  exact Finset.mem_insert_self _ _

/-- A candidate whose counted votes reach the quorum has won in its configuration. -/
theorem won (hc : Contested stood c h) {p v : N} {r : VoteResponse} {now : ℕ}
    (hm : .voteResponse p v r ∈ c.sent)
    (hok : SoundChanges stood c (.deliver (.voteResponse p v r) now))
    (hgt : ¬ (c.node p).currentTerm < r.term) (hcand : (c.node p).role = .candidate)
    (hg : r.voteGranted = true)
    (hq : quorum (c.node p) ≤ (insert v (c.node p).votesReceived).card) :
    WonIn stood h (c.node p).currentTerm p := by
  have hstood := hok.2 _ (if_pos ⟨hcand, hg⟩)
  exact ⟨_, hstood, _, hc.isMajority (hok.1.2 hcand hg) hq, hc.votes hm hok.1.1 hgt hcand hg⟩

/-- Nobody else has led the term that a node comes to lead. -/
theorem first (hover : Overlapping stood) (hc : Contested stood c h)
    (hok : SoundChanges stood c e) (hstep : c.step e = some c') : First c c' h := by
  obtain ⟨hnode, -, hdeliver⟩ := Cluster.step_spec hstep
  intro p hold hlead q L hL
  have hp : p = e.node := by
    by_contra hne
    rw [hnode, c.after_of_ne hne] at hlead
    exact hold hlead
  subst hp
  rw [hnode, Cluster.after_self] at hlead hL
  cases handle_ballot (c.node e.node) e.input with
  | kept hrole hterm hvotes => exact absurd (hrole ▸ hlead) hold
  | follows hrole => simp [hrole] at hlead
  | stood hi hold hterm hvotes hrole =>
    rcases hrole with hrole | ⟨-, hq⟩
    · simp [hrole] at hlead
    · rw [Event.eq_of_timeout hi] at hok
      have hA := hok.2 _ (if_neg hold)
      rw [hterm] at hL
      obtain ⟨B, hB, P, hP, hvote⟩ := hc.elected _ q L hL
      obtain ⟨v, hv, hvP⟩ := hover _ _ B hA hB _ P (hc.own hq) hP
      rw [Finset.mem_singleton.mp hv] at hvP
      obtain ⟨l, hl⟩ := hvote _ hvP
      -- a node has no vote in a term that is still ahead of it
      have hnext := hc.refines.hist.coherent.vote_next e.node
      have hterm₀ := (hc.refines.node e.node).tracks.term
      rw [hc.refines.node_id] at hterm₀
      rw [hterm₀, hl] at hnext
      cases hnext
  | counted hi hgt hcand hg hterm hvotes hrole =>
    rcases hrole with hrole | ⟨-, hq⟩
    · simp [hrole] at hlead
    · have he := Event.eq_of_vote hi
      rw [he] at hok
      rw [hterm] at hL
      exact (hc.elected _ q L hL).unique hover (hc.won (hdeliver _ _ he) hok hgt hcand hg hq)

theorem counted_step (hc : Contested stood c h) (hok : SoundChanges stood c e)
    (hstep : c.step e = some c') (ha : Advance freeDiscipline c h c' h') (p : N)
    (hrole : (c'.node p).role ≠ .follower) :
    ∀ v ∈ (c'.node p).votesReceived, ∃ l, h'.vote v (c'.node p).currentTerm = some (p, l) := by
  obtain ⟨hnode, -, hdeliver⟩ := Cluster.step_spec hstep
  have hkeep : ∀ {t : ℕ} {v : N}, (∃ l, h.vote v t = some (p, l)) →
      ∃ l, h'.vote v t = some (p, l) := fun ⟨l, hl⟩ => ⟨l, ha.grow.vote_keep hl⟩
  by_cases hp : p = e.node
  · subst hp
    have hat : c'.node e.node = (handle (c.node e.node) e.input).1 := by
      rw [hnode, Cluster.after_self]
    cases handle_ballot (c.node e.node) e.input with
    | kept hsame hterm hvotes =>
      rw [hat] at hrole ⊢
      rw [hsame] at hrole
      rw [hvotes, hterm]
      exact fun v hv => hkeep (hc.counted _ hrole v hv)
    | follows hfollow =>
      rw [hat] at hrole
      exact absurd hfollow hrole
    | stood hi hold hterm hvotes hlead =>
      -- the vote of the candidate itself
      intro v hv
      rw [hat, hvotes, Finset.mem_singleton, hc.refines.node_id] at hv
      subst hv
      have ht := (ha.refines.node e.node).tracks
      have hid := ha.refines.node_id e.node
      rcases hlead with hcand | ⟨hlead, -⟩
      · obtain ⟨l, hl, -⟩ := ht.candidate (hat ▸ hcand)
        rw [hid] at hl
        exact ⟨l, hl⟩
      · obtain ⟨l, hl, -⟩ := ha.refines.hist.coherent.leader_vote (ht.leader (hat ▸ hlead))
        rw [hid] at hl
        exact ⟨l, hl⟩
    | counted hi hgt hcand hg hterm hvotes hlead =>
      have he := Event.eq_of_vote hi
      rw [he] at hok
      rw [hat, hvotes, hterm]
      exact fun v hv => hkeep (hc.votes (hdeliver _ _ he) hok.1.1 hgt hcand hg v hv)
  · have hat : c'.node p = c.node p := by rw [hnode, c.after_of_ne hp]
    rw [hat] at hrole ⊢
    exact fun v hv => hkeep (hc.counted p hrole v hv)

theorem elected_step (hc : Contested stood c h) (hok : SoundChanges stood c e)
    (hstep : c.step e = some c') (ha : Advance freeDiscipline c h c' h')
    (hcrowns : c'.Crowns h h') (t : ℕ) (q : N) (L : List (Entry N))
    (hL : h'.leader t = some (q, L)) : WonIn stood h' t q := by
  obtain ⟨hnode, -, hdeliver⟩ := Cluster.step_spec hstep
  have hold : ∀ {L₀ : List (Entry N)}, h.leader t = some (q, L₀) → WonIn stood h' t q :=
    fun hL₀ => (hc.elected t q _ hL₀).mono ha.grow
  have hled : (c.node q).role = .leader → (c.node q).currentTerm = t → WonIn stood h' t q := by
    rintro hlead rfl
    have hL₀ := (hc.refines.node q).tracks.leader hlead
    rw [hc.refines.node_id] at hL₀
    exact hold hL₀
  rcases hcrowns t q L hL with ⟨L₀, hL₀⟩ | ⟨hlead, hterm'⟩
  · exact hold hL₀
  by_cases hq : q = e.node
  · subst hq
    have hat : c'.node e.node = (handle (c.node e.node) e.input).1 := by
      rw [hnode, Cluster.after_self]
    have hcounted := hc.counted_step hok hstep ha e.node (by simp [hlead])
    rw [hat] at hlead hterm' hcounted
    cases handle_ballot (c.node e.node) e.input with
    | kept hsame hterm hvotes => exact hled (hsame ▸ hlead) (hterm ▸ hterm')
    | follows hrole => simp [hrole] at hlead
    | stood hi hold hterm hvotes hrole =>
      rcases hrole with hrole | ⟨-, hq⟩
      · simp [hrole] at hlead
      · rw [Event.eq_of_timeout hi] at hok
        have hstood := hok.2 _ (if_neg hold)
        rw [hvotes, hterm', hc.refines.node_id] at hcounted
        rw [hterm] at hterm'
        exact ⟨_, hterm' ▸ hstood, _, hc.own hq, hcounted⟩
    | counted hi hgt hcand hg hterm hvotes hrole =>
      rcases hrole with hrole | ⟨-, hq⟩
      · simp [hrole] at hlead
      · have he := Event.eq_of_vote hi
        rw [he] at hok
        rw [hterm] at hterm'
        subst hterm'
        exact (hc.won (hdeliver _ _ he) hok hgt hcand hg hq).mono ha.grow
  · rw [hnode, c.after_of_ne hq] at hlead hterm'
    exact hled hlead hterm'

theorem step (hover : Overlapping stood) (hc : Contested stood c h)
    (hok : SoundChanges stood c e) (hstep : c.step e = some c') :
    ∃ h', Extends h h' ∧ Contested stood c' h' := by
  obtain ⟨h', ha, hcrowns⟩ := hc.refines.step_of_first hstep (hc.first hover hok hstep)
  refine ⟨h', ha.grow, ha.refines, fun p => ?_, hc.counted_step hok hstep ha,
    hc.elected_step hok hstep ha hcrowns⟩
  obtain ⟨hnode, -, -⟩ := Cluster.step_spec hstep
  by_cases hp : p = e.node
  · subst hp
    rw [hnode, Cluster.after_self]
    exact (handle_moves _ _).peers_nodup (hc.peers _)
  · rw [hnode, c.after_of_ne hp]
    exact hc.peers p

theorem run (hover : Overlapping stood) (r : Run Cluster.step (SoundChanges stood) c c')
    (hc : Contested stood c h) : ∃ h', Extends h h' ∧ Contested stood c' h' := by
  induction r with
  | refl => exact ⟨h, Extends.refl h, hc⟩
  | tail _ hnext ih =>
    obtain ⟨h₁, hx₁, hc₁⟩ := ih
    obtain ⟨e, hok, hstep⟩ := hnext
    obtain ⟨h₂, hx₂, hc₂⟩ := hc₁.step hover hok hstep
    exact ⟨h₂, hx₁.trans hx₂, hc₂⟩

end Contested

theorem Cluster.Booted.contested [Fintype N] {c₀ : Cluster N} (hb : c₀.Booted)
    (hp : ∀ p, (c₀.node p).peers.Nodup) : Contested stood c₀ (emptyHistory N) where
  refines := hb.refines
  peers := hp
  counted p hr := by
    rw [hb.node_fresh p] at hr
    exact absurd rfl hr
  elected t q L hL := by simp [emptyHistory] at hL

/-- If the configurations with which nodes stand in one term never have disjoint majorities, votes
are counted of members only, and no granted vote of an older term reaches a candidate, then two
nodes that lead the same term, now or later, are the same node, whatever changes are proposed and
applied. -/
theorem election_safety_changes [Fintype N] {c₀ c₁ c₂ : Cluster N} (hb : c₀.Booted)
    (hp : ∀ p, (c₀.node p).peers.Nodup) {es₁ es₂ : List (Event N)}
    (h₁ : exec (guarded SoundVotes Cluster.step) c₀ es₁ = some c₁)
    (h₂ : exec (guarded SoundVotes Cluster.step) c₁ es₂ = some c₂)
    (hover : Overlapping (candidacies c₀ (es₁ ++ es₂))) (a b : N)
    (ha : (c₁.node a).role = .leader) (hb' : (c₂.node b).role = .leader)
    (hterm : (c₁.node a).currentTerm = (c₂.node b).currentTerm) : a = b := by
  have hall : candidacies c₀ (es₁ ++ es₂) = candidacies c₀ es₁ ++ candidacies c₁ es₂ :=
    candidacies_append h₁
  have r₁ := run_of_soundVotes h₁ (hall ▸ List.subset_append_left _ _)
  have r₂ := run_of_soundVotes h₂ (hall ▸ List.subset_append_right _ _)
  obtain ⟨h₁, -, hc₁⟩ := (hb.contested hp).run hover r₁
  obtain ⟨h₂, hx, hc₂⟩ := hc₁.run hover r₂
  -- the first leader is still recorded when the second one leads
  obtain ⟨t, hL₁, -⟩ := hx.leader_grow ((hc₁.refines.node a).tracks.leader ha)
  have hL₂ := (hc₂.refines.node b).tracks.leader hb'
  rw [hterm, hL₂, Option.some.injEq, Prod.mk.injEq, hc₁.refines.node_id,
    hc₂.refines.node_id] at hL₁
  exact hL₁.1.symm

/-- Node 0 wins term 1, removes node 2 and learns that the removal is committed. -/
def removal : List (Event (Fin 3)) :=
  let entries : List (Entry (Fin 3)) :=
    [{ term := 1, index := 1, command := .noop, timestamp := 0 },
      { term := 1, index := 2, command := .removeServer 2, timestamp := 0 }]
  [.electionTimeout 0 0,
    .deliver (.requestVote 1 { term := 1, candidateId := 0, lastLogIndex := 0, lastLogTerm := 0 }) 0,
    .deliver (.voteResponse 0 1 { term := 1, voteGranted := true }) 0,
    .propose 0 0 (.removeServer 2) 0,
    .deliver (.appendEntries 1
      { term := 1
        leaderId := 0
        prevLogIndex := 0
        prevLogTerm := 0
        entries := entries
        leaderCommit := 0 }) 0,
    .deliver (.appendEntriesResponse 0 1 { term := 1, success := true, matchIndex := 2 }) 0,
    .heartbeat 0]

/-- Node 1 learns of it too and wins term 2 among the two that are left. Node 2, which has not heard
of it, stands in this term among all three. -/
def succession : List (Event (Fin 3)) :=
  [.deliver (.appendEntries 1
      { term := 1
        leaderId := 0
        prevLogIndex := 2
        prevLogTerm := 1
        entries := []
        leaderCommit := 2 }) 0,
    .electionTimeout 2 0,
    .electionTimeout 1 0,
    .electionTimeout 2 0,
    .deliver (.requestVote 0 { term := 2, candidateId := 1, lastLogIndex := 2, lastLogTerm := 1 }) 0,
    .deliver (.voteResponse 1 0 { term := 2, voteGranted := true }) 0]

/-- Configurations that are the same or differ by one server that is added. -/
theorem overlapping_of_close {stood : List (ℕ × Finset N)}
    (h : ∀ x ∈ stood, ∀ y ∈ stood, x.1 = y.1 →
      x.2 ⊆ y.2 ∧ y.2.card ≤ x.2.card + 1 ∨ y.2 ⊆ x.2 ∧ x.2.card ≤ y.2.card + 1) :
    Overlapping stood := by
  intro t A B hA hB P Q hP hQ
  rcases h _ hA _ hB rfl with ⟨hsub, hone⟩ | ⟨hsub, hone⟩
  · exact hP.inter_of_subset hsub hone hQ
  · obtain ⟨v, hvQ, hvP⟩ := hQ.inter_of_subset hsub hone hP
    exact ⟨v, hvP, hvQ⟩

theorem election_safety_changes_succession :
    ∃ c₁ c₂, exec (guarded SoundVotes Cluster.step) (started 3) removal = some c₁ ∧
      exec (guarded SoundVotes Cluster.step) c₁ succession = some c₂ ∧
      (c₂.node 1).role = .leader ∧ (c₂.node 1).peers = [0] ∧
      ∀ a b, (c₁.node a).role = .leader → (c₂.node b).role = .leader →
        (c₁.node a).currentTerm = (c₂.node b).currentTerm → a = b := by
  have hp : ∀ p, ((started 3).node p).peers.Nodup := (started_initial 3).peers_nodup
  have hstood : candidacies (started 3) (removal ++ succession) =
      [(1, {0, 1, 2}), (1, {0, 1, 2}), (1, {0, 1, 2}), (2, {0, 1}), (2, {0, 1, 2}),
        (2, {0, 1})] := by decide
  have hover : Overlapping (candidacies (started 3) (removal ++ succession)) := by
    rw [hstood]
    exact overlapping_of_close (by decide)
  obtain ⟨c₁, h₁⟩ : ∃ c₁, exec (guarded SoundVotes Cluster.step) (started 3) removal = some c₁ :=
    ⟨_, rfl⟩
  obtain ⟨c₂, h₂, hlead, hpeers⟩ : ∃ c₂, exec (guarded SoundVotes Cluster.step) c₁
      succession = some c₂ ∧ (c₂.node 1).role = .leader ∧ (c₂.node 1).peers = [0] := by
    cases h₁
    exact ⟨_, rfl, by decide, by decide⟩
  exact ⟨c₁, c₂, h₁, h₂, hlead, hpeers,
    election_safety_changes (started_initial 3).booted hp h₁ h₂ hover⟩

/-- Node 0 wins term 1 and removes nodes 3 and 4; only node 1 learns of it from node 0. -/
def removals : List (Event (Fin 5)) :=
  let entries : List (Entry (Fin 5)) :=
    [{ term := 1, index := 1, command := .noop, timestamp := 0 },
      { term := 1, index := 2, command := .removeServer 3, timestamp := 0 },
      { term := 1, index := 3, command := .removeServer 4, timestamp := 0 }]
  let request : AppendEntriesRequest (Fin 5) :=
    { term := 1
      leaderId := 0
      prevLogIndex := 0
      prevLogTerm := 0
      entries := entries
      leaderCommit := 0 }
  [.electionTimeout 0 0,
    .deliver (.requestVote 1 { term := 1, candidateId := 0, lastLogIndex := 0, lastLogTerm := 0 }) 0,
    .deliver (.requestVote 2 { term := 1, candidateId := 0, lastLogIndex := 0, lastLogTerm := 0 }) 0,
    .deliver (.voteResponse 0 1 { term := 1, voteGranted := true }) 0,
    .deliver (.voteResponse 0 2 { term := 1, voteGranted := true }) 0,
    .propose 0 0 (.removeServer 3) 0,
    .propose 0 1 (.removeServer 4) 0,
    .deliver (.appendEntries 1 request) 0,
    .deliver (.appendEntries 2 request) 0,
    .deliver (.appendEntriesResponse 0 1 { term := 1, success := true, matchIndex := 3 }) 0,
    .deliver (.appendEntriesResponse 0 2 { term := 1, success := true, matchIndex := 3 }) 0,
    .heartbeat 0,
    .deliver (.appendEntries 1
      { term := 1
        leaderId := 0
        prevLogIndex := 3
        prevLogTerm := 1
        entries := []
        leaderCommit := 3 }) 0]

/-- Node 1 wins term 2 with two of three servers. -/
def newMajority : List (Event (Fin 5)) :=
  [.electionTimeout 1 0,
    .deliver (.requestVote 0 { term := 2, candidateId := 1, lastLogIndex := 3, lastLogTerm := 1 }) 0,
    .deliver (.voteResponse 1 0 { term := 2, voteGranted := true }) 0]

/-- Node 2 wins term 2 with three of five. -/
def oldMajority : List (Event (Fin 5)) :=
  [.electionTimeout 2 0,
    .deliver (.requestVote 3 { term := 2, candidateId := 2, lastLogIndex := 3, lastLogTerm := 1 }) 0,
    .deliver (.requestVote 4 { term := 2, candidateId := 2, lastLogIndex := 3, lastLogTerm := 1 }) 0,
    .deliver (.voteResponse 2 3 { term := 2, voteGranted := true }) 0,
    .deliver (.voteResponse 2 4 { term := 2, voteGranted := true }) 0]

/-- Two removals that one follower has applied and another has not give term 2 two leaders. -/
theorem two_leaders_under_changes : ¬ ∀ c₀ c₁ c₂ : Cluster (Fin 5), c₀.Initial →
    Run Cluster.step FreshVotes c₀ c₁ → Run Cluster.step FreshVotes c₁ c₂ →
    ∀ a b, (c₁.node a).role = .leader → (c₂.node b).role = .leader →
      (c₁.node a).currentTerm = (c₂.node b).currentTerm → a = b := by
  intro hall
  obtain ⟨c₁, h₁, ha⟩ : ∃ c₁, exec (guarded FreshVotes Cluster.step) (started 5)
      (removals ++ newMajority) = some c₁ ∧
      (c₁.node 1).role = .leader ∧ (c₁.node 1).currentTerm = 2 := ⟨_, rfl, by decide, by decide⟩
  obtain ⟨c₂, h₂, hb⟩ : ∃ c₂, exec (guarded FreshVotes Cluster.step) c₁ oldMajority = some c₂ ∧
      (c₂.node 2).role = .leader ∧ (c₂.node 2).currentTerm = 2 := by
    cases h₁
    exact ⟨_, rfl, by decide, by decide⟩
  have hsame := hall (started 5) c₁ c₂ (started_initial 5) (run_of_exec h₁) (run_of_exec h₂) 1 2
    ha.1 hb.1 (ha.2.trans hb.2.symm)
  exact absurd hsame (by decide)

end NextgenDatabases.Kraft
