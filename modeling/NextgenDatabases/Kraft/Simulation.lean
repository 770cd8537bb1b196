import NextgenDatabases.Kraft.Actions
import NextgenDatabases.Kraft.Quorum
import Mathlib.Data.Fintype.Card

/-!
# Callbacks as sequences of actions

Each callback of the node is a sequence of actions, provided what it receives
meets the conditions of the discipline. Quorums are the majorities of all nodes.
-/
namespace NextgenDatabases.Kraft

open Raft Raft.History Foundations

variable {N : Type*} [DecidableEq N] {d : Discipline} {qs : QuorumSystem N}
  {src : Message N → Prop}
  {h : History N (Entry N)} {s : State N}

/-- Every leader was one before. -/
def SameLeaders (h h' : History N (Entry N)) : Prop :=
  ∀ t q L, h'.leader t = some (q, L) → ∃ L₀, h.leader t = some (q, L₀)

/-- The only new leader is a node that leads its term. -/
def Crowns (h h' : History N (Entry N)) (s : State N) : Prop :=
  ∀ t q L, h'.leader t = some (q, L) →
    (∃ L₀, h.leader t = some (q, L₀)) ∨ s.role = .leader ∧ s.nodeId = q ∧ s.currentTerm = t

/-- The outcome of a callback is the end of a sequence of actions that sends at
least the callback's messages. -/
def Does (d : Discipline) (qs : QuorumSystem N) (src : Message N → Prop)
    (h : History N (Entry N)) (s : State N) (out : State N × List (Effect N)) : Prop :=
  ∃ h' ms, Acts d qs src h s h' out.1 ms ∧ (∀ m ∈ sends out.2, m ∈ ms) ∧ Crowns h h' out.1

omit [DecidableEq N] in
theorem SameLeaders.refl (h : History N (Entry N)) : SameLeaders h h :=
  fun _ _ L hL => ⟨L, hL⟩

omit [DecidableEq N] in
theorem SameLeaders.crowns {h' : History N (Entry N)} (hsame : SameLeaders h h') (s : State N) :
    Crowns h h' s :=
  fun t q L hL => Or.inl (hsame t q L hL)

omit [DecidableEq N] in
theorem SameLeaders.then {h₁ h₂ : History N (Entry N)} (ha : SameLeaders h h₁)
    (hb : Crowns h₁ h₂ s) : Crowns h h₂ s := by
  intro t q L hL
  rcases hb t q L hL with ⟨L₁, hL₁⟩ | hlead
  · exact Or.inl (ha t q L₁ hL₁)
  · exact Or.inr hlead

/-- A leader that appends stays the leader of its term. -/
theorem sameLeaders_append {e : Entry N} (hs : Tracks h s) (hr : s.role = .leader) :
    SameLeaders h (h.apply (.append s.nodeId e)) := by
  intro t q L hL
  by_cases ht : t = h.term s.nodeId
  · subst ht
    simp only [History.apply, Function.update_self, Option.some.injEq, Prod.mk.injEq] at hL
    obtain ⟨rfl, -⟩ := hL
    exact ⟨s.log, hs.term ▸ hs.leader hr⟩
  · simp only [History.apply, Function.update_of_ne ht] at hL
    exact ⟨L, hL⟩

theorem Acts.single {h' : History N (Entry N)} {s' : State N} {ms : List (Message N)}
    (ha : Act d qs src h s h' s' ms) : Acts d qs src h s h' s' ms := by
  simpa using Acts.refl.tail ha

theorem Acts.trans {h₁ h₂ : History N (Entry N)} {s₁ s₂ : State N} {ms ns : List (Message N)}
    (ha : Acts d qs src h s h₁ s₁ ms) (hb : Acts d qs src h₁ s₁ h₂ s₂ ns) :
    Acts d qs src h s h₂ s₂ (ms ++ ns) := by
  induction hb with
  | refl => simpa using ha
  | tail _ hact ih => rw [← List.append_assoc]; exact ih.tail hact

/-- A silent action may follow. -/
theorem Acts.then {h₁ h₂ : History N (Entry N)} {s₁ s₂ : State N} {ms : List (Message N)}
    (ha : Acts d qs src h s h₁ s₁ ms) (hb : Act d qs src h₁ s₁ h₂ s₂ []) :
    Acts d qs src h s h₂ s₂ ms := by
  simpa using ha.tail hb

/-! ### Bookkeeping -/

theorem acts_applyCommitted (now : ℕ) (s : State N) :
    Acts d qs src h s h (applyCommitted now s).1 [] := by
  obtain ⟨n, reg, peers, heq, hpeers, -⟩ := applyCommitted_eq now s
  rw [heq]
  refine Acts.single (Act.tidy (fun hself => ?_) fun hplain => ?_)
  · rw [hpeers]
    exact self_not_mem_foldl_peers _ _ hself
  · rw [hpeers]
    exact foldl_peers_eq _
      (fun e he => hplain e (List.mem_of_mem_drop (List.mem_of_mem_take he))) _

theorem acts_replyToPending (s : State N) : Acts d qs src h s h (replyToPending s).1 [] := by
  obtain ⟨remaining, heq, -⟩ := replyToPending_eq s
  rw [heq]
  exact Acts.single (Act.tidy id fun _ => rfl)

/-! ### Winning an election -/

section Majority

variable [Fintype N]

omit [DecidableEq N] in
theorem card_eq_peers [DecidableEq N] (hp : s.peers.Nodup ∧ ∀ q, q ∈ s.peers ↔ q ≠ s.nodeId) :
    Fintype.card N = s.peers.length + 1 := by
  have hset : s.peers.toFinset = Finset.univ.erase s.nodeId := by
    ext q
    simp [hp.2 q]
  have hcard := List.toFinset_card_of_nodup hp.1
  rw [hset, Finset.card_erase_of_mem (Finset.mem_univ _), Finset.card_univ] at hcard
  have : 0 < Fintype.card N := Fintype.card_pos_iff.mpr ⟨s.nodeId⟩
  omega

/-- Counted votes that reach the quorum are a majority of all nodes. -/
theorem won_of_votes (hp : s.peers.Nodup ∧ ∀ q, q ∈ s.peers ↔ q ≠ s.nodeId) {votes : Finset N}
    (hq : quorum s ≤ votes.card)
    (hv : ∀ v ∈ votes, ∃ l, h.vote v s.currentTerm = some (s.nodeId, l)) :
    h.Won (majority Finset.univ) s.currentTerm s.nodeId := by
  refine ⟨votes, ⟨Finset.subset_univ _, ?_⟩, hv⟩
  have := card_eq_peers hp
  simp only [quorum] at hq
  rw [Finset.card_univ]
  omega

omit [Fintype N] in
/-- A candidate that wins is the first leader of its term. -/
theorem NodeInv.sole (hh : HistInv d qs h) (hs : NodeInv d qs src h s) (hd : d.elections)
    (hr : s.role = .candidate) (hwon : h.Won qs s.currentTerm s.nodeId) :
    h.leader s.currentTerm = none := by
  cases hL : h.leader s.currentTerm with
  | none => rfl
  | some x =>
    obtain ⟨c, L⟩ := x
    have hc : c = s.nodeId := (hh.elected hd).unique hL hwon
    subst hc
    have := hs.tracks.leading L hL
    simp [hr] at this

end Majority

theorem lookup_peerMap {peers : List N} {v : ℕ} {q : N} {n : ℕ}
    (hq : (peerMap peers v).lookup q = some n) : q ∈ peers ∧ n = v := by
  have hfold : ∀ (ps : List N) (m : AList fun _ : N => ℕ),
      (∀ q n, m.lookup q = some n → q ∈ peers ∧ n = v) → (∀ p ∈ ps, p ∈ peers) →
      ∀ q n, (ps.foldl (fun m p => m.insert p v) m).lookup q = some n → q ∈ peers ∧ n = v := by
    intro ps
    induction ps with
    | nil => exact fun m hm _ => hm
    | cons p ps ih =>
      intro m hm hps
      refine ih _ (fun q n hq => ?_) fun p' hp' => hps p' (List.mem_cons_of_mem p hp')
      by_cases hqp : q = p
      · subst hqp
        rw [AList.lookup_insert, Option.some.injEq] at hq
        exact ⟨hps q List.mem_cons_self, hq.symm⟩
      · rw [AList.lookup_insert_ne hqp] at hq
        exact hm q n hq
  exact hfold peers ∅ (by simp) (fun _ hp => hp) q n hq

theorem does_becomeLeader (now : ℕ) (hterm : h.term s.nodeId = s.currentTerm)
    (hr : s.role = .candidate) (hnone : h.leader s.currentTerm = none)
    (hwon : d.elections → h.Won qs s.currentTerm s.nodeId) :
    Does d qs src h s (becomeLeader now s) := by
  have hlead : Acts d qs src h s
      ((h.apply (.elect s.nodeId)).apply (.append s.nodeId (newEntry now s .noop)))
      (becomeLeader now s).1 [] :=
    Acts.single (Act.lead hr hnone hwon rfl (fun _ => id) fun q n hq => lookup_peerMap hq)
  refine ⟨_, _, hlead.tail (Act.replicate rfl), fun m hm => ?_, fun t q L hL => ?_⟩
  · obtain ⟨peer, hpeer, rfl⟩ := mem_sends_sendAppendEntries.mp hm
    simp only [List.nil_append]
    exact List.mem_map.mpr ⟨peer, hpeer, rfl⟩
  · by_cases ht : t = s.currentTerm
    · subst ht
      simp only [History.apply, ← hterm, Function.update_self, Option.some.injEq,
        Prod.mk.injEq] at hL
      exact Or.inr ⟨rfl, hL.1, rfl⟩
    · simp only [History.apply, hterm, Function.update_of_ne ht] at hL
      exact Or.inl ⟨L, hL⟩

/-! ### Votes -/

theorem does_startElection (now : ℕ) (hterm : h.term s.nodeId = s.currentTerm)
    (hwin : quorum s ≤ 1 → (h.apply (.stand s.nodeId)).leader (s.currentTerm + 1) = none ∧
      (d.elections → (h.apply (.stand s.nodeId)).Won qs (s.currentTerm + 1) s.nodeId)) :
    Does d qs src h s (startElection now s) := by
  have hstand : Acts d qs src h s (h.apply (.stand s.nodeId)) (candidateState s)
      (voteRequests (candidateState s)) := Acts.single Act.stand
  have hsame : SameLeaders h (h.apply (.stand s.nodeId)) := SameLeaders.refl h
  unfold startElection
  dsimp only
  split_ifs with hq
  · simp only [Finset.card_singleton] at hq
    obtain ⟨hnone, hwon⟩ := hwin hq
    have hterm' : (h.apply (.stand s.nodeId)).term s.nodeId = s.currentTerm + 1 := by
      simp [History.apply, hterm]
    have hlead : Does d qs src (h.apply (.stand s.nodeId)) (candidateState s)
        (becomeLeader now (candidateState s)) := does_becomeLeader now hterm' rfl hnone hwon
    obtain ⟨h', ms, hacts, hms, hcrowns⟩ := hlead
    refine ⟨h', _, hstand.trans hacts, fun m hm => ?_, hsame.then hcrowns⟩
    simp only [sends_append, sends_wal, sends_map_send, List.mem_append] at hm ⊢
    exact hm.imp id (hms m)
  · refine ⟨_, _, hstand, fun m hm => ?_, hsame.crowns _⟩
    simp only [sends_wal, sends_map_send] at hm
    exact hm

theorem does_stepDown {t : ℕ} (ht : s.currentTerm < t) :
    Acts d qs src h s (h.apply (.adopt s.nodeId t)) (stepDown s t).1 [] :=
  Acts.single (Act.adopt ht)

omit [DecidableEq N] in
theorem upToDate_of_logUpToDate {r : VoteRequest N} {l : List (Entry N)}
    (hlen : r.lastLogIndex = l.length) (hterm : r.lastLogTerm = lastTerm l)
    (hup : logUpToDate s r = true) : UpToDate l s.log := by
  unfold logUpToDate at hup
  rw [lastLogTerm_eq, hlen, hterm] at hup
  split_ifs at hup with h1 h2
  · exact Or.inl h1
  · exact Or.inr h2

/-- The outcome of a callback that sends its answer and nothing else. -/
def DoesAnswer (d : Discipline) (qs : QuorumSystem N) (src : Message N → Prop)
    (h : History N (Entry N)) (s : State N) (s' : State N) (answer : Message N)
    (fx : List (Effect N)) : Prop :=
  ∃ h', Acts d qs src h s h' s' [answer] ∧ sends fx = [] ∧ SameLeaders h h'

theorem does_considerVote {r : VoteRequest N} (hterm : r.term = s.currentTerm)
    (hm : Carries h (.requestVote s.nodeId r))
    (hfree : s.votedFor = none ∨ s.votedFor = some r.candidateId) :
    DoesAnswer d qs src h s (considerVote s r).1
      (.voteResponse r.candidateId s.nodeId (considerVote s r).2.1) (considerVote s r).2.2 := by
  obtain ⟨l, hl, hlen, hlast⟩ := hm
  unfold considerVote
  split_ifs with hup
  · rcases hfree with hnone | hsome
    · exact ⟨_, Acts.single (Act.grant hnone
        ⟨l, hterm ▸ hl, upToDate_of_logUpToDate hlen hlast hup⟩), rfl, SameLeaders.refl h⟩
    · have hsame : { s with votedFor := some r.candidateId } = s := by rw [← hsome]
      simp only [hsame]
      exact ⟨h, Acts.single (Act.regrant hsome), rfl, SameLeaders.refl h⟩
  · exact ⟨h, Acts.single Act.refuse, rfl, SameLeaders.refl h⟩

theorem does_requestVote {r : VoteRequest N} (hm : Carries h (.requestVote s.nodeId r)) :
    Does d qs src h s (handle s (.requestVote r)) := by
  have hrefuse : ∀ m ∈ sends [Effect.send (Message.voteResponse r.candidateId s.nodeId
      { term := s.currentTerm, voteGranted := false })],
      m ∈ [Message.voteResponse r.candidateId s.nodeId
        { term := s.currentTerm, voteGranted := false }] := fun m hm => hm
  unfold handle handleVoteRequest
  dsimp only
  have hsame (s' : State N) : Crowns h h s' := (SameLeaders.refl h).crowns s'
  split_ifs with hlt hgt hfree
  · exact ⟨h, _, Acts.single Act.refuse, hrefuse, hsame _⟩
  · -- the node first moves to the term of the request
    have hvote : DoesAnswer d qs src (h.apply (.adopt s.nodeId r.term)) (stepDown s r.term).1
        (considerVote (stepDown s r.term).1 r).1 _ (considerVote (stepDown s r.term).1 r).2.2 :=
      does_considerVote rfl hm (Or.inl rfl)
    obtain ⟨h', hacts, hsends, hleaders⟩ := hvote
    refine ⟨h', _, (does_stepDown hgt).trans hacts, fun m hm => ?_, hleaders.crowns _⟩
    simp only [stepDown] at hsends
    simpa [hsends, stepDown] using hm
  · have heq : r.term = s.currentTerm := by omega
    have hvote : DoesAnswer d qs src h s (considerVote s r).1 _ (considerVote s r).2.2 :=
      does_considerVote heq hm hfree
    obtain ⟨h', hacts, hsends, hleaders⟩ := hvote
    exact ⟨h', _, hacts, fun m hm => by simpa [hsends] using hm, hleaders.crowns _⟩
  · exact ⟨h, _, Acts.single Act.refuse, hrefuse, hsame _⟩

theorem does_voteResponse {now : ℕ} {v : N} {r : VoteResponse}
    (hterm : h.term s.nodeId = s.currentTerm)
    (hsrc : src (.voteResponse s.nodeId v r))
    (hv : d.elections → s.role = .candidate → r.voteGranted = true → r.term = s.currentTerm →
      ∃ l, h.vote v s.currentTerm = some (s.nodeId, l))
    (hfresh : d.elections → s.role = .candidate → r.voteGranted = true →
      s.currentTerm ≤ r.term)
    (hwin : ¬ s.currentTerm < r.term → s.role = .candidate → r.voteGranted = true →
      quorum s ≤ (insert v s.votesReceived).card →
      (d.elections → ∃ l, h.vote v s.currentTerm = some (s.nodeId, l)) →
      h.leader s.currentTerm = none ∧ (d.elections → h.Won qs s.currentTerm s.nodeId)) :
    Does d qs src h s (handle s (.voteResponse v r now)) := by
  have hvote : ¬ s.currentTerm < r.term → s.role = .candidate ∧ r.voteGranted = true →
      d.elections → (∃ l, h.vote v s.currentTerm = some (s.nodeId, l)) ∧
        VoteFrom src s.nodeId v s.currentTerm := fun hle hcand hd => by
    have heq : r.term = s.currentTerm := by
      have := hfresh hd hcand.1 hcand.2
      omega
    exact ⟨hv hd hcand.1 hcand.2 heq, r, hsrc, hcand.2, heq⟩
  have hsame (s' : State N) : Crowns h h s' := (SameLeaders.refl h).crowns s'
  unfold handle handleVoteResponse
  dsimp only
  split_ifs with hgt hcand hq
  · exact ⟨_, _, does_stepDown hgt, by simp [stepDown], hsame _⟩
  · obtain ⟨hnone, hwon⟩ := hwin hgt hcand.1 hcand.2 hq fun hd => (hvote hgt hcand hd).1
    have hcount : Acts d qs src h s h { s with votesReceived := insert v s.votesReceived } [] :=
      Acts.single (Act.count (hvote hgt hcand))
    have hlead : Does d qs src h { s with votesReceived := insert v s.votesReceived }
        (becomeLeader now { s with votesReceived := insert v s.votesReceived }) :=
      does_becomeLeader now hterm hcand.1 hnone hwon
    obtain ⟨h', ms, hacts, hms, hcrowns⟩ := hlead
    exact ⟨h', _, hcount.trans hacts, fun m hm => by simpa using hms m hm, hcrowns⟩
  · exact ⟨h, _, Acts.single (Act.count (hvote hgt hcand)), by simp, hsame _⟩
  · exact ⟨h, _, Acts.refl, by simp, hsame _⟩

/-! ### Replication -/

omit [DecidableEq N] in
theorem prevOk_cases {l : List (Entry N)} {r : AppendEntriesRequest N} (hok : prevOk l r = true) :
    r.prevLogIndex = 0 ∨
      0 < r.prevLogIndex ∧ ∃ e, l[r.prevLogIndex - 1]? = some e ∧ e.term = r.prevLogTerm := by
  unfold prevOk at hok
  split_ifs at hok with h0
  · exact Or.inl h0
  · have hpos : 0 < r.prevLogIndex := Nat.pos_of_ne_zero h0
    rw [enumAt_pred _ hpos] at hok
    cases he : l[r.prevLogIndex - 1]? with
    | none => simp [he] at hok
    | some e => exact Or.inr ⟨hpos, e, rfl, by simpa [he] using hok⟩

omit [DecidableEq N] in
theorem prevLogIndex_le {l : List (Entry N)} {r : AppendEntriesRequest N}
    (hok : prevOk l r = true) : r.prevLogIndex ≤ l.length := by
  rcases prevOk_cases hok with h0 | ⟨hpos, e, he, -⟩
  · omega
  · have := (List.getElem?_eq_some_iff.mp he).1
    omega

omit [DecidableEq N] in
/-- A node that accepts a request ends up with the part of the leader's log that
the request was cut from. -/
theorem accepted_log (hc : Coherent h) {l X : List (Entry N)} {r : AppendEntriesRequest N}
    (hl : h.Backed l) (hX : h.Backed X) (hseg : Segment X r) (hok : prevOk l r = true) :
    l.take r.prevLogIndex ++ r.entries = X := by
  rcases prevOk_cases hok with h0 | ⟨hpos, e, he, hterm⟩
  · simp [hseg.1, h0]
  · rw [hseg.2 hpos] at hterm
    cases hf : X[r.prevLogIndex - 1]? with
    | none =>
      have hpos' := hc.term_pos hl he
      simp only [hf, Option.map_none, Option.getD_none] at hterm
      simp only [termOf_entry] at hpos'
      omega
    | some f =>
      simp only [hf, Option.map_some, Option.getD_some] at hterm
      have hmatch := hl.matching hX he hf hterm
      rw [Nat.sub_add_cancel hpos] at hmatch
      rw [hmatch, hseg.1, List.take_append_drop]

omit [DecidableEq N] in
/-- A request that reaches the end of the log, or conflicts with it, cuts nothing off. -/
theorem eq_log_of_isPrefix {r : AppendEntriesRequest N} (hok : prevOk s.log r = true)
    (hcut : Held s r → s.log.length = r.prevLogIndex + r.entries.length)
    (hpre : s.log.take r.prevLogIndex ++ r.entries <+: s.log) :
    s.log.take r.prevLogIndex ++ r.entries = s.log := by
  have hle := prevLogIndex_le hok
  have hlen : (s.log.take r.prevLogIndex).length = r.prevLogIndex := List.length_take_of_le hle
  have hheld : Held s r := by
    have := hpre.drop r.prevLogIndex
    rwa [List.drop_append_of_le_length hlen.ge, List.drop_of_length_le hlen.le,
      List.nil_append] at this
  apply hpre.eq_of_length
  rw [List.length_append, hlen, hcut hheld]

theorem does_receiveEntries (now : ℕ) {r : AppendEntriesRequest N} (hh : HistInv d qs h)
    (hs : NodeInv d qs src h s) (hm : MsgInv d qs h (.appendEntries s.nodeId r))
    (hterm : r.term = s.currentTerm)
    (hcut : d.logs → prevOk s.log r = true → Held s r →
      s.log.length = r.prevLogIndex + r.entries.length)
    (hkeep : d.commits → prevOk s.log r = true → s.commitIndex ≤ r.leaderCommit) :
    DoesAnswer d qs src h s (receiveEntries now s r).1
      (.appendEntriesResponse r.leaderId s.nodeId (receiveEntries now s r).2.1)
      (receiveEntries now s r).2.2 := by
  obtain ⟨hne, X, L, hL, hXL, hseg⟩ := hm.carries
  have hlog : h.Backed s.log := hs.tracks.log ▸ hh.coherent.log_backed s.nodeId
  have hnew : ∀ {Y M : List (Entry N)}, h.leader r.term = some (r.leaderId, M) → Y <+: M →
      Segment Y r → prevOk s.log r = true → s.log.take r.prevLogIndex ++ r.entries = Y :=
    fun hM hY hYr hok =>
      accepted_log hh.coherent hlog ((hh.coherent.leader_backed hM).of_isPrefix hY) hYr hok
  have htidy : Acts d qs src h s h { s with leaderId := some r.leaderId } [] :=
    Acts.single (Act.tidy id fun _ => rfl)
  unfold receiveEntries
  dsimp only
  by_cases hok : prevOk s.log r = true
  · simp only [hok, if_true]
    have hXnew := hnew hL hXL hseg hok
    generalize hu : ({ s with
      leaderId := some r.leaderId
      log := s.log.take r.prevLogIndex ++ r.entries
      commitIndex := min r.leaderCommit (s.log.take r.prevLogIndex ++ r.entries).length } :
        State N) = u
    obtain ⟨n, reg, peers, heq, -, hsends, -⟩ := applyCommitted_eq now u
    have hacc : Act d qs src h { s with leaderId := some r.leaderId }
        (h.apply (.accept s.nodeId (s.log.take r.prevLogIndex ++ r.entries))) u
        [.appendEntriesResponse r.leaderId s.nodeId
          { term := s.currentTerm
            success := true
            matchIndex := (s.log.take r.prevLogIndex ++ r.entries).length }] := by
      subst hu
      -- the request was cut from a log in which the leader's commit index is settled
      have hcommit : d.logs →
          r.leaderCommit ≤ (s.log.take r.prevLogIndex ++ r.entries).length ∧
          Settled qs h s.currentTerm
            ((s.log.take r.prevLogIndex ++ r.entries).take r.leaderCommit) := fun hd => by
        obtain ⟨Y, M, hM, hYM, hYseg, hle, hset⟩ := hm.commit hd
        rw [hnew hM hYM hYseg hok]
        exact ⟨hle, hterm ▸ hset⟩
      refine Act.accept (hterm ▸ hL) hne (hXnew ▸ hXL) (fun hc => ?_) (fun hd => ?_)
        fun hd hpre => eq_log_of_isPrefix hok (hcut hd hok) hpre
      · rw [min_eq_left (hcommit (d.commits_logs hc)).1]
        exact hkeep hc hok
      · rw [min_eq_left (hcommit hd).1]
        exact hcommit hd
    refine ⟨h.apply (.accept s.nodeId (s.log.take r.prevLogIndex ++ r.entries)), ?_, ?_,
      SameLeaders.refl h⟩
    · have hall := (htidy.tail hacc).trans (acts_applyCommitted now u)
      simp only [heq, List.nil_append, List.append_nil] at hall ⊢
      subst hu
      exact hall
    · simp only [sends_append, hsends, List.append_nil]
      split_ifs <;> rfl
  · simp only [hok]
    exact ⟨_, htidy.tail (Act.reject hne), rfl, SameLeaders.refl h⟩

theorem does_appendEntries {now : ℕ} {r : AppendEntriesRequest N} (hh : HistInv d qs h)
    (hs : NodeInv d qs src h s) (hm : MsgInv d qs h (.appendEntries s.nodeId r))
    (hcut : d.logs → Accepted s r → Held s r →
      s.log.length = r.prevLogIndex + r.entries.length)
    (hkeep : d.commits → Accepted s r → s.commitIndex ≤ r.leaderCommit) :
    Does d qs src h s (handle s (.appendEntries r now)) := by
  unfold handle handleAppendEntriesRpc
  dsimp only
  by_cases hstale : r.term < s.currentTerm
  · simp only [hstale, if_true]
    exact ⟨h, _, Acts.single (Act.reject hm.carries.1), fun m hm => hm,
      (SameLeaders.refl h).crowns _⟩
  by_cases hgt : s.currentTerm < r.term
  · simp only [hstale, hgt, if_true, if_false]
    have hadopt : Act d qs src h s (h.apply (.adopt s.nodeId r.term)) (stepDown s r.term).1 [] :=
      Act.adopt hgt
    have hsound := hadopt.sound hh hs
    obtain ⟨h', hacts, hsends, hleaders⟩ := does_receiveEntries now hsound.hist hsound.node
      (hm.mono hsound.grow) rfl (fun hd hok hheld => hcut hd ⟨hgt.le, hok⟩ hheld)
      fun hd hok => hkeep hd ⟨hgt.le, hok⟩
    refine ⟨h', _, (does_stepDown hgt).trans hacts, fun m hm => ?_, hleaders.crowns _⟩
    simp only [sends_append, hsends, sends_send, sends_nil] at hm
    simpa [stepDown] using hm
  · simp only [hstale, hgt, if_false]
    have heq : r.term = s.currentTerm := by omega
    obtain ⟨h', hacts, hsends, hleaders⟩ := does_receiveEntries now hh hs hm heq
      (fun hd hok hheld => hcut hd ⟨heq.ge, hok⟩ hheld) fun hd hok => hkeep hd ⟨heq.ge, hok⟩
    exact ⟨h', _, hacts, fun m hm => by simpa [hsends] using hm, hleaders.crowns _⟩

/-- The new commit index of a leader stands on a prefix that a majority acknowledged. -/
theorem chosen_of_advance [Fintype N] (hs : NodeInv d (majority Finset.univ) src h s)
    (hled : Led (majority Finset.univ) src h s) (hr : s.role = .leader)
    (hp : s.peers.Nodup ∧ ∀ q, q ∈ s.peers ↔ q ≠ s.nodeId)
    (hlt : s.commitIndex < quorumMatch s)
    (hentry : ∃ e, s.log[quorumMatch s - 1]? = some e ∧ e.term = s.currentTerm) :
    quorumMatch s ≤ s.log.length ∧
      h.Chosen (majority Finset.univ) s.currentTerm (s.log.take (quorumMatch s)) := by
  obtain ⟨e, he, hterm⟩ := hentry
  have hle : quorumMatch s ≤ s.log.length := by
    have := (List.getElem?_eq_some_iff.mp he).1
    omega
  have hnot : s.nodeId ∉ matched s.matchIndex (quorumMatch s) := fun hmem => by
    obtain ⟨x, hx, -⟩ := mem_matched.mp hmem
    exact (hled.acked hr _ x hx).1 rfl
  have hQ : (majority Finset.univ).IsQuorum
      (insert s.nodeId (matched s.matchIndex (quorumMatch s))) := by
    refine ⟨Finset.subset_univ _, ?_⟩
    have := quorumMatch_le_card hlt hle
    rw [Finset.card_univ, card_eq_peers hp, Finset.card_insert_of_notMem hnot]
    omega
  refine ⟨hle, chosen_of_acks (hs.tracks.leader hr) (by omega) he hterm hQ fun q hq => ?_⟩
  rcases Finset.mem_insert.mp hq with rfl | hq
  · exact hle.trans (hled.own hr)
  · obtain ⟨x, hx, hnx⟩ := mem_matched.mp hq
    exact hnx.trans (hled.acked hr q x hx).2.1

theorem acts_maybeAdvanceCommit [Fintype N] (hs : NodeInv d (majority Finset.univ) src h s)
    (hr : s.role = .leader) :
    Acts d (majority Finset.univ) src h s h (maybeAdvanceCommit s) [] := by
  rcases maybeAdvanceCommit_cases s with heq | ⟨hlt, hentry, heq⟩
  · rw [heq]
    exact Acts.refl
  · rw [heq]
    refine Acts.single (Act.advance fun hd => ?_)
    obtain ⟨hle, hchosen⟩ := chosen_of_advance hs (hs.led hd) hr
      (hs.peers (d.logs_elections hd)) hlt hentry
    exact ⟨hlt.le, hle, hchosen.settled⟩

/-- What follows a change of the match indices or of the log of a leader. -/
theorem acts_settle [Fintype N] (now : ℕ) (hs : NodeInv d (majority Finset.univ) src h s)
    (hr : s.role = .leader) :
    Acts d (majority Finset.univ) src h s h
      (replyToPending (applyCommitted now (maybeAdvanceCommit s)).1).1 [] := by
  simpa using ((acts_maybeAdvanceCommit hs hr).trans (acts_applyCommitted now _)).trans
    (acts_replyToPending _)

theorem sends_settle (now : ℕ) (s : State N) :
    sends ((applyCommitted now s).2 ++ (replyToPending (applyCommitted now s).1).2) = [] := by
  obtain ⟨-, -, -, -, -, happly, -⟩ := applyCommitted_eq now s
  obtain ⟨-, -, hreply⟩ := replyToPending_eq (applyCommitted now s).1
  simp [happly, hreply]

theorem does_appendEntriesResponse [Fintype N] {now : ℕ} {v : N} {r : AppendEntriesResponse}
    (hsrc : src (.appendEntriesResponse s.nodeId v r))
    (hh : HistInv d (majority Finset.univ) h) (hs : NodeInv d (majority Finset.univ) src h s)
    (hm : MsgInv d (majority Finset.univ) h (.appendEntriesResponse s.nodeId v r))
    (hfresh : d.logs → s.role = .leader → r.success = true → s.currentTerm ≤ r.term) :
    Does d (majority Finset.univ) src h s (handle s (.appendEntriesResponse v r now)) := by
  have hsame (s' : State N) : Crowns h h s' := (SameLeaders.refl h).crowns s'
  unfold handle handleAeResponse
  dsimp only
  split_ifs with hgt hack hlead
  · exact ⟨_, _, does_stepDown hgt, by simp [stepDown], hsame _⟩
  · have hacked : Act d (majority Finset.univ) src h s h
        { s with
          nextIndex := s.nextIndex.insert v (r.matchIndex + 1)
          matchIndex := s.matchIndex.insert v r.matchIndex } [] :=
      Act.acknowledge hm.carries.1 fun hd => by
        have heq : r.term = s.currentTerm := by
          have := hfresh hd hack.1 hack.2
          omega
        exact ⟨heq ▸ hm.commit hd hack.2, r, hsrc, hack.2, heq, rfl⟩
    have hsound := hacked.sound hh hs
    refine ⟨h, _, (Acts.single hacked).trans (acts_settle now hsound.node hack.1), ?_, hsame _⟩
    rw [sends_settle]
    simp
  · exact ⟨h, _, Acts.single (Act.tidy id fun _ => rfl), by simp, hsame _⟩
  · exact ⟨h, _, Acts.refl, by simp, hsame _⟩

/-! ### Clients and timers -/

theorem does_propose [Fintype N] {now : ℕ} {ref : CallRef} {command : Command N}
    (hh : HistInv d (majority Finset.univ) h) (hs : NodeInv d (majority Finset.univ) src h s)
    (hplain : d.elections → ¬ command.IsMembership) :
    Does d (majority Finset.univ) src h s (handle s (.propose ref command now)) := by
  unfold handle handlePropose
  dsimp only
  split_ifs with hr
  · have happend : Act d (majority Finset.univ) src h s
        (h.apply (.append s.nodeId (newEntry now s command)))
        { s with log := s.log ++ [newEntry now s command] } [] := Act.append hr rfl hplain
    have hsound := happend.sound hh hs
    have hsame : SameLeaders h (h.apply (.append s.nodeId (newEntry now s command))) :=
      sameLeaders_append hs.tracks hr
    generalize h.apply (.append s.nodeId (newEntry now s command)) = g at happend hsound hsame
    generalize hu : ({ s with
      log := s.log ++ [newEntry now s command]
      pendingRequests := ((newEntry now s command).index, ref) :: s.pendingRequests } :
        State N) = u
    have hur : u.role = .leader := by rw [← hu]; exact hr
    have htidy : Act d (majority Finset.univ) src g
        { s with log := s.log ++ [newEntry now s command] } g u [] := by
      subst hu
      exact Act.tidy id fun _ => rfl
    have hsound' := htidy.sound hsound.hist hsound.node
    have hsend : Act d (majority Finset.univ) src g u g u _ := Act.replicate hur
    refine ⟨g, _, (((Acts.single happend).then htidy).tail hsend).trans
      (acts_settle now hsound'.node hur), fun m hm => ?_, hsame.crowns _⟩
    simp only [List.cons_append, sends_wal, List.append_assoc, sends_append] at hm
    rw [← sends_append, sends_settle, List.append_nil] at hm
    obtain ⟨peer, hpeer, rfl⟩ := mem_sends_sendAppendEntries.mp hm
    simp only [List.nil_append, List.append_nil]
    exact List.mem_map.mpr ⟨peer, hpeer, rfl⟩
  · exact ⟨h, _, Acts.refl, by simp, (SameLeaders.refl h).crowns _⟩

theorem does_heartbeat : Does d qs src h s (handle s .heartbeat) := by
  unfold handle handleHeartbeat
  dsimp only
  split_ifs with hr
  · refine ⟨h, _, Acts.single (Act.replicate hr), fun m hm => ?_, (SameLeaders.refl h).crowns _⟩
    obtain ⟨peer, hpeer, rfl⟩ := mem_sends_sendAppendEntries.mp hm
    exact List.mem_map.mpr ⟨peer, hpeer, rfl⟩
  · exact ⟨h, _, Acts.refl, by simp, (SameLeaders.refl h).crowns _⟩

theorem does_electionTimeout [Fintype N] {now : ℕ} (hh : HistInv d (majority Finset.univ) h)
    (hs : NodeInv d (majority Finset.univ) src h s) (hd : d.elections) :
    Does d (majority Finset.univ) src h s (handle s (.electionTimeout now)) := by
  unfold handle handleElectionTimeout
  dsimp only
  split_ifs with hr
  · exact ⟨h, _, Acts.refl, by simp, (SameLeaders.refl h).crowns _⟩
  · refine does_startElection now hs.tracks.term fun hq => ?_
    have hstand : Act d (majority Finset.univ) src h s (h.apply (.stand s.nodeId))
        (candidateState s) _ := Act.stand
    have hsound := hstand.sound hh hs
    have hwon : (h.apply (.stand s.nodeId)).Won (majority Finset.univ) (s.currentTerm + 1)
        s.nodeId := by
      have hvotes : quorum (candidateState s) ≤ (candidateState s).votesReceived.card := by
        simpa [quorum, candidateState] using hq
      exact won_of_votes (hsound.node.peers hd) hvotes fun v hv =>
        (hsound.node.counted hd (by simp [candidateState]) v hv).1
    exact ⟨hsound.node.sole hsound.hist hd rfl hwon, fun _ => hwon⟩

end NextgenDatabases.Kraft
