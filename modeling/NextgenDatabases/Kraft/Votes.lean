import NextgenDatabases.Kraft.Wal
import NextgenDatabases.Kraft.ElectionSafety

/-!
# One vote a term

A node that stops and starts again, with whatever messages it is sent. A term and
a vote reach the state file before a message tells of them, so that what the node
starts from agrees with all votes that it has given.
-/
namespace NextgenDatabases.Kraft

open Foundations

variable {N : Type*}

/-! ### Votes and the state file -/

/-- The term of a node and its vote in it. -/
def standing (s : State N) : ℕ × Option N := (s.currentTerm, s.votedFor)

/-- What the state file has after the deed. -/
def Deed.record (b : ℕ × Option N) : Deed N → ℕ × Option N
  | .write (.state currentTerm votedFor) => (currentTerm, votedFor)
  | _ => b

/-- The vote that the deed tells of: a granted one, or that of a candidate for itself. -/
def Deed.vote : Deed N → Option (ℕ × N)
  | .send (.voteResponse dest _ response) =>
    if response.voteGranted then some (response.term, dest) else none
  | .send (.requestVote _ request) => some (request.term, request.candidateId)
  | _ => none

/-- The term grows, or a vote is added in it. -/
def Onward (b b' : ℕ × Option N) : Prop :=
  b.1 < b'.1 ∨ b'.1 = b.1 ∧ (b.2 = none ∨ b'.2 = b.2)

theorem Onward.refl (b : ℕ × Option N) : Onward b b := .inr ⟨rfl, .inr rfl⟩

theorem Onward.le {b b' : ℕ × Option N} (h : Onward b b') : b.1 ≤ b'.1 :=
  h.elim le_of_lt fun h => h.1.ge

/-- Term and vote are on record before anyone is told. -/
def Honest : ℕ × Option N → List (Deed N) → Prop
  | _, [] => True
  | b, x :: ds =>
    Onward b (x.record b) ∧ (∀ g, x.vote = some g → b = (g.1, some g.2)) ∧ Honest (x.record b) ds

variable {b b' : ℕ × Option N} {ds es : List (Deed N)}

theorem Honest.append (h : Honest b ds) (hes : Honest (ds.foldl Deed.record b) es) :
    Honest b (ds ++ es) := by
  induction ds generalizing b with
  | nil => exact hes
  | cons x ds ih => exact ⟨h.1, h.2.1, ih h.2.2 hes⟩

theorem Honest.take (h : Honest b ds) (n : ℕ) : Honest b (ds.take n) := by
  induction ds generalizing b n with
  | nil => simpa using h
  | cons x ds ih =>
    cases n with
    | zero => trivial
    | succ n => exact ⟨h.1, h.2.1, ih h.2.2 n⟩

theorem Honest.le (h : Honest b ds) : b.1 ≤ (ds.foldl Deed.record b).1 := by
  induction ds generalizing b with
  | nil => exact le_rfl
  | cons x ds ih => exact h.1.le.trans (ih h.2.2)

/-- The votes given so far are of one candidate a term, and the record does not contradict them. -/
structure Once (b : ℕ × Option N) (votes : List (ℕ × N)) : Prop where
  recorded : ∀ g ∈ votes, g.1 < b.1 ∨ b = (g.1, some g.2)
  once : ∀ g ∈ votes, ∀ g' ∈ votes, g.1 = g'.1 → g.2 = g'.2

variable {votes : List (ℕ × N)}

theorem Once.onward (h : Once b votes) (hb : Onward b b') : Once b' votes := by
  refine ⟨fun g hg => ?_, h.once⟩
  rcases hb with hlt | ⟨hterm, hvote⟩
  · rcases h.recorded g hg with hold | rfl
    · exact .inl (hold.trans hlt)
    · exact .inl hlt
  · rcases h.recorded g hg with hold | rfl
    · exact .inl (hterm ▸ hold)
    · rcases hvote with hnone | hsame
      · cases hnone
      · exact .inr (Prod.ext hterm hsame)

/-- A vote on record may be told. -/
theorem Once.concat {g : ℕ × N} (h : Once (g.1, some g.2) votes) :
    Once (g.1, some g.2) (votes ++ [g]) := by
  have hold : ∀ g' ∈ votes, g.1 = g'.1 → g.2 = g'.2 := by
    intro g' hg' hterm
    rcases h.recorded g' hg' with hlt | heq
    · exact absurd hterm hlt.ne'
    · exact Option.some.inj (Prod.ext_iff.mp heq).2
  constructor
  · intro g' hg'
    rcases List.mem_append.mp hg' with hg' | hg'
    · exact h.recorded g' hg'
    · rw [List.mem_singleton.mp hg']
      exact .inr rfl
  · intro g₁ h₁ g₂ h₂ hterm
    rcases List.mem_append.mp h₁ with h₁ | h₁ <;> rcases List.mem_append.mp h₂ with h₂ | h₂
    · exact h.once g₁ h₁ g₂ h₂ hterm
    · rw [List.mem_singleton.mp h₂] at hterm ⊢
      exact (hold g₁ h₁ hterm.symm).symm
    · rw [List.mem_singleton.mp h₁] at hterm ⊢
      exact hold g₂ h₂ hterm
    · rw [List.mem_singleton.mp h₁, List.mem_singleton.mp h₂]

theorem Once.deeds (h : Once b votes) (hds : Honest b ds) :
    Once (ds.foldl Deed.record b) (votes ++ ds.filterMap Deed.vote) := by
  induction ds generalizing b votes with
  | nil => simpa using h
  | cons x ds ih =>
    obtain ⟨honward, hvote, hrest⟩ := hds
    cases hx : x.vote with
    | none =>
      rw [List.filterMap_cons_none hx]
      exact ih (h.onward honward) hrest
    | some g =>
      have hb := hvote g hx
      subst hb
      have htold := ih (h.concat.onward honward) hrest
      rwa [List.append_assoc, List.singleton_append, ← List.filterMap_cons_some hx] at htold

/-! ### What a callback casts -/

/-- The deed neither tells of a vote nor touches the state file. -/
def Deed.Mute (x : Deed N) : Prop := x.vote = none ∧ ∀ b, x.record b = b

/-- The effects keep the state file in step with the node, and tell of what it has. -/
structure Casts (s : State N) (fx : List (Effect N)) (s' : State N) : Prop where
  walPath : s'.walPath = s.walPath
  honest : Honest (standing s) (deeds fx)
  record : (deeds fx).foldl Deed.record (standing s) = standing s'

variable {s s' s'' : State N} {fx gx : List (Effect N)}

theorem deeds_append (fx gx : List (Effect N)) : deeds (fx ++ gx) = deeds fx ++ deeds gx :=
  List.flatMap_append

theorem Casts.trans (h : Casts s fx s') (h' : Casts s' gx s'') : Casts s (fx ++ gx) s'' := by
  refine ⟨h'.walPath.trans h.walPath, ?_, ?_⟩
  · rw [deeds_append]
    exact h.honest.append (h.record ▸ h'.honest)
  · rw [deeds_append, List.foldl_append, h.record, h'.record]

theorem honest_of_mute (h : ∀ x ∈ ds, x.Mute) : Honest b ds ∧ ds.foldl Deed.record b = b := by
  induction ds with
  | nil => exact ⟨trivial, rfl⟩
  | cons x ds ih =>
    obtain ⟨hvote, hrecord⟩ := h x List.mem_cons_self
    obtain ⟨hhonest, hsame⟩ := ih fun y hy => h y (List.mem_cons_of_mem x hy)
    refine ⟨⟨by rw [hrecord]; exact .refl b, by simp [hvote], by rwa [hrecord]⟩, ?_⟩
    rwa [List.foldl_cons, hrecord]

theorem casts_of_mute (hpath : s'.walPath = s.walPath) (hstanding : standing s' = standing s)
    (hmute : ∀ x ∈ deeds fx, x.Mute) : Casts s fx s' := by
  obtain ⟨hhonest, hsame⟩ := honest_of_mute (b := standing s) hmute
  exact ⟨hpath, hhonest, hsame.trans hstanding.symm⟩

/-- The effect is mute whatever it writes. -/
def Effect.Mute (f : Effect N) : Prop := ∀ x ∈ f.deeds, x.Mute

theorem mute_deeds (h : ∀ f ∈ fx, f.Mute) : ∀ x ∈ deeds fx, x.Mute := by
  intro x hx
  obtain ⟨f, hf, hxf⟩ := List.mem_flatMap.mp hx
  exact h f hf x hxf

theorem mute_send {m : Message N} (h : (Deed.send m).vote = none) : (Effect.send m).Mute := by
  intro x hx
  rw [List.mem_singleton.mp hx]
  exact ⟨h, fun _ => rfl⟩

theorem mute_reply (ref : CallRef) (answer : Reply N) : (Effect.reply ref answer).Mute := by
  intro x hx
  rw [List.mem_singleton.mp hx]
  exact ⟨rfl, fun _ => rfl⟩

/-- Only `persist_state` writes the state file. -/
theorem mute_wal (walPath : Option String) {op : WalOp N} (h : ∀ t v, op ≠ .persistState t v) :
    (Effect.wal walPath op).Mute := by
  intro x hx
  cases walPath with
  | none => cases hx
  | some path =>
    obtain ⟨w, hw, rfl⟩ := List.mem_map.mp hx
    refine ⟨rfl, fun b => ?_⟩
    cases op with
    | persistState t v => exact absurd rfl (h t v)
    | appendEntry entry => rw [List.mem_singleton.mp hw]; rfl
    | appendEntries entries =>
      cases entries with
      | nil => cases hw
      | cons entry entries => rw [List.mem_singleton.mp hw]; rfl
    | truncateAfter index => rw [List.mem_singleton.mp hw]; rfl
    | saveSnapshot registry index term =>
      rcases List.mem_pair.mp hw with rfl | rfl
      · rfl
      · rfl

theorem casts_persist (s' : State N) {path : String} (hpath : s.walPath = some path)
    (hsame : s'.walPath = s.walPath) (honward : Onward (standing s) (standing s')) :
    Casts s [.wal s.walPath (.persistState s'.currentTerm s'.votedFor)] s' := by
  rw [hpath] at hsame ⊢
  exact ⟨hsame.trans hpath.symm, ⟨honward, nofun, trivial⟩, rfl⟩

section Callbacks

variable [DecidableEq N]

omit [DecidableEq N] in
/-- A change of something else. -/
theorem casts_same (hpath : s'.walPath = s.walPath) (hstanding : standing s' = standing s) :
    Casts s [] s' :=
  casts_of_mute hpath hstanding nofun

theorem mute_sendAppendEntries (s : State N) : ∀ f ∈ sendAppendEntries s, f.Mute := by
  intro f hf
  obtain ⟨peer, -, rfl⟩ := List.mem_map.mp hf
  exact mute_send rfl

omit [DecidableEq N] in
theorem mute_maybeTriggerSnapshot (s : State N) : ∀ f ∈ maybeTriggerSnapshot s, f.Mute := by
  unfold maybeTriggerSnapshot
  split_ifs
  · split
    · intro f hf
      rw [List.mem_singleton.mp hf]
      exact mute_wal _ nofun
    · nofun
  · nofun

theorem casts_applyCommitted (now : ℕ) (s : State N) :
    Casts s (applyCommitted now s).2 (applyCommitted now s).1 := by
  obtain ⟨n, registry, peers, heq, -⟩ := applyCommitted_eq now s
  have hmute : ∀ f ∈ (applyCommitted now s).2, f.Mute := by
    unfold applyCommitted
    split_ifs
    · nofun
    · exact mute_maybeTriggerSnapshot _
  rw [heq]
  exact casts_of_mute rfl rfl (mute_deeds hmute)

omit [DecidableEq N] in
theorem casts_replyToPending (s : State N) :
    Casts s (replyToPending s).2 (replyToPending s).1 := by
  refine casts_of_mute rfl rfl (mute_deeds fun f hf => ?_)
  obtain ⟨r, -, rfl⟩ := List.mem_map.mp hf
  exact mute_reply _ _

theorem casts_settle (now : ℕ) (s : State N) :
    Casts s ((applyCommitted now (maybeAdvanceCommit s)).2 ++
        (replyToPending (applyCommitted now (maybeAdvanceCommit s)).1).2)
      (replyToPending (applyCommitted now (maybeAdvanceCommit s)).1).1 := by
  have hadvance : Casts s [] (maybeAdvanceCommit s) := by
    rcases maybeAdvanceCommit_cases s with heq | ⟨-, -, heq⟩
    · exact casts_same (by rw [heq]) (by rw [heq])
    · exact casts_same (by rw [heq]) (by rw [heq]; rfl)
  exact hadvance.trans ((casts_applyCommitted now _).trans (casts_replyToPending _))

omit [DecidableEq N] in
theorem casts_stepDown {path : String} (hpath : s.walPath = some path) {t : ℕ}
    (ht : s.currentTerm < t) : Casts s (stepDown s t).2 (stepDown s t).1 := by
  have hpersist : Casts s [.wal s.walPath (.persistState (stepDown s t).1.currentTerm
      (stepDown s t).1.votedFor)] (stepDown s t).1 := casts_persist _ hpath rfl (.inl ht)
  exact hpersist

theorem casts_becomeLeader (now : ℕ) (s : State N) :
    Casts s (becomeLeader now s).2 (becomeLeader now s).1 := by
  refine casts_of_mute rfl rfl (mute_deeds fun f hf => ?_)
  rcases List.mem_cons.mp hf with rfl | hf
  · exact mute_wal _ nofun
  · exact mute_sendAppendEntries _ f hf

/-- The vote of a candidate for itself is on record before it asks for others. -/
theorem casts_startElection {path : String} (hpath : s.walPath = some path) (now : ℕ) :
    Casts s (startElection now s).2 (startElection now s).1 := by
  have hpersist : Casts s
      [.wal s.walPath (.persistState (candidateState s).currentTerm (candidateState s).votedFor)]
      (candidateState s) := casts_persist _ hpath rfl (.inl (Nat.lt_succ_self _))
  have hrequests (peers : List N) : Casts (candidateState s)
      (peers.map fun peer => .send (.requestVote peer
        { term := s.currentTerm + 1
          candidateId := s.nodeId
          lastLogIndex := s.log.length
          lastLogTerm := lastLogTerm s })) (candidateState s) := by
    induction peers with
    | nil => exact casts_same rfl rfl
    | cons peer peers ih =>
      refine ⟨rfl, ⟨.refl _, ?_, ih.honest⟩, ih.record⟩
      intro g hg
      cases hg
      rfl
  have hcandidate := hpersist.trans (hrequests s.peers)
  unfold startElection
  dsimp only
  split_ifs
  · exact hcandidate.trans (casts_becomeLeader now (candidateState s))
  · exact hcandidate

omit [DecidableEq N] in
/-- A vote that is granted is on record before the answer is sent. -/
theorem casts_considerVote {path : String} (hpath : s.walPath = some path) (r : VoteRequest N)
    (hfree : s.votedFor = none ∨ s.votedFor = some r.candidateId) (p : N) :
    Casts s ((considerVote s r).2.2 ++
        [.send (.voteResponse r.candidateId p (considerVote s r).2.1)])
      (considerVote s r).1 := by
  unfold considerVote
  split_ifs
  · have hpersist : Casts s [.wal s.walPath (.persistState s.currentTerm (some r.candidateId))]
        { s with votedFor := some r.candidateId } :=
      casts_persist { s with votedFor := some r.candidateId } hpath rfl
        (.inr ⟨rfl, hfree.imp_right Eq.symm⟩)
    refine hpersist.trans ⟨rfl, ⟨.refl _, ?_, trivial⟩, rfl⟩
    intro g hg
    cases hg
    rfl
  · refine casts_of_mute rfl rfl (mute_deeds fun f hf => ?_)
    rw [List.mem_singleton.mp hf]
    exact mute_send rfl

theorem casts_requestVote {path : String} (hpath : s.walPath = some path) (r : VoteRequest N)
    (p : N) :
    Casts s ((handleVoteRequest s r).2.2 ++
        [.send (.voteResponse r.candidateId p (handleVoteRequest s r).2.1)])
      (handleVoteRequest s r).1 := by
  have hrefused : Casts s [.send (.voteResponse r.candidateId p
      { term := s.currentTerm, voteGranted := false })] s := by
    refine casts_of_mute rfl rfl (mute_deeds fun f hf => ?_)
    rw [List.mem_singleton.mp hf]
    exact mute_send rfl
  unfold handleVoteRequest
  split_ifs with hstale hgt hfree
  · exact hrefused
  · have hdown := casts_stepDown hpath hgt
    have hconsider := casts_considerVote (hdown.walPath.trans hpath) r (.inl rfl) p
    have hboth := hdown.trans hconsider
    rwa [← List.append_assoc] at hboth
  · exact casts_considerVote hpath r hfree p
  · exact hrefused

theorem casts_voteResponse {path : String} (hpath : s.walPath = some path) (v : N)
    (r : VoteResponse) (now : ℕ) :
    Casts s (handleVoteResponse now s v r).2 (handleVoteResponse now s v r).1 := by
  unfold handleVoteResponse
  dsimp only
  have hcount : Casts s [] { s with votesReceived := insert v s.votesReceived } :=
    casts_same rfl rfl
  split_ifs with hgt
  · exact casts_stepDown hpath hgt
  · exact hcount.trans (casts_becomeLeader now _)
  · exact hcount
  · exact casts_same rfl rfl

theorem casts_receiveEntries (now : ℕ) (s : State N) (r : AppendEntriesRequest N) :
    Casts s (receiveEntries now s r).2.2 (receiveEntries now s r).1 := by
  unfold receiveEntries
  dsimp only
  by_cases hok : prevOk s.log r = true
  · simp only [hok, if_true]
    have hmute : ∀ f ∈ received s r, f.Mute := by
      unfold received
      split_ifs
      · intro f hf
        rcases List.mem_pair.mp hf with rfl | rfl
        · exact mute_wal _ nofun
        · exact mute_wal _ nofun
      · intro f hf
        rw [List.mem_singleton.mp hf]
        exact mute_wal _ nofun
      · nofun
    have hreceive : Casts s (received s r)
        { s with
          leaderId := some r.leaderId
          log := s.log.take r.prevLogIndex ++ r.entries
          commitIndex := min r.leaderCommit (s.log.take r.prevLogIndex ++ r.entries).length } :=
      casts_of_mute rfl rfl (mute_deeds hmute)
    exact hreceive.trans (casts_applyCommitted now _)
  · rw [if_neg hok]
    exact casts_same rfl rfl

theorem casts_appendEntries {path : String} (hpath : s.walPath = some path)
    (r : AppendEntriesRequest N) (now : ℕ) :
    Casts s (handleAppendEntriesRpc now s r).2.2 (handleAppendEntriesRpc now s r).1 := by
  unfold handleAppendEntriesRpc
  split_ifs with hstale hgt
  · exact casts_same rfl rfl
  · exact (casts_stepDown hpath hgt).trans (casts_receiveEntries now _ r)
  · exact casts_receiveEntries now s r

theorem casts_appendEntriesResponse {path : String} (hpath : s.walPath = some path) (v : N)
    (r : AppendEntriesResponse) (now : ℕ) :
    Casts s (handleAeResponse now s v r).2 (handleAeResponse now s v r).1 := by
  unfold handleAeResponse
  split_ifs with hgt hack hlead
  · exact casts_stepDown hpath hgt
  · have hcount : Casts s []
        { s with
          nextIndex := s.nextIndex.insert v (r.matchIndex + 1)
          matchIndex := s.matchIndex.insert v r.matchIndex } := casts_same rfl rfl
    exact hcount.trans (casts_settle now _)
  · exact casts_same rfl rfl
  · exact casts_same rfl rfl

theorem casts_propose (s : State N) (ref : CallRef) (command : Command N) (now : ℕ) :
    Casts s (handlePropose now s ref command).2 (handlePropose now s ref command).1 := by
  unfold handlePropose
  split_ifs
  · have happend : Casts s (.wal s.walPath (.appendEntry (newEntry now s command)) ::
        sendAppendEntries
          { s with
            log := s.log ++ [newEntry now s command]
            pendingRequests := ((newEntry now s command).index, ref) :: s.pendingRequests })
        { s with
          log := s.log ++ [newEntry now s command]
          pendingRequests := ((newEntry now s command).index, ref) :: s.pendingRequests } := by
      refine casts_of_mute rfl rfl (mute_deeds fun f hf => ?_)
      rcases List.mem_cons.mp hf with rfl | hf
      · exact mute_wal _ nofun
      · exact mute_sendAppendEntries _ f hf
    have hsettle := happend.trans (casts_settle now _)
    rwa [← List.append_assoc] at hsettle
  · refine casts_of_mute rfl rfl (mute_deeds fun f hf => ?_)
    rw [List.mem_singleton.mp hf]
    exact mute_reply _ _

/-- Whatever a node is sent, it keeps the state file in step and tells only of votes on record. -/
theorem handle_casts {path : String} (hpath : s.walPath = some path) (i : Input N) :
    Casts s (handle s i).2 (handle s i).1 := by
  cases i with
  | electionTimeout now =>
    unfold handle handleElectionTimeout
    dsimp only
    split_ifs
    · exact casts_same rfl rfl
    · exact casts_startElection hpath now
  | heartbeat =>
    unfold handle handleHeartbeat
    dsimp only
    split_ifs
    · exact casts_of_mute rfl rfl (mute_deeds (mute_sendAppendEntries s))
    · exact casts_same rfl rfl
  | propose ref command now => exact casts_propose s ref command now
  | requestVote r => exact casts_requestVote hpath r s.nodeId
  | voteResponse v r now => exact casts_voteResponse hpath v r now
  | appendEntries r now =>
    refine (casts_appendEntries hpath r now).trans ?_
    refine casts_of_mute rfl rfl (mute_deeds fun f hf => ?_)
    rw [List.mem_singleton.mp hf]
    exact mute_send rfl
  | appendEntriesResponse v r now => exact casts_appendEntriesResponse hpath v r now

end Callbacks

/-! ### The node and its state file -/

namespace Directory

variable {d : Directory N}

theorem recoverState_act (d : Directory N) (x : Deed N) :
    (d.act x).recoverState = x.record d.recoverState := by
  cases x with
  | write w => cases w <;> rfl
  | send _ | reply _ _ => rfl

theorem recoverState_foldl (d : Directory N) (ds : List (Deed N)) :
    (ds.foldl act d).recoverState = ds.foldl Deed.record d.recoverState := by
  induction ds generalizing d with
  | nil => rfl
  | cons x ds ih => rw [List.foldl_cons, ih, recoverState_act, List.foldl_cons]

/-- A crash leaves what the deeds before it have recorded. -/
theorem recoverState_crashed (d : Directory N) (fx : List (Effect N)) (done n : ℕ) (cut : Cut) :
    (d.crashed fx done n cut).recoverState =
      ((deeds fx).take done).foldl Deed.record d.recoverState := by
  rw [← recoverState_foldl]
  unfold crashed
  dsimp only
  split
  · next w _ => cases w <;> rfl
  · rfl

end Directory

/-- A node with its directory; `votes` are those that it has given, with their terms. -/
structure Voter (N : Type*) where
  node : State N
  disk : Directory N
  up : Bool
  votes : List (ℕ × N)

inductive Turn (N : Type*) where
  | handled (i : Input N)
  /-- The node stops after `done` deeds or in the middle of the next one. -/
  | crashed (i : Input N) (done n : ℕ) (cut : Cut)
  | restarted (peers : List N)

/-- The vote that a node stands by. -/
def given (s : State N) : List (ℕ × N) := s.votedFor.toList.map fun c => (s.currentTerm, c)

theorem Once.given (h : Once (standing s) votes) : Once (standing s) (votes ++ given s) := by
  cases hvote : s.votedFor with
  | none => simpa [Kraft.given, hvote] using h
  | some c =>
    rw [standing, hvote] at h ⊢
    simpa [Kraft.given, hvote] using Once.concat (g := (s.currentTerm, c)) h

namespace Voter

variable [DecidableEq N]

def step (v : Voter N) : Turn N → Option (Voter N)
  | .handled i =>
    if v.up then
      some
        { node := (handle v.node i).1
          disk := v.disk.perform (handle v.node i).2
          up := true
          votes := v.votes ++ (deeds (handle v.node i).2).filterMap Deed.vote ++
            given (handle v.node i).1 }
    else none
  | .crashed i done n cut =>
    if v.up then
      some
        { node := v.node
          disk := v.disk.crashed (handle v.node i).2 done n cut
          up := false
          votes := v.votes ++ ((deeds (handle v.node i).2).take done).filterMap Deed.vote }
    else none
  | .restarted peers =>
    some
      { node := State.init v.node.nodeId peers v.node.walPath v.disk
        disk := v.disk
        up := true
        votes := v.votes ++ given (State.init v.node.nodeId peers v.node.walPath v.disk) }

/-- The node has just been started on a directory and has given no vote since. -/
def Started (v : Voter N) : Prop :=
  ∃ p peers path d, v = ⟨State.init p peers (some path) d, d, true, []⟩

/-- The state file has what the node knows of term and vote, and all its votes agree with it. -/
structure Sound (v : Voter N) : Prop where
  walPath : ∃ path, v.node.walPath = some path
  file : v.up = true → v.disk.recoverState = standing v.node
  term : v.node.currentTerm ≤ v.disk.recoverState.1
  once : Once v.disk.recoverState v.votes

variable {v v' : Voter N}

omit [DecidableEq N] in
theorem standing_init (p : N) (peers : List N) (path : String) (d : Directory N) :
    standing (State.init p peers (some path) d) = d.recoverState := rfl

omit [DecidableEq N] in
theorem Started.sound (h : v.Started) : v.Sound := by
  obtain ⟨p, peers, path, d, rfl⟩ := h
  exact ⟨⟨path, rfl⟩, fun _ => rfl, le_rfl, nofun, nofun⟩

theorem Sound.step (h : v.Sound) {turn : Turn N} (hstep : v.step turn = some v') :
    v'.Sound ∧ v.node.currentTerm ≤ v'.node.currentTerm := by
  obtain ⟨path, hpath⟩ := h.walPath
  cases turn with
  | handled i =>
    simp only [Voter.step] at hstep
    split_ifs at hstep with hup
    cases hstep
    have hcasts := handle_casts hpath i
    have hfile : (v.disk.perform (handle v.node i).2).recoverState =
        standing (handle v.node i).1 := by
      rw [Directory.perform, Directory.recoverState_foldl, h.file hup, hcasts.record]
    have hgiven := h.once
    rw [h.file hup] at hgiven
    have htold := hgiven.deeds hcasts.honest
    rw [hcasts.record] at htold
    refine ⟨⟨⟨path, hcasts.walPath.trans hpath⟩, fun _ => hfile, ?_, ?_⟩, ?_⟩
    · exact (congrArg Prod.fst hfile).ge
    · rw [hfile]
      exact htold.given
    · have hle := hcasts.honest.le
      rwa [hcasts.record] at hle
  | crashed i done n cut =>
    simp only [Voter.step] at hstep
    split_ifs at hstep with hup
    cases hstep
    have hhonest := (handle_casts hpath i).honest.take done
    have hgiven := h.once
    rw [← h.file hup] at hhonest
    have hle := hhonest.le
    refine ⟨⟨⟨path, hpath⟩, nofun, ?_, ?_⟩, le_rfl⟩
    · rw [Directory.recoverState_crashed]
      exact h.term.trans hle
    · rw [Directory.recoverState_crashed]
      exact hgiven.deeds hhonest
  | restarted peers =>
    cases hstep
    have hinit : standing (State.init v.node.nodeId peers v.node.walPath v.disk) =
        v.disk.recoverState := by
      rw [hpath, standing_init]
    refine ⟨⟨⟨path, hpath⟩, fun _ => hinit.symm, ?_, ?_⟩, ?_⟩
    · exact (congrArg Prod.fst hinit).le
    · have hgiven := h.once
      rw [← hinit] at hgiven ⊢
      exact hgiven.given
    · exact h.term.trans (congrArg Prod.fst hinit).ge

theorem Sound.run (h : v.Sound) (r : Run Voter.step (fun _ _ => True) v v') :
    v'.Sound ∧ v.node.currentTerm ≤ v'.node.currentTerm := by
  induction r with
  | refl => exact ⟨h, le_rfl⟩
  | tail _ hnext ih =>
    obtain ⟨turn, -, hstep⟩ := hnext
    obtain ⟨hsound, hle⟩ := ih.1.step hstep
    exact ⟨hsound, ih.2.trans hle⟩

end Voter

/-- Whatever a node is sent and wherever it stops and starts again, its term never goes back and
it gives its vote to at most one candidate a term. -/
theorem one_vote_a_term [DecidableEq N] {v₀ v v' : Voter N} (h₀ : v₀.Started)
    (r : Run Voter.step (fun _ _ => True) v₀ v) (r' : Run Voter.step (fun _ _ => True) v v') :
    v.node.currentTerm ≤ v'.node.currentTerm ∧
      ∀ t c c', (t, c) ∈ v'.votes → (t, c') ∈ v'.votes → c = c' := by
  obtain ⟨hsound, -⟩ := h₀.sound.run r
  obtain ⟨hsound', hle⟩ := hsound.run r'
  exact ⟨hle, fun t c c' hc hc' => hsound'.once.once (t, c) hc (t, c') hc' rfl⟩

/-- A candidate of term 1 with an empty log. -/
def standsInOne {n : ℕ} (c : Fin n) : Input (Fin n) :=
  .requestVote { term := 1, candidateId := c, lastLogIndex := 0, lastLogTerm := 0 }

/-- The node stops between the write of its vote and the answer, and is asked again. -/
def askedAgain : List (Turn (Fin 3)) :=
  [.crashed (standsInOne 1) 2 0 .before,
    .restarted [1, 2],
    .handled (standsInOne 2),
    .handled (standsInOne 1)]

theorem one_vote_a_term_asked : ∃ v v' : Voter (Fin 3),
    exec Voter.step ⟨State.init 0 [1, 2] (some "wal") (.empty _), .empty _, true, []⟩ askedAgain =
      some v ∧
    exec Voter.step v [.handled (.electionTimeout 0)] = some v' ∧
    v.node.currentTerm = 1 ∧ v'.node.currentTerm = 2 ∧ (1, 1) ∈ v'.votes ∧ (2, 0) ∈ v'.votes ∧
    v.node.currentTerm ≤ v'.node.currentTerm ∧
      ∀ t c c', (t, c) ∈ v'.votes → (t, c') ∈ v'.votes → c = c' := by
  obtain ⟨v, v', hv, hv', hone, htwo, hold, hnew⟩ : ∃ v v' : Voter (Fin 3),
      exec Voter.step ⟨State.init 0 [1, 2] (some "wal") (.empty _), .empty _, true, []⟩
        askedAgain = some v ∧
      exec Voter.step v [.handled (.electionTimeout 0)] = some v' ∧
      v.node.currentTerm = 1 ∧ v'.node.currentTerm = 2 ∧ (1, 1) ∈ v'.votes ∧ (2, 0) ∈ v'.votes :=
    ⟨_, _, rfl, rfl, rfl, rfl, by decide, by decide⟩
  exact ⟨v, v', hv, hv', hone, htwo, hold, hnew,
    one_vote_a_term ⟨0, [1, 2], "wal", _, rfl⟩ (run_of_steps hv) (run_of_steps hv')⟩

end NextgenDatabases.Kraft
