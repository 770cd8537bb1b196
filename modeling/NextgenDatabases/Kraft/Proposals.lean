import NextgenDatabases.Kraft.Commitment

/-!
# Acknowledged proposals

Pending calls are kept by index and outlive step-downs and truncations. In the
runs where no accepted request changes an entry that a call waits for, every
positive answer is for the command of the call, and if the logs are sound it is
the command that every node has at that index once it has committed it.
-/
namespace NextgenDatabases.Kraft

open Raft Raft.History Foundations

variable {N : Type*} [DecidableEq N]

/-! ### Conditions -/

/-- An accepted request leaves the entries that calls wait for as they are. -/
def KeepsPending (c : Cluster N) : Event N → Prop
  | .deliver (.appendEntries dest request) _ =>
    Accepted (c.node dest) request → ∀ r ∈ (c.node dest).pendingRequests,
      ((c.node dest).log.take request.prevLogIndex ++ request.entries)[r.1 - 1]? =
        (c.node dest).log[r.1 - 1]?
  | _ => True

instance (c : Cluster N) : DecidablePred (KeepsPending c)
  | .deliver (.appendEntries dest request) _ =>
    inferInstanceAs (Decidable (Accepted (c.node dest) request →
      ∀ r ∈ (c.node dest).pendingRequests, _ = _))
  | .electionTimeout _ _ | .heartbeat _ | .propose _ _ _ _ => isTrue trivial
  | .deliver (.requestVote _ _) _ | .deliver (.voteResponse _ _ _) _ => isTrue trivial
  | .deliver (.appendEntriesResponse _ _ _) _ => isTrue trivial

/-! ### Callbacks that answer no one -/

/-- The log only grows, and no call is answered. -/
structure Quiet (s : State N) (out : State N × List (Effect N)) : Prop where
  log : s.log <+: out.1.log
  pending : out.1.pendingRequests = s.pendingRequests
  silent : answers out.2 = []

omit [DecidableEq N] in
theorem Quiet.same {s s' : State N} {fx : List (Effect N)} (hlog : s'.log = s.log)
    (hpending : s'.pendingRequests = s.pendingRequests) (hfx : answers fx = []) :
    Quiet s (s', fx) :=
  ⟨hlog ▸ List.prefix_rfl, hpending, hfx⟩

omit [DecidableEq N] in
theorem Quiet.trans {s s₁ s₂ : State N} {fx gx : List (Effect N)} (a : Quiet s (s₁, fx))
    (b : Quiet s₁ (s₂, gx)) : Quiet s (s₂, fx ++ gx) where
  log := a.log.trans b.log
  pending := b.pending.trans a.pending
  silent := by
    have ha := a.silent
    have hb := b.silent
    simp only at ha hb
    rw [answers_append, ha, hb, List.append_nil]

theorem quiet_becomeLeader (now : ℕ) (s : State N) : Quiet s (becomeLeader now s) where
  log := List.prefix_append _ _
  pending := rfl
  silent := answers_map_send _ _

theorem quiet_startElection (now : ℕ) (s : State N) : Quiet s (startElection now s) := by
  have hfx : ∀ (op : WalOp N) (r : VoteRequest N),
      answers (.wal s.walPath op :: s.peers.map fun peer => .send (.requestVote peer r)) = [] :=
    fun op r => answers_map_send s.peers fun peer => .requestVote peer r
  unfold startElection
  dsimp only
  split_ifs
  · have hstand : ∀ fx, answers fx = [] → Quiet s (candidateState s, fx) :=
      fun fx => Quiet.same rfl rfl
    exact (hstand _ (hfx _ _)).trans (quiet_becomeLeader now (candidateState s))
  · exact Quiet.same rfl rfl (hfx _ _)

omit [DecidableEq N] in
theorem quiet_stepDown (t : ℕ) (s : State N) : Quiet s (stepDown s t) :=
  Quiet.same rfl rfl rfl

omit [DecidableEq N] in
theorem quiet_considerVote (s : State N) (r : VoteRequest N) :
    Quiet s ((considerVote s r).1, (considerVote s r).2.2) := by
  unfold considerVote
  split_ifs
  · exact Quiet.same rfl rfl rfl
  · exact Quiet.same rfl rfl rfl

theorem quiet_requestVote (s : State N) (r : VoteRequest N) : Quiet s (handle s (.requestVote r)) := by
  have hresponse : ∀ (s' : State N) m, Quiet s' (s', [.send m]) := fun s' m => Quiet.same rfl rfl rfl
  unfold handle handleVoteRequest
  dsimp only
  split_ifs
  · exact Quiet.same rfl rfl rfl
  · exact ((quiet_stepDown r.term s).trans (quiet_considerVote _ r)).trans (hresponse _ _)
  · exact (quiet_considerVote s r).trans (hresponse _ _)
  · exact Quiet.same rfl rfl rfl

theorem quiet_voteResponse (s : State N) (v : N) (r : VoteResponse) (now : ℕ) :
    Quiet s (handle s (.voteResponse v r now)) := by
  unfold handle handleVoteResponse
  dsimp only
  split_ifs
  · exact quiet_stepDown _ _
  · exact ⟨(quiet_becomeLeader now _).log, (quiet_becomeLeader now _).pending,
      (quiet_becomeLeader now _).silent⟩
  · exact Quiet.same rfl rfl rfl
  · exact Quiet.same rfl rfl rfl

theorem quiet_electionTimeout (s : State N) (now : ℕ) :
    Quiet s (handle s (.electionTimeout now)) := by
  unfold handle handleElectionTimeout
  dsimp only
  split_ifs
  · exact Quiet.same rfl rfl rfl
  · exact quiet_startElection now s

theorem quiet_heartbeat (s : State N) : Quiet s (handle s .heartbeat) := by
  unfold handle handleHeartbeat
  dsimp only
  split_ifs
  · exact Quiet.same rfl rfl (answers_map_send _ _)
  · exact Quiet.same rfl rfl rfl

/-! ### Callbacks that may answer -/

/-- What advancing, applying and replying do to the pending calls `pending`. -/
structure Answers (pending : List (ℕ × CallRef)) (out : State N × List (Effect N)) : Prop where
  remain : ∀ r ∈ out.1.pendingRequests, r ∈ pending
  answered : ∀ ref i, (ref, Reply.ok i) ∈ answers out.2 →
    (i, ref) ∈ pending ∧ i ≤ out.1.commitIndex

omit [DecidableEq N] in
theorem Quiet.answered {s : State N} {out : State N × List (Effect N)} (hq : Quiet s out) :
    Answers s.pendingRequests out where
  remain r hr := hq.pending ▸ hr
  answered ref i hmem := by simp [hq.silent] at hmem

theorem answers_settle (now : ℕ) (s : State N) :
    Answers s.pendingRequests ((replyToPending (applyCommitted now (maybeAdvanceCommit s)).1).1,
      (applyCommitted now (maybeAdvanceCommit s)).2 ++
        (replyToPending (applyCommitted now (maybeAdvanceCommit s)).1).2) := by
  obtain ⟨la, reg, peers, heq, -, -, hans⟩ := applyCommitted_eq now (maybeAdvanceCommit s)
  have hpending : (applyCommitted now (maybeAdvanceCommit s)).1.pendingRequests =
      s.pendingRequests := by
    rw [heq]
    rcases maybeAdvanceCommit_cases s with h | ⟨-, -, h⟩ <;> rw [h]
  constructor
  · intro r hr
    simp only [replyToPending, List.partition_eq_filter_filter, List.mem_filter] at hr
    exact hpending ▸ hr.1
  · intro ref i hmem
    rw [answers_append, hans, List.nil_append, mem_answers_replyToPending] at hmem
    obtain ⟨j, hj, hmem, hle⟩ := hmem
    cases hj
    exact ⟨hpending ▸ hmem, hle⟩

/-- A request for entries answers no call. -/
theorem answers_receiveEntries (now : ℕ) (s : State N) (r : AppendEntriesRequest N) :
    (receiveEntries now s r).1.pendingRequests = s.pendingRequests ∧
      answers (receiveEntries now s r).2.2 = [] := by
  unfold receiveEntries
  dsimp only
  by_cases hok : prevOk s.log r = true
  · simp only [hok, if_true]
    obtain ⟨n, reg, peers, heq, -, -, hans⟩ := applyCommitted_eq now
      { s with
        leaderId := some r.leaderId
        log := s.log.take r.prevLogIndex ++ r.entries
        commitIndex := min r.leaderCommit (s.log.take r.prevLogIndex ++ r.entries).length }
    rw [heq]
    refine ⟨rfl, ?_⟩
    rw [answers_append, hans, List.append_nil]
    split_ifs <;> rfl
  · simp [hok]

theorem answers_appendEntries (now : ℕ) (s : State N) (r : AppendEntriesRequest N) :
    Answers s.pendingRequests (handle s (.appendEntries r now)) := by
  have hall : (handle s (.appendEntries r now)).1.pendingRequests = s.pendingRequests ∧
      answers (handle s (.appendEntries r now)).2 = [] := by
    unfold handle handleAppendEntriesRpc
    dsimp only
    split_ifs
    · exact ⟨rfl, rfl⟩
    · obtain ⟨hp, ha⟩ := answers_receiveEntries now (stepDown s r.term).1 r
      exact ⟨hp, by rw [answers_append, answers_append, ha]; rfl⟩
    · obtain ⟨hp, ha⟩ := answers_receiveEntries now s r
      exact ⟨hp, by simp [ha]⟩
  exact ⟨fun x hx => hall.1 ▸ hx, fun ref i hmem => by simp [hall.2] at hmem⟩

/-! ### Waiting calls -/

/-- The call `r` waits at an index of the log that holds its own command. -/
def Waits (calls : List (CallRef × Command N)) (log : List (Entry N)) (r : ℕ × CallRef) : Prop :=
  0 < r.1 ∧ ∃ e, log[r.1 - 1]? = some e ∧ (r.2, e.command) ∈ calls

/-- Every pending call of the node waits for its own command. -/
def PendingOk (calls : List (CallRef × Command N)) (s : State N) : Prop :=
  ∀ r ∈ s.pendingRequests, Waits calls s.log r

/-- What a callback answers and leaves pending is right. -/
def AnswersOk (calls : List (CallRef × Command N)) (out : State N × List (Effect N)) : Prop :=
  PendingOk calls out.1 ∧ ∀ ref i, (ref, Reply.ok i) ∈ answers out.2 →
    Waits calls out.1.log (i, ref) ∧ i ≤ out.1.commitIndex

omit [DecidableEq N] in
theorem Answers.answersOk {calls : List (CallRef × Command N)} {pending : List (ℕ × CallRef)}
    {out : State N × List (Effect N)} (ha : Answers pending out)
    (hp : ∀ r ∈ pending, Waits calls out.1.log r) : AnswersOk calls out :=
  ⟨fun r hr => hp r (ha.remain r hr), fun ref i hmem =>
    ⟨hp _ (ha.answered ref i hmem).1, (ha.answered ref i hmem).2⟩⟩

omit [DecidableEq N] in
theorem Waits.mono {calls calls' : List (CallRef × Command N)} {log log' : List (Entry N)}
    {r : ℕ × CallRef} (hw : Waits calls log r) (hlog : log <+: log')
    (hcalls : calls ⊆ calls') : Waits calls' log' r := by
  obtain ⟨hpos, e, he, hmem⟩ := hw
  exact ⟨hpos, e, getElem?_of_isPrefix hlog he, hcalls hmem⟩

omit [DecidableEq N] in
theorem Quiet.answersOk {calls : List (CallRef × Command N)} {s : State N}
    {out : State N × List (Effect N)} (hq : Quiet s out) (hs : PendingOk calls s) :
    AnswersOk calls out :=
  hq.answered.answersOk fun r hr => (hs r hr).mono hq.log (List.Subset.refl _)

theorem answersOk_propose {calls : List (CallRef × Command N)} {s : State N} {now : ℕ}
    {ref : CallRef} {command : Command N} (hs : PendingOk calls s) :
    AnswersOk ((ref, command) :: calls) (handle s (.propose ref command now)) := by
  have hsub : calls ⊆ (ref, command) :: calls := List.subset_cons_self _ _
  unfold handle handlePropose
  dsimp only
  split_ifs
  · generalize hu : ({ s with
      log := s.log ++ [newEntry now s command]
      pendingRequests := ((newEntry now s command).index, ref) :: s.pendingRequests } : State N) = u
    have hlog : u.log = s.log ++ [newEntry now s command] := by rw [← hu]
    have hpending : u.pendingRequests = (s.log.length + 1, ref) :: s.pendingRequests := by
      rw [← hu]; rfl
    obtain ⟨n, la, reg, peers, pending, heq⟩ := settle_eq now u
    have hall := answers_settle now u
    have hans : Answers u.pendingRequests
        ((replyToPending (applyCommitted now (maybeAdvanceCommit u)).1).1,
          .wal s.walPath (.appendEntry (newEntry now s command)) :: sendAppendEntries u ++
            (applyCommitted now (maybeAdvanceCommit u)).2 ++
            (replyToPending (applyCommitted now (maybeAdvanceCommit u)).1).2) :=
      ⟨hall.remain, fun ref' i hmem =>
        hall.answered ref' i (by simpa [sendAppendEntries] using hmem)⟩
    refine hans.answersOk fun r hr => ?_
    · simp only [heq, hlog]
      rw [hpending] at hr
      rcases List.mem_cons.mp hr with rfl | hr
      · exact ⟨Nat.succ_pos _, newEntry now s command, by simp, List.mem_cons_self⟩
      · exact (hs r hr).mono (List.prefix_append _ _) hsub
  · have hans : Answers s.pendingRequests (s, [.reply ref (.notLeader s.leaderId)]) :=
      ⟨fun r hr => hr, fun ref' i hmem => by simp at hmem⟩
    exact hans.answersOk fun r hr => (hs r hr).mono List.prefix_rfl hsub

theorem answersOk_appendEntries {calls : List (CallRef × Command N)} {s : State N} {now : ℕ}
    {r : AppendEntriesRequest N} (hs : PendingOk calls s)
    (hkeep : Accepted s r → ∀ x ∈ s.pendingRequests,
      (s.log.take r.prevLogIndex ++ r.entries)[x.1 - 1]? = s.log[x.1 - 1]?) :
    AnswersOk calls (handle s (.appendEntries r now)) := by
  refine (answers_appendEntries now s r).answersOk fun x hx => ?_
  have hlog : (handle s (.appendEntries r now)).1.log = (handleAppendEntriesRpc now s r).1.log := rfl
  obtain ⟨hpos, e, he, hmem⟩ := hs x hx
  refine ⟨hpos, e, ?_, hmem⟩
  rw [hlog]
  by_cases ha : Accepted s r
  · rw [(handleAppendEntriesRpc_accepted now ha).1, hkeep ha x hx, he]
  · rw [(handleAppendEntriesRpc_refused now ha).1, he]

theorem answersOk_appendEntriesResponse {calls : List (CallRef × Command N)} {s : State N}
    {now : ℕ} {v : N} {r : AppendEntriesResponse} (hs : PendingOk calls s) :
    AnswersOk calls (handle s (.appendEntriesResponse v r now)) := by
  unfold handle handleAeResponse
  dsimp only
  split_ifs
  · exact (quiet_stepDown _ s).answersOk hs
  · obtain ⟨n, la, reg, peers, pending, heq⟩ := settle_eq now { s with
      nextIndex := s.nextIndex.insert v (r.matchIndex + 1)
      matchIndex := s.matchIndex.insert v r.matchIndex }
    refine (answers_settle now _).answersOk fun x hx => ?_
    rw [heq]
    exact hs x hx
  · exact (Quiet.same (s := s) rfl rfl rfl).answersOk hs
  · exact (Quiet.same (s := s) rfl rfl rfl).answersOk hs

/-! ### Runs -/

/-- Every pending call of the cluster waits for its own command. -/
def Cluster.PendingOk (c : Cluster N) : Prop := ∀ p, Kraft.PendingOk c.calls (c.node p)

/-- The answer `ok i` to `ref` is right: the call was made, and a node that has
committed index `i` has its command there. -/
def AnsweredBy (c : Cluster N) (p : N) (ref : CallRef) (i : ℕ) : Prop :=
  Waits c.calls (c.node p).log (i, ref) ∧ i ≤ (c.node p).commitIndex

/-- One step keeps the pending calls right and gives right answers only. -/
theorem Cluster.PendingOk.step {c c' : Cluster N} {e : Event N} (hc : c.PendingOk)
    (hok : KeepsPending c e) (hstep : c.step e = some c') :
    c'.PendingOk ∧ c.calls ⊆ c'.calls ∧ ∀ ref i, (ref, Reply.ok i) ∈ c'.replies →
      (ref, Reply.ok i) ∈ c.replies ∨ AnsweredBy c' e.node ref i := by
  -- the node `p` handles an input, and the calls may have grown
  have key : ∀ (p : N) (i : Input N) (calls : List (CallRef × Command N)), c.calls ⊆ calls →
      AnswersOk calls (handle (c.node p) i) →
      let d : Cluster N := { c.after p i with calls := calls }
      d.PendingOk ∧ c.calls ⊆ d.calls ∧ ∀ ref i, (ref, Reply.ok i) ∈ d.replies →
        (ref, Reply.ok i) ∈ c.replies ∨ AnsweredBy d p ref i := by
    intro p i calls hsub hans
    refine ⟨fun q => ?_, hsub, fun ref j hmem => ?_⟩
    · by_cases hq : q = p
      · subst hq
        simpa only [Cluster.after, Function.update_self] using hans.1
      · simp only [Cluster.after, Function.update_of_ne hq]
        exact fun r hr => (hc q r hr).mono List.prefix_rfl hsub
    · rcases List.mem_append.mp hmem with hmem | hmem
      · exact Or.inl hmem
      · right
        simpa only [AnsweredBy, Cluster.after, Function.update_self] using hans.2 ref j hmem
  cases e with
  | electionTimeout p now =>
    simp only [Cluster.step, Option.some.injEq] at hstep
    subst hstep
    exact key p _ c.calls (List.Subset.refl _) ((quiet_electionTimeout _ now).answersOk (hc p))
  | heartbeat p =>
    simp only [Cluster.step, Option.some.injEq] at hstep
    subst hstep
    exact key p _ c.calls (List.Subset.refl _) ((quiet_heartbeat _).answersOk (hc p))
  | propose p ref command now =>
    simp only [Cluster.step] at hstep
    split_ifs at hstep
    cases hstep
    exact key p _ _ (List.subset_cons_self _ _) (answersOk_propose (hc p))
  | deliver m now =>
    simp only [Cluster.step] at hstep
    split_ifs at hstep with hm
    cases hstep
    refine key m.dest _ c.calls (List.Subset.refl _) ?_
    have hp := hc m.dest
    cases m with
    | requestVote p r => exact (quiet_requestVote _ r).answersOk hp
    | voteResponse p v r => exact (quiet_voteResponse _ v r now).answersOk hp
    | appendEntries p r => exact answersOk_appendEntries hp hok
    | appendEntriesResponse p v r => exact answersOk_appendEntriesResponse hp

omit [DecidableEq N] in
theorem Cluster.Initial.pendingOk {c : Cluster N} (hi : c.Initial) : c.PendingOk := by
  intro p r hr
  rw [hi.node_fresh p] at hr
  simp [State.fresh] at hr

theorem Cluster.PendingOk.run {c₀ c : Cluster N} (hi : c₀.Initial)
    (r : Run Cluster.step KeepsPending c₀ c) : c.PendingOk :=
  r.invariant (fun _ _ _ hc hok hstep => (hc.step hok hstep).1) hi.pendingOk

/-- Sound logs in which no entry that a call waits for is changed. -/
def SoundAnswers (c : Cluster N) (e : Event N) : Prop :=
  SoundLogs c e ∧ KeepsPending c e

instance (c : Cluster N) : DecidablePred (SoundAnswers c) :=
  fun _ => inferInstanceAs (Decidable (_ ∧ _))

/-- The command of the call is at index `i` of a settled prefix. -/
def Decided [Fintype N] (h : History N (Entry N)) (calls : List (CallRef × Command N))
    (ref : CallRef) (i : ℕ) : Prop :=
  ∃ t l, Settled (majority Finset.univ) h t l ∧ Waits calls l (i, ref)

/-- Every positive answer given so far is for a decided command. -/
theorem decided_of_replies [Fintype N] {c₀ c : Cluster N} (hi : c₀.Initial)
    (r : Run Cluster.step SoundAnswers c₀ c) : ∃ h, Refines logDiscipline c h ∧
      ∀ ref i, (ref, Reply.ok i) ∈ c.replies → Decided h c.calls ref i := by
  induction r with
  | refl => exact ⟨_, hi.refines, fun ref i hmem => by simp [hi.replies_nil] at hmem⟩
  | tail r hnext ih =>
    obtain ⟨h, hr, hdec⟩ := ih
    obtain ⟨e, hok, hstep⟩ := hnext
    obtain ⟨h', ha⟩ := hr.step (d := logDiscipline) trivial hok.1.respects hstep
    obtain ⟨-, hsub, hans⟩ := (Cluster.PendingOk.run hi (Run.mono (fun _ _ he => he.2) r)).step hok.2 hstep
    refine ⟨h', ha.refines, fun ref i hmem => ?_⟩
    rcases hans ref i hmem with hold | ⟨⟨hpos, entry, he, hcall⟩, hle⟩
    · obtain ⟨t, l, hset, hw⟩ := hdec ref i hold
      exact ⟨t, l, hset.mono ha.grow le_rfl, hw.mono List.prefix_rfl hsub⟩
    · -- the answer is for an entry of the committed prefix of the node
      refine ⟨_, _, ((ha.refines.node e.node).led trivial).settled, hpos, entry, ?_, hcall⟩
      have hpos' : 0 < i := hpos
      rw [List.getElem?_take_of_lt (by simp only; omega)]
      exact he

/-- In the runs in which accepted requests leave alone what calls wait for, a node
that answers a call with an index has the command of this very call at that index
and has committed it. If the logs of the run are sound too, every node that has
committed the index has that command there. -/
theorem proposal_answered [Fintype N] {c₀ : Cluster N} (hi : c₀.Initial) :
    (∀ c e c', Run Cluster.step KeepsPending c₀ c → KeepsPending c e → c.step e = some c' →
      ∀ ref i, (ref, Reply.ok i) ∈ c'.replies → (ref, Reply.ok i) ∉ c.replies →
      ∃ entry, i ≤ (c'.node e.node).commitIndex ∧ (c'.node e.node).log[i - 1]? = some entry ∧
        (ref, entry.command) ∈ c'.calls) ∧
    ∀ c, Run Cluster.step SoundAnswers c₀ c → ∀ ref i, (ref, Reply.ok i) ∈ c.replies →
      ∀ p, i ≤ (c.node p).commitIndex →
      ∃ entry, (c.node p).log[i - 1]? = some entry ∧ (ref, entry.command) ∈ c.calls := by
  constructor
  · intro c e c' r hok hstep ref i hmem hnew
    obtain ⟨-, -, hans⟩ := (Cluster.PendingOk.run hi r).step hok hstep
    rcases hans ref i hmem with hold | ⟨⟨-, entry, he, hcall⟩, hle⟩
    · exact absurd hold hnew
    · exact ⟨entry, hle, he, hcall⟩
  · intro c r ref i hmem p hle
    obtain ⟨h, hr, hdec⟩ := decided_of_replies hi r
    obtain ⟨t, l, hset, hpos, entry, he, hcall⟩ := hdec ref i hmem
    have hled := (hr.node p).led trivial
    have hci := hled.commit_le
    simp only at hpos he hcall
    refine ⟨entry, ?_, hcall⟩
    -- of two settled prefixes that both reach index `i`, one is a prefix of the other
    rcases hled.settled.total hr.hist.coherent (hr.hist.kept trivial) hset with hpre | hpre
    · have hget : ((c.node p).log.take (c.node p).commitIndex)[i - 1]? = some entry := by
        obtain ⟨x, hx⟩ : ∃ x, ((c.node p).log.take (c.node p).commitIndex)[i - 1]? = some x :=
          ⟨_, List.getElem?_eq_getElem (by rw [List.length_take_of_le hci]; omega)⟩
        rw [hx, ← getElem?_of_isPrefix hpre hx, he]
      exact getElem?_of_isPrefix (List.take_prefix _ _) hget
    · exact getElem?_of_isPrefix (List.take_prefix _ _) (getElem?_of_isPrefix hpre he)

/-- References identify calls. -/
theorem calls_nodup {c₀ c : Cluster N} (hi : c₀.Initial) (r : Run Cluster.step KeepsPending c₀ c) :
    (c.calls.map Prod.fst).Nodup := by
  refine r.invariant (I := fun c => (c.calls.map Prod.fst).Nodup) (fun c e c' hc _ hstep => ?_)
    (by simp [hi.calls_nil])
  cases e with
  | electionTimeout p now | heartbeat p =>
    simp only [Cluster.step, Option.some.injEq] at hstep
    exact hstep ▸ hc
  | propose p ref command now =>
    simp only [Cluster.step] at hstep
    split_ifs at hstep with hfresh
    cases hstep
    exact List.nodup_cons.mpr ⟨hfresh, hc⟩
  | deliver m now =>
    simp only [Cluster.step] at hstep
    split_ifs at hstep
    cases hstep
    exact hc

/-- The call of the run `replicated` is answered with the index of its command. -/
theorem proposal_answered_replicatedAck : ∃ (c : Cluster (Fin 3)) (entry : Entry (Fin 3)),
    (7, Reply.ok 2) ∈ c.replies ∧ (c.node 0).log[1]? = some entry ∧
    (7, entry.command) ∈ c.calls := by
  obtain ⟨c, h, hold⟩ : ∃ c,
      exec (guarded KeepsPending Cluster.step) (started 3) replicated = some c ∧
      (7, Reply.ok 2) ∉ c.replies := ⟨_, rfl, by decide⟩
  obtain ⟨c', h', hnew⟩ : ∃ c', c.step replicatedAck = some c' ∧ (7, Reply.ok 2) ∈ c'.replies := by
    cases h
    exact ⟨_, rfl, by decide⟩
  obtain ⟨entry, -, he, hcall⟩ := (proposal_answered (started_initial 3)).1 c replicatedAck c'
    (run_of_exec h) trivial h' 7 2 hnew hold
  exact ⟨c', entry, hnew, he, hcall⟩

/-- Node 0 takes a call in term 1, loses its log to node 2 in term 2, and commits a
new entry at the index of the call in term 3. -/
def overwrittenCall : List (Event (Fin 3)) :=
  [.electionTimeout 0 0,
    .deliver (.requestVote 1 { term := 1, candidateId := 0, lastLogIndex := 0, lastLogTerm := 0 }) 0,
    .deliver (.voteResponse 0 1 { term := 1, voteGranted := true }) 0,
    .propose 0 7 (.unmapOctad "") 0,
    .electionTimeout 2 0,
    .electionTimeout 2 0,
    .deliver (.requestVote 1 { term := 2, candidateId := 2, lastLogIndex := 0, lastLogTerm := 0 }) 0,
    .deliver (.voteResponse 2 1 { term := 2, voteGranted := true }) 0,
    .deliver (.appendEntries 0
      { term := 2, leaderId := 2, prevLogIndex := 0, prevLogTerm := 0, leaderCommit := 0,
        entries := [⟨2, 1, .noop, 0⟩] }) 0,
    .deliver (.appendEntries 1
      { term := 2, leaderId := 2, prevLogIndex := 0, prevLogTerm := 0, leaderCommit := 0,
        entries := [⟨2, 1, .noop, 0⟩] }) 0,
    .electionTimeout 0 0,
    .deliver (.requestVote 1 { term := 3, candidateId := 0, lastLogIndex := 1, lastLogTerm := 2 }) 0,
    .deliver (.voteResponse 0 1 { term := 3, voteGranted := true }) 0,
    .deliver (.appendEntries 1
      { term := 3, leaderId := 0, prevLogIndex := 1, prevLogTerm := 2, leaderCommit := 0,
        entries := [⟨3, 2, .noop, 0⟩] }) 0]

/-- Node 1 acknowledges the new entry. -/
def overwrittenAck : Event (Fin 3) :=
  .deliver (.appendEntriesResponse 0 1 { term := 3, success := true, matchIndex := 2 }) 0

/-- A call is answered with an index at which another command was committed. -/
theorem proposal_answered_wrongly : ¬ ∀ (c₀ c : Cluster (Fin 3)) e c', c₀.Initial →
    Run Cluster.step SoundLogs c₀ c → SoundLogs c e → c.step e = some c' →
    ∀ ref i, (ref, Reply.ok i) ∈ c'.replies → (ref, Reply.ok i) ∉ c.replies →
      ∃ entry, i ≤ (c'.node e.node).commitIndex ∧ (c'.node e.node).log[i - 1]? = some entry ∧
        (ref, entry.command) ∈ c'.calls := by
  intro hall
  obtain ⟨c, h, hok, hold⟩ : ∃ c,
      exec (guarded SoundLogs Cluster.step) (started 3) overwrittenCall = some c ∧
      SoundLogs c overwrittenAck ∧ (7, Reply.ok 2) ∉ c.replies :=
    ⟨_, rfl, by decide, by decide⟩
  obtain ⟨c', h', hnew, hlog, hcalls⟩ : ∃ c', c.step overwrittenAck = some c' ∧
      (7, Reply.ok 2) ∈ c'.replies ∧ (c'.node 0).log[1]? = some ⟨3, 2, .noop, 0⟩ ∧
      (7, Command.noop) ∉ c'.calls := by
    cases h
    exact ⟨_, rfl, by decide, by decide, by decide⟩
  obtain ⟨entry, -, he, hcall⟩ := hall (started 3) c overwrittenAck c' (started_initial 3)
    (run_of_exec h) hok h' 7 2 hnew hold
  have hentry : some entry = some ⟨3, 2, .noop, 0⟩ := he.symm.trans hlog
  cases hentry
  exact hcalls hcall

end NextgenDatabases.Kraft
