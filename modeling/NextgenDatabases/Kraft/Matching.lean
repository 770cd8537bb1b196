import NextgenDatabases.Kraft.Moves
import NextgenDatabases.Kraft.ElectionSafety

/-!
# Log matching

Membership may change and votes may be late: as long as no term has two leaders,
every log and every request in flight is a part of its leaders' logs, so two
logs that agree on one entry agree on all before it.
-/
namespace NextgenDatabases.Kraft

open Raft Raft.History Foundations

variable {N : Type*} [DecidableEq N]

/-! ### Indices -/

/-- The indices of the entries count on from `start`. -/
def NumberedFrom (start : ℕ) (l : List (Entry N)) : Prop :=
  ∀ k e, l[k]? = some e → e.index = start + k + 1

section Numbered

omit [DecidableEq N]

variable {start : ℕ} {l m : List (Entry N)}

theorem numberedFrom_nil (start : ℕ) : NumberedFrom start ([] : List (Entry N)) := by
  intro k e hk
  simp at hk

theorem NumberedFrom.append (hl : NumberedFrom start l)
    (hm : NumberedFrom (start + l.length) m) : NumberedFrom start (l ++ m) := by
  intro k e hk
  rcases Nat.lt_or_ge k l.length with hlt | hge
  · rw [List.getElem?_append_left hlt] at hk
    exact hl k e hk
  · rw [List.getElem?_append_right hge] at hk
    have hindex := hm _ e hk
    omega

theorem NumberedFrom.of_isPrefix (hl : NumberedFrom start l) (hm : m <+: l) :
    NumberedFrom start m :=
  fun k e hk => hl k e (getElem?_of_isPrefix hm hk)

theorem NumberedFrom.drop (hl : NumberedFrom start l) (n : ℕ) :
    NumberedFrom (start + n) (l.drop n) := by
  intro k e hk
  rw [List.getElem?_drop] at hk
  have hindex := hl _ e hk
  omega

theorem numberedFrom_newEntry (now : ℕ) (s : State N) (command : Command N) :
    NumberedFrom (0 + s.log.length) [newEntry now s command] := by
  intro k e hk
  obtain ⟨rfl, rfl⟩ : k = 0 ∧ newEntry now s command = e := by
    cases k with
    | zero => exact ⟨rfl, by simpa using hk⟩
    | succ k => simp at hk
  simp [newEntry]

/-- An entry stands at the position of its index. -/
theorem NumberedFrom.getElem?_index (hl : NumberedFrom 0 l) {e : Entry N} (he : e ∈ l) :
    0 < e.index ∧ l[e.index - 1]? = some e := by
  obtain ⟨k, hk⟩ := List.mem_iff_getElem?.mp he
  have hindex := hl k e hk
  have hk' : e.index - 1 = k := by omega
  exact ⟨by omega, hk'.symm ▸ hk⟩

theorem mem_sends {m : Message N} {fx : List (Effect N)} : m ∈ sends fx ↔ .send m ∈ fx := by
  unfold sends
  rw [List.mem_filterMap]
  constructor
  · rintro ⟨f, hf, heq⟩
    cases f with
    | send m' =>
      cases heq
      exact hf
    | wal _ _ | reply _ _ => cases heq
  · exact fun hm => ⟨_, hm, rfl⟩

end Numbered

/-- Every log is numbered, and so are the entries of every request. -/
structure Cluster.Numbered (c : Cluster N) : Prop where
  logs : ∀ p, NumberedFrom 0 (c.node p).log
  requests : ∀ dest r, .appendEntries dest r ∈ c.sent → NumberedFrom r.prevLogIndex r.entries

variable {s₀ s s' : State N} {i : Input N} {fx : List (Effect N)}

/-- A request that is received has its entries numbered. -/
def Input.Numbered (i : Input N) : Prop :=
  ∀ r now, i = .appendEntries r now → NumberedFrom r.prevLogIndex r.entries

omit [DecidableEq N] in
theorem sends_received (s : State N) (r : AppendEntriesRequest N) : sends (received s r) = [] := by
  unfold received
  split_ifs <;> rfl

theorem Move.numbered (h : Move s₀ i s s' fx) (hi : i.Numbered) (hlog : NumberedFrom 0 s.log) :
    NumberedFrom 0 s'.log ∧
      ∀ dest r, .appendEntries dest r ∈ sends fx → NumberedFrom r.prevLogIndex r.entries := by
  cases h with
  | quiet hsame hplain =>
    refine ⟨hsame.log ▸ hlog, fun dest r hm => ?_⟩
    exact absurd (hplain _ (mem_sends.mp hm)) id
  | persist hsame hvote => exact ⟨hsame.log ▸ hlog, by simp⟩
  | append now command happends hcommand =>
    exact ⟨hlog.append (numberedFrom_newEntry now s command), by simp⟩
  | replicate =>
    refine ⟨hlog, fun dest r hm => ?_⟩
    obtain ⟨peer, -, heq⟩ := mem_sends_sendAppendEntries.mp hm
    cases heq
    have hdrop := hlog.drop ((s.nextIndex.lookup dest).getD 1 - 1)
    rwa [Nat.zero_add] at hdrop
  | @receive r now heq haccepted hsame happlied =>
    have hle : r.prevLogIndex ≤ s.log.length := prevLogIndex_le (hsame ▸ haccepted.2)
    refine ⟨(hlog.of_isPrefix (List.take_prefix _ _)).append ?_, by simp [sends_received]⟩
    rw [List.length_take_of_le hle, Nat.zero_add]
    exact hi r now heq
  | advance hn => exact ⟨hlog, by simp⟩
  | apply hlt => exact ⟨hlog, by simp [sends_maybeTriggerSnapshot]⟩

theorem Moves.numbered (h : Moves s₀ i s fx) (hi : i.Numbered) (hlog : NumberedFrom 0 s₀.log) :
    NumberedFrom 0 s.log ∧
      ∀ dest r, .appendEntries dest r ∈ sends fx → NumberedFrom r.prevLogIndex r.entries := by
  induction h with
  | refl => exact ⟨hlog, by simp⟩
  | tail _ hmove ih =>
    obtain ⟨hnext, hsends⟩ := hmove.numbered hi ih.1
    refine ⟨hnext, fun dest r hm => ?_⟩
    rw [sends_append, List.mem_append] at hm
    exact hm.elim (ih.2 dest r) (hsends dest r)

namespace Cluster

variable {c₀ c c' : Cluster N}

theorem Numbered.after (h : c.Numbered) (p : N) (hi : i.Numbered) : (c.after p i).Numbered := by
  obtain ⟨hlog, hsends⟩ := (handle_moves (c.node p) i).numbered hi (h.logs p)
  constructor
  · intro q
    by_cases hq : q = p
    · subst hq
      simpa only [Cluster.after, Function.update_self] using hlog
    · simpa only [Cluster.after, Function.update_of_ne hq] using h.logs q
  · intro dest r hm
    exact (List.mem_append.mp hm).elim (h.requests dest r) (hsends dest r)

omit [DecidableEq N] in
/-- The request in a message that was sent is numbered. -/
theorem Numbered.input (h : c.Numbered) {m : Message N} (hm : m ∈ c.sent) (now : ℕ) :
    (m.input now).Numbered := by
  intro r now' heq
  cases m with
  | appendEntries dest r' =>
    cases heq
    exact h.requests dest r hm
  | requestVote _ _ | voteResponse _ _ _ | appendEntriesResponse _ _ _ => cases heq

omit [DecidableEq N] in
theorem Numbered.event (h : c.Numbered) {e : Event N}
    (hdeliver : ∀ m now, e = .deliver m now → m ∈ c.sent) : e.input.Numbered := by
  cases e with
  | deliver m now => exact h.input (hdeliver m now rfl) now
  | electionTimeout _ _ | heartbeat _ | propose _ _ _ _ => exact nofun

theorem Numbered.step (h : c.Numbered) {e : Event N} (hstep : c.step e = some c') :
    c'.Numbered := by
  obtain ⟨hnode, hsent, hdeliver⟩ := step_spec hstep
  have hafter := h.after e.node (h.event hdeliver)
  exact ⟨fun p => hnode ▸ hafter.logs p, fun dest r hm => hafter.requests dest r (hsent ▸ hm)⟩

omit [DecidableEq N] in
theorem Booted.numbered (hb : c₀.Booted) : c₀.Numbered where
  logs p := by
    rw [hb.node_fresh p]
    exact numberedFrom_nil 0
  requests dest r hm := by simp [hb.sent_nil] at hm

/-- Whatever happens, logs stay numbered. -/
theorem Booted.numbered_run (hb : c₀.Booted) {ok : Cluster N → Event N → Prop}
    (r : Run Cluster.step ok c₀ c) : c.Numbered :=
  r.invariant (fun _ _ _ h _ hstep => h.step hstep) hb.numbered

end Cluster

/-! ### Runs without a discipline -/

/-- Nothing is asked of the run. -/
def freeDiscipline : Discipline where
  elections := False
  logs := False
  commits := False
  logs_elections := id
  commits_logs := id

/-- A node whose own vote is a quorum wins at once. -/
theorem leads_of_timeout {s : State N} (now : ℕ) (hr : s.role ≠ .leader) (hq : quorum s ≤ 1) :
    (handle s (.electionTimeout now)).1.role = .leader ∧
      (handle s (.electionTimeout now)).1.currentTerm = s.currentTerm + 1 := by
  have hq' : quorum (candidateState s) ≤ (candidateState s).votesReceived.card := by
    simpa [quorum, candidateState] using hq
  unfold handle handleElectionTimeout startElection
  dsimp only
  rw [if_neg hr]
  simp only [candidateState] at hq'
  rw [if_pos hq']
  exact ⟨rfl, rfl⟩

/-- A candidate whose votes reach the quorum wins. -/
theorem leads_of_vote {s : State N} {v : N} {r : VoteResponse} (now : ℕ)
    (hgt : ¬ s.currentTerm < r.term) (hr : s.role = .candidate) (hg : r.voteGranted = true)
    (hq : quorum s ≤ (insert v s.votesReceived).card) :
    (handle s (.voteResponse v r now)).1.role = .leader ∧
      (handle s (.voteResponse v r now)).1.currentTerm = s.currentTerm := by
  have hq' : quorum { s with votesReceived := insert v s.votesReceived } ≤
      (insert v s.votesReceived).card := hq
  unfold handle handleVoteResponse
  dsimp only
  rw [if_neg hgt, if_pos ⟨hr, hg⟩, if_pos hq']
  exact ⟨rfl, rfl⟩

variable [Fintype N] {c₀ c c' : Cluster N} {h : History N (Entry N)}

theorem Cluster.Booted.refines (hb : c₀.Booted) : Refines freeDiscipline c₀ (emptyHistory N) where
  hist := histInv_emptyHistory _
  node_id p := by rw [hb.node_fresh p]; rfl
  node p := by
    have hself := hb.self_notMem p
    rw [hb.node_fresh p]
    exact {
      tracks :=
        { term := rfl
          log := rfl
          vote := rfl
          candidate := by simp [State.fresh]
          leader := by simp [State.fresh]
          leading := fun L hL => by simp [emptyHistory] at hL }
      self := hself
      peers := False.elim
      counted := False.elim
      led := False.elim }
  msg m hm := by simp [hb.sent_nil] at hm

/-- Whoever comes to lead a term in the step is the only leader the term can have had. -/
def First (c c' : Cluster N) (h : History N (Entry N)) : Prop :=
  ∀ p, (c.node p).role ≠ .leader → (c'.node p).role = .leader →
    ∀ q L, h.leader (c'.node p).currentTerm = some (q, L) → q = p

omit [Fintype N] in
theorem First.apply {p : N} {i : Input N}
    (hnode : c'.node = (c.after p i).node) (hfirst : First c c' h) {t : ℕ}
    (hr : (c.node p).role ≠ .leader) (hlead : (handle (c.node p) i).1.role = .leader ∧
      (handle (c.node p) i).1.currentTerm = t) {q : N} {L : List (Entry N)}
    (hL : h.leader t = some (q, L)) : q = p := by
  have hat : c'.node p = (handle (c.node p) i).1 := by
    rw [hnode]
    exact Function.update_self _ _ _
  refine hfirst p hr ?_ q L ?_
  · rw [hat]
    exact hlead.1
  · rw [hat, hlead.2]
    exact hL

theorem Refines.step_of_first (hr : Refines freeDiscipline c h) {e : Event N}
    (hstep : c.step e = some c') (hfirst : First c c' h) :
    ∃ h', Advance freeDiscipline c h c' h' ∧ c'.Crowns h h' := by
  refine hr.advance False.elim ?_ ?_ hstep
  · rintro p now rfl
    cases hstep
    have ht := (hr.node p).tracks
    unfold handle handleElectionTimeout
    dsimp only
    split_ifs with hrole
    · exact ⟨h, _, .refl, by simp, (SameLeaders.refl h).crowns _⟩
    · refine does_startElection now ht.term fun hq => ⟨?_, False.elim⟩
      -- the term is new, so the node itself cannot have led it
      rw [Option.eq_none_iff_forall_ne_some]
      rintro ⟨q, L⟩ hL
      have hsole := hfirst.apply rfl hrole (leads_of_timeout now hrole hq) hL
      subst hsole
      have hle := hr.hist.coherent.leader_le hL
      have hterm := ht.term
      rw [hr.node_id] at hterm
      omega
  · rintro m now rfl hm
    refine hr.does_message hm False.elim ?_
    rintro p v r rfl
    simp only [Cluster.step, if_pos hm, Option.some.injEq] at hstep
    subst hstep
    have ht := (hr.node p).tracks
    refine does_voteResponse ht.term ((hr.node_id p).symm ▸ hm) False.elim False.elim
      fun hgt hcand hg hq _ => ⟨?_, False.elim⟩
    have hrole : (c.node p).role ≠ .leader := by simp [hcand]
    rw [Option.eq_none_iff_forall_ne_some]
    rintro ⟨q, L⟩ hL
    have hsole := hfirst.apply rfl hrole (leads_of_vote now hgt hcand hg hq) hL
    subst hsole
    -- a node that has led the term still leads it
    refine hrole (ht.leading L ?_)
    rw [hr.node_id]
    exact hL

/-! ### Runs with one leader a term -/

/-- Of the states that the events lead through, no two have different leaders in one term. -/
def OneLeader (c₀ : Cluster N) (es : List (Event N)) : Prop :=
  ∀ es₁ es₂ c₁ c₂, es₁ <+: es → es₂ <+: es →
    exec Cluster.step c₀ es₁ = some c₁ → exec Cluster.step c₀ es₂ = some c₂ →
      ∀ a b, (c₁.node a).role = .leader → (c₂.node b).role = .leader →
        (c₁.node a).currentTerm = (c₂.node b).currentTerm → a = b

/-- The leaders of the history have led in some state that the events lead through. -/
def Seen (c₀ : Cluster N) (es : List (Event N)) (h : History N (Entry N)) : Prop :=
  ∀ t q L, h.leader t = some (q, L) → ∃ es₁ c₁, es₁ <+: es ∧
    exec Cluster.step c₀ es₁ = some c₁ ∧ (c₁.node q).role = .leader ∧ (c₁.node q).currentTerm = t

omit [Fintype N] in
theorem OneLeader.of_isPrefix {es fs : List (Event N)} (ho : OneLeader c₀ es) (hpre : fs <+: es) :
    OneLeader c₀ fs :=
  fun es₁ es₂ c₁ c₂ h₁ h₂ => ho es₁ es₂ c₁ c₂ (h₁.trans hpre) (h₂.trans hpre)

omit [Fintype N] in
theorem Seen.concat {es : List (Event N)} {e : Event N} {h' : History N (Entry N)}
    (hseen : Seen c₀ es h) (hexec : exec Cluster.step c₀ (es ++ [e]) = some c')
    (hcrowns : c'.Crowns h h') : Seen c₀ (es ++ [e]) h' := by
  intro t q L hL
  rcases hcrowns t q L hL with ⟨L₀, hL₀⟩ | ⟨hlead, hterm⟩
  · obtain ⟨es₁, c₁, hpre, hrest⟩ := hseen t q L₀ hL₀
    exact ⟨es₁, c₁, hpre.trans (List.prefix_append _ _), hrest⟩
  · exact ⟨es ++ [e], c', List.prefix_rfl, hexec, hlead, hterm⟩

/-- A run in which no term has two leaders is matched by a history. -/
theorem OneLeader.refines (hb : c₀.Booted) {es : List (Event N)} :
    ∀ {c : Cluster N}, exec Cluster.step c₀ es = some c → OneLeader c₀ es →
      ∃ h, Refines freeDiscipline c h ∧ Seen c₀ es h := by
  induction es using List.reverseRecOn with
  | nil =>
    intro c hexec _
    cases hexec
    refine ⟨_, hb.refines, fun t q L hL => ?_⟩
    simp [emptyHistory] at hL
  | append_singleton es e ih =>
    intro c' hexec ho
    have hsplit := hexec
    rw [exec_concat] at hsplit
    obtain ⟨c, hc, hstep⟩ := Option.bind_eq_some_iff.mp hsplit
    obtain ⟨h, hr, hseen⟩ := ih hc (ho.of_isPrefix (List.prefix_append _ _))
    have hfirst : First c c' h := by
      intro p _ hlead q L hL
      obtain ⟨es₁, c₁, hpre, h₁, hq, hterm⟩ := hseen _ q L hL
      exact ho es₁ (es ++ [e]) c₁ c' (hpre.trans (List.prefix_append _ _)) List.prefix_rfl h₁ hexec
        q p hq hlead hterm
    obtain ⟨h', hadvance, hcrowns⟩ := hr.step_of_first hstep hfirst
    exact ⟨h', hadvance.refines, hseen.concat hexec hcrowns⟩

/-! ### Log matching -/

/-- If no term of the run has two leaders, then two logs with entries of one index and one
term are identical up to this index, and every entry stands at the position of its index. -/
theorem log_matching {es : List (Event N)} (hb : c₀.Booted)
    (hrun : exec Cluster.step c₀ es = some c) (ho : OneLeader c₀ es) :
    (∀ p, ∀ e ∈ (c.node p).log, 0 < e.index ∧ (c.node p).log[e.index - 1]? = some e) ∧
    ∀ p q, ∀ e ∈ (c.node p).log, ∀ f ∈ (c.node q).log, e.index = f.index → e.term = f.term →
      (c.node p).log.take e.index = (c.node q).log.take e.index := by
  have hnumbered : c.Numbered := hb.numbered_run (run_of_steps hrun)
  obtain ⟨h, hr, -⟩ := ho.refines hb hrun
  have hbacked (p : N) : h.Backed (c.node p).log :=
    (hr.node p).tracks.log ▸ hr.hist.coherent.log_backed _
  refine ⟨fun p e he => (hnumbered.logs p).getElem?_index he, ?_⟩
  intro p q e he f hf hindex hterm
  obtain ⟨hpos, hp⟩ := (hnumbered.logs p).getElem?_index he
  obtain ⟨-, hq⟩ := (hnumbered.logs q).getElem?_index hf
  rw [← hindex] at hq
  have hmatch := (hbacked p).matching (hbacked q) hp hq hterm
  rwa [Nat.sub_add_cancel hpos] at hmatch

omit [Fintype N] in
/-- Nobody but `x` ever leads. -/
theorem oneLeader_of_sole {es : List (Event N)} (x : N)
    (hsole : ∀ es₁, es₁ <+: es → ∀ c, exec Cluster.step c₀ es₁ = some c →
      ∀ a, (c.node a).role = .leader → a = x) : OneLeader c₀ es :=
  fun es₁ es₂ c₁ c₂ hpre₁ hpre₂ h₁ h₂ a b ha hb _ =>
    (hsole es₁ hpre₁ c₁ h₁ a ha).trans (hsole es₂ hpre₂ c₂ h₂ b hb).symm

/-- Node 0 leads term 1 and node 1 takes its first entry. -/
def firstReplicated : List (Event (Fin 3)) :=
  [.electionTimeout 0 0,
    .deliver (.requestVote 1 { term := 1, candidateId := 0, lastLogIndex := 0, lastLogTerm := 0 }) 0,
    .deliver (.voteResponse 0 1 { term := 1, voteGranted := true }) 0,
    .deliver (.appendEntries 1
      { term := 1
        leaderId := 0
        prevLogIndex := 0
        prevLogTerm := 0
        entries := [{ term := 1, index := 1, command := .noop, timestamp := 0 }]
        leaderCommit := 0 }) 0]

theorem log_matching_replicated :
    ∃ c, exec Cluster.step (started 3) firstReplicated = some c ∧ (c.node 1).log ≠ [] ∧
      ∀ p q, ∀ e ∈ (c.node p).log, ∀ f ∈ (c.node q).log, e.index = f.index → e.term = f.term →
        (c.node p).log.take e.index = (c.node q).log.take e.index := by
  have ho : OneLeader (started 3) firstReplicated := by
    refine oneLeader_of_sole 0 fun es₁ hpre c hc => ?_
    have hlen : es₁.length ≤ 4 := hpre.length_le
    rw [List.prefix_iff_eq_take.mp hpre] at hc
    generalize es₁.length = n at hc hlen
    have hn : n = 0 ∨ n = 1 ∨ n = 2 ∨ n = 3 ∨ n = 4 := by omega
    rcases hn with rfl | rfl | rfl | rfl | rfl
    all_goals
      cases hc
      decide
  exact ⟨_, rfl, by decide, (log_matching (started_initial 3).booted rfl ho).2⟩

end NextgenDatabases.Kraft
