import NextgenDatabases.Kraft.Tracking

/-!
# The actions of a node

Each callback is a sequence of actions, and each action is at most one or two
events of the history. The invariants are proved for the actions; a discipline
says which conditions the run meets and so which invariants are claimed.
-/
namespace NextgenDatabases.Kraft

open Raft Raft.History Foundations

variable {N : Type*} [DecidableEq N]

/-- The conditions that a run meets: on its elections, on its logs, and on the commit
indices. -/
structure Discipline where
  elections : Prop
  logs : Prop
  commits : Prop
  logs_elections : logs → elections
  commits_logs : commits → logs

/-- The vote requests of a candidate. -/
def voteRequests (s : State N) : List (Message N) :=
  s.peers.map fun peer => .requestVote peer
    { term := s.currentTerm
      candidateId := s.nodeId
      lastLogIndex := s.log.length
      lastLogTerm := lastLogTerm s }

/-- A granted vote for `c` in term `t` that was received from `v`. -/
def VoteFrom (src : Message N → Prop) (c v : N) (t : ℕ) : Prop :=
  ∃ r : VoteResponse, src (.voteResponse c v r) ∧ r.voteGranted = true ∧ r.term = t

/-- A success response of term `t` with match index `n` that `c` received from `v`. -/
def AckFrom (src : Message N → Prop) (c v : N) (t n : ℕ) : Prop :=
  ∃ r : AppendEntriesResponse, src (.appendEntriesResponse c v r) ∧ r.success = true ∧
    r.term = t ∧ r.matchIndex = n

variable (d : Discipline) (qs : QuorumSystem N) (src : Message N → Prop)

/-- One action of a node: the history and the node before and after, and the
messages sent. The messages that the node may have received are those of `src`. -/
inductive Act : History N (Entry N) → State N → History N (Entry N) → State N →
    List (Message N) → Prop
  | adopt {h s t} (ht : s.currentTerm < t) :
      Act h s (h.apply (.adopt s.nodeId t)) (stepDown s t).1 []
  | stand {h s} :
      Act h s (h.apply (.stand s.nodeId)) (candidateState s) (voteRequests (candidateState s))
  | grant {h s c} (hfree : s.votedFor = none)
      (hup : ∃ l, h.vote c s.currentTerm = some (c, l) ∧ UpToDate l s.log) :
      Act h s (h.apply (.grant s.nodeId c)) { s with votedFor := some c }
        [.voteResponse c s.nodeId { term := s.currentTerm, voteGranted := true }]
  | regrant {h s c} (hv : s.votedFor = some c) :
      Act h s h s [.voteResponse c s.nodeId { term := s.currentTerm, voteGranted := true }]
  | refuse {h s c} :
      Act h s h s [.voteResponse c s.nodeId { term := s.currentTerm, voteGranted := false }]
  | count {h s v} (hv : d.elections → (∃ l, h.vote v s.currentTerm = some (s.nodeId, l)) ∧
        VoteFrom src s.nodeId v s.currentTerm) :
      Act h s h { s with votesReceived := insert v s.votesReceived } []
  | lead {h s e ni mi} (hr : s.role = .candidate) (hnone : h.leader s.currentTerm = none)
      (hwon : d.elections → h.Won qs s.currentTerm s.nodeId) (he : e.term = s.currentTerm)
      (hplain : d.elections → ¬ e.command.IsMembership)
      (hmi : ∀ q n, mi.lookup q = some n → q ∈ s.peers ∧ n = 0) :
      Act h s ((h.apply (.elect s.nodeId)).apply (.append s.nodeId e))
        { s with
          role := .leader
          leaderId := some s.nodeId
          nextIndex := ni
          matchIndex := mi
          log := s.log ++ [e] } []
  | append {h s e} (hr : s.role = .leader) (he : e.term = s.currentTerm)
      (hplain : d.elections → ¬ e.command.IsMembership) :
      Act h s (h.apply (.append s.nodeId e)) { s with log := s.log ++ [e] } []
  | replicate {h s} (hr : s.role = .leader) :
      Act h s h s (s.peers.map fun peer => .appendEntries peer (appendEntriesRequest s peer))
  | accept {h s c X L n} (hL : h.leader s.currentTerm = some (c, L)) (hne : s.nodeId ≠ c)
      (hX : X <+: L) (hrise : d.commits → s.commitIndex ≤ n)
      (hn : d.logs → n ≤ X.length ∧ Settled qs h s.currentTerm (X.take n))
      (hcut : d.logs → X <+: s.log → X = s.log) :
      Act h s (h.apply (.accept s.nodeId X)) { s with log := X, commitIndex := n }
        [.appendEntriesResponse c s.nodeId
          { term := s.currentTerm, success := true, matchIndex := X.length }]
  | reject {h s c} (hne : s.nodeId ≠ c) :
      Act h s h s [.appendEntriesResponse c s.nodeId
        { term := s.currentTerm, success := false, matchIndex := 0 }]
  | acknowledge {h s v n ni} (hne : v ≠ s.nodeId)
      (hn : d.logs → n ≤ h.ack v s.currentTerm ∧ AckFrom src s.nodeId v s.currentTerm n) :
      Act h s h { s with nextIndex := ni, matchIndex := s.matchIndex.insert v n } []
  | advance {h s n} (hn : d.logs → s.commitIndex ≤ n ∧ n ≤ s.log.length ∧
        Settled qs h s.currentTerm (s.log.take n)) :
      Act h s h { s with commitIndex := n } []
  | tidy {h s leader ni la reg peers pending} (hself : s.nodeId ∉ s.peers → s.nodeId ∉ peers)
      (hpeers : (∀ e ∈ s.log, ¬ e.command.IsMembership) → peers = s.peers) :
      Act h s h { s with
        leaderId := leader
        nextIndex := ni
        lastApplied := la
        registry := reg
        peers := peers
        pendingRequests := pending } []

/-- A sequence of actions. -/
inductive Acts (h : History N (Entry N)) (s : State N) : History N (Entry N) → State N →
    List (Message N) → Prop
  | refl : Acts h s h s []
  | tail {h₁ s₁ h₂ s₂ ms ns} : Acts h s h₁ s₁ ms → Act d qs src h₁ s₁ h₂ s₂ ns →
      Acts h s h₂ s₂ (ms ++ ns)

/-! ### Invariants -/

/-- What holds of the history. -/
structure HistInv (h : History N (Entry N)) : Prop where
  coherent : Coherent h
  elected : d.elections → h.Elected qs
  plain : d.elections → ∀ t c L, h.leader t = some (c, L) → ∀ e ∈ L, ¬ e.command.IsMembership
  kept : d.logs → h.Kept qs

/-- The commit index of a node stands on a settled prefix, and a leader knows no
more than its followers have acknowledged. -/
structure Led (h : History N (Entry N)) (s : State N) : Prop where
  commit_le : s.commitIndex ≤ s.log.length
  settled : Settled qs h s.currentTerm (s.log.take s.commitIndex)
  own : s.role = .leader → s.log.length ≤ h.ack s.nodeId s.currentTerm
  acked : s.role = .leader → ∀ q n, s.matchIndex.lookup q = some n →
    q ≠ s.nodeId ∧ n ≤ h.ack q s.currentTerm ∧ (n = 0 ∨ AckFrom src s.nodeId q s.currentTerm n)

/-- What holds of a node. -/
structure NodeInv (h : History N (Entry N)) (s : State N) : Prop where
  tracks : Tracks h s
  self : s.nodeId ∉ s.peers
  peers : d.elections → s.peers.Nodup ∧ ∀ q, q ∈ s.peers ↔ q ≠ s.nodeId
  counted : d.elections → s.role ≠ .follower → ∀ v ∈ s.votesReceived,
    (∃ l, h.vote v s.currentTerm = some (s.nodeId, l)) ∧
      (v = s.nodeId ∨ VoteFrom src s.nodeId v s.currentTerm)
  led : d.logs → Led qs src h s

/-- What a message says about commit indices and acknowledgements. -/
def CarriesCommit (h : History N (Entry N)) : Message N → Prop
  | .appendEntries _ r => ∃ X L, h.leader r.term = some (r.leaderId, L) ∧ X <+: L ∧ Segment X r ∧
      r.leaderCommit ≤ X.length ∧ Settled qs h r.term (X.take r.leaderCommit)
  | .appendEntriesResponse _ fromPeer r => r.success = true → r.matchIndex ≤ h.ack fromPeer r.term
  | _ => True

/-- What holds of a message. -/
structure MsgInv (h : History N (Entry N)) (m : Message N) : Prop where
  carries : Carries h m
  commit : d.logs → CarriesCommit qs h m

/-! ### Events under a discipline -/

/-- What the discipline asks of an event. -/
structure Fair (h : History N (Entry N)) (e : Raft.Event N (Entry N)) : Prop where
  allowed : h.Allowed e
  byQuorum : d.elections → h.ByQuorum qs e
  careful : d.logs → h.Careful e
  plain : d.elections → ∀ c x, e = .append c x → ¬ x.command.IsMembership

variable {d qs src} {h h' : History N (Entry N)} {s s' : State N} {ms : List (Message N)}

omit [DecidableEq N] in
/-- Under fixed peers no backed log has a membership change. -/
theorem HistInv.plain_of_backed (hh : HistInv d qs h) (hd : d.elections) {l : List (Entry N)}
    (hl : h.Backed l) {e : Entry N} (he : e ∈ l) : ¬ e.command.IsMembership := by
  obtain ⟨k, hk⟩ := List.mem_iff_getElem?.mp he
  obtain ⟨q, M, hM, hpre⟩ := hl k e hk
  exact hh.plain hd _ q M hM e
    (hpre.mem (List.mem_of_getElem? (List.getElem?_take_of_succ.trans hk)))

theorem HistInv.apply (hh : HistInv d qs h) {e : Raft.Event N (Entry N)} (he : Fair d qs h e) :
    HistInv d qs (h.apply e) where
  coherent := coherent_apply hh.coherent he.allowed
  elected hd := elected_apply hh.coherent (hh.elected hd) he.allowed (he.byQuorum hd)
  kept hd := kept_apply hh.coherent (hh.kept hd) he.allowed
    (he.byQuorum (d.logs_elections hd)) (he.careful hd)
  plain hd t c L hL := by
    -- only `elect` and `append` touch the logs of leaders
    have hold : h.leader t = some (c, L) → ∀ e ∈ L, ¬ e.command.IsMembership := hh.plain hd t c L
    cases e with
    | elect p =>
      by_cases ht : t = h.term p
      · subst ht
        simp only [History.apply, Function.update_self, Option.some.injEq, Prod.mk.injEq] at hL
        obtain ⟨rfl, rfl⟩ := hL
        exact fun x hx => hh.plain_of_backed hd (hh.coherent.log_backed p) hx
      · simp only [History.apply, Function.update_of_ne ht] at hL
        exact hold hL
    | append p x =>
      by_cases ht : t = h.term p
      · subst ht
        simp only [History.apply, Function.update_self, Option.some.injEq, Prod.mk.injEq] at hL
        obtain ⟨rfl, rfl⟩ := hL
        intro y hy
        rcases List.mem_append.mp hy with hy | hy
        · exact hh.plain hd _ p _ he.allowed.1 y hy
        · rw [List.mem_singleton.mp hy]
          exact he.plain hd p x rfl
      · simp only [History.apply, Function.update_of_ne ht] at hL
        exact hold hL
    | adopt p t => exact hold hL
    | stand p => exact hold hL
    | grant v c => exact hold hL
    | accept p l => exact hold hL

/-- Every action is a sequence of events at the node, and the node keeps track. -/
theorem Act.events (hh : HistInv d qs h) (hs : NodeInv d qs src h s) (ha : Act d qs src h s h' s' ms) :
    ∃ es, h' = h.applyAll es ∧ Admits (Fair d qs) h es ∧ (∀ e ∈ es, e.actor = s.nodeId) ∧
      Tracks h' s' ∧ s'.nodeId = s.nodeId := by
  have ht := hs.tracks
  cases ha with
  | @adopt t hlt =>
    obtain ⟨he, htr⟩ := ht.adopt hh.coherent hlt
    exact ⟨[.adopt s.nodeId t], rfl,
      ⟨⟨he, fun _ => trivial, fun _ => trivial, by simp⟩, trivial⟩, by simp [Event.actor], htr, rfl⟩
  | stand =>
    exact ⟨[.stand s.nodeId], rfl,
      ⟨⟨trivial, fun _ => trivial, fun _ => trivial, by simp⟩, trivial⟩, by simp [Event.actor],
      ht.stand hh.coherent, rfl⟩
  | @grant c hfree hup =>
    obtain ⟨he, htr⟩ := ht.grant hfree hup
    exact ⟨[.grant s.nodeId c], rfl,
      ⟨⟨he, fun _ => trivial, fun _ => trivial, by simp⟩, trivial⟩, by simp [Event.actor], htr, rfl⟩
  | @lead e ni mi hr hnone hwon he hplain hmi =>
    obtain ⟨hel, htr⟩ := ht.elect hr hnone
    obtain ⟨hap, htr'⟩ := htr.append (e := e) rfl he
    refine ⟨[.elect s.nodeId, .append s.nodeId e], rfl, ⟨⟨hel, ?_, fun _ => trivial, by simp⟩,
      ⟨hap, fun _ => trivial, fun _ => trivial, ?_⟩, trivial⟩, by simp [Event.actor],
      { htr' with }, rfl⟩
    · intro hd
      simp only [ByQuorum, ht.term]
      exact hwon hd
    · rintro hd c x heq
      cases heq
      exact hplain hd
  | @append e hr he hplain =>
    obtain ⟨hap, htr⟩ := ht.append hr he
    refine ⟨[.append s.nodeId e], rfl, ⟨⟨hap, fun _ => trivial, fun _ => trivial, ?_⟩, trivial⟩,
      by simp [Event.actor], htr, rfl⟩
    rintro hd c x heq
    cases heq
    exact hplain hd
  | @accept c X L n hL hne hX hrise hn hcut =>
    obtain ⟨hac, htr⟩ := ht.accept hL hne hX
    refine ⟨[.accept s.nodeId X], rfl, ⟨⟨hac, fun _ => trivial, ?_, by simp⟩, trivial⟩,
      by simp [Event.actor], { htr with }, rfl⟩
    intro hd
    simp only [Careful, ht.log]
    exact hcut hd
  | regrant | refuse | replicate | reject => exact ⟨[], rfl, trivial, by simp, ht, rfl⟩
  | count | acknowledge | advance | tidy => exact ⟨[], rfl, trivial, by simp, { ht with }, rfl⟩

theorem HistInv.applyAll (hh : HistInv d qs h) {es : List (Raft.Event N (Entry N))}
    (hes : Admits (Fair d qs) h es) : HistInv d qs (h.applyAll es) ∧ Extends h (h.applyAll es) :=
  hes.invariant (I := fun g => HistInv d qs g ∧ Extends h g)
    (fun _ _ hi he => ⟨hi.1.apply he, hi.2.trans (extends_apply hi.1.coherent he.allowed)⟩)
    ⟨hh, Extends.refl h⟩

theorem Act.hist (hh : HistInv d qs h) (hs : NodeInv d qs src h s) (ha : Act d qs src h s h' s' ms) :
    HistInv d qs h' ∧ Extends h h' := by
  obtain ⟨es, rfl, hes, -⟩ := ha.events hh hs
  exact hh.applyAll hes

theorem Tracks.frameAll {u : State N} {es : List (Raft.Event N (Entry N))} :
    ∀ {h : History N (Entry N)}, Tracks h u → Admits (Fair d qs) h es →
      (∀ e ∈ es, e.actor ≠ u.nodeId) → Tracks (h.applyAll es) u := by
  induction es with
  | nil => exact fun hu _ _ => hu
  | cons e es ih =>
    intro h hu hes hact
    exact ih (hu.frame hes.1.allowed (hact e List.mem_cons_self)) hes.2
      fun f hf => hact f (List.mem_cons_of_mem e hf)

/-- More received messages do no harm. -/
theorem NodeInv.src_mono {src' : Message N → Prop} (hsrc : ∀ m, src m → src' m)
    (hs : NodeInv d qs src h s) : NodeInv d qs src' h s :=
  { hs with
    counted := fun hd hr v hv =>
      (hs.counted hd hr v hv).imp id fun hv' => hv'.imp id fun ⟨r, hm, hr'⟩ => ⟨r, hsrc _ hm, hr'⟩
    led := fun hd =>
      { hs.led hd with
        acked := fun hr q n hq => by
          obtain ⟨hne, hn, hack⟩ := (hs.led hd).acked hr q n hq
          exact ⟨hne, hn, hack.imp id fun ⟨r, hm, hr'⟩ => ⟨r, hsrc _ hm, hr'⟩⟩ } }

theorem Led.mono (hx : Extends h h') (hl : Led qs src h s) : Led qs src h' s where
  commit_le := hl.commit_le
  settled := hl.settled.mono hx le_rfl
  own hr := (hl.own hr).trans (hx.ack_le _ _)
  acked hr q n hq := by
    obtain ⟨hne, hn, hsrc⟩ := hl.acked hr q n hq
    exact ⟨hne, hn.trans (hx.ack_le _ _), hsrc⟩

omit [DecidableEq N] in
theorem MsgInv.mono (hx : Extends h h') {m : Message N} (hm : MsgInv d qs h m) :
    MsgInv d qs h' m where
  carries := hm.carries.mono hx
  commit hd := by
    have hold := hm.commit hd
    cases m with
    | appendEntries dest r =>
      obtain ⟨X, L, hL, hpre, hseg, hle, hset⟩ := hold
      obtain ⟨t, ht, -⟩ := hx.leader_grow hL
      exact ⟨X, L ++ t, ht, hpre.trans (List.prefix_append _ _), hseg, hle, hset.mono hx le_rfl⟩
    | appendEntriesResponse dest fromPeer r => exact fun hr => (hold hr).trans (hx.ack_le _ _)
    | requestVote dest r => trivial
    | voteResponse dest fromPeer r => trivial

/-- The other nodes are as they were. -/
theorem Act.frame (hh : HistInv d qs h) (hs : NodeInv d qs src h s) (ha : Act d qs src h s h' s' ms)
    {u : State N} (hu : NodeInv d qs src h u) (hne : s.nodeId ≠ u.nodeId) : NodeInv d qs src h' u := by
  have hx := (ha.hist hh hs).2
  obtain ⟨es, rfl, hes, hact, -⟩ := ha.events hh hs
  exact {
    tracks := hu.tracks.frameAll hes fun e he => (hact e he).trans_ne hne
    self := hu.self
    peers := hu.peers
    counted := fun hd hr v hv => by
      obtain ⟨⟨l, hl⟩, hsrc⟩ := hu.counted hd hr v hv
      exact ⟨⟨l, hx.vote_keep hl⟩, hsrc⟩
    led := fun hd => (hu.led hd).mono hx }

/-- The acting node keeps the invariant. -/
theorem Act.node (hh : HistInv d qs h) (hs : NodeInv d qs src h s) (ha : Act d qs src h s h' s' ms) :
    NodeInv d qs src h' s' := by
  have hx := (ha.hist hh hs).2
  have htr : Tracks h' s' := by
    obtain ⟨-, -, -, -, htr, -⟩ := ha.events hh hs
    exact htr
  have hvotes : d.elections → s.role ≠ .follower → ∀ v ∈ s.votesReceived,
      (∃ l, h'.vote v s.currentTerm = some (s.nodeId, l)) ∧
        (v = s.nodeId ∨ VoteFrom src s.nodeId v s.currentTerm) := fun hd hr v hv => by
    obtain ⟨⟨l, hl⟩, hsrc⟩ := hs.counted hd hr v hv
    exact ⟨⟨l, hx.vote_keep hl⟩, hsrc⟩
  have hled : d.logs → Led qs src h' s := fun hd => (hs.led hd).mono hx
  cases ha with
  | @adopt t hlt =>
    exact {
      tracks := htr
      self := hs.self
      peers := hs.peers
      counted := by simp [stepDown]
      led := fun hd =>
        { commit_le := (hled hd).commit_le
          settled := (hled hd).settled.mono (Extends.refl _) hlt.le
          own := by simp [stepDown]
          acked := by simp [stepDown] } }
  | stand =>
    exact {
      tracks := htr
      self := hs.self
      peers := hs.peers
      counted := fun hd _ v hv => by
        simp only [candidateState, Finset.mem_singleton] at hv
        subst hv
        refine ⟨⟨s.log, ?_⟩, Or.inl rfl⟩
        simp [candidateState, History.apply, hs.tracks.term, hs.tracks.log]
      led := fun hd =>
        { commit_le := (hled hd).commit_le
          settled := (hled hd).settled.mono (Extends.refl _) (Nat.le_succ _)
          own := by simp [candidateState]
          acked := by simp [candidateState] } }
  | @lead e ni mi hr hnone hwon he hplain hmi =>
    exact {
      tracks := htr
      self := hs.self
      peers := hs.peers
      counted := fun hd _ => hvotes hd (by simp [hr])
      led := fun hd =>
        { commit_le := (hled hd).commit_le.trans (by simp)
          settled := by
            simp only [List.take_append_of_le_length (hled hd).commit_le]
            exact (hled hd).settled
          own := fun _ => by simp [History.apply, hs.tracks.term, hs.tracks.log]
          acked := fun _ q n hq => by
            obtain ⟨hmem, rfl⟩ := hmi q n hq
            exact ⟨fun heq => hs.self (heq ▸ hmem), Nat.zero_le _, Or.inl rfl⟩ } }
  | @append e hr he hplain =>
    exact {
      tracks := htr
      self := hs.self
      peers := hs.peers
      counted := hvotes
      led := fun hd =>
        { commit_le := (hled hd).commit_le.trans (by simp)
          settled := by
            simp only [List.take_append_of_le_length (hled hd).commit_le]
            exact (hled hd).settled
          own := fun _ => by simp [History.apply, hs.tracks.term, hs.tracks.log]
          acked := (hled hd).acked } }
  | @accept c X L n hL hne hX hrise hn hcut =>
    have hfollow : s.role ≠ .leader := fun hr => by
      have := hs.tracks.leader hr
      rw [hL, Option.some.injEq, Prod.mk.injEq] at this
      exact hne this.1.symm
    exact {
      tracks := htr
      self := hs.self
      peers := hs.peers
      counted := hvotes
      led := fun hd =>
        { commit_le := (hn hd).1
          settled := (hn hd).2.mono hx le_rfl
          own := fun hr => absurd hr hfollow
          acked := fun hr => absurd hr hfollow } }
  | @count v hv =>
    exact { hs with
      counted := fun hd hr w hw => by
        rcases Finset.mem_insert.mp hw with rfl | hw
        · exact ⟨(hv hd).1, Or.inr (hv hd).2⟩
        · exact hs.counted hd hr w hw
      tracks := htr
      led := fun hd => { hled hd with } }
  | @acknowledge v n ni hne hn =>
    exact { hs with
      tracks := htr
      led := fun hd =>
        { hled hd with
          acked := fun hr q k hq => by
            by_cases hqv : q = v
            · subst hqv
              rw [AList.lookup_insert, Option.some.injEq] at hq
              subst hq
              exact ⟨hne, (hn hd).1, Or.inr (hn hd).2⟩
            · rw [AList.lookup_insert_ne hqv] at hq
              exact (hled hd).acked hr q k hq } }
  | @advance n hn =>
    exact { hs with
      tracks := htr
      led := fun hd => { hled hd with
        commit_le := (hn hd).2.1
        settled := (hn hd).2.2 } }
  | @tidy leader ni la reg peers pending hself hpeers =>
    exact { hs with
      tracks := htr
      self := hself hs.self
      peers := fun hd => by
        have hplain : ∀ e ∈ s.log, ¬ e.command.IsMembership := fun e he =>
          hh.plain_of_backed hd (hh.coherent.log_backed s.nodeId) (hs.tracks.log ▸ he)
        simp only [hpeers hplain]
        exact hs.peers hd
      led := fun hd => { hled hd with } }
  | grant hfree hup =>
    exact { hs with
      tracks := htr
      counted := hvotes
      led := fun hd => { hled hd with } }
  | regrant | refuse | replicate | reject => exact hs

omit [DecidableEq N] in
theorem lastLogTerm_eq (s : State N) : lastLogTerm s = lastTerm s.log := by
  unfold lastLogTerm lastTerm
  cases s.log.getLast? <;> rfl

theorem segment_appendEntriesRequest (s : State N) (peer : N) :
    Segment s.log (appendEntriesRequest s peer) := by
  refine ⟨rfl, fun hpos => ?_⟩
  have hpos' : 0 < (s.nextIndex.lookup peer).getD 1 - 1 := hpos
  simp only [appendEntriesRequest, hpos', if_true, enumAt_pred _ hpos']
  cases s.log[(s.nextIndex.lookup peer).getD 1 - 1 - 1]? <;> rfl

/-- What the acting node sends is true. -/
theorem Act.msgs (hs : NodeInv d qs src h s) (ha : Act d qs src h s h' s' ms) :
    ∀ m ∈ ms, MsgInv d qs h' m := by
  have ht := hs.tracks
  cases ha with
  | stand =>
    intro m hm
    obtain ⟨peer, -, rfl⟩ := List.mem_map.mp hm
    refine ⟨⟨s.log, ?_, rfl, lastLogTerm_eq _⟩, fun _ => trivial⟩
    simp [candidateState, History.apply, ht.term, ht.log]
  | @grant c hfree hup =>
    intro m hm
    rw [List.mem_singleton.mp hm]
    refine ⟨⟨by simp [History.apply, ht.term], fun _ => ⟨s.log, ?_⟩⟩, fun _ => trivial⟩
    simp [History.apply, ht.term, ht.log]
  | @regrant c hv =>
    intro m hm
    rw [List.mem_singleton.mp hm]
    refine ⟨⟨ht.term.ge, fun _ => ?_⟩, fun _ => trivial⟩
    have hvote := ht.vote
    rw [hv, eq_comm, Option.map_eq_some_iff] at hvote
    obtain ⟨⟨c', l⟩, hl, rfl⟩ := hvote
    exact ⟨l, hl⟩
  | refuse =>
    intro m hm
    rw [List.mem_singleton.mp hm]
    exact ⟨⟨ht.term.ge, by simp⟩, fun _ => trivial⟩
  | replicate hr =>
    intro m hm
    obtain ⟨peer, hpeer, rfl⟩ := List.mem_map.mp hm
    have hL := ht.leader hr
    have hne : peer ≠ s.nodeId := fun heq => hs.self (heq ▸ hpeer)
    refine ⟨⟨hne, s.log, s.log, hL, List.prefix_rfl, segment_appendEntriesRequest s peer⟩,
      fun hd => ?_⟩
    exact ⟨s.log, s.log, hL, List.prefix_rfl, segment_appendEntriesRequest s peer,
      (hs.led hd).commit_le, (hs.led hd).settled⟩
  | @accept c X L n hL hne hX hrise hn hcut =>
    intro m hm
    rw [List.mem_singleton.mp hm]
    refine ⟨⟨hne, by simp [History.apply, ht.term]⟩, fun _ _ => ?_⟩
    simp [History.apply, ht.term]
  | reject hne =>
    intro m hm
    rw [List.mem_singleton.mp hm]
    exact ⟨⟨hne, ht.term.ge⟩, fun _ => by simp [CarriesCommit]⟩
  | adopt | count | lead | append | acknowledge | advance | tidy => simp

/-! ### Committed entries stay -/

/-- The commit index does not fall and no entry below it changes. -/
def Durable (s s' : State N) : Prop :=
  s.commitIndex ≤ s'.commitIndex ∧ s'.log.take s.commitIndex = s.log.take s.commitIndex

omit [DecidableEq N] in
theorem Durable.refl (s : State N) : Durable s s := ⟨le_rfl, rfl⟩

omit [DecidableEq N] in
theorem Durable.trans {s₁ s₂ s₃ : State N} (a : Durable s₁ s₂) (b : Durable s₂ s₃) :
    Durable s₁ s₃ := by
  refine ⟨a.1.trans b.1, ?_⟩
  have := congrArg (List.take s₁.commitIndex) b.2
  rw [List.take_take, List.take_take, min_eq_left a.1] at this
  exact this.trans a.2

theorem Act.durable (hh : HistInv d qs h) (hs : NodeInv d qs src h s) (ha : Act d qs src h s h' s' ms)
    (hc : d.commits) : Durable s s' := by
  have hd := d.commits_logs hc
  have hle := (hs.led hd).commit_le
  cases ha with
  | @accept c X L n hL hne hX hrise hn hcut =>
    -- the committed prefix is settled, so it is part of the leader's log
    have hpre : s.log.take s.commitIndex <+: X :=
      (hs.led hd).settled.prefix_accept hh.coherent (hh.kept hd) hL hX
        (List.take_prefix _ _) (hcut hd)
    refine ⟨hrise hc, ?_⟩
    rw [List.prefix_iff_eq_take, List.length_take_of_le hle] at hpre
    exact hpre.symm
  | lead | append => exact ⟨le_rfl, List.take_append_of_le_length hle⟩
  | advance hn => exact ⟨(hn hd).1, rfl⟩
  | adopt | stand | grant | regrant | refuse | count | replicate | reject | acknowledge | tidy =>
    exact ⟨le_rfl, rfl⟩

/-! ### Sequences of actions -/

/-- What an action, and so a callback, keeps: the history only grows, and its
node, the other nodes and the messages sent meet their invariants. -/
structure Sound (d : Discipline) (qs : QuorumSystem N) (src : Message N → Prop)
    (h : History N (Entry N)) (s : State N)
    (h' : History N (Entry N)) (s' : State N) (ms : List (Message N)) : Prop where
  hist : HistInv d qs h'
  grow : Extends h h'
  node : NodeInv d qs src h' s'
  nodeId : s'.nodeId = s.nodeId
  msgs : ∀ m ∈ ms, MsgInv d qs h' m
  frame : ∀ u, NodeInv d qs src h u → s.nodeId ≠ u.nodeId → NodeInv d qs src h' u
  durable : d.commits → Durable s s'

theorem Act.sound (hh : HistInv d qs h) (hs : NodeInv d qs src h s) (ha : Act d qs src h s h' s' ms) :
    Sound d qs src h s h' s' ms where
  hist := (ha.hist hh hs).1
  grow := (ha.hist hh hs).2
  node := ha.node hh hs
  nodeId := by
    obtain ⟨-, -, -, -, -, hid⟩ := ha.events hh hs
    exact hid
  msgs := ha.msgs hs
  frame _ hu hne := ha.frame hh hs hu hne
  durable hd := ha.durable hh hs hd

theorem Acts.sound (hh : HistInv d qs h) (hs : NodeInv d qs src h s) (ha : Acts d qs src h s h' s' ms) :
    Sound d qs src h s h' s' ms := by
  induction ha with
  | refl => exact ⟨hh, Extends.refl h, hs, rfl, by simp, fun _ hu _ => hu, fun _ => .refl s⟩
  | tail _ hact ih =>
    have hnext := hact.sound ih.hist ih.node
    refine ⟨hnext.hist, ih.grow.trans hnext.grow, hnext.node, hnext.nodeId.trans ih.nodeId, ?_, ?_,
      fun hd => (ih.durable hd).trans (hnext.durable hd)⟩
    · intro m hm
      rcases List.mem_append.mp hm with hm | hm
      · exact (ih.msgs m hm).mono hnext.grow
      · exact hnext.msgs m hm
    · intro u hu hne
      exact hnext.frame u (ih.frame u hu hne) (ih.nodeId ▸ hne)

end NextgenDatabases.Kraft
