import NextgenDatabases.Lithoglyph.Consensus
import NextgenDatabases.Raft.Nodes

/-!
# Agreement of the consensus nodes

The nodes refine the history of a replicated log. So a term has one leader, and logs that have an
entry of one term at one position agree up to it, whatever is lost, repeated or late.
-/
namespace NextgenDatabases.Lithoglyph.Distributed

open Foundations Raft Raft.History ConsensusNode

variable {N J : Type} {s s' : ConsensusNode N J} {l X es : List (LogEntry N J)}
  {entry : LogEntry N J}

instance : Termed (LogEntry N J) := ⟨LogEntry.term⟩

/-! ### Logs with consecutive indices -/

def Indexed (l : List (LogEntry N J)) : Prop := ∀ k e, l[k]? = some e → e.index = k + 1

theorem Indexed.of_isPrefix (h : Indexed X) (hl : l <+: X) : Indexed l :=
  fun k e hk => h k e (getElem?_of_isPrefix hl hk)

theorem getLastLogIndex_eq (h : Indexed l) : getLastLogIndex l = l.length := by
  rw [getLastLogIndex]
  cases hlast : l.getLast? with
  | none => rw [List.getLast?_eq_none_iff.mp hlast, List.length_nil]
  | some e =>
    have hne : l ≠ [] := by
      rintro rfl
      cases hlast
    have hpos := List.length_pos_iff.mpr hne
    rw [List.getLast?_eq_getElem?] at hlast
    have hindex := h _ e hlast
    show e.index = l.length
    omega

theorem getLastLogTerm_eq (l : List (LogEntry N J)) : getLastLogTerm l = lastTerm l := by
  rw [getLastLogTerm, lastTerm]
  cases l.getLast? <;> rfl

theorem Indexed.push (h : Indexed l) (he : entry.index = l.length + 1) : Indexed (l ++ [entry]) := by
  intro k e hk
  rcases lt_or_ge k l.length with hlt | hge
  · rw [List.getElem?_append_left hlt] at hk
    exact h k e hk
  · rw [List.getElem?_append_right hge, List.getElem?_singleton] at hk
    split_ifs at hk with hzero
    rw [← Option.some.inj hk, he]
    omega

theorem filter_index (h : Indexed l) (i : ℕ) : l.filter (·.index < i + 1) = l.take i := by
  induction l using List.reverseRecOn with
  | nil => simp
  | append_singleton l e ih =>
    have hindex : e.index = l.length + 1 := h l.length e (by simp)
    rw [List.filter_append, ih (h.of_isPrefix (List.prefix_append _ _))]
    rcases lt_or_ge l.length i with hlt | hge
    · rw [List.take_of_length_le hlt.le, List.take_of_length_le (by simp; omega)]
      simp [hindex, hlt]
    · rw [List.take_append_of_le_length hge]
      simp [hindex, hge]

theorem foldl_appendEntry (h : Indexed (l ++ es)) : es.foldl appendEntry l = l ++ es := by
  induction es generalizing l with
  | nil => simp
  | cons e es ih =>
    have hindex : e.index = l.length + 1 := h l.length e (by simp)
    have hl : Indexed l := h.of_isPrefix (List.prefix_append _ _)
    have happend : appendEntry l e = l ++ [e] := by
      rw [appendEntry, hindex, filter_index hl, List.take_length]
    rw [List.foldl_cons, happend, ih (by simpa using h)]
    simp

/-- The first entry cuts the log off, and the others are put behind it. -/
theorem foldl_appendEntry_take {i : ℕ} (hl : Indexed l) (hi : i ≤ l.length)
    (h : Indexed (l.take i ++ es)) (hne : es ≠ []) :
    es.foldl appendEntry l = l.take i ++ es := by
  obtain ⟨e, es, rfl⟩ := List.exists_cons_of_ne_nil hne
  have hlength : (l.take i).length = i := List.length_take_of_le hi
  have hindex : e.index = (l.take i).length + 1 := h _ e (by
    rw [List.getElem?_append_right le_rfl, Nat.sub_self]
    rfl)
  have hcut : appendEntry l e = appendEntry (l.take i) e := by
    rw [appendEntry, appendEntry, hindex, hlength, filter_index hl,
      filter_index (hl.of_isPrefix (List.take_prefix _ _)), List.take_take, min_self]
  rw [List.foldl_cons, hcut, ← List.foldl_cons, foldl_appendEntry h]

/-! ### Nodes and messages against the history -/

def standing : RaftState → Standing
  | .follower => .follower
  | .candidate => .candidate
  | .leader => .leader

/-- What the theory sees of a node. -/
def view (s : ConsensusNode N J) : View N (LogEntry N J) :=
  ⟨s.nodeId, s.currentTerm, s.votedFor, standing s.state, s.log⟩

/-- What a message says about the history. -/
def Carries (h : Raft.History N (LogEntry N J)) : Message N J → Prop
  | .voteRequest r => ∃ l, h.vote r.candidateId r.term = some (r.candidateId, l) ∧
      r.lastLogIndex = l.length ∧ r.lastLogTerm = lastTerm l
  | .voteResponse v c r => r.voteGranted = true → ∃ l, h.vote v r.term = some (c, l)
  | .appendEntries r => ∃ X L, h.leader r.term = some (r.leaderId, L) ∧ X <+: L ∧
      Cut X r.prevLogIndex r.prevLogTerm r.entries
  | .appendEntriesResponse _ => True

variable [DecidableEq N] {h h' : Raft.History N (LogEntry N J)} {m : Message N J}
  {members : Finset N} {c c' : Cluster N J} {p q : N}

omit [DecidableEq N] in
theorem Carries.mono (hx : Extends h h') (hm : Carries h m) : Carries h' m := by
  cases m with
  | voteRequest r =>
    obtain ⟨l, hl, hlast⟩ := hm
    exact ⟨l, hx.vote_keep hl, hlast⟩
  | voteResponse v c r =>
    intro hgranted
    obtain ⟨l, hl⟩ := hm hgranted
    exact ⟨l, hx.vote_keep hl⟩
  | appendEntries r =>
    obtain ⟨X, L, hL, hpre, hcut⟩ := hm
    obtain ⟨more, hmore, -⟩ := hx.leader_grow hL
    exact ⟨X, L ++ more, hmore, hpre.trans (List.prefix_append _ _), hcut⟩
  | appendEntriesResponse r => trivial

/-- The nodes and what they have sent are as the history says. -/
structure Refines (members : Finset N) (c : Cluster N J) (h : Raft.History N (LogEntry N J)) :
    Prop where
  coherent : Coherent h
  elected : h.Elected (majority members)
  node_id : ∀ p, (c.node p).nodeId = p
  mirrors : ∀ p, Mirrors h (view (c.node p))
  logs : ∀ p, Indexed (c.node p).log
  leaders : ∀ t d L, h.leader t = some (d, L) → Indexed L
  carries : ∀ m ∈ c.sent, Carries h m

omit [DecidableEq N] in
theorem view_log {node node' : ConsensusNode N J} (hview : view node = view node') :
    node.log = node'.log ∧ node.nodeId = node'.nodeId :=
  ⟨congrArg View.log hview, congrArg View.id hview⟩

/-- A node moves on without an event of the history. -/
theorem Refines.still (hr : Refines members c h) {node : ConsensusNode N J}
    {out : List (Message N J)} (hview : view node = view (c.node p))
    (hout : ∀ m ∈ out, Carries h m) : Refines members (c.put p node out) h := by
  have hnode (q : N) : view ((c.put p node out).node q) = view (c.node q) := by
    rcases eq_or_ne q p with rfl | hq
    · simpa [Cluster.put] using hview
    · simp [Cluster.put, hq]
  exact {
    coherent := hr.coherent
    elected := hr.elected
    node_id := fun q => (view_log (hnode q)).2.trans (hr.node_id q)
    mirrors := fun q => hnode q ▸ hr.mirrors q
    logs := fun q => (view_log (hnode q)).1 ▸ hr.logs q
    leaders := hr.leaders
    carries := fun m hm => (List.mem_append.mp hm).elim (hr.carries m) (hout m) }

/-- A node moves on by an event of the history. -/
theorem Refines.event (hr : Refines members c h) {e : Raft.Event N (LogEntry N J)}
    {node : ConsensusNode N J} {out : List (Message N J)} (he : h.Allowed e)
    (hq : h.ByQuorum (majority members) e) (hp : e.actor = p) (hid : node.nodeId = p)
    (hmirrors : Mirrors (h.apply e) (view node)) (hlog : Indexed node.log)
    (hleaders : ∀ t d L, (h.apply e).leader t = some (d, L) → Indexed L)
    (hout : ∀ m ∈ out, Carries (h.apply e) m) :
    Refines members (c.put p node out) (h.apply e) ∧ Extends h (h.apply e) := by
  have hx := extends_apply hr.coherent he
  refine ⟨?_, hx⟩
  exact {
    coherent := coherent_apply hr.coherent he
    elected := elected_apply hr.coherent hr.elected he hq
    node_id := fun q => by
      rcases eq_or_ne q p with rfl | hne
      · simpa [Cluster.put] using hid
      · simpa [Cluster.put, hne] using hr.node_id q
    mirrors := fun q => by
      rcases eq_or_ne q p with rfl | hne
      · simpa [Cluster.put] using hmirrors
      · have hactor : (view (c.node q)).id ≠ e.actor := by
          rw [hp]
          exact fun heq => hne ((hr.node_id q).symm.trans heq)
        simpa [Cluster.put, hne] using (hr.mirrors q).frame hr.coherent he hactor
    logs := fun q => by
      rcases eq_or_ne q p with rfl | hne
      · simpa [Cluster.put] using hlog
      · simpa [Cluster.put, hne] using hr.logs q
    leaders := hleaders
    carries := fun m hm => (List.mem_append.mp hm).elim (fun hm => (hr.carries m hm).mono hx)
      (hout m) }

theorem Cluster.put_put (c : Cluster N J) (p : N) (node node' : ConsensusNode N J)
    (out : List (Message N J)) : (c.put p node []).put p node' out = c.put p node' out := by
  simp [Cluster.put]

/-- A higher term is taken over first. -/
theorem Refines.adopt (hr : Refines members c h) (p : N) (t : ℕ) :
    ∃ h', Refines members (c.put p ((c.node p).adoptTerm t) []) h' ∧ Extends h h' := by
  rw [adoptTerm]
  split_ifs with hlt
  · obtain ⟨hallowed, hmirrors⟩ := (hr.mirrors p).adopt hr.coherent (t := t) hlt
    have hid := hr.node_id p
    exact ⟨_, hr.event hallowed trivial hid hid hmirrors (hr.logs p) hr.leaders nofun⟩
  · exact ⟨h, hr.still rfl nofun, Extends.refl h⟩

/-! ### What the nodes do -/

theorem Refines.startElection (hr : Refines members c h) (p : N) (now : ℕ) :
    ∃ h', Refines members (c.put p ((c.node p).startElection now).2
      [.voteRequest ((c.node p).startElection now).1]) h' ∧ Extends h h' := by
  have hid := hr.node_id p
  have hterm : h.term (c.node p).nodeId = (c.node p).currentTerm := (hr.mirrors p).term
  have hlog : h.log (c.node p).nodeId = (c.node p).log := (hr.mirrors p).log
  refine ⟨_, hr.event (e := .stand (c.node p).nodeId) trivial trivial hid hid
    ((hr.mirrors p).stand hr.coherent) (hr.logs p) hr.leaders fun m hm => ?_⟩
  obtain rfl := List.mem_singleton.mp hm
  refine ⟨(c.node p).log, ?_, getLastLogIndex_eq (hr.logs p), getLastLogTerm_eq _⟩
  simp [Raft.History.apply, ConsensusNode.startElection, hterm, hlog]

omit [DecidableEq N] in
theorem logOk_iff {r : VoteRequest N} {l : List (LogEntry N J)} (hlog : Indexed s.log)
    (hindex : r.lastLogIndex = l.length) (hterm : r.lastLogTerm = lastTerm l) :
    s.logOk r ↔ UpToDate l s.log := by
  rw [logOk, UpToDate, getLastLogIndex_eq hlog, getLastLogTerm_eq, hindex, hterm]

omit [DecidableEq N] in
theorem exists_voted {v : View N (LogEntry N J)} {d : N} (hv : Mirrors h v)
    (hd : v.vote = some d) : ∃ l, h.vote v.id v.term = some (d, l) := by
  have hvote := hv.vote
  rw [hd] at hvote
  obtain ⟨⟨d', l⟩, hl, rfl⟩ := Option.map_eq_some_iff.mp hvote.symm
  exact ⟨l, hl⟩

/-- A vote is given to a candidate whose log is at least as up to date, and once in a term. -/
theorem Refines.vote (hr : Refines members c h) {r : VoteRequest N} (hm : Carries h (.voteRequest r : Message N J))
    (hterm : r.term ≤ (c.node p).currentTerm) (now : ℕ) :
    ∃ h', Refines members (c.put p ((c.node p).vote r now).2
      [.voteResponse p r.candidateId ((c.node p).vote r now).1]) h' ∧ Extends h h' := by
  rw [ConsensusNode.vote]
  split_ifs with hgrant
  · obtain ⟨hle, hok, hcan⟩ := hgrant
    obtain ⟨l, hl, hindex, hlast⟩ := hm
    have heq : r.term = (c.node p).currentTerm := hterm.antisymm hle
    rw [heq] at hl
    have hid := hr.node_id p
    cases hvoted : (c.node p).votedFor with
    | none =>
      have hup := (logOk_iff (hr.logs p) hindex hlast).mp hok
      obtain ⟨hallowed, hmirrors⟩ := (hr.mirrors p).grant hvoted ⟨l, hl, hup⟩
      refine ⟨_, hr.event hallowed trivial hid hid hmirrors (hr.logs p) hr.leaders fun m hm => ?_⟩
      obtain rfl := List.mem_singleton.mp hm
      obtain ⟨l, hl⟩ := exists_voted hmirrors rfl
      exact fun _ => ⟨l, (congrArg (fun v => Raft.History.vote _ v _) hid.symm).trans hl⟩
    | some id =>
      obtain rfl := hcan id hvoted
      refine ⟨h, hr.still ?_ fun m hm => ?_, Extends.refl h⟩
      · simp [view, hvoted]
      · obtain rfl := List.mem_singleton.mp hm
        obtain ⟨l, hl⟩ := exists_voted (hr.mirrors p) hvoted
        exact fun _ => ⟨l, (congrArg (fun v => h.vote v _) hid.symm).trans hl⟩
  · refine ⟨h, hr.still rfl fun m hm => ?_, Extends.refl h⟩
    obtain rfl := List.mem_singleton.mp hm
    exact nofun

omit [DecidableEq N] in
theorem le_adoptTerm (s : ConsensusNode N J) (t : ℕ) : t ≤ (s.adoptTerm t).currentTerm := by
  rw [adoptTerm]
  split_ifs with hlt
  · exact le_rfl
  · exact not_lt.mp hlt

theorem Refines.handleVoteRequest (hr : Refines members c h) {r : VoteRequest N}
    (hm : Carries h (.voteRequest r : Message N J)) (p : N) (now : ℕ) :
    ∃ h', Refines members (c.put p ((c.node p).handleVoteRequest r now).2
      [.voteResponse p r.candidateId ((c.node p).handleVoteRequest r now).1]) h' ∧
        Extends h h' := by
  obtain ⟨h₁, hr₁, hx₁⟩ := hr.adopt p r.term
  have hnode : (c.put p ((c.node p).adoptTerm r.term) []).node p = (c.node p).adoptTerm r.term := by
    simp [Cluster.put]
  have hterm : r.term ≤ ((c.put p ((c.node p).adoptTerm r.term) []).node p).currentTerm :=
    (le_adoptTerm _ _).trans_eq (congrArg currentTerm hnode.symm)
  obtain ⟨h₂, hr₂, hx₂⟩ := hr₁.vote (hm.mono hx₁) hterm now
  rw [hnode, Cluster.put_put] at hr₂
  exact ⟨h₂, hr₂, hx₁.trans hx₂⟩

/-- Entries are taken in behind a position at which the log is the leader's. -/
theorem Refines.append (hr : Refines members c h) {r : AppendEntriesRequest N J}
    (hm : Carries h (.appendEntries r)) (hne : p ≠ r.leaderId)
    (hterm : r.term ≤ (c.node p).currentTerm) (now : ℕ) :
    ∃ h', Refines members (c.put p ((c.node p).append r now).2
      [.appendEntriesResponse ((c.node p).append r now).1]) h' ∧ Extends h h' := by
  have hout {h : Raft.History N (LogEntry N J)} {a : AppendEntriesResponse} :
      ∀ m ∈ [(.appendEntriesResponse a : Message N J)], Carries h m := by
    intro m hm
    obtain rfl := List.mem_singleton.mp hm
    trivial
  have hstill {node : ConsensusNode N J} {a : AppendEntriesResponse}
      (hview : view node = view (c.node p)) :
      ∃ h', Refines members (c.put p node [.appendEntriesResponse a]) h' ∧ Extends h h' :=
    ⟨h, hr.still hview hout, Extends.refl h⟩
  rw [ConsensusNode.append]
  dsimp only
  split_ifs with hstale hconsistent
  · exact hstill rfl
  · obtain ⟨X, L, hL, hpre, hcut⟩ := hm
    have heq : r.term = (c.node p).currentTerm := hterm.antisymm (not_lt.mp hstale)
    by_cases hentries : r.entries = []
    · refine hstill ?_
      simp [view, hentries]
    have hfit : 0 < r.prevLogIndex →
        ∃ e, (c.node p).log[r.prevLogIndex - 1]? = some e ∧ Termed.termOf e = r.prevLogTerm := by
      intro hpos
      obtain ⟨e, he, hterm⟩ := hconsistent.resolve_left hpos.ne'
      exact ⟨e, he, hterm⟩
    have hlength : r.prevLogIndex ≤ (c.node p).log.length := by
      rcases Nat.eq_zero_or_pos r.prevLogIndex with hzero | hpos
      · omega
      · obtain ⟨e, he, -⟩ := hfit hpos
        have hlt := (List.getElem?_eq_some_iff.mp he).1
        omega
    have hid := hr.node_id p
    have hheld : h.log (c.node p).nodeId = (c.node p).log := (hr.mirrors p).log
    have hbacked : h.Backed (c.node p).log := hheld ▸ hr.coherent.log_backed _
    have hX : (c.node p).log.take r.prevLogIndex ++ r.entries = X :=
      hcut.take_append hr.coherent hbacked ((hr.coherent.leader_backed hL).of_isPrefix hpre) hfit
    have hindexed : Indexed X := (hr.leaders _ _ _ hL).of_isPrefix hpre
    have hlog : r.entries.foldl appendEntry (c.node p).log = X :=
      (foldl_appendEntry_take (hr.logs p) hlength (hX ▸ hindexed) hentries).trans hX
    rw [heq] at hL
    obtain ⟨hallowed, hmirrors⟩ := (hr.mirrors p).accept hL (fun h => hne (hid.symm.trans h)) hpre
    rw [hlog]
    exact ⟨_, hr.event hallowed trivial hid hid hmirrors hindexed hr.leaders hout⟩
  · exact hstill rfl

theorem Refines.handleAppendEntries (hr : Refines members c h) {r : AppendEntriesRequest N J}
    (hm : Carries h (.appendEntries r)) (hne : p ≠ r.leaderId) (now : ℕ) :
    ∃ h', Refines members (c.put p ((c.node p).handleAppendEntries r now).2
      [.appendEntriesResponse ((c.node p).handleAppendEntries r now).1]) h' ∧ Extends h h' := by
  obtain ⟨h₁, hr₁, hx₁⟩ := hr.adopt p r.term
  have hnode : (c.put p ((c.node p).adoptTerm r.term) []).node p = (c.node p).adoptTerm r.term := by
    simp [Cluster.put]
  have hterm : r.term ≤ ((c.put p ((c.node p).adoptTerm r.term) []).node p).currentTerm :=
    (le_adoptTerm _ _).trans_eq (congrArg currentTerm hnode.symm)
  obtain ⟨h₂, hr₂, hx₂⟩ := hr₁.append (hm.mono hx₁) hne hterm now
  rw [hnode, Cluster.put_put] at hr₂
  exact ⟨h₂, hr₂, hx₁.trans hx₂⟩

theorem Refines.leaders_update (hr : Refines members c h) (t : ℕ) (q : N) (hl : Indexed l) :
    ∀ u d L, Function.update h.leader t (some (q, l)) u = some (d, L) → Indexed L := by
  intro u d L hL
  rcases eq_or_ne u t with rfl | hu
  · rw [Function.update_self, Option.some.injEq, Prod.mk.injEq] at hL
    exact hL.2 ▸ hl
  · rw [Function.update_of_ne hu] at hL
    exact hr.leaders u d L hL

/-- Counted votes of a majority elect the candidate, which no other node can have won against. -/
theorem Refines.becomeLeader (hr : Refines members c h) (peers : List N) {voters : Finset N}
    (hcandidate : (c.node p).state = .candidate) (hmajority : IsMajority members voters)
    (hcounted : ∀ v ∈ voters, c.Counted p v) :
    ∃ h', Refines members (c.put p ((c.node p).becomeLeader peers) []) h' ∧ Extends h h' := by
  have hid := hr.node_id p
  have hterm : h.term (c.node p).nodeId = (c.node p).currentTerm := (hr.mirrors p).term
  have hrole : (view (c.node p)).role = .candidate := by simp [view, standing, hcandidate]
  have hwon : h.Won (majority members) (c.node p).currentTerm (c.node p).nodeId := by
    refine ⟨voters, hmajority, fun v hv => ?_⟩
    rcases hcounted v hv with rfl | hsent
    · obtain ⟨l, hl, -⟩ := (hr.mirrors v).candidate hrole
      exact ⟨l, (congrArg (fun q => h.vote q _) hid.symm).trans hl⟩
    · obtain ⟨l, hl⟩ := hr.carries _ hsent rfl
      exact ⟨l, by rw [hid]; exact hl⟩
  obtain ⟨hallowed, hmirrors⟩ := (hr.mirrors p).elect hrole
    ((hr.mirrors p).sole hr.elected hrole hwon)
  have hquorum : h.ByQuorum (majority members) (.elect (c.node p).nodeId) := by
    rw [ByQuorum, hterm]
    exact hwon
  have hlog : h.log (c.node p).nodeId = (c.node p).log := (hr.mirrors p).log
  have hindexed : Indexed (h.log (c.node p).nodeId) := hlog ▸ hr.logs p
  have hleaders := hr.leaders_update (h.term (c.node p).nodeId) (c.node p).nodeId hindexed
  exact ⟨_, hr.event hallowed hquorum hid hid hmirrors (hr.logs p) hleaders nofun⟩

theorem Refines.appendCommand (hr : Refines members c h) (p : N) (command : J) (now : ℕ) :
    ∃ h', Refines members (c.put p ((c.node p).appendCommand command now).2 []) h' ∧
      Extends h h' := by
  rw [ConsensusNode.appendCommand]
  split_ifs with hnot
  · exact ⟨h, hr.still rfl nofun, Extends.refl h⟩
  · have hid := hr.node_id p
    have hleader : (c.node p).state = .leader := not_not.mp hnot
    have hterm : h.term (c.node p).nodeId = (c.node p).currentTerm := (hr.mirrors p).term
    have hlog : h.log (c.node p).nodeId = (c.node p).log := (hr.mirrors p).log
    have hrole : (view (c.node p)).role = .leader := by simp [view, standing, hleader]
    set entry : LogEntry N J :=
      ⟨getLastLogIndex (c.node p).log + 1, (c.node p).currentTerm, .command command, now⟩
    have hindexed : Indexed ((c.node p).log ++ [entry]) :=
      (hr.logs p).push (congrArg (· + 1) (getLastLogIndex_eq (hr.logs p)))
    obtain ⟨hallowed, hmirrors⟩ := (hr.mirrors p).append hrole (e := entry) rfl
    have hpushed : Indexed (h.log (c.node p).nodeId ++ [entry]) := hlog ▸ hindexed
    have hleaders := hr.leaders_update (h.term (c.node p).nodeId) (c.node p).nodeId hpushed
    exact ⟨_, hr.event hallowed trivial hid hid hmirrors hindexed hleaders nofun⟩

theorem Refines.sendEntries (hr : Refines members c h) (i k : ℕ)
    (hleader : (c.node p).state = .leader) :
    Refines members (c.put p (c.node p) [.appendEntries ((c.node p).request i k)]) h := by
  refine hr.still rfl fun m hm => ?_
  obtain rfl := List.mem_singleton.mp hm
  have hrole : (view (c.node p)).role = .leader := by simp [view, standing, hleader]
  have hcut : Cut ((c.node p).log.take (i + k)) i ((c.node p).request i k).prevLogTerm
      ((c.node p).request i k).entries := by
    constructor
    · rw [List.drop_take, Nat.add_sub_cancel_left]
      rfl
    · intro hpos
      have hlt : i - 1 < i + k := by omega
      rw [List.getElem?_take_of_lt hlt]
      exact if_neg hpos.ne'
  exact ⟨_, _, (hr.mirrors p).leader hrole, List.take_prefix _ _, hcut⟩

/-! ### Runs -/

theorem refines_make (members : Finset N) (electionTimeout heartbeatInterval now : ℕ) :
    Refines members (.make electionTimeout heartbeatInterval now : Cluster N J)
      ⟨fun _ => 0, fun _ => [], fun _ _ => none, fun _ => none, fun _ _ => 0⟩ where
  coherent := {
    voted_term := nofun
    voted_for := nofun
    own_vote := nofun
    leader_vote := nofun
    leader_log := nofun
    leader_term := nofun
    log_term := nofun
    log_backed := fun _ => backed_nil
    vote_backed := nofun
    leader_backed := nofun
    ack_leader := by simp }
  elected := nofun
  node_id _ := rfl
  mirrors _ := {
    term := rfl
    log := rfl
    vote := rfl
    candidate := nofun
    leader := nofun
    leading := nofun }
  logs _ := nofun
  leaders := nofun
  carries := nofun

variable [DecidableEq J] {e : Event N J}

/-- Every step of the nodes is one of the history. -/
theorem Refines.step (hr : Refines members c h) (hs : c.step members e = some c') :
    ∃ h', Refines members c' h' ∧ Extends h h' := by
  cases e with
  | startElection p now =>
    obtain rfl := Option.some.inj hs
    exact hr.startElection p now
  | voteRequest p request now =>
    rw [Cluster.step] at hs
    split_ifs at hs with hsent
    obtain rfl := Option.some.inj hs
    exact hr.handleVoteRequest (hr.carries _ hsent) p now
  | becomeLeader p peers voters =>
    rw [Cluster.step] at hs
    split_ifs at hs with hwon
    obtain rfl := Option.some.inj hs
    exact hr.becomeLeader peers hwon.1 hwon.2.1 hwon.2.2
  | appendCommand p command now =>
    obtain rfl := Option.some.inj hs
    exact hr.appendCommand p command now
  | sendEntries p i k =>
    rw [Cluster.step] at hs
    split_ifs at hs with hleader
    obtain rfl := Option.some.inj hs
    exact ⟨h, hr.sendEntries i k hleader, Extends.refl h⟩
  | appendEntries p request now =>
    rw [Cluster.step] at hs
    split_ifs at hs with hsent
    obtain rfl := Option.some.inj hs
    exact hr.handleAppendEntries (hr.carries _ hsent.1) hsent.2 now

theorem Refines.run (hr : Refines members c h)
    (hrun : Run (Cluster.step members) (fun _ _ => True) c c') :
    ∃ h', Refines members c' h' ∧ Extends h h' := by
  induction hrun with
  | refl => exact ⟨h, hr, Extends.refl h⟩
  | tail _ hnext ih =>
    obtain ⟨h₁, hr₁, hx₁⟩ := ih
    obtain ⟨e, -, hs⟩ := hnext
    obtain ⟨h₂, hr₂, hx₂⟩ := hr₁.step hs
    exact ⟨h₂, hr₂, hx₁.trans hx₂⟩

variable {electionTimeout heartbeatInterval now : ℕ}

/-- A term has one leader, also when one of them leads it later than the other. -/
theorem one_leader
    (hc : Run (Cluster.step members) (fun _ _ => True)
      (.make electionTimeout heartbeatInterval now) c)
    (hc' : Run (Cluster.step members) (fun _ _ => True) c c')
    (hp : (c.node p).state = .leader) (hq : (c'.node q).state = .leader)
    (hterm : (c.node p).currentTerm = (c'.node q).currentTerm) : p = q := by
  obtain ⟨h, hr, -⟩ := (refines_make members _ _ _).run hc
  obtain ⟨h', hr', hx⟩ := hr.run hc'
  have hleader := (hr.mirrors p).leader (by simp [view, standing, hp])
  have hleader' := (hr'.mirrors q).leader (by simp [view, standing, hq])
  obtain ⟨more, hmore, -⟩ := hx.leader_grow hleader
  have hmore' : h'.leader (c'.node q).currentTerm = some ((c.node p).nodeId, (c.node p).log ++ more) :=
    hterm ▸ hmore
  have hsame : some ((c.node p).nodeId, (c.node p).log ++ more) =
      some ((c'.node q).nodeId, (c'.node q).log) := hmore'.symm.trans hleader'
  rw [Option.some.injEq, Prod.mk.injEq, hr.node_id, hr'.node_id] at hsame
  exact hsame.1

/-- Node 1 votes for node 0, and two of three nodes are enough. -/
def elected : List (Event (Fin 3) ℕ) :=
  [.startElection 0 10,
    .voteRequest 1 ⟨1, 0, 0, 0⟩ 20,
    .becomeLeader 0 [1, 2] {0, 1}]

/-- Node 0 takes a command and sends its log, which reaches node 1. -/
def replicated : List (Event (Fin 3) ℕ) :=
  [.appendCommand 0 7 30,
    .sendEntries 0 0 1,
    .appendEntries 1 ⟨1, 0, 0, 0, [⟨1, 1, .command 7, 30⟩], 0⟩ 40]

/-- Node 0 leads after `elected`, and alone in its term after `replicated`. -/
theorem one_leader_elected : ∃ c c' : Cluster (Fin 3) ℕ,
    exec (Cluster.step {0, 1, 2}) (.make 5000 1000 0) elected = some c ∧
    exec (Cluster.step {0, 1, 2}) c replicated = some c' ∧
    (c.node 0).state = .leader ∧ (c'.node 0).state = .leader ∧
    ∀ q, (c'.node q).state = .leader → (c'.node q).currentTerm = 1 → 0 = q := by
  obtain ⟨c, hc, hleader, hterm, c', hc', hleader'⟩ : ∃ c,
      exec (Cluster.step {0, 1, 2}) (.make 5000 1000 0) elected = some c ∧
      (c.node 0).state = .leader ∧ (c.node 0).currentTerm = 1 ∧ ∃ c',
      exec (Cluster.step {0, 1, 2}) c replicated = some c' ∧ (c'.node 0).state = .leader :=
    ⟨_, rfl, by decide, by decide, _, rfl, by decide⟩
  refine ⟨c, c', hc, hc', hleader, hleader', fun q hq hone => ?_⟩
  exact one_leader (run_of_steps hc) (run_of_steps hc') hleader hq (hterm.trans hone.symm)

/-- Two logs with an entry of one term at one position are the same up to it, however late entries
reach the nodes. -/
theorem logs_match
    (hc : Run (Cluster.step members) (fun _ _ => True)
      (.make electionTimeout heartbeatInterval now) c)
    {k : ℕ} {x y : LogEntry N J} (hx : (c.node p).log[k]? = some x)
    (hy : (c.node q).log[k]? = some y) (hterm : x.term = y.term) :
    (c.node p).log.take (k + 1) = (c.node q).log.take (k + 1) := by
  obtain ⟨h, hr, -⟩ := (refines_make members _ _ _).run hc
  have hbacked (p : N) : h.Backed (c.node p).log := by
    have hlog : h.log (c.node p).nodeId = (c.node p).log := (hr.mirrors p).log
    exact hlog ▸ hr.coherent.log_backed _
  exact (hbacked p).matching (hbacked q) hx hy hterm

/-- Nodes 0 and 1 hold the command after `replicated`. -/
theorem logs_match_replicated : ∃ c : Cluster (Fin 3) ℕ,
    exec (Cluster.step {0, 1, 2}) (.make 5000 1000 0) (elected ++ replicated) = some c ∧
    (c.node 0).log.take 1 = (c.node 1).log.take 1 := by
  obtain ⟨c, hc, h₀, h₁⟩ : ∃ c,
      exec (Cluster.step {0, 1, 2}) (.make 5000 1000 0) (elected ++ replicated) = some c ∧
      (c.node 0).log[0]? = some ⟨1, 1, .command 7, 30⟩ ∧
      (c.node 1).log[0]? = some ⟨1, 1, .command 7, 30⟩ :=
    ⟨_, rfl, by decide, by decide⟩
  exact ⟨c, hc, logs_match (run_of_steps hc) h₀ h₁ rfl⟩

end NextgenDatabases.Lithoglyph.Distributed
