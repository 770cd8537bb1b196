import NextgenDatabases.Kraft.Restart

/-!
# What recovery finds

Between two messages the directory of a node recovers to its term, its vote and
its log above the snapshot.
-/
namespace NextgenDatabases.Kraft

open Foundations

variable {N : Type*} [DecidableEq N]

variable {s₀ s s' : State N} {i : Input N} {fx : List (Effect N)} {d : Directory N}

/-- No leader is asked for a membership change. -/
def PlainProposal (s : State N) : Input N → Prop
  | .propose _ command _ => s.role = .leader → ¬ command.IsMembership
  | _ => True

/-- A request brings no membership change. -/
def Input.PlainEntries (i : Input N) : Prop :=
  ∀ r now, i = .appendEntries r now → ∀ e ∈ r.entries, ¬ e.command.IsMembership

/-! ### Membership changes in logs -/

theorem Move.plain_log (h : Move s₀ i s s' fx) (hproposal : PlainProposal s₀ i)
    (hentries : i.PlainEntries) (hlog : ∀ e ∈ s.log, ¬ e.command.IsMembership) :
    (∀ e ∈ s'.log, ¬ e.command.IsMembership) ∧
      ∀ dest r, .appendEntries dest r ∈ sends fx → ∀ e ∈ r.entries, ¬ e.command.IsMembership := by
  cases h with
  | quiet hsame hplain =>
    refine ⟨hsame.log ▸ hlog, fun dest r hm => ?_⟩
    exact absurd (hplain _ (mem_sends.mp hm)) id
  | persist hsame hvote => exact ⟨hsame.log ▸ hlog, by simp⟩
  | append now command happends hcommand =>
    have hplain : ¬ command.IsMembership := by
      rcases hcommand with rfl | ⟨ref, now', rfl⟩
      · exact id
      · exact hproposal happends
    refine ⟨fun e he => ?_, by simp⟩
    rcases List.mem_append.mp he with he | he
    · exact hlog e he
    · rw [List.mem_singleton.mp he]
      exact hplain
  | replicate =>
    refine ⟨hlog, fun dest r hm e he => ?_⟩
    obtain ⟨peer, -, heq⟩ := mem_sends_sendAppendEntries.mp hm
    cases heq
    exact hlog e (List.mem_of_mem_drop he)
  | @receive r now heq haccepted hsame happlied =>
    refine ⟨fun e he => ?_, by simp [sends_received]⟩
    rcases List.mem_append.mp he with he | he
    · exact hlog e (List.mem_of_mem_take he)
    · exact hentries r now heq e he
  | advance hn => exact ⟨hlog, by simp⟩
  | apply hlt hpeers => exact ⟨hlog, by simp [sends_maybeTriggerSnapshot]⟩

theorem Moves.plain_log (h : Moves s₀ i s fx) (hproposal : PlainProposal s₀ i)
    (hentries : i.PlainEntries) (hlog : ∀ e ∈ s₀.log, ¬ e.command.IsMembership) :
    (∀ e ∈ s.log, ¬ e.command.IsMembership) ∧
      ∀ dest r, .appendEntries dest r ∈ sends fx → ∀ e ∈ r.entries, ¬ e.command.IsMembership := by
  induction h with
  | refl => exact ⟨hlog, by simp⟩
  | tail _ hmove ih =>
    obtain ⟨hnext, hsends⟩ := hmove.plain_log hproposal hentries ih.1
    refine ⟨hnext, fun dest r hm => ?_⟩
    rw [sends_append, List.mem_append] at hm
    exact hm.elim (ih.2 dest r) (hsends dest r)

/-! ### Whole lines -/

omit [DecidableEq N] in
theorem rest_act (hrest : d.log.rest = none) (x : Deed N) : (d.act x).log.rest = none := by
  cases x with
  | write w =>
    cases w with
    | state _ _ | snapshot _ => exact hrest
    | append maps => exact LogFile.append_rest hrest
    | truncateAfter _ | truncateWal _ => exact LogFile.append_rest rfl
  | send _ | reply _ _ => exact hrest

omit [DecidableEq N] in
/-- Without a crash no line is torn. -/
theorem rest_perform (hrest : d.log.rest = none) (fx : List (Effect N)) :
    (d.perform fx).log.rest = none :=
  List.foldlRecOn (motive := fun d => d.log.rest = none) (deeds fx) Directory.act hrest
    fun _ h x _ => rest_act h x

/-! ### Runs without a crash -/

namespace Site

variable {x y : Site N}

/-- The conditions for the log file to follow the log. -/
def Mirrorable (x : Site N) : Incident N → Prop
  | .handled e => KeepsTail (x.cluster.node e.node) (x.disk e.node) e.input ∧
      PlainProposal (x.cluster.node e.node) e.input
  | .crashed _ _ _ _ | .restarted _ _ => False

structure Faithful (x : Site N) : Prop where
  numbered : x.cluster.Numbered
  plain_logs : ∀ p, ∀ e ∈ (x.cluster.node p).log, ¬ e.command.IsMembership
  plain_requests : ∀ dest r, .appendEntries dest r ∈ x.cluster.sent →
    ∀ e ∈ r.entries, ¬ e.command.IsMembership
  mirrors : ∀ p, (x.cluster.node p).walPath ≠ none → Mirrors (x.cluster.node p) (x.disk p)
  lines : ∀ p, (x.disk p).log.rest = none

omit [DecidableEq N] in
theorem Faithful.plain_event (h : x.Faithful) {e : Event N}
    (hdeliver : ∀ m now, e = .deliver m now → m ∈ x.cluster.sent) : e.input.PlainEntries := by
  intro r now heq
  cases e with
  | deliver m now =>
    cases m with
    | appendEntries dest r' =>
      cases heq
      exact h.plain_requests dest r (hdeliver _ _ rfl)
    | requestVote _ _ | voteResponse _ _ _ | appendEntriesResponse _ _ _ => cases heq
  | electionTimeout _ _ | heartbeat _ | propose _ _ _ _ => cases heq

theorem Faithful.handled (h : x.Faithful) {e : Event N} (hstep : x.Handles e y)
    (htail : KeepsTail (x.cluster.node e.node) (x.disk e.node) e.input)
    (hproposal : PlainProposal (x.cluster.node e.node) e.input) : y.Faithful := by
  have hmoves := handle_moves (x.cluster.node e.node) e.input
  have hplain := hmoves.plain_log hproposal (h.plain_event hstep.deliver) (h.plain_logs e.node)
  constructor
  · exact hstep.numbered h.numbered
  · intro q
    by_cases hq : q = e.node
    · subst hq
      rw [hstep.node]
      exact hplain.1
    · rw [hstep.node_of_ne q hq]
      exact h.plain_logs q
  · intro dest r hm
    rw [hstep.sent] at hm
    exact (List.mem_append.mp hm).elim (h.plain_requests dest r) (hplain.2 dest r)
  · intro q hpath
    by_cases hq : q = e.node
    · subst hq
      rw [hstep.node, hmoves.walPath] at hpath
      obtain ⟨path, hw⟩ := Option.ne_none_iff_exists'.mp hpath
      rw [hstep.node, hstep.disk]
      exact (hmoves.kept (h.mirrors _ hpath) hw (h.numbered.event hstep.deliver)
        (fun _ => h.lines _) htail).mirrors
    · rw [hstep.node_of_ne q hq] at hpath ⊢
      rw [hstep.disk_of_ne q hq]
      exact h.mirrors q hpath
  · intro q
    by_cases hq : q = e.node
    · subst hq
      rw [hstep.disk]
      exact rest_perform (h.lines _) _
    · rw [hstep.disk_of_ne q hq]
      exact h.lines q

theorem Faithful.step (h : x.Faithful) {i : Incident N} (hok : x.Mirrorable i)
    (hstep : x.step i = some y) : y.Faithful := by
  cases i with
  | handled e => exact h.handled (step_handled hstep) hok.1 hok.2
  | crashed _ _ _ _ | restarted _ _ => exact hok.elim

omit [DecidableEq N] in
theorem Fresh.faithful (h : x.Fresh) : x.Faithful where
  numbered := h.booted.numbered
  plain_logs p e he := by
    rw [h.booted.node_fresh p] at he
    cases he
  plain_requests dest r hm := by simp [h.booted.sent_nil] at hm
  mirrors p _ := by
    rw [h.booted.node_fresh p, h.disk_empty p]
    exact ⟨rfl, numberedFrom_nil 0, le_rfl, Directory.holds_empty⟩
  lines p := by
    rw [h.disk_empty p]
    rfl

end Site

omit [DecidableEq N] in
/-- Without membership changes the log is read back as it is. -/
theorem Mirrors.recoverLog (h : Mirrors s d) (hplain : ∀ e ∈ s.log, ¬ e.command.IsMembership) :
    d.recoverLog d.snapshotIndex = s.log.filter fun e => d.snapshotIndex < e.index := by
  have hstored : ∀ e ∈ s.log.filter (fun e => d.snapshotIndex < e.index), e.stored = e :=
    fun e he => (stored_eq_iff e).mpr (hplain e (List.mem_of_mem_filter he))
  rw [h.holds, List.map_congr_left hstored, List.map_id']

/-- Between two messages the directory recovers to what the node has in memory: as
long as no request cuts the log without the file and no leader takes a membership
change. -/
theorem wal_mirrors {x₀ x : Site N} (h₀ : x₀.Fresh) (r : Run Site.step Site.Mirrorable x₀ x)
    {p : N} (hpath : (x.cluster.node p).walPath ≠ none) :
    ∃ recovered, recover (x.cluster.node p).walPath (x.disk p) = some recovered ∧
      recovered.currentTerm = (x.cluster.node p).currentTerm ∧
      recovered.votedFor = (x.cluster.node p).votedFor ∧
      recovered.log =
        (x.cluster.node p).log.filter fun e => recovered.snapshotIndex < e.index := by
  have hfaithful : x.Faithful :=
    r.invariant (fun _ _ _ h hok hstep => h.step hok hstep) h₀.faithful
  have hmirrors := hfaithful.mirrors p hpath
  obtain ⟨path, hw⟩ := Option.ne_none_iff_exists'.mp hpath
  rw [hw]
  exact ⟨_, rfl, congrArg Prod.fst hmirrors.state, congrArg Prod.snd hmirrors.state,
    hmirrors.recoverLog (hfaithful.plain_logs p)⟩

/-- Nothing but messages, timers and clients. -/
def Site.Handled (_ : Site N) : Incident N → Prop
  | .handled _ => True
  | .crashed _ _ _ _ | .restarted _ _ => False

instance (x : Site N) : DecidablePred x.Handled
  | .handled _ => isTrue trivial
  | .crashed _ _ _ _ | .restarted _ _ => isFalse id

/-- A heartbeat from before the second entry reaches node 1 after that entry. -/
def lateHeartbeat : List (Incident (Fin 2)) :=
  let noop (index : ℕ) : Entry (Fin 2) :=
    { term := 1, index := index, command := .noop, timestamp := 0 }
  let request (prevLogIndex prevLogTerm leaderCommit : ℕ) (entries : List (Entry (Fin 2))) :
      AppendEntriesRequest (Fin 2) :=
    { term := 1
      leaderId := 0
      prevLogIndex := prevLogIndex
      prevLogTerm := prevLogTerm
      entries := entries
      leaderCommit := leaderCommit }
  [.electionTimeout 0 0,
    .deliver (.requestVote 1
      { term := 1, candidateId := 0, lastLogIndex := 0, lastLogTerm := 0 }) 0,
    .deliver (.voteResponse 0 1 { term := 1, voteGranted := true }) 0,
    .deliver (.appendEntries 1 (request 0 0 0 [noop 1])) 0,
    .deliver (.appendEntriesResponse 0 1 { term := 1, success := true, matchIndex := 1 }) 0,
    .heartbeat 0,
    .propose 0 0 .noop 0,
    .deliver (.appendEntries 1 (request 1 1 1 [noop 2])) 0,
    .deliver (.appendEntries 1 (request 1 1 1 [])) 0].map .handled

instance (s : State N) (d : Directory N) : DecidablePred (KeepsTail s d)
  | .appendEntries r _ => inferInstanceAs (Decidable (s.walPath ≠ none → Accepted s r →
      r.entries = [] → s.log.length ≤ r.prevLogIndex ∨ s.log.length ≤ d.snapshotIndex))
  | .electionTimeout _ | .heartbeat | .propose _ _ _ => isTrue trivial
  | .requestVote _ | .voteResponse _ _ _ | .appendEntriesResponse _ _ _ => isTrue trivial

omit [DecidableEq N] in
instance (s : State N) : DecidablePred (PlainProposal s)
  | .propose _ command _ => inferInstanceAs (Decidable (s.role = .leader → ¬ command.IsMembership))
  | .electionTimeout _ | .heartbeat | .appendEntries _ _ => isTrue trivial
  | .requestVote _ | .voteResponse _ _ _ | .appendEntriesResponse _ _ _ => isTrue trivial

instance (x : Site N) : DecidablePred x.Mirrorable
  | .handled _ => inferInstanceAs (Decidable (_ ∧ _))
  | .crashed _ _ _ _ | .restarted _ _ => isFalse id

/-- Without the late heartbeat, and with one that is sent after the second entry. -/
def timelyHeartbeat : List (Incident (Fin 2)) :=
  lateHeartbeat.dropLast ++
    [.handled (.deliver (.appendEntriesResponse 0 1
        { term := 1, success := true, matchIndex := 2 }) 0),
      .handled (.heartbeat 0),
      .handled (.deliver (.appendEntries 1
        { term := 1
          leaderId := 0
          prevLogIndex := 2
          prevLogTerm := 1
          entries := []
          leaderCommit := 2 }) 0)]

/-- The follower recovers both entries. -/
theorem wal_mirrors_timelyHeartbeat : ∃ x,
    exec (guarded Site.Mirrorable Site.step) (Site.started 2) timelyHeartbeat = some x ∧
    (x.cluster.node 1).log.length = 2 ∧ (x.cluster.node 1).commitIndex = 2 ∧
    ∃ recovered, recover (x.cluster.node 1).walPath (x.disk 1) = some recovered ∧
      recovered.currentTerm = (x.cluster.node 1).currentTerm ∧
      recovered.votedFor = (x.cluster.node 1).votedFor ∧
      recovered.log =
        (x.cluster.node 1).log.filter fun e => recovered.snapshotIndex < e.index := by
  obtain ⟨x, hx, hlog, hcommit, hpath⟩ : ∃ x,
      exec (guarded Site.Mirrorable Site.step) (Site.started 2) timelyHeartbeat = some x ∧
        (x.cluster.node 1).log.length = 2 ∧ (x.cluster.node 1).commitIndex = 2 ∧
        (x.cluster.node 1).walPath = some "wal" :=
    ⟨_, rfl, rfl, rfl, rfl⟩
  exact ⟨x, hx, hlog, hcommit,
    wal_mirrors (Site.started_fresh 2) (run_of_exec hx) (by simp [hpath])⟩

/-- The file of node 1 keeps the entry that its log has lost. -/
theorem wal_ahead_of_log : ¬ ∀ x₀ x : Site (Fin 2), x₀.Fresh →
    Run Site.step Site.Handled x₀ x → ∀ p, (x.cluster.node p).walPath ≠ none →
      ∃ recovered, recover (x.cluster.node p).walPath (x.disk p) = some recovered ∧
        recovered.currentTerm = (x.cluster.node p).currentTerm ∧
        recovered.votedFor = (x.cluster.node p).votedFor ∧
        (recovered.log.map fun e => (e.index, e.term, e.command)) =
          ((x.cluster.node p).log.filter fun e => recovered.snapshotIndex < e.index).map
            fun e => (e.index, e.term, e.command) := by
  intro hall
  obtain ⟨x, hx, hpath, hfile, hsnapshot, hlog⟩ : ∃ x,
      exec (guarded Site.Handled Site.step) (Site.started 2) lateHeartbeat = some x ∧
        (x.cluster.node 1).walPath = some "wal" ∧ ((x.disk 1).recoverLog 0).length = 2 ∧
        (x.disk 1).snapshotIndex = 0 ∧ (x.cluster.node 1).log.length = 1 :=
    ⟨_, rfl, rfl, rfl, rfl, rfl⟩
  obtain ⟨recovered, hrecover, -, -, hsame⟩ :=
    hall _ x (Site.started_fresh 2) (run_of_exec hx) 1 (by simp [hpath])
  have hrecovered : recovered.log = (x.disk 1).recoverLog (x.disk 1).snapshotIndex := by
    rw [hpath] at hrecover
    cases hrecover
    rfl
  have hlength := congrArg List.length hsame
  rw [hrecovered, hsnapshot, List.length_map, List.length_map, hfile] at hlength
  have hle := List.length_filter_le (fun e => decide (recovered.snapshotIndex < e.index))
    (x.cluster.node 1).log
  omega

end NextgenDatabases.Kraft
