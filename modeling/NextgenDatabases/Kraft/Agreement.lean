import NextgenDatabases.Kraft.Proposals
import Mathlib.Data.Finset.Max

/-!
# The replicated registry

In the runs whose logs are sound the cluster behaves like one list of decided entries that only
grows: every node has applied a part of it from the front, and up to the clocks its registry is
the replay of that part.
-/
namespace NextgenDatabases.Kraft

open Raft Raft.History Foundations

variable {N : Type*} [DecidableEq N]

/-! ### What a registry holds besides clock readings -/

def Store.timeless (s : Store) : Store := { s with lastSeen := 0 }

def Mapping.timeless (m : Mapping) : Mapping := { m with created := 0, modified := 0 }

/-- The registries differ in clock readings only. -/
structure SameContent (r r' : Registry N) : Prop where
  stores : ∀ k, (r.stores.lookup k).map Store.timeless = (r'.stores.lookup k).map Store.timeless
  mappings : ∀ k,
    (r.mappings.lookup k).map Mapping.timeless = (r'.mappings.lookup k).map Mapping.timeless
  config : r.config = r'.config

omit [DecidableEq N] in
theorem SameContent.refl (r : Registry N) : SameContent r r := ⟨fun _ => rfl, fun _ => rfl, rfl⟩

omit [DecidableEq N] in
theorem SameContent.symm {r r' : Registry N} (h : SameContent r r') : SameContent r' r :=
  ⟨fun k => (h.stores k).symm, fun k => (h.mappings k).symm, h.config.symm⟩

omit [DecidableEq N] in
theorem SameContent.trans {r r' r'' : Registry N} (h : SameContent r r')
    (h' : SameContent r' r'') : SameContent r r'' :=
  ⟨fun k => (h.stores k).trans (h'.stores k), fun k => (h.mappings k).trans (h'.mappings k),
    h.config.trans h'.config⟩

theorem lookup_insert_map {α β : Type*} (f : α → β) {m m' : AList fun _ : String => α}
    (h : ∀ k, (m.lookup k).map f = (m'.lookup k).map f) (a : String) {x y : α} (hxy : f x = f y)
    (k : String) : ((m.insert a x).lookup k).map f = ((m'.insert a y).lookup k).map f := by
  by_cases hk : k = a
  · subst hk
    simp [AList.lookup_insert, hxy]
  · rw [AList.lookup_insert_ne hk, AList.lookup_insert_ne hk, h k]

theorem lookup_erase_map {α β : Type*} (f : α → β) {m m' : AList fun _ : String => α}
    (h : ∀ k, (m.lookup k).map f = (m'.lookup k).map f) (a k : String) :
    ((m.erase a).lookup k).map f = ((m'.erase a).lookup k).map f := by
  by_cases hk : k = a
  · subst hk
    simp [AList.lookup_erase]
  · rw [AList.lookup_erase_ne hk, AList.lookup_erase_ne hk, h k]

/-- A command has the same effect whatever the clock says. -/
theorem SameContent.apply {r r' : Registry N} (h : SameContent r r') (now now' : ℕ)
    (command : Command N) :
    SameContent (applyCommand now r command) (applyCommand now' r' command) := by
  cases command with
  | registerStore storeId endpoint modalities =>
    exact ⟨lookup_insert_map _ h.stores storeId rfl, h.mappings, h.config⟩
  | unregisterStore storeId => exact ⟨lookup_erase_map _ h.stores storeId, h.mappings, h.config⟩
  | mapOctad octadId locations =>
    exact ⟨h.stores, lookup_insert_map _ h.mappings octadId rfl, h.config⟩
  | unmapOctad octadId => exact ⟨h.stores, lookup_erase_map _ h.mappings octadId, h.config⟩
  | updateTrust storeId newTrust =>
    have hstore := h.stores storeId
    simp only [applyCommand]
    cases hr : r.stores.lookup storeId with
    | none =>
      have hr' : r'.stores.lookup storeId = none := by simpa [hr] using hstore.symm
      simpa only [hr'] using h
    | some store =>
      obtain ⟨store', hr', heq⟩ : ∃ store', r'.stores.lookup storeId = some store' ∧
          store'.timeless = store.timeless := by
        rw [hr] at hstore
        exact Option.map_eq_some_iff.mp hstore.symm
      simp only [hr']
      have hnew : Store.timeless { store with trustLevel := newTrust } =
          Store.timeless { store' with trustLevel := newTrust } := by
        simp only [Store.timeless, Store.mk.injEq] at heq ⊢
        grind
      exact ⟨lookup_insert_map _ h.stores storeId hnew, h.mappings, h.config⟩
  | addServer newNodeId peerList =>
    simp only [applyCommand, h.config]
    split_ifs
    · exact h
    · exact ⟨h.stores, h.mappings, rfl⟩
  | removeServer targetNodeId =>
    simp only [applyCommand, h.config]
    exact ⟨h.stores, h.mappings, rfl⟩
  | noop => exact h

/-- The registry after a list of entries, each applied when it was made. -/
def replay (entries : List (Entry N)) : Registry N :=
  entries.foldl (fun r e => applyCommand e.timestamp r e.command) (initialRegistry N)

theorem SameContent.foldl {r r' : Registry N} (h : SameContent r r') (now : ℕ)
    (entries : List (Entry N)) :
    SameContent (entries.foldl (fun r e => applyCommand now r e.command) r)
      (entries.foldl (fun r e => applyCommand e.timestamp r e.command) r') := by
  induction entries generalizing r r' with
  | nil => exact h
  | cons e entries ih => exact ih (h.apply now e.timestamp e.command)

/-! ### What a node has applied -/

/-- All that is committed is applied, and nothing else. -/
structure Applied (s : State N) : Prop where
  lastApplied : s.lastApplied = s.commitIndex
  content : SameContent s.registry (replay (s.log.take s.commitIndex))

theorem applyCommitted_registry (now : ℕ) {s : State N} (hlt : s.lastApplied < s.commitIndex) :
    (applyCommitted now s).1.lastApplied = s.commitIndex ∧
    (applyCommitted now s).1.registry =
      ((s.log.drop s.lastApplied).take (s.commitIndex - s.lastApplied)).foldl
        (fun r e => applyCommand now r e.command) s.registry := by
  unfold applyCommitted
  rw [if_neg (by omega)]
  simp only [ne_eq, not_true_eq_false, and_false, if_false, true_and]
  exact (List.foldl_hom Prod.fst fun _ _ => rfl).symm

/-- `apply_committed` catches up with the commit index. -/
theorem applied_applyCommitted (now : ℕ) {s : State N} (hle : s.lastApplied ≤ s.commitIndex)
    (hc : SameContent s.registry (replay (s.log.take s.lastApplied))) :
    Applied (applyCommitted now s).1 := by
  rcases Nat.lt_or_eq_of_le hle with hlt | heq
  · obtain ⟨hlast, hregistry⟩ := applyCommitted_registry now hlt
    obtain ⟨n, registry, peers, heq, -⟩ := applyCommitted_eq now s
    have hcommit : (applyCommitted now s).1.commitIndex = s.commitIndex := by rw [heq]
    have hlog : (applyCommitted now s).1.log = s.log := by rw [heq]
    have hsplit : s.log.take s.commitIndex = s.log.take s.lastApplied ++
        (s.log.drop s.lastApplied).take (s.commitIndex - s.lastApplied) := by
      rw [← List.take_add, Nat.add_sub_cancel' hle]
    refine ⟨hlast.trans hcommit.symm, ?_⟩
    rw [hregistry, hcommit, hlog, hsplit, replay, List.foldl_append]
    exact hc.foldl now _
  · have hsame : (applyCommitted now s).1 = s := by
      unfold applyCommitted
      rw [if_pos heq.ge]
    rw [hsame]
    exact ⟨heq, heq ▸ hc⟩

/-- Nothing is committed or applied, and the log only grows. -/
structure Idle (s s' : State N) : Prop where
  log : s.log <+: s'.log
  commitIndex : s'.commitIndex = s.commitIndex
  lastApplied : s'.lastApplied = s.lastApplied
  registry : s'.registry = s.registry

omit [DecidableEq N] in
theorem Idle.refl (s : State N) : Idle s s := ⟨List.prefix_rfl, rfl, rfl, rfl⟩

theorem Idle.applied {s s' : State N} (hidle : Idle s s') (h : Applied s)
    (hle : s.commitIndex ≤ s.log.length) : Applied s' := by
  obtain ⟨rest, hrest⟩ := hidle.log
  refine ⟨by rw [hidle.lastApplied, hidle.commitIndex, h.lastApplied], ?_⟩
  rw [hidle.registry, hidle.commitIndex, ← hrest, List.take_append_of_le_length hle]
  exact h.content

theorem idle_startElection (now : ℕ) (s : State N) : Idle s (startElection now s).1 := by
  unfold startElection
  dsimp only
  split_ifs
  · exact ⟨List.prefix_append _ _, rfl, rfl, rfl⟩
  · exact ⟨List.prefix_rfl, rfl, rfl, rfl⟩

omit [DecidableEq N] in
theorem idle_considerVote (s : State N) (r : VoteRequest N) : Idle s (considerVote s r).1 := by
  unfold considerVote
  split_ifs
  · exact ⟨List.prefix_rfl, rfl, rfl, rfl⟩
  · exact Idle.refl s

theorem idle_handleVoteRequest (s : State N) (r : VoteRequest N) :
    Idle s (handleVoteRequest s r).1 := by
  unfold handleVoteRequest
  dsimp only
  split_ifs
  · exact Idle.refl s
  · have hvote := idle_considerVote (stepDown s r.term).1 r
    exact ⟨hvote.log, hvote.commitIndex, hvote.lastApplied, hvote.registry⟩
  · exact idle_considerVote s r
  · exact Idle.refl s

theorem idle_handleVoteResponse (now : ℕ) (s : State N) (v : N) (r : VoteResponse) :
    Idle s (handleVoteResponse now s v r).1 := by
  unfold handleVoteResponse
  dsimp only
  split_ifs
  · exact ⟨List.prefix_rfl, rfl, rfl, rfl⟩
  · exact ⟨List.prefix_append _ _, rfl, rfl, rfl⟩
  · exact ⟨List.prefix_rfl, rfl, rfl, rfl⟩
  · exact Idle.refl s

/-! ### One callback -/

/-- Advancing the commit index, applying and replying. -/
theorem applied_settle (now : ℕ) {s : State N} (h : Applied s) :
    Applied (replyToPending (applyCommitted now (maybeAdvanceCommit s)).1).1 := by
  obtain ⟨remaining, hreply, -⟩ := replyToPending_eq (applyCommitted now (maybeAdvanceCommit s)).1
  have hafter : Applied (applyCommitted now (maybeAdvanceCommit s)).1 := by
    have hcontent : SameContent s.registry (replay (s.log.take s.lastApplied)) := by
      rw [h.lastApplied]
      exact h.content
    rcases maybeAdvanceCommit_cases s with heq | ⟨hlt, -, heq⟩
    · rw [heq]
      exact applied_applyCommitted now h.lastApplied.le hcontent
    · rw [heq]
      refine applied_applyCommitted now ?_ hcontent
      have hlast := h.lastApplied
      dsimp only
      omega
  rw [hreply]
  exact ⟨hafter.lastApplied, hafter.content⟩

theorem applied_receiveEntries (now : ℕ) {s : State N} {r : AppendEntriesRequest N}
    (h : Applied s) (hle : s.commitIndex ≤ s.log.length)
    (hdur : Durable s (receiveEntries now s r).1) : Applied (receiveEntries now s r).1 := by
  by_cases hok : prevOk s.log r = true
  · obtain ⟨hlog, hcommit⟩ := receiveEntries_log now hok
    obtain ⟨hmono, hkeep⟩ := hdur
    rw [hcommit] at hmono
    rw [hlog] at hkeep
    have hfst : (receiveEntries now s r).1 = (applyCommitted now
        { s with
          leaderId := some r.leaderId
          log := s.log.take r.prevLogIndex ++ r.entries
          commitIndex :=
            min r.leaderCommit (s.log.take r.prevLogIndex ++ r.entries).length }).1 := by
      simp [receiveEntries, hok]
    rw [hfst]
    apply applied_applyCommitted
    · rw [h.lastApplied]
      exact hmono
    · dsimp only
      rw [h.lastApplied, hkeep]
      exact h.content
  · have hidle : Idle s (receiveEntries now s r).1 := by
      unfold receiveEntries
      rw [if_neg hok]
      exact ⟨List.prefix_rfl, rfl, rfl, rfl⟩
    exact hidle.applied h hle

/-- A callback that loses nothing committed applies exactly what it commits. -/
theorem applied_handle {s : State N} (h : Applied s) (hle : s.commitIndex ≤ s.log.length)
    {i : Input N} (hdur : Durable s (handle s i).1) : Applied (handle s i).1 := by
  cases i with
  | electionTimeout now =>
    by_cases hlead : s.role = .leader
    · simpa only [handle, handleElectionTimeout, if_pos hlead] using h
    · simp only [handle, handleElectionTimeout, if_neg hlead]
      exact (idle_startElection now s).applied h hle
  | heartbeat =>
    have hsame : (handleHeartbeat s).1 = s := by
      unfold handleHeartbeat
      split_ifs <;> rfl
    simpa only [handle, hsame] using h
  | propose ref command now =>
    by_cases hlead : s.role = .leader
    · simp only [handle, handlePropose, if_pos hlead]
      apply applied_settle
      have hidle : Idle s { s with
          log := s.log ++ [newEntry now s command]
          pendingRequests := ((newEntry now s command).index, ref) :: s.pendingRequests } :=
        ⟨List.prefix_append _ _, rfl, rfl, rfl⟩
      exact hidle.applied h hle
    · simpa only [handle, handlePropose, if_neg hlead] using h
  | requestVote request => exact (idle_handleVoteRequest s request).applied h hle
  | voteResponse v response now => exact (idle_handleVoteResponse now s v response).applied h hle
  | appendEntries request now =>
    simp only [handle, handleAppendEntriesRpc] at hdur ⊢
    split_ifs at hdur ⊢
    · exact h
    · have hdown : Applied (stepDown s request.term).1 := ⟨h.lastApplied, h.content⟩
      exact applied_receiveEntries now hdown hle hdur
    · exact applied_receiveEntries now h hle hdur
  | appendEntriesResponse v response now =>
    simp only [handle, handleAeResponse]
    split_ifs
    · exact ⟨h.lastApplied, h.content⟩
    · exact applied_settle now ⟨h.lastApplied, h.content⟩
    · exact ⟨h.lastApplied, h.content⟩
    · exact h

/-! ### Runs with sound logs -/

section Runs

variable [Fintype N] {c₀ c c₁ c₂ : Cluster N} {h : History N (Entry N)}

theorem Refines.applied_step {c' : Cluster N} {e : Event N} (hr : Refines logDiscipline c h)
    (hok : SoundLogs c e) (hstep : c.step e = some c') (hc : ∀ p, Applied (c.node p)) :
    ∀ p, Applied (c'.node p) := by
  obtain ⟨h', ha⟩ := hr.step (d := logDiscipline) trivial hok.respects hstep
  obtain ⟨hnode, -⟩ := Cluster.step_spec hstep
  intro p
  by_cases hp : p = e.node
  · subst hp
    have hdur := ha.durable trivial e.node
    rw [hnode, Cluster.after_self] at hdur ⊢
    exact applied_handle (hc e.node) ((hr.node e.node).led trivial).commit_le hdur
  · rw [hnode, Cluster.after_of_ne c hp]
    exact hc p

/-- Every node has applied exactly what it has committed. -/
theorem Cluster.Initial.applied (hi : c₀.Initial) (r : Run Cluster.step SoundLogs c₀ c) (p : N) :
    Applied (c.node p) := by
  induction r generalizing p with
  | refl =>
    rw [hi.node_fresh p]
    exact ⟨rfl, SameContent.refl _⟩
  | tail r hnext ih =>
    obtain ⟨e, hok, hstep⟩ := hnext
    obtain ⟨h, hr⟩ := hi.soundLogs r
    exact hr.applied_step hok hstep ih p

theorem Refines.log_eq (hr : Refines logDiscipline c h) (p : N) : h.log p = (c.node p).log := by
  have hlog := (hr.node p).tracks.log
  rwa [hr.node_id] at hlog

theorem Refines.term_eq (hr : Refines logDiscipline c h) (p : N) :
    h.term p = (c.node p).currentTerm := by
  have hterm := (hr.node p).tracks.term
  rwa [hr.node_id] at hterm

/-- Of what two nodes have committed, one is a part of the other. -/
theorem Refines.committed_total (hr : Refines logDiscipline c h) (p q : N) :
    (c.node p).log.take (c.node p).commitIndex <+: (c.node q).log.take (c.node q).commitIndex ∨
    (c.node q).log.take (c.node q).commitIndex <+: (c.node p).log.take (c.node p).commitIndex :=
  ((hr.node p).led trivial).settled.total hr.hist.coherent (hr.hist.kept trivial)
    ((hr.node q).led trivial).settled

theorem Refines.committed_prefix (hr : Refines logDiscipline c h) {p q : N}
    (hle : (c.node p).commitIndex ≤ (c.node q).commitIndex) :
    (c.node p).log.take (c.node p).commitIndex =
      ((c.node q).log.take (c.node q).commitIndex).take (c.node p).commitIndex := by
  have hp := ((hr.node p).led trivial).commit_le
  have hq := ((hr.node q).led trivial).commit_le
  rcases hr.committed_total p q with hpre | hpre
  · rw [List.prefix_iff_eq_take, List.length_take_of_le hp] at hpre
    exact hpre
  · have hlen := hpre.length_le
    rw [List.length_take_of_le hp, List.length_take_of_le hq] at hlen
    have heq := hpre.eq_of_length
      (by rw [List.length_take_of_le hp, List.length_take_of_le hq]; omega)
    rw [heq, List.take_take, min_self]

/-! ### One list of decided entries -/

/-- What the cluster is for: one list of entries, of which every replica has seen a part. -/
structure Service (N : Type*) where
  decided : List (Entry N)
  seen : N → ℕ
  seen_le : ∀ p, seen p ≤ decided.length

/-- Nothing that is decided changes, and no replica goes back. -/
def Service.Grows (S S' : Service N) : Prop :=
  S.decided <+: S'.decided ∧ ∀ p, S.seen p ≤ S'.seen p

/-- The registry of a replica that has seen its part. -/
def Service.registry (S : Service N) (p : N) : Registry N := replay (S.decided.take (S.seen p))

/-- The nodes have committed and applied what the replicas have seen, and nothing is decided that
no node has committed. -/
structure Represents (c : Cluster N) (S : Service N) : Prop where
  commitIndex : ∀ p, (c.node p).commitIndex = S.seen p
  lastApplied : ∀ p, (c.node p).lastApplied = S.seen p
  log : ∀ p, (c.node p).log.take (S.seen p) = S.decided.take (S.seen p)
  registry : ∀ p, SameContent (c.node p).registry (S.registry p)
  tight : S.decided = [] ∨ ∃ p, S.seen p = S.decided.length

theorem exists_represents (hi : c₀.Initial) (r : Run Cluster.step SoundLogs c₀ c) :
    ∃ S, Represents c S := by
  obtain ⟨h, hr⟩ := hi.soundLogs r
  have happlied := hi.applied r
  rcases isEmpty_or_nonempty N with hempty | hnonempty
  · exact ⟨⟨[], fun _ => 0, fun _ => le_rfl⟩, fun p => hempty.elim p, fun p => hempty.elim p,
      fun p => hempty.elim p, fun p => hempty.elim p, Or.inl rfl⟩
  · obtain ⟨m, -, hm⟩ := Finset.exists_max_image Finset.univ (fun p => (c.node p).commitIndex)
      Finset.univ_nonempty
    have hlen : ((c.node m).log.take (c.node m).commitIndex).length = (c.node m).commitIndex :=
      List.length_take_of_le ((hr.node m).led trivial).commit_le
    have hlog : ∀ p, (c.node p).log.take (c.node p).commitIndex =
        ((c.node m).log.take (c.node m).commitIndex).take (c.node p).commitIndex :=
      fun p => hr.committed_prefix (hm p (Finset.mem_univ p))
    let S : Service N :=
      { decided := (c.node m).log.take (c.node m).commitIndex
        seen := fun p => (c.node p).commitIndex
        seen_le := fun p => (hm p (Finset.mem_univ p)).trans hlen.ge }
    refine ⟨S, fun p => rfl, fun p => (happlied p).lastApplied, hlog, fun p => ?_,
      Or.inr ⟨m, hlen.symm⟩⟩
    have hcontent := (happlied p).content
    rwa [hlog p] at hcontent

/-- The cluster refines the service: what is decided in one state of a run is decided in every
later state, and up to the clocks every registry is the replay of what its node has seen. -/
theorem cluster_refines_service (hi : c₀.Initial) (r₁ : Run Cluster.step SoundLogs c₀ c₁)
    (r₂ : Run Cluster.step SoundLogs c₁ c₂) :
    ∃ S₁ S₂, Represents c₁ S₁ ∧ Represents c₂ S₂ ∧ S₁.Grows S₂ := by
  obtain ⟨S₁, hS₁⟩ := exists_represents hi r₁
  obtain ⟨S₂, hS₂⟩ := exists_represents hi (r₁.trans r₂)
  obtain ⟨h₁, hr₁⟩ := hi.soundLogs r₁
  obtain ⟨h₂, ha⟩ := hr₁.run (d := logDiscipline) trivial (r₂.mono fun _ _ he => he.respects)
  have hseen : ∀ p, S₁.seen p ≤ S₂.seen p := by
    intro p
    rw [← hS₁.commitIndex, ← hS₂.commitIndex]
    exact (ha.durable trivial p).1
  refine ⟨S₁, S₂, hS₁, hS₂, ?_, hseen⟩
  rcases hS₁.tight with hnil | ⟨p, hp⟩
  · rw [hnil]
    exact List.nil_prefix
  · have hkeep := (ha.durable trivial p).2
    rw [hS₁.commitIndex, hS₁.log, hp, List.take_length] at hkeep
    have hlog := congrArg (List.take S₁.decided.length) (hS₂.log p)
    rw [List.take_take, List.take_take, min_eq_left (hp ▸ hseen p), hkeep] at hlog
    rw [hlog]
    exact List.take_prefix _ _

/-- Nodes 0 and 1 have both seen two entries of the run `committedByTwo`. -/
theorem cluster_refines_service_committedByTwo : ∃ (c : Cluster (Fin 3)) (S : Service (Fin 3)),
    Represents c S ∧ S.seen 0 = 2 ∧ S.seen 1 = 2 ∧ S.seen 2 = 0 := by
  obtain ⟨c, h, h0, h1, h2⟩ : ∃ c,
      exec (guarded SoundLogs Cluster.step) (started 3) committedByTwo = some c ∧
      (c.node 0).commitIndex = 2 ∧ (c.node 1).commitIndex = 2 ∧ (c.node 2).commitIndex = 0 :=
    ⟨_, rfl, by decide, by decide, by decide⟩
  obtain ⟨-, S, -, hS, -⟩ :=
    cluster_refines_service (started_initial 3) (.refl) (run_of_exec h)
  exact ⟨c, S, hS, by rw [← hS.commitIndex, h0], by rw [← hS.commitIndex, h1],
    by rw [← hS.commitIndex, h2]⟩

/-! ### Leaders have what is committed -/

/-- What a node has committed is in the log of every leader of its term or a later one, then and
in every later state. -/
theorem committed_in_leaders (hi : c₀.Initial) (r₁ : Run Cluster.step SoundLogs c₀ c₁)
    (r₂ : Run Cluster.step SoundLogs c₁ c₂) (p q : N) (hlead : (c₂.node q).role = .leader)
    (hterm : (c₁.node p).currentTerm ≤ (c₂.node q).currentTerm) :
    (c₁.node p).log.take (c₁.node p).commitIndex <+: (c₂.node q).log := by
  obtain ⟨h₁, hr₁⟩ := hi.soundLogs r₁
  obtain ⟨h₂, ha⟩ := hr₁.run (d := logDiscipline) trivial (r₂.mono fun _ _ he => he.respects)
  have hsettled := ((hr₁.node p).led trivial).settled.mono ha.grow hterm
  exact hsettled.prefix_leader ha.refines.hist.coherent (ha.refines.hist.kept trivial) le_rfl
    ((ha.refines.node q).tracks.leader hlead)

/-! ### Acknowledged calls -/

omit [Fintype N] [DecidableEq N] in
/-- A prefix is settled in every term that no node is beyond. -/
theorem settled_of_terms {qs : QuorumSystem N} {h : History N (Entry N)} (hc : Coherent h)
    {t u : ℕ} {l : List (Entry N)} (hs : Settled qs h t l) (hu : ∀ p, h.term p ≤ u) :
    Settled qs h u l := by
  rcases hs with rfl | ⟨w, P, -, hP, hpre⟩
  · exact Or.inl rfl
  · obtain ⟨-, -, p, L, hL, -⟩ := hP.1
    exact Or.inr ⟨w, P, (hc.leader_le hL).trans (hu p), hP, hpre⟩

/-- A settled entry is in its place on every node that has committed as much. -/
theorem Refines.settled_entry (hr : Refines logDiscipline c h) {t i : ℕ} {l : List (Entry N)}
    {entry : Entry N} (hs : Settled (majority Finset.univ) h t l) (hi : l[i]? = some entry) {p : N}
    (hle : i < (c.node p).commitIndex) : (c.node p).log[i]? = some entry := by
  have hled := (hr.node p).led trivial
  have hci := hled.commit_le
  rcases hled.settled.total hr.hist.coherent (hr.hist.kept trivial) hs with hpre | hpre
  · obtain ⟨x, hx⟩ : ∃ x, ((c.node p).log.take (c.node p).commitIndex)[i]? = some x :=
      ⟨_, List.getElem?_eq_getElem (by rw [List.length_take_of_le hci]; exact hle)⟩
    have hxe : x = entry := Option.some.inj ((getElem?_of_isPrefix hpre hx).symm.trans hi)
    exact getElem?_of_isPrefix (List.take_prefix _ _) (hxe ▸ hx)
  · exact getElem?_of_isPrefix (List.take_prefix _ _) (getElem?_of_isPrefix hpre hi)

/-- A call that has been answered with an index keeps its place: from then on its command stands
at the index on every node that commits it, and in the log of every leader whose term no node had
passed when the answer was given. -/
theorem acknowledged_stays (hi : c₀.Initial) (r₁ : Run Cluster.step SoundAnswers c₀ c₁) {ref i : ℕ}
    (hok : (ref, Reply.ok i) ∈ c₁.replies) :
    ∃ entry, (ref, entry.command) ∈ c₁.calls ∧ ∀ c₂, Run Cluster.step SoundLogs c₁ c₂ →
      (∀ p, i ≤ (c₂.node p).commitIndex → (c₂.node p).log[i - 1]? = some entry) ∧
      ∀ q, (c₂.node q).role = .leader →
        (∀ p, (c₁.node p).currentTerm ≤ (c₂.node q).currentTerm) →
        (c₂.node q).log[i - 1]? = some entry := by
  obtain ⟨h₁, hr₁, hdecided⟩ := decided_of_replies hi r₁
  obtain ⟨t, l, hsettled, hpos, entry, he, hcall⟩ := hdecided ref i hok
  dsimp only at hpos he hcall
  refine ⟨entry, hcall, fun c₂ r₂ => ?_⟩
  obtain ⟨h₂, ha⟩ := hr₁.run (d := logDiscipline) trivial (r₂.mono fun _ _ he => he.respects)
  constructor
  · intro p hle
    exact ha.refines.settled_entry (hsettled.mono ha.grow le_rfl) he (by omega)
  · intro q hlead hterms
    have hall : ∀ p, h₁.term p ≤ (c₂.node q).currentTerm := fun p => hr₁.term_eq p ▸ hterms p
    have hlate := (settled_of_terms hr₁.hist.coherent hsettled hall).mono ha.grow le_rfl
    have hpre := hlate.prefix_leader ha.refines.hist.coherent (ha.refines.hist.kept trivial) le_rfl
      ((ha.refines.node q).tracks.leader hlead)
    exact getElem?_of_isPrefix hpre he

end Runs

/-- Node 0 leads with its two committed entries, node 1 has learnt of them. -/
theorem committed_in_leaders_committedByTwo : ∃ c : Cluster (Fin 3),
    (c.node 1).commitIndex = 2 ∧ (c.node 1).log.take 2 <+: (c.node 0).log := by
  obtain ⟨c, h, hcommit, hlead, hterm⟩ : ∃ c,
      exec (guarded SoundLogs Cluster.step) (started 3) committedByTwo = some c ∧
      (c.node 1).commitIndex = 2 ∧ (c.node 0).role = .leader ∧
      (c.node 1).currentTerm ≤ (c.node 0).currentTerm :=
    ⟨_, rfl, by decide, by decide, by decide⟩
  have hprefix := committed_in_leaders (started_initial 3) (run_of_exec h) .refl 1 0 hlead hterm
  rw [hcommit] at hprefix
  exact ⟨c, hcommit, hprefix⟩

/-- The call 7 of the run `replicated` keeps index 2. -/
theorem acknowledged_stays_replicatedAck : ∃ (c : Cluster (Fin 3)) (entry : Entry (Fin 3)),
    (7, Reply.ok 2) ∈ c.replies ∧ (7, entry.command) ∈ c.calls ∧
    (c.node 0).log[1]? = some entry := by
  obtain ⟨c, h, hreply, hcommit⟩ : ∃ c,
      exec (guarded SoundAnswers Cluster.step) (started 3) (replicated ++ [replicatedAck]) = some c ∧
      (7, Reply.ok 2) ∈ c.replies ∧ 2 ≤ (c.node 0).commitIndex :=
    ⟨_, rfl, by decide, by decide⟩
  obtain ⟨entry, hcall, hlater⟩ :=
    acknowledged_stays (started_initial 3) (run_of_exec h) hreply
  exact ⟨c, entry, hreply, hcall, (hlater c .refl).1 0 hcommit⟩

end NextgenDatabases.Kraft
