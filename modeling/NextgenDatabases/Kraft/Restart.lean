import NextgenDatabases.Kraft.Mirror

/-!
# Crashes and restarts

The cluster with the directories of its nodes. A node may stop at any point of a
callback, even in the middle of a write, and starts again from its directory.
-/
namespace NextgenDatabases.Kraft

open Foundations

variable {N : Type*}

/-! ### Sites -/

structure Site (N : Type*) where
  cluster : Cluster N
  disk : N → Directory N
  /-- The nodes that run. -/
  up : N → Bool

inductive Incident (N : Type*) where
  | handled (e : Event N)
  /-- The node stops after `done` deeds or in the middle of the next one. -/
  | crashed (e : Event N) (done n : ℕ) (cut : Cut)
  | restarted (p : N) (peers : List N)

/-- The messages that got out. -/
def sentBy (ds : List (Deed N)) : List (Message N) :=
  ds.filterMap fun
    | .send m => some m
    | _ => none

/-- The answers that got out. -/
def answeredBy (ds : List (Deed N)) : List (CallRef × Reply N) :=
  ds.filterMap fun
    | .reply ref answer => some (ref, answer)
    | _ => none

theorem mem_sends_of_mem_sentBy {fx : List (Effect N)} {m : Message N} {done : ℕ}
    (h : m ∈ sentBy ((deeds fx).take done)) : m ∈ sends fx := by
  obtain ⟨x, hx, heq⟩ := List.mem_filterMap.mp h
  obtain ⟨f, hf, hxf⟩ := List.mem_flatMap.mp (List.mem_of_mem_take hx)
  cases x with
  | write _ | reply _ _ => cases heq
  | send m' =>
    cases heq
    cases f with
    | wal walPath op => cases walPath <;> simp [Effect.deeds] at hxf
    | send _ =>
      cases List.mem_singleton.mp hxf
      exact mem_sends.mpr hf
    | reply _ _ => cases List.mem_singleton.mp hxf

namespace Site

variable [DecidableEq N]

/-- What the node of an event does in it. -/
def effects (x : Site N) (e : Event N) : List (Effect N) :=
  (handle (x.cluster.node e.node) e.input).2

def step (x : Site N) : Incident N → Option (Site N)
  | .handled e =>
    if x.up e.node then
      (x.cluster.step e).map fun c =>
        { x with
          cluster := c
          disk := Function.update x.disk e.node ((x.disk e.node).perform (x.effects e)) }
    else none
  | .crashed e done n cut =>
    if x.up e.node then
      (x.cluster.step e).map fun c =>
        { cluster :=
            { c with
              node := x.cluster.node
              sent := x.cluster.sent ++ sentBy ((deeds (x.effects e)).take done)
              replies := x.cluster.replies ++ answeredBy ((deeds (x.effects e)).take done) }
          disk := Function.update x.disk e.node
            ((x.disk e.node).crashed (x.effects e) done n cut)
          up := Function.update x.up e.node false }
    else none
  | .restarted p peers =>
    some { x with
      cluster :=
        { x.cluster with
          node := Function.update x.cluster.node p
            (State.init p peers (x.cluster.node p).walPath (x.disk p)) }
      up := Function.update x.up p true }

/-- Every node has just been started on an empty directory. -/
structure Fresh (x : Site N) : Prop where
  booted : x.cluster.Booted
  disk_empty : ∀ p, x.disk p = .empty N
  up : ∀ p, x.up p = true

/-- What the event changes when the node handles it to its end. -/
structure Handles (x : Site N) (e : Event N) (y : Site N) : Prop where
  runs : x.up e.node = true
  up : y.up = x.up
  node : y.cluster.node e.node = (handle (x.cluster.node e.node) e.input).1
  node_of_ne : ∀ q, q ≠ e.node → y.cluster.node q = x.cluster.node q
  disk : y.disk e.node = (x.disk e.node).perform (x.effects e)
  disk_of_ne : ∀ q, q ≠ e.node → y.disk q = x.disk q
  sent : y.cluster.sent = x.cluster.sent ++ sends (x.effects e)
  deliver : ∀ m now, e = .deliver m now → m ∈ x.cluster.sent

/-- What it changes when the node stops in the middle. -/
structure Stops (x : Site N) (e : Event N) (done n : ℕ) (cut : Cut) (y : Site N) : Prop where
  runs : x.up e.node = true
  up : y.up = Function.update x.up e.node false
  node : y.cluster.node = x.cluster.node
  disk : y.disk e.node = (x.disk e.node).crashed (x.effects e) done n cut
  disk_of_ne : ∀ q, q ≠ e.node → y.disk q = x.disk q
  sent : y.cluster.sent = x.cluster.sent ++ sentBy ((deeds (x.effects e)).take done)
  deliver : ∀ m now, e = .deliver m now → m ∈ x.cluster.sent

variable {x y : Site N} {e : Event N}

theorem step_handled (h : x.step (.handled e) = some y) : x.Handles e y := by
  simp only [step] at h
  split_ifs at h with hup
  obtain ⟨c, hc, rfl⟩ := Option.map_eq_some_iff.mp h
  obtain ⟨hnode, hsent, hdeliver⟩ := Cluster.step_spec hc
  exact
    { runs := hup
      up := rfl
      node := hnode ▸ x.cluster.after_self e.node e.input
      node_of_ne := fun q hq => hnode ▸ x.cluster.after_of_ne hq e.input
      disk := Function.update_self _ _ _
      disk_of_ne := fun q hq => Function.update_of_ne hq _ _
      sent := hsent
      deliver := hdeliver }

theorem step_crashed {done n : ℕ} {cut : Cut} (h : x.step (.crashed e done n cut) = some y) :
    x.Stops e done n cut y := by
  simp only [step] at h
  split_ifs at h with hup
  obtain ⟨c, hc, rfl⟩ := Option.map_eq_some_iff.mp h
  obtain ⟨-, -, hdeliver⟩ := Cluster.step_spec hc
  exact
    { runs := hup
      up := rfl
      node := rfl
      disk := Function.update_self _ _ _
      disk_of_ne := fun q hq => Function.update_of_ne hq _ _
      sent := rfl
      deliver := hdeliver }

/-- Logs and requests stay numbered. -/
theorem Handles.numbered (h : x.Handles e y) (hx : x.cluster.Numbered) : y.cluster.Numbered := by
  have hafter := hx.after e.node (hx.event h.deliver)
  constructor
  · intro q
    by_cases hq : q = e.node
    · subst hq
      have hlog := hafter.logs e.node
      rwa [Cluster.after_self, ← h.node] at hlog
    · rw [h.node_of_ne q hq]
      exact hx.logs q
  · intro dest r hm
    rw [h.sent] at hm
    exact hafter.requests dest r hm

theorem Stops.numbered {done n : ℕ} {cut : Cut} (h : x.Stops e done n cut y)
    (hx : x.cluster.Numbered) : y.cluster.Numbered := by
  have hafter := hx.after e.node (hx.event h.deliver)
  refine ⟨fun q => h.node ▸ hx.logs q, fun dest r hm => ?_⟩
  rw [h.sent, List.mem_append] at hm
  refine hafter.requests dest r (List.mem_append.mpr ?_)
  exact hm.imp_right mem_sends_of_mem_sentBy

end Site

/-! ### Starting from a directory -/

theorem stored_of_mem_entries {f : LogFile} {e : Entry N} (he : e ∈ f.entries) : e.stored = e := by
  obtain ⟨line, -, hline⟩ := List.mem_filterMap.mp he
  cases line with
  | object map =>
    cases hline
    exact stored_deserializeEntry map
  | corrupt => cases hline

/-- What is read back is above the index and stays as it is when it is written again. -/
theorem mem_recoverLog {d : Directory N} {n : ℕ} {e : Entry N} (he : e ∈ d.recoverLog n) :
    n < e.index ∧ e.stored = e := by
  rw [Directory.recoverLog_eq, List.mem_filter, decide_eq_true_eq] at he
  exact ⟨he.2, stored_of_mem_entries he.1⟩

theorem init_some (p : N) (peers : List N) (path : String) (d : Directory N) :
    State.init p peers (some path) d =
      { State.fresh p peers (some path) with
        currentTerm := d.recoverState.1
        votedFor := d.recoverState.2
        log := d.recoverLog d.snapshotIndex
        registry := d.recoverSnapshot.1.getD (initialRegistry N)
        commitIndex := d.snapshotIndex
        lastApplied := d.snapshotIndex } := rfl

theorem snapshotIndex_of_none {d : Directory N} (h : d.snapshot = none) : d.snapshotIndex = 0 := by
  unfold Directory.snapshotIndex Directory.recoverSnapshot
  rw [h]

theorem mirrors_init (p : N) (peers : List N) (path : String) {d : Directory N}
    (hd : d.Numbered) (hsnapshot : d.snapshot = none) :
    Mirrors (State.init p peers (some path) d) d := by
  have hzero : d.snapshotIndex = 0 := snapshotIndex_of_none hsnapshot
  have hall : (d.recoverLog 0).filter (fun e => 0 < e.index) = d.recoverLog 0 :=
    List.filter_eq_self.mpr fun e he => decide_eq_true (mem_recoverLog he).1
  have hstored : (d.recoverLog 0).map Entry.stored = d.recoverLog 0 :=
    (List.map_congr_left fun e he => (mem_recoverLog he).2).trans (List.map_id _)
  unfold Directory.Numbered at hd
  rw [hzero] at hd
  rw [init_some, hzero]
  refine ⟨rfl, hd, hzero.le, ?_⟩
  unfold Directory.Holds
  rw [hzero, hall, hstored]

/-! ### Index addressing -/

section Addressing

variable [DecidableEq N] {s₀ s s' : State N} {i : Input N} {fx : List (Effect N)}

/-- The position of an entry is its index, and the indices of the node are positions. -/
structure Addressed (s : State N) : Prop where
  index : ∀ n, 0 < n → ∀ e, s.log[n - 1]? = some e → e.index = n
  commitIndex : s.commitIndex ≤ s.log.length
  lastApplied : s.lastApplied ≤ s.log.length
  newEntry : ∀ now command, ∀ i ≤ s.lastApplied, i < (newEntry now s command).index

/-- A request leaves all that the node has applied in the log. -/
def KeepsApplied (s : State N) : Input N → Prop
  | .appendEntries r _ => Accepted s r → s.lastApplied ≤ r.prevLogIndex + r.entries.length
  | _ => True

structure Bounded (s : State N) : Prop where
  commitIndex : s.commitIndex ≤ s.log.length
  lastApplied : s.lastApplied ≤ s.log.length

omit [DecidableEq N] in
theorem Bounded.addressed (h : Bounded s) (hlog : NumberedFrom 0 s.log) : Addressed s where
  index n hn e he := by
    have hindex := hlog (n - 1) e he
    omega
  commitIndex := h.commitIndex
  lastApplied := h.lastApplied
  newEntry now command i hi := Nat.lt_succ_of_le (hi.trans h.lastApplied)

theorem Move.bounded (h : Move s₀ i s s' fx) (hb : Bounded s) (happlied : KeepsApplied s₀ i) :
    Bounded s' := by
  cases h with
  | quiet hsame hplain =>
    exact ⟨by rw [hsame.commitIndex, hsame.log]; exact hb.commitIndex,
      by rw [hsame.lastApplied, hsame.log]; exact hb.lastApplied⟩
  | persist hsame hvote =>
    exact ⟨by rw [hsame.commitIndex, hsame.log]; exact hb.commitIndex,
      by rw [hsame.lastApplied, hsame.log]; exact hb.lastApplied⟩
  | append now command happends hcommand =>
    have hlength : s.log.length ≤ (s.log ++ [newEntry now s command]).length := by simp
    exact ⟨hb.commitIndex.trans hlength, hb.lastApplied.trans hlength⟩
  | replicate => exact hb
  | @receive r now heq haccepted hlog hsame =>
    subst heq
    have hle : r.prevLogIndex ≤ s.log.length := prevLogIndex_le (hlog ▸ haccepted.2)
    have hkept : s.lastApplied ≤ r.prevLogIndex + r.entries.length := hsame ▸ happlied haccepted
    refine ⟨min_le_right _ _, ?_⟩
    rwa [List.length_append, List.length_take_of_le hle]
  | advance hn => exact ⟨hn, hb.lastApplied⟩
  | apply hlt hpeers => exact ⟨hb.commitIndex, hb.commitIndex⟩

theorem Moves.bounded (h : Moves s₀ i s fx) (hb : Bounded s₀) (happlied : KeepsApplied s₀ i) :
    Bounded s := by
  induction h with
  | refl => exact hb
  | tail _ hmove ih => exact hmove.bounded ih happlied

namespace Site

variable {x y : Site N} {e : Event N}

/-- What happens to the node of an event is sound. -/
def Guarded (x : Site N) (e : Event N) : Prop :=
  KeepsTail (x.cluster.node e.node) (x.disk e.node) e.input ∧
    WholeLines (x.cluster.node e.node) (x.disk e.node) e.input

/-- The conditions for the indices of a node to stay positions. -/
def Addressable (x : Site N) : Incident N → Prop
  | .handled e => x.Guarded e ∧ KeepsApplied (x.cluster.node e.node) e.input
  | .crashed e _ _ _ => x.Guarded e
  | .restarted p _ => (x.disk p).snapshot = none

/-- Nodes that run agree with their directories, and every directory can be read back. -/
structure Sound (x : Site N) : Prop where
  numbered : x.cluster.Numbered
  bounded : ∀ p, Bounded (x.cluster.node p)
  mirrors : ∀ p, x.up p = true → (x.cluster.node p).walPath ≠ none →
    Mirrors (x.cluster.node p) (x.disk p)
  disks : ∀ p, (x.cluster.node p).walPath ≠ none → (x.disk p).Numbered

theorem Sound.kept (h : x.Sound) (hup : x.up e.node = true)
    (hdeliver : ∀ m now, e = .deliver m now → m ∈ x.cluster.sent)
    (hpath : (x.cluster.node e.node).walPath ≠ none) (hok : x.Guarded e) :
    Kept (x.cluster.node e.node) e.input (x.disk e.node)
      (handle (x.cluster.node e.node) e.input).1 (x.effects e) := by
  obtain ⟨path, hw⟩ := Option.ne_none_iff_exists'.mp hpath
  exact (handle_moves _ _).kept (h.mirrors _ hup hpath) hw (h.numbered.event hdeliver) hok.2 hok.1

theorem Sound.handled (h : x.Sound) (hstep : x.Handles e y) (hok : x.Guarded e)
    (happlied : KeepsApplied (x.cluster.node e.node) e.input) : y.Sound := by
  have hmoves := handle_moves (x.cluster.node e.node) e.input
  have hmirrors (hpath : (y.cluster.node e.node).walPath ≠ none) :
      Mirrors (y.cluster.node e.node) (y.disk e.node) := by
    rw [hstep.node, hmoves.walPath] at hpath
    rw [hstep.node, hstep.disk]
    exact (h.kept hstep.runs hstep.deliver hpath hok).mirrors
  constructor
  · exact hstep.numbered h.numbered
  · intro q
    by_cases hq : q = e.node
    · subst hq
      rw [hstep.node]
      exact hmoves.bounded (h.bounded _) happlied
    · rw [hstep.node_of_ne q hq]
      exact h.bounded q
  · intro q hup hpath
    by_cases hq : q = e.node
    · subst hq
      exact hmirrors hpath
    · rw [hstep.node_of_ne q hq] at hpath ⊢
      rw [hstep.disk_of_ne q hq]
      exact h.mirrors q (hstep.up ▸ hup) hpath
  · intro q hpath
    by_cases hq : q = e.node
    · subst hq
      exact (hmirrors hpath).numbered
    · rw [hstep.node_of_ne q hq] at hpath
      rw [hstep.disk_of_ne q hq]
      exact h.disks q hpath

theorem Sound.crashed (h : x.Sound) {done n : ℕ} {cut : Cut} (hstep : x.Stops e done n cut y)
    (hok : x.Guarded e) : y.Sound := by
  constructor
  · exact hstep.numbered h.numbered
  · exact fun q => hstep.node ▸ h.bounded q
  · intro q hup hpath
    rw [hstep.up] at hup
    rw [hstep.node] at hpath ⊢
    have hq : q ≠ e.node := by
      rintro rfl
      rw [Function.update_self] at hup
      cases hup
    rw [Function.update_of_ne hq] at hup
    rw [hstep.disk_of_ne q hq]
    exact h.mirrors q hup hpath
  · intro q hpath
    rw [hstep.node] at hpath
    by_cases hq : q = e.node
    · subst hq
      rw [hstep.disk]
      exact (h.kept hstep.runs hstep.deliver hpath hok).along.crashed done n cut
    · rw [hstep.disk_of_ne q hq]
      exact h.disks q hpath

theorem Sound.restarted (h : x.Sound) {p : N} {peers : List N}
    (hstep : x.step (.restarted p peers) = some y) (hsnapshot : (x.disk p).snapshot = none) :
    y.Sound := by
  cases hstep
  have hinit : NumberedFrom 0 (State.init p peers (x.cluster.node p).walPath (x.disk p)).log ∧
      Bounded (State.init p peers (x.cluster.node p).walPath (x.disk p)) ∧
      ((x.cluster.node p).walPath ≠ none →
        Mirrors (State.init p peers (x.cluster.node p).walPath (x.disk p)) (x.disk p)) := by
    cases hw : (x.cluster.node p).walPath with
    | none => exact ⟨numberedFrom_nil 0, ⟨le_rfl, le_rfl⟩, fun hpath => absurd rfl hpath⟩
    | some path =>
      have hm := mirrors_init p peers path (h.disks p (by simp [hw])) hsnapshot
      have hzero : (x.disk p).snapshotIndex = 0 := snapshotIndex_of_none hsnapshot
      refine ⟨hm.log, ?_, fun _ => hm⟩
      rw [init_some, hzero]
      exact ⟨Nat.zero_le _, Nat.zero_le _⟩
  have hpath (q : N) : (Function.update x.cluster.node p
      (State.init p peers (x.cluster.node p).walPath (x.disk p)) q).walPath =
        (x.cluster.node q).walPath := by
    by_cases hq : q = p
    · subst hq
      rw [Function.update_self]
      rfl
    · rw [Function.update_of_ne hq]
  constructor
  · refine ⟨fun q => ?_, h.numbered.requests⟩
    by_cases hq : q = p
    · subst hq
      simpa only [Function.update_self] using hinit.1
    · simpa only [Function.update_of_ne hq] using h.numbered.logs q
  · intro q
    by_cases hq : q = p
    · subst hq
      simpa only [Function.update_self] using hinit.2.1
    · simpa only [Function.update_of_ne hq] using h.bounded q
  · intro q hup hw
    simp only [hpath] at hw
    by_cases hq : q = p
    · subst hq
      simpa only [Function.update_self] using hinit.2.2 hw
    · simp only [Function.update_of_ne hq] at hup ⊢
      exact h.mirrors q hup hw
  · intro q hw
    simp only [hpath] at hw
    exact h.disks q hw

theorem Sound.step (h : x.Sound) {i : Incident N} (hok : x.Addressable i)
    (hstep : x.step i = some y) : y.Sound := by
  cases i with
  | handled e => exact h.handled (step_handled hstep) hok.1 hok.2
  | crashed e done n cut => exact h.crashed (step_crashed hstep) hok
  | restarted p peers => exact h.restarted hstep hok

omit [DecidableEq N] in
theorem Fresh.sound (h : x.Fresh) : x.Sound where
  numbered := h.booted.numbered
  bounded p := by
    rw [h.booted.node_fresh p]
    exact ⟨le_rfl, le_rfl⟩
  mirrors p _ _ := by
    rw [h.booted.node_fresh p, h.disk_empty p]
    exact ⟨rfl, numberedFrom_nil 0, le_rfl, Directory.holds_empty⟩
  disks p _ := by
    rw [h.disk_empty p]
    exact numberedFrom_nil 0

end Site

/-- Wherever nodes stop and start again, the position of an entry is its index:
as long as no node starts from a snapshot, no request cuts applied entries or cuts
the log without the file, and nothing is written behind a torn line. -/
theorem addressing_survives_restart {x₀ x : Site N} (h₀ : x₀.Fresh)
    (r : Run Site.step Site.Addressable x₀ x) (p : N) : Addressed (x.cluster.node p) := by
  have hsound : x.Sound := r.invariant (fun _ _ _ h hok hstep => h.step hok hstep) h₀.sound
  exact (hsound.bounded p).addressed (hsound.numbered.logs p)

omit [DecidableEq N] in
/-- A node that starts from a snapshot takes list positions for indices that they are not. -/
theorem not_addressed_of_snapshot (p : N) (peers : List N) (path : String) {d : Directory N}
    (hd : d.Numbered) (hsnapshot : 0 < d.snapshotIndex) :
    ¬ Addressed (State.init p peers (some path) d) := by
  intro h
  have hlength : d.snapshotIndex ≤ (d.recoverLog d.snapshotIndex).length := h.lastApplied
  obtain ⟨e, he⟩ : ∃ e, (d.recoverLog d.snapshotIndex)[0]? = some e :=
    ⟨_, List.getElem?_eq_getElem (hsnapshot.trans_le hlength)⟩
  have hone : e.index = 1 := h.index 1 Nat.one_pos e he
  have hnext : e.index = d.snapshotIndex + 0 + 1 := hd 0 e he
  omega

/-- Every node has its own directory. -/
def Site.started (n : ℕ) : Site (Fin n) where
  cluster :=
    { node := fun p => State.fresh p ((List.finRange n).erase p) (some "wal")
      sent := []
      calls := []
      replies := [] }
  disk _ := .empty (Fin n)
  up _ := true

theorem Site.started_fresh (n : ℕ) : (Site.started n).Fresh where
  booted :=
    { self_notMem := fun _ => (List.nodup_finRange n).not_mem_erase
      node_fresh := fun _ => rfl
      sent_nil := rfl
      calls_nil := rfl
      replies_nil := rfl }
  disk_empty _ := rfl
  up _ := rfl

/-- A single node leads, stops and starts again. -/
theorem addressing_survives_restart_single : ∃ x,
    exec Site.step (Site.started 1) [.handled (.electionTimeout 0 0), .restarted 0 []] = some x ∧
      (x.cluster.node 0).log.length = 1 ∧ Addressed (x.cluster.node 0) := by
  have hlead : Site.Addressable (Site.started 1) (.handled (.electionTimeout 0 0)) :=
    ⟨⟨trivial, fun _ => rfl⟩, trivial⟩
  refine ⟨_, rfl, rfl, addressing_survives_restart (Site.started_fresh 1)
    ((Run.single hlead rfl).tail ⟨.restarted 0 [], ?_, rfl⟩) 0⟩
  rfl

/-- The second entry is torn; the third is glued to it and the fourth follows. -/
def tornAppend : List (Incident (Fin 1)) :=
  [.handled (.electionTimeout 0 0),
    .crashed (.propose 0 0 .noop 0) 0 0 .inside,
    .restarted 0 [],
    .handled (.electionTimeout 0 0),
    .handled (.propose 0 1 .noop 0),
    .restarted 0 []]

/-- After the second restart the entry at position 2 has index 3. -/
theorem addressing_lost : ¬ ∀ x₀ x : Site (Fin 1), x₀.Fresh →
    Run Site.step (fun _ _ => True) x₀ x → ∀ p, x.up p = true →
      (x.cluster.node p).walPath ≠ none → Addressed (x.cluster.node p) := by
  intro hall
  obtain ⟨x, hx, hup, hpath, e, he, hindex⟩ : ∃ x,
      exec Site.step (Site.started 1) tornAppend = some x ∧ x.up 0 = true ∧
        (x.cluster.node 0).walPath ≠ none ∧
        ∃ e, (x.cluster.node 0).log[2 - 1]? = some e ∧ e.index = 3 :=
    ⟨_, rfl, rfl, nofun, _, rfl, rfl⟩
  have haddressed := hall _ x (Site.started_fresh 1) (run_of_steps hx) 0 hup hpath
  have htwo := haddressed.index 2 Nat.two_pos e he
  omega

end Addressing

end NextgenDatabases.Kraft
