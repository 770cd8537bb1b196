import NextgenDatabases.Kraft.Matching
import NextgenDatabases.Kraft.Wal

/-!
# Memory and directory

What the directory of a node has of the node's state, whatever the callbacks do,
and what a crash in the middle of a callback leaves of it.
-/
namespace NextgenDatabases.Kraft

variable {N : Type*}

/-! ### Indices -/

section Numbered

variable {start : ℕ} {l : List (Entry N)}

theorem numberedFrom_cons {e : Entry N} :
    NumberedFrom start (e :: l) ↔ e.index = start + 1 ∧ NumberedFrom (start + 1) l := by
  constructor
  · intro h
    refine ⟨h 0 e rfl, fun k f hk => ?_⟩
    have hindex := h (k + 1) f hk
    omega
  · rintro ⟨he, hl⟩ k f hk
    cases k with
    | zero =>
      obtain rfl : e = f := by simpa using hk
      exact he
    | succ k =>
      have hindex := hl k f hk
      omega

/-- The entries up to an index are the first ones. -/
theorem NumberedFrom.filter_le (hl : NumberedFrom start l) (n : ℕ) :
    l.filter (fun e => e.index ≤ n) = l.take (n - start) := by
  induction l generalizing start with
  | nil => simp
  | cons e l ih =>
    obtain ⟨he, hl⟩ := numberedFrom_cons.mp hl
    by_cases hle : e.index ≤ n
    · have hsub : n - start = n - (start + 1) + 1 := by omega
      rw [List.filter_cons_of_pos (by simpa using hle), ih hl, hsub, List.take_succ_cons]
    · have hzero : n - start = 0 ∧ n - (start + 1) = 0 := by omega
      rw [List.filter_cons_of_neg (by simpa using hle), ih hl, hzero.1, hzero.2]
      rfl

/-- The entries after an index are the last ones. -/
theorem NumberedFrom.filter_lt (hl : NumberedFrom start l) (n : ℕ) :
    l.filter (fun e => n < e.index) = l.drop (n - start) := by
  induction l generalizing start with
  | nil => simp
  | cons e l ih =>
    obtain ⟨he, hl⟩ := numberedFrom_cons.mp hl
    by_cases hlt : n < e.index
    · have hzero : n - start = 0 ∧ n - (start + 1) = 0 := by omega
      rw [List.filter_cons_of_pos (by simpa using hlt), ih hl, hzero.1, hzero.2]
      rfl
    · have hsub : n - start = n - (start + 1) + 1 := by omega
      rw [List.filter_cons_of_neg (by simpa using hlt), ih hl, hsub, List.drop_succ_cons]

theorem NumberedFrom.map_stored (hl : NumberedFrom start l) :
    NumberedFrom start (l.map Entry.stored) := by
  intro k e hk
  rw [List.getElem?_map, Option.map_eq_some_iff] at hk
  obtain ⟨f, hf, rfl⟩ := hk
  exact hl k f hf

end Numbered

theorem filter_map_stored (l : List (Entry N)) (keep : ℕ → Bool) :
    (l.map Entry.stored).filter (fun e => keep e.index) =
      (l.filter fun e => keep e.index).map Entry.stored :=
  List.filter_map

/-! ### What a directory holds -/

namespace Directory

variable {d : Directory N} {l : List (Entry N)}

def snapshotIndex (d : Directory N) : ℕ := d.recoverSnapshot.2.1

/-- What is read back from the log file is the log above the snapshot. -/
def Holds (d : Directory N) (l : List (Entry N)) : Prop :=
  d.recoverLog d.snapshotIndex = (l.filter fun e => d.snapshotIndex < e.index).map Entry.stored

/-- What is read back counts on from the snapshot. -/
def Numbered (d : Directory N) : Prop :=
  NumberedFrom d.snapshotIndex (d.recoverLog d.snapshotIndex)

theorem Holds.numbered (h : d.Holds l) (hl : NumberedFrom 0 l) : d.Numbered := by
  unfold Numbered
  rw [h, hl.filter_lt, Nat.sub_zero]
  have hdrop := hl.drop d.snapshotIndex
  rw [Nat.zero_add] at hdrop
  exact hdrop.map_stored

theorem holds_empty : (empty N).Holds [] := rfl

theorem Holds.append (h : d.Holds l) (hrest : d.log.rest = none) (es : List (Entry N)) :
    (d.write (.append (es.map serializeEntry))).Holds (l ++ es) := by
  have hstored : (es.map serializeEntry).map deserializeEntry = es.map Entry.stored := by
    rw [List.map_map]
    rfl
  unfold Holds at h ⊢
  rw [recoverLog_eq] at h ⊢
  change List.filter _ (d.log.append _).entries = _
  rw [LogFile.entries_append hrest, hstored, List.filter_append, List.filter_append,
    List.map_append]
  exact congrArg₂ _ h (filter_map_stored es fun n => decide (d.snapshotIndex < n))

/-- Cutting the file at an index cuts the log there. -/
theorem Holds.truncateAfter (h : d.Holds l) (hl : NumberedFrom 0 l) (n : ℕ) :
    (d.write (.truncateAfter n)).Holds (l.take n) := by
  have htake : l.take n = l.filter fun e => e.index ≤ n := (hl.filter_le n).symm
  have hentries : ((d.write (.truncateAfter n)).log.entries : List (Entry N)) =
      d.log.entries.filter fun e => e.index ≤ n := by
    change (LogFile.empty.append _).entries = _
    rw [LogFile.entries_append rfl, LogFile.entries_kept]
    rfl
  have hcomm (m : List (Entry N)) :
      (m.filter fun e => e.index ≤ n).filter (fun e => d.snapshotIndex < e.index) =
        (m.filter fun e => d.snapshotIndex < e.index).filter fun e => e.index ≤ n :=
    List.filter_comm _ _ m
  unfold Holds at h ⊢
  rw [recoverLog_eq] at h ⊢
  change List.filter (fun e : Entry N => d.snapshotIndex < e.index) _ =
    List.map _ (List.filter (fun e : Entry N => d.snapshotIndex < e.index) _)
  rw [hentries, htake, hcomm, hcomm, h]
  exact filter_map_stored _ fun m => decide (m ≤ n)

theorem filter_filter_of_le {m n : ℕ} (hle : m ≤ n) (l : List (Entry N)) :
    (l.filter fun e => m < e.index).filter (fun e => n < e.index) =
      l.filter fun e => n < e.index := by
  rw [List.filter_filter]
  refine List.filter_congr fun e _ => ?_
  by_cases hlt : n < e.index
  · simp [hlt, hle.trans_lt hlt]
  · simp [hlt]

/-- A later snapshot takes over a part of the log. -/
theorem Holds.snapshot (h : d.Holds l) {snapshot : Snapshot}
    (hle : d.snapshotIndex ≤ snapshot.lastIncludedIndex) :
    (d.write (.snapshot snapshot)).Holds l := by
  unfold Holds at h ⊢
  rw [recoverLog_eq] at h ⊢
  change List.filter (fun e => snapshot.lastIncludedIndex < e.index) d.log.entries =
    (List.filter (fun e => snapshot.lastIncludedIndex < e.index) l).map Entry.stored
  rw [← filter_filter_of_le hle d.log.entries, h, ← filter_filter_of_le hle l]
  exact filter_map_stored _ fun m => decide (snapshot.lastIncludedIndex < m)

/-- Entries that the snapshot has may leave the file. -/
theorem Holds.truncateWal (h : d.Holds l) {n : ℕ} (hle : n ≤ d.snapshotIndex) :
    (d.write (.truncateWal n)).Holds l := by
  have hentries : ((d.write (.truncateWal n)).log.entries : List (Entry N)) =
      d.log.entries.filter fun e => n < e.index := by
    change (LogFile.empty.append _).entries = _
    rw [LogFile.entries_append rfl, LogFile.entries_kept]
    rfl
  unfold Holds at h ⊢
  rw [recoverLog_eq] at h ⊢
  change List.filter (fun e : Entry N => d.snapshotIndex < e.index) _ =
    (List.filter _ _).map _
  rw [hentries, filter_filter_of_le hle]
  exact h

/-! ### Torn writes -/

theorem entries_rewriteTorn (maps : List EntryObject) (n : ℕ) (cut : Cut) :
    ((LogFile.empty.appendTorn maps n cut).entries : List (Entry N)) <+:
      (LogFile.empty.append maps).entries := by
  obtain ⟨m, hm⟩ : ∃ m, (LogFile.empty.appendTorn maps n cut).entries =
      (LogFile.empty.entries : List (Entry N)) ++ (maps.take m).map deserializeEntry :=
    LogFile.entries_appendTorn rfl n cut
  rw [hm, LogFile.entries_append rfl]
  exact (List.prefix_append_right_inj _).mpr ((List.take_prefix m maps).map _)

/-- A torn write leaves a first part of what the whole write would. -/
theorem entries_writeTorn (d : Directory N) (n : ℕ) (cut : Cut) {w : Write N}
    (hrest : ∀ maps, w = .append maps → d.log.rest = none) :
    ((d.writeTorn n cut w).log.entries : List (Entry N)) <+: (d.write w).log.entries := by
  cases w with
  | state _ _ | snapshot _ => exact List.prefix_rfl
  | append maps =>
    have hnone := hrest maps rfl
    obtain ⟨m, hm⟩ : ∃ m, (d.log.appendTorn maps n cut).entries =
        (d.log.entries : List (Entry N)) ++ (maps.take m).map deserializeEntry :=
      LogFile.entries_appendTorn hnone n cut
    change (d.log.appendTorn maps n cut).entries <+: (d.log.append maps).entries
    rw [hm, LogFile.entries_append hnone]
    exact (List.prefix_append_right_inj _).mpr ((List.take_prefix m maps).map _)
  | truncateAfter index =>
    exact entries_rewriteTorn _ n cut
  | truncateWal index =>
    exact entries_rewriteTorn _ n cut

theorem Numbered.writeTorn (h : d.Numbered) {w : Write N} (hw : (d.write w).Numbered) (n : ℕ)
    (cut : Cut) (hrest : ∀ maps, w = .append maps → d.log.rest = none) :
    (d.writeTorn n cut w).Numbered := by
  have hprefix := entries_writeTorn d n cut hrest
  have hsnapshot (hsame : (d.writeTorn n cut w).snapshotIndex = (d.write w).snapshotIndex) :
      (d.writeTorn n cut w).Numbered := by
    unfold Numbered at hw ⊢
    rw [hsame]
    refine hw.of_isPrefix ?_
    rw [recoverLog_eq, recoverLog_eq]
    exact hprefix.filter _
  cases w with
  | state _ _ | snapshot _ => exact h
  | append _ | truncateAfter _ | truncateWal _ => exact hsnapshot rfl

/-- Wherever the deeds stop, what is read back is numbered, and no line is
written behind one without a newline. -/
def Along : Directory N → List (Deed N) → Prop
  | d, [] => d.Numbered
  | d, x :: ds =>
    d.Numbered ∧ (∀ maps, x = .write (.append maps) → d.log.rest = none) ∧ Along (d.act x) ds

theorem Along.numbered {ds : List (Deed N)} (h : Along d ds) : d.Numbered := by
  cases ds with
  | nil => exact h
  | cons x ds => exact h.1

theorem Along.append {ds es : List (Deed N)} (h : Along d ds) (hes : Along (ds.foldl act d) es) :
    Along d (ds ++ es) := by
  induction ds generalizing d with
  | nil => exact hes
  | cons x ds ih => exact ⟨h.1, h.2.1, ih h.2.2 hes⟩

/-- Deeds that do not write. -/
theorem Along.of_idle {ds : List (Deed N)} (h : d.Numbered) (hds : ∀ x ∈ ds, ∀ w, x ≠ .write w) :
    Along d ds := by
  induction ds with
  | nil => exact h
  | cons x ds ih =>
    have hx := hds x List.mem_cons_self
    have hact : d.act x = d := by
      cases x with
      | write w => exact absurd rfl (hx w)
      | send _ | reply _ _ => rfl
    refine ⟨h, fun maps heq => absurd heq (hx _), ?_⟩
    rw [hact]
    exact ih fun y hy => hds y (List.mem_cons_of_mem x hy)

/-- A crash leaves a numbered log. -/
theorem Along.crashed {fx : List (Effect N)} (h : Along d (deeds fx)) (done n : ℕ) (cut : Cut) :
    (d.crashed fx done n cut).Numbered := by
  unfold Directory.crashed
  dsimp only
  generalize deeds fx = ds at h
  induction ds generalizing d done with
  | nil => simpa using h.numbered
  | cons x ds ih =>
    cases done with
    | zero =>
      obtain ⟨hd, hrest, hnext⟩ := h
      cases x with
      | write w => exact hd.writeTorn hnext.numbered n cut fun maps heq => hrest maps (heq ▸ rfl)
      | send _ | reply _ _ => exact hd
    | succ done => exact ih done h.2.2

theorem perform_append (d : Directory N) (fx gx : List (Effect N)) :
    d.perform (fx ++ gx) = (d.perform fx).perform gx := by
  simp [perform, deeds]

theorem perform_idle (d : Directory N) {fx : List (Effect N)}
    (h : ∀ x ∈ deeds fx, ∀ w, x ≠ .write w) : d.perform fx = d := by
  unfold perform
  generalize deeds fx = ds at h
  induction ds with
  | nil => rfl
  | cons x ds ih =>
    have hds := ih fun y hy => h y (List.mem_cons_of_mem x hy)
    cases x with
    | write w => exact absurd rfl (h _ List.mem_cons_self w)
    | send _ | reply _ _ => exact hds

/-- A log that the snapshot has may be cut. -/
theorem Holds.take (h : d.Holds l) (hl : NumberedFrom 0 l) (hle : l.length ≤ d.snapshotIndex)
    (n : ℕ) : d.Holds (l.take n) := by
  have hnone {m : List (Entry N)} (hm : m <+: l) :
      m.filter (fun e => d.snapshotIndex < e.index) = [] := by
    rw [(hl.of_isPrefix hm).filter_lt, List.drop_eq_nil_iff]
    have := hm.length_le
    omega
  unfold Holds at h ⊢
  rw [h, hnone List.prefix_rfl, hnone (List.take_prefix n l)]

end Directory

/-! ### What the moves keep -/

section Moves

variable [DecidableEq N] {s₀ s s' : State N} {i : Input N} {fx gx : List (Effect N)}
  {d : Directory N} {path : String}

/-- Memory and directory agree. -/
structure Mirrors (s : State N) (d : Directory N) : Prop where
  state : d.recoverState = (s.currentTerm, s.votedFor)
  log : NumberedFrom 0 s.log
  snapshot : d.snapshotIndex ≤ s.lastApplied
  holds : d.Holds s.log

/-- A request without entries takes no entry from the log that the snapshot does
not have. -/
def KeepsTail (s : State N) (d : Directory N) : Input N → Prop
  | .appendEntries r _ => s.walPath ≠ none → Accepted s r → r.entries = [] →
      s.log.length ≤ r.prevLogIndex ∨ s.log.length ≤ d.snapshotIndex
  | _ => True

omit [DecidableEq N] in
theorem KeepsTail.mono {d' : Directory N} (h : KeepsTail s d i)
    (hle : d.snapshotIndex ≤ d'.snapshotIndex) : KeepsTail s d' i := by
  cases i with
  | appendEntries r now =>
    exact fun hw haccepted hentries =>
      (h hw haccepted hentries).imp_right fun hlen => hlen.trans hle
  | electionTimeout _ | heartbeat | propose _ _ _ | requestVote _ => trivial
  | voteResponse _ _ _ | appendEntriesResponse _ _ _ => trivial

/-- Nothing is written behind a line without a newline. -/
def WholeLines (s : State N) (d : Directory N) (i : Input N) : Prop :=
  Appends s i → d.log.rest = none

/-- How the moves of a callback leave memory and directory. -/
structure Kept (s₀ : State N) (i : Input N) (d : Directory N) (s : State N)
    (fx : List (Effect N)) : Prop where
  walPath : s.walPath = s₀.walPath
  mirrors : Mirrors s (d.perform fx)
  along : d.Along (deeds fx)
  lines : WholeLines s₀ (d.perform fx) i
  snapshot : d.snapshotIndex ≤ (d.perform fx).snapshotIndex

omit [DecidableEq N] in
theorem Mirrors.numbered (h : Mirrors s d) : d.Numbered := h.holds.numbered h.log

omit [DecidableEq N] in
theorem Mirrors.of_same (h : Mirrors s d) (hsame : Same s s') : Mirrors s' d where
  state := by rw [h.state, hsame.currentTerm, hsame.votedFor]
  log := hsame.log ▸ h.log
  snapshot := hsame.lastApplied ▸ h.snapshot
  holds := hsame.log ▸ h.holds

omit [DecidableEq N] in
theorem idle_of_plain (h : ∀ f ∈ fx, f.Plain) : ∀ x ∈ deeds fx, ∀ w, x ≠ .write w := by
  intro x hx w heq
  obtain ⟨f, hf, hxf⟩ := List.mem_flatMap.mp hx
  have hplain := h f hf
  cases f with
  | wal walPath op => exact hplain
  | send _ | reply _ _ =>
    rw [heq] at hxf
    cases List.mem_singleton.mp hxf

theorem idle_sendAppendEntries (s : State N) :
    ∀ x ∈ deeds (sendAppendEntries s), ∀ w, x ≠ .write w := by
  intro x hx w heq
  obtain ⟨f, hf, hxf⟩ := List.mem_flatMap.mp hx
  obtain ⟨peer, -, rfl⟩ := List.mem_map.mp hf
  rw [heq] at hxf
  cases List.mem_singleton.mp hxf

omit [DecidableEq N] in
theorem maybeTriggerSnapshot_cases (s : State N) : maybeTriggerSnapshot s = [] ∨
    ∃ term, maybeTriggerSnapshot s =
      [.wal s.walPath (.saveSnapshot s.registry s.lastApplied term)] := by
  unfold maybeTriggerSnapshot
  split_ifs
  · split
    · exact .inr ⟨_, rfl⟩
    · exact .inl rfl
  · exact .inl rfl

omit [DecidableEq N] in
theorem writes_appendEntries {es : List (Entry N)} (hes : es ≠ []) :
    (WalOp.appendEntries es).writes = [.append (es.map serializeEntry)] := by
  cases es with
  | nil => exact absurd rfl hes
  | cons e es => rfl

/-- The same memory and the same directory. -/
theorem Kept.idle (hm : Mirrors s d) (hlines : WholeLines s₀ d i) (hw : s.walPath = s₀.walPath)
    (hidle : ∀ x ∈ deeds fx, ∀ w, x ≠ .write w) : Kept s₀ i d s fx := by
  have hd : d.perform fx = d := d.perform_idle hidle
  exact ⟨hw, by rwa [hd], .of_idle hm.numbered hidle, by rwa [hd], by rw [hd]⟩

theorem Kept.trans (h : Kept s₀ i d s fx) (h' : Kept s₀ i (d.perform fx) s' gx) :
    Kept s₀ i d s' (fx ++ gx) where
  walPath := h'.walPath
  mirrors := by
    rw [Directory.perform_append]
    exact h'.mirrors
  along := by
    rw [deeds, List.flatMap_append]
    exact h.along.append h'.along
  lines := by
    rw [Directory.perform_append]
    exact h'.lines
  snapshot := by
    rw [Directory.perform_append]
    exact h.snapshot.trans h'.snapshot

/-- Entries that go to the end of memory and file. -/
theorem Kept.append (hm : Mirrors s d) (hrest : d.log.rest = none) (hw : s.walPath = s₀.walPath)
    {es : List (Entry N)} {n : ℕ}
    (hs' : s' = { s with log := s.log ++ es, commitIndex := n })
    (hnumbered : NumberedFrom 0 s'.log)
    (hfx : deeds fx = [.write (.append (es.map serializeEntry))]) : Kept s₀ i d s' fx := by
  have hd : d.perform fx = d.write (.append (es.map serializeEntry)) := by
    rw [Directory.perform, hfx]
    rfl
  have hholds : (d.write (.append (es.map serializeEntry))).Holds s'.log := by
    rw [hs']
    exact hm.holds.append hrest es
  constructor
  · rw [hs', hw]
  · rw [hd]
    refine ⟨?_, hnumbered, ?_, hholds⟩
    · rw [hs']
      exact hm.state
    · rw [hs']
      exact hm.snapshot
  · rw [hfx]
    exact ⟨hm.numbered, fun _ _ => hrest, hholds.numbered hnumbered⟩
  · rw [hd]
    exact fun _ => LogFile.append_rest hrest
  · rw [hd]
    exact le_refl d.snapshotIndex

/-- The log and its file are cut at the same index. -/
theorem Kept.truncateAfter (hm : Mirrors s d) (hw : s.walPath = some path)
    (hpath : s.walPath = s₀.walPath) (n : ℕ) :
    Kept s₀ i d { s with log := s.log.take n } [.wal s.walPath (.truncateAfter n)] ∧
      (d.perform [.wal s.walPath (.truncateAfter n)]).log.rest = none := by
  have hd : d.perform [.wal s.walPath (.truncateAfter n)] = d.write (.truncateAfter n) := by
    rw [hw]
    rfl
  have hholds : (d.write (.truncateAfter n)).Holds (s.log.take n) :=
    hm.holds.truncateAfter hm.log n
  have hnumbered : NumberedFrom 0 (s.log.take n) := hm.log.of_isPrefix (List.take_prefix n _)
  have hrest : (d.write (.truncateAfter n)).log.rest = none := LogFile.append_rest rfl
  rw [hd]
  refine ⟨?_, hrest⟩
  constructor
  · exact hpath
  · rw [hd]
    exact ⟨hm.state, hnumbered, hm.snapshot, hholds⟩
  · rw [hw]
    exact ⟨hm.numbered, nofun, hholds.numbered hnumbered⟩
  · rw [hd]
    exact fun _ => hrest
  · rw [hd]
    exact le_refl d.snapshotIndex

/-- A snapshot of what has been applied. -/
theorem Kept.saveSnapshot (hm : Mirrors s d) (hw : s.walPath = some path)
    (hpath : s.walPath = s₀.walPath) (term : ℕ) :
    Kept s₀ i d s [.wal s.walPath (.saveSnapshot s.registry s.lastApplied term)] := by
  let snapshot : Snapshot := ⟨serializeRegistry s.registry, s.lastApplied, term⟩
  have hd : d.perform [.wal s.walPath (.saveSnapshot s.registry s.lastApplied term)] =
      (d.write (.snapshot snapshot)).write (.truncateWal s.lastApplied) := by
    rw [hw]
    rfl
  have hsaved : (d.write (.snapshot snapshot)).Holds s.log := hm.holds.snapshot hm.snapshot
  have hholds : ((d.write (.snapshot snapshot)).write (.truncateWal s.lastApplied)).Holds s.log :=
    hsaved.truncateWal (le_refl s.lastApplied)
  constructor
  · exact hpath
  · rw [hd]
    exact ⟨hm.state, hm.log, le_refl s.lastApplied, hholds⟩
  · rw [hw]
    exact ⟨hm.numbered, nofun, hsaved.numbered hm.log, nofun, hholds.numbered hm.log⟩
  · rw [hd]
    exact fun _ => LogFile.append_rest rfl
  · rw [hd]
    exact hm.snapshot

/-- A request is taken into memory and into the file. -/
theorem Kept.receive (hm : Mirrors s d) (hw : s.walPath = some path)
    (hpath : s.walPath = s₀.walPath) {r : AppendEntriesRequest N} {now : ℕ}
    (hi : i = .appendEntries r now) (haccepted : Accepted s₀ r) (hlog : s.log = s₀.log)
    (hnumbered : NumberedFrom 0 (s.log.take r.prevLogIndex ++ r.entries))
    (hlines : WholeLines s₀ d i) (htail : KeepsTail s₀ d i) (n : ℕ) :
    Kept s₀ i d
      { s with log := s.log.take r.prevLogIndex ++ r.entries, commitIndex := n }
      (received s r) := by
  subst hi
  unfold received
  by_cases hentries : r.entries = []
  · have hholds : d.Holds (s.log.take r.prevLogIndex) := by
      rcases htail (by simp [← hpath, hw]) haccepted hentries with hle | hle
      · rw [List.take_of_length_le (hlog ▸ hle)]
        exact hm.holds
      · exact hm.holds.take hm.log (hlog ▸ hle) _
    rw [if_neg (not_not_intro hentries)]
    simp only [hentries, List.append_nil] at hnumbered ⊢
    have hcut : Mirrors { s with log := s.log.take r.prevLogIndex, commitIndex := n } d :=
      ⟨hm.state, hnumbered, hm.snapshot, hholds⟩
    exact .idle hcut hlines hpath (by simp [deeds])
  · have hdeeds : deeds [Effect.wal s.walPath (.appendEntries r.entries)] =
        [.write (.append (r.entries.map serializeEntry))] := by
      rw [hw]
      simp [deeds, Effect.deeds, writes_appendEntries hentries]
    rw [if_pos hentries]
    split_ifs with hlt
    · obtain ⟨hcut, hrest⟩ := Kept.truncateAfter (i := .appendEntries r now) hm hw hpath
        r.prevLogIndex
      exact hcut.trans (.append hcut.mirrors hrest hpath rfl hnumbered hdeeds)
    · have hle : s.log.length ≤ r.prevLogIndex := not_lt.mp hlt
      have hrest : d.log.rest = none := hlines ⟨haccepted, hentries, hlog ▸ hle⟩
      rw [List.take_of_length_le hle] at hnumbered ⊢
      exact .append hm hrest hpath rfl hnumbered hdeeds

/-- A move keeps memory and directory in step. -/
theorem Move.kept (h : Move s₀ i s s' fx) (hm : Mirrors s d) (hw : s.walPath = some path)
    (hpath : s.walPath = s₀.walPath) (hi : i.Numbered) (hlines : WholeLines s₀ d i)
    (htail : KeepsTail s₀ d i) : Kept s₀ i d s' fx := by
  have hnumbered : NumberedFrom 0 s'.log := (h.numbered hi hm.log).1
  cases h with
  | quiet hsame hplain =>
    exact .idle (hm.of_same hsame) hlines (hsame.walPath.trans hpath) (idle_of_plain hplain)
  | persist hsame hvote =>
    have hd : d.perform [.wal s.walPath (.persistState s'.currentTerm s'.votedFor)] =
        d.write (.state s'.currentTerm s'.votedFor) := by
      rw [hw]
      rfl
    have hholds : (d.write (.state s'.currentTerm s'.votedFor)).Holds s'.log :=
      hsame.log ▸ hm.holds
    constructor
    · exact hsame.walPath.trans hpath
    · rw [hd]
      exact ⟨rfl, hnumbered, hsame.lastApplied ▸ hm.snapshot, hholds⟩
    · rw [hw]
      exact ⟨hm.numbered, nofun, hholds.numbered hnumbered⟩
    · rw [hd]
      exact hlines
    · rw [hd]
      exact le_refl d.snapshotIndex
  | append now command happends hcommand =>
    refine .append (n := s.commitIndex) hm (hlines happends) hpath rfl hnumbered ?_
    rw [hw]
    rfl
  | replicate => exact .idle hm hlines hpath (idle_sendAppendEntries s)
  | receive heq haccepted hlog happlied =>
    exact .receive hm hw hpath heq haccepted hlog hnumbered hlines htail _
  | @advance n hn =>
    have hcommit : Mirrors { s with commitIndex := n } d :=
      ⟨hm.state, hm.log, hm.snapshot, hm.holds⟩
    exact .idle hcommit hlines hpath (by simp [deeds])
  | @apply registry peers hlt hpeers =>
    have happly : Mirrors
        { s with lastApplied := s.commitIndex, registry := registry, peers := peers } d :=
      ⟨hm.state, hm.log, hm.snapshot.trans hlt.le, hm.holds⟩
    rcases maybeTriggerSnapshot_cases
      { s with lastApplied := s.commitIndex, registry := registry, peers := peers } with
      hnone | ⟨term, hsome⟩
    · rw [hnone]
      exact .idle happly hlines hpath (by simp [deeds])
    · rw [hsome]
      exact .saveSnapshot happly hw hpath term

/-- A callback keeps memory and directory in step. -/
theorem Moves.kept (h : Moves s₀ i s fx) (hm : Mirrors s₀ d) (hw : s₀.walPath = some path)
    (hi : i.Numbered) (hlines : WholeLines s₀ d i) (htail : KeepsTail s₀ d i) :
    Kept s₀ i d s fx := by
  induction h with
  | refl => exact .idle hm hlines rfl (by simp [deeds])
  | tail _ hmove ih =>
    refine ih.trans (hmove.kept ih.mirrors (ih.walPath.trans hw) ih.walPath hi ih.lines ?_)
    exact htail.mono ih.snapshot

end Moves

end NextgenDatabases.Kraft
