import NextgenDatabases.Verisim.Sections
import Mathlib.Data.List.Count

/-!
# Serializable transactions

A version counts the committed writes of its pair. A read stamp is a version, so a
transaction whose stamps are all current at its commit has been overtaken by nobody.
-/
namespace NextgenDatabases.Verisim

open Foundations (Run exec run_of_steps)
open Wal (DateTime)

/-! ### The calls that keep the transactions locked -/

/-- The call keeps the transactions locked. -/
def Reached.Writing : Reached → Prop
  | checked | granted | sampled _ => False
  | opened | validated | closed => True

namespace Sections

open TransactionManager (Call)

/-- One call at a time keeps the transactions locked, and what it has validated stays valid. -/
structure Guarded (s : Sections) : Prop where
  writer : ∀ i call reached, s.calls i = some (call, reached) → reached.Writing →
    s.writer = some i
  current : ∀ i transactionId now, s.calls i = some (.commit transactionId now, .validated) →
    ∃ txn, s.manager.active transactionId = .ok txn ∧ s.manager.stale txn = none

variable {s t : Sections} {i j : ℕ} {call : Call} {reached : Reached}

theorem guarded_new : new.Guarded where
  writer := by
    intro i call reached h
    cases h
  current := by
    intro i transactionId now h
    cases h

theorem Guarded.others (h : s.Guarded) (hwriter : s.writer = none ∨ s.writer = some i)
    (hne : j ≠ i) (hj : s.calls j = some (call, reached)) : ¬ reached.Writing := by
  intro hwriting
  have hwj := h.writer j call reached hj hwriting
  rcases hwriter with hnone | hsome
  · rw [hnone] at hwj
    cases hwj
  · rw [hsome] at hwj
    cases hwj
    exact hne rfl

/-- A section that neither starts nor ends the exclusive access of a call. -/
theorem Guarded.outside (h : s.Guarded)
    (hcalls : ∀ j call reached, t.calls j = some (call, reached) → reached.Writing →
      s.calls j = some (call, reached))
    (hwriter : t.writer = s.writer)
    (hmanager : s.writer = none ∨
      t.manager.activeTransactions = s.manager.activeTransactions ∧
        t.manager.versionTable = s.manager.versionTable) : t.Guarded where
  writer := by
    intro j call reached hj hwriting
    rw [hwriter]
    exact h.writer j call reached (hcalls j call reached hj hwriting) hwriting
  current := by
    intro j transactionId now hj
    have hold := hcalls j _ _ hj trivial
    obtain ⟨txn, htxn, hstale⟩ := h.current j transactionId now hold
    rcases hmanager with hnone | ⟨hactive, hversions⟩
    · rw [h.writer j _ _ hold trivial] at hnone
      cases hnone
    · refine ⟨txn, ?_, ?_⟩
      · unfold TransactionManager.active at *
        rw [hactive]
        exact htxn
      · unfold TransactionManager.stale at *
        rw [hversions]
        exact hstale

/-- A section of the only call that keeps the transactions locked. -/
theorem Guarded.inside (h : s.Guarded) (hwriter : s.writer = none ∨ s.writer = some i)
    (hcalls : t.calls = Function.update s.calls i (some (call, reached)))
    (hi : t.writer = some i)
    (hcurrent : ∀ transactionId now, (call, reached) = (.commit transactionId now, .validated) →
      ∃ txn, t.manager.active transactionId = .ok txn ∧ t.manager.stale txn = none) :
    t.Guarded where
  writer := by
    intro j call' reached' hj hwriting
    rw [hcalls, Function.update_apply] at hj
    split at hj
    · next heq =>
      rw [heq]
      exact hi
    · next hne => exact absurd hwriting (h.others hwriter hne hj)
  current := by
    intro j transactionId now hj
    rw [hcalls, Function.update_apply] at hj
    split at hj
    · exact hcurrent transactionId now (Option.some.inj hj)
    · next hne => exact absurd trivial (h.others hwriter hne hj)

theorem Guarded.leave (h : s.Guarded) (hi : s.calls i = some (call, .closed))
    (hcalls : t.calls = Function.update s.calls i none) : t.Guarded where
  writer := by
    intro j call' reached' hj hwriting
    rw [hcalls, Function.update_apply] at hj
    split at hj
    · cases hj
    · next hne => exact absurd hwriting (h.others (.inr (h.writer i _ _ hi trivial)) hne hj)
  current := by
    intro j transactionId now hj
    rw [hcalls, Function.update_apply] at hj
    split at hj
    · cases hj
    · next hne => exact absurd trivial (h.others (.inr (h.writer i _ _ hi trivial)) hne hj)

theorem calls_goOn {x : Call × Reached} (hj : (s.goOn i call reached).calls j = some x) :
    j = i ∧ x = (call, reached) ∨ j ≠ i ∧ s.calls j = some x := by
  unfold goOn at hj
  dsimp only at hj
  rw [Function.update_apply] at hj
  split at hj
  · next heq => exact .inl ⟨heq, (Option.some.inj hj).symm⟩
  · next hne => exact .inr ⟨hne, hj⟩

/-- The calls after a section, if it is not one of those that keep the transactions locked. -/
theorem calls_goOn_of_writing (reached : Reached) (hnot : ¬ reached.Writing) {call' : Call}
    {reached' : Reached} (hj : (s.goOn i call reached).calls j = some (call', reached'))
    (hwriting : reached'.Writing) :
    s.calls j = some (call', reached') := by
  rcases calls_goOn hj with ⟨-, heq⟩ | ⟨-, hold⟩
  · cases heq
    exact absurd hwriting hnot
  · exact hold

theorem calls_finish {call' : Call} {reached' : Reached}
    (hj : (s.finish i).calls j = some (call', reached')) : s.calls j = some (call', reached') := by
  unfold finish at hj
  dsimp only at hj
  rw [Function.update_apply] at hj
  split at hj
  · cases hj
  · exact hj

theorem Guarded.step {a : Step} (h : s.Guarded) (hstep : s.step a = some t) : t.Guarded := by
  cases step_moves hstep with
  | returned hnew => exact h
  | began hnew hfree hfresh => exact h.outside (fun _ _ _ hj _ => hj) rfl (.inl hfree)
  | wrote hnew hfree => exact h.outside (fun _ _ _ hj _ => hj) rfl (.inl hfree)
  | checked hnew =>
    exact h.outside (fun _ _ _ => calls_goOn_of_writing .checked id) rfl (.inr ⟨rfl, rfl⟩)
  | sampled hnew =>
    exact h.outside (fun _ _ _ => calls_goOn_of_writing (.sampled _) id) rfl (.inr ⟨rfl, rfl⟩)
  | opened hnew hfree htxn =>
    exact h.inside (.inl hfree) rfl rfl fun _ _ heq => by cases heq
  | rolledBack hnew hfree htxn =>
    exact h.inside (.inl hfree) rfl rfl fun _ _ heq => by cases heq
  | refused hi hr => exact h.outside (fun _ _ _ hj _ => calls_finish hj) rfl (.inr ⟨rfl, rfl⟩)
  | granted hi hr =>
    exact h.outside (fun _ _ _ => calls_goOn_of_writing .granted id) rfl (.inr ⟨rfl, rfl⟩)
  | recorded hi hfree => exact h.outside (fun _ _ _ hj _ => calls_finish hj) rfl (.inl hfree)
  | stamped hi hfree => exact h.outside (fun _ _ _ hj _ => calls_finish hj) rfl (.inl hfree)
  | failed hi htxn hstale =>
    have hwriter := h.writer _ _ _ hi trivial
    exact h.inside (.inr hwriter) rfl hwriter fun _ _ heq => by cases heq
  | validated hi htxn hstale =>
    have hwriter := h.writer _ _ _ hi trivial
    refine h.inside (.inr hwriter) rfl hwriter fun _ _ heq => ?_
    cases heq
    exact ⟨_, htxn, hstale⟩
  | applied hi htxn =>
    have hwriter := h.writer _ _ _ hi trivial
    exact h.inside (.inr hwriter) rfl hwriter fun _ _ heq => by cases heq
  | released hi => exact h.leave hi rfl

/-- A call that has read a version has read it before, or in its first section now. -/
theorem sampled_of_step {a : Step} {transactionId : Uuid} {entityId modality : String}
    {version : ℕ} (hstep : s.step a = some t)
    (hj : t.calls j = some (.recordRead transactionId entityId modality, .sampled version)) :
    s.calls j = some (.recordRead transactionId entityId modality, .sampled version) ∧
        (∀ call, a ≠ .start j call) ∨
      a = .start j (.recordRead transactionId entityId modality) ∧
        version = s.manager.versionTable (entityId, modality) := by
  have hbusy : ∀ {i call}, s.calls i = none → s.calls j =
      some (.recordRead transactionId entityId modality, .sampled version) →
      ∀ call', Step.start i call ≠ .start j call' := by
    intro i call hnew hold call' heq
    cases heq
    rw [hnew] at hold
    cases hold
  have hon : ∀ {i call reached}, s.calls i = none →
      (∀ version, reached ≠ .sampled version) →
      (s.goOn i call reached).calls j =
        some (.recordRead transactionId entityId modality, .sampled version) →
      s.calls j = some (.recordRead transactionId entityId modality, .sampled version) ∧
        ∀ call', Step.start i call ≠ .start j call' := by
    intro i call reached hnew hne hgo
    rcases calls_goOn hgo with ⟨-, heq⟩ | ⟨-, hold⟩
    · cases heq
      exact absurd rfl (hne version)
    · exact ⟨hold, hbusy hnew hold⟩
  have hnext : ∀ {i call reached}, (∀ version, reached ≠ .sampled version) →
      (s.goOn i call reached).calls j =
        some (.recordRead transactionId entityId modality, .sampled version) →
      s.calls j = some (.recordRead transactionId entityId modality, .sampled version) ∧
        ∀ call', Step.resume i ≠ .start j call' := by
    intro i call reached hne hgo
    rcases calls_goOn hgo with ⟨-, heq⟩ | ⟨-, hold⟩
    · cases heq
      exact absurd rfl (hne version)
    · exact ⟨hold, fun _ heq => by cases heq⟩
  cases step_moves hstep with
  | returned hnew => exact .inl ⟨hj, hbusy hnew hj⟩
  | began hnew hfree hfresh => exact .inl ⟨hj, hbusy hnew hj⟩
  | wrote hnew hfree => exact .inl ⟨hj, hbusy hnew hj⟩
  | checked hnew => exact .inl (hon hnew (fun _ heq => by cases heq) hj)
  | sampled hnew =>
    rcases calls_goOn hj with ⟨rfl, heq⟩ | ⟨-, hold⟩
    · cases heq
      exact .inr ⟨rfl, rfl⟩
    · exact .inl ⟨hold, hbusy hnew hold⟩
  | opened hnew hfree htxn => exact .inl (hon hnew (fun _ heq => by cases heq) hj)
  | rolledBack hnew hfree htxn => exact .inl (hon hnew (fun _ heq => by cases heq) hj)
  | refused hi hr => exact .inl ⟨calls_finish hj, fun _ heq => by cases heq⟩
  | granted hi hr => exact .inl (hnext (fun _ heq => by cases heq) hj)
  | recorded hi hfree => exact .inl ⟨calls_finish hj, fun _ heq => by cases heq⟩
  | stamped hi hfree => exact .inl ⟨calls_finish hj, fun _ heq => by cases heq⟩
  | failed hi htxn hstale => exact .inl (hnext (fun _ heq => by cases heq) hj)
  | validated hi htxn hstale => exact .inl (hnext (fun _ heq => by cases heq) hj)
  | applied hi htxn => exact .inl (hnext (fun _ heq => by cases heq) hj)
  | released hi => exact .inl ⟨calls_finish hj, fun _ heq => by cases heq⟩

end Sections

/-! ### Histories -/

def UndoEntry.key (entry : UndoEntry) : LockKey := (entry.entityId, entry.modality)

def ReadStamp.key (stamp : ReadStamp) : LockKey := (stamp.entityId, stamp.modality)

/-- A commit that has returned or will return `Ok`. -/
structure Commit where
  transactionId : Uuid
  isolationLevel : IsolationLevel
  /-- The pair of each undo entry. -/
  writes : List LockKey
  /-- The pair of each read stamp, with the number of commits before its version was read. -/
  reads : List (LockKey × ℕ)
  deriving DecidableEq

/-- The calls in progress, and what has happened so far. -/
structure History where
  sections : Sections
  commits : List Commit
  /-- The number of commits when a call in progress has read a version. -/
  sampledAt : ℕ → ℕ
  /-- For each read stamp of a transaction, its pair and the number of commits at its read. -/
  readAt : Uuid → List (LockKey × ℕ)

namespace History

open Sections (Step)

def new : History := ⟨.new, [], fun _ => 0, fun _ => []⟩

/-- The commit that the next section of a call applies. -/
def applying (h : History) : Step → Option Commit
  | .start _ _ => none
  | .resume i =>
    match h.sections.calls i with
    | some (.commit transactionId _, .validated) =>
      match h.sections.manager.active transactionId with
      | .error _ => none
      | .ok txn => some {
          transactionId := transactionId
          isolationLevel := txn.isolationLevel
          writes := txn.undoLog.map UndoEntry.key
          reads := h.readAt transactionId }
    | _ => none

/-- The read that the next section of a call records. -/
def recording (h : History) : Step → Option (Uuid × LockKey × ℕ)
  | .start _ _ => none
  | .resume i =>
    match h.sections.calls i with
    | some (.recordRead transactionId entityId modality, .sampled _) =>
      match h.sections.manager.active transactionId with
      | .error _ => none
      | .ok _ => some (transactionId, (entityId, modality), h.sampledAt i)
    | _ => none

def step (h : History) (a : Step) : Option History :=
  (h.sections.step a).map fun sections => {
    sections := sections
    commits := h.commits ++ (h.applying a).toList
    sampledAt := match a with
      | .start i _ => Function.update h.sampledAt i h.commits.length
      | .resume _ => h.sampledAt
    readAt := match h.recording a with
      | none => h.readAt
      | some (transactionId, read) =>
        Function.update h.readAt transactionId (h.readAt transactionId ++ [read]) }

def transactions (h : History) : Uuid → Option Transaction :=
  h.sections.manager.activeTransactions

def versions (h : History) : LockKey → ℕ := h.sections.manager.versionTable

/-- The committed writes of a pair among the first commits. -/
def writesBefore (commits : List Commit) (key : LockKey) (n : ℕ) : ℕ :=
  ((commits.take n).flatMap Commit.writes).count key

/-! ### What a section does to the history -/

/-- What changes in the transactions, the versions and the history. -/
inductive Effect (h h' : History) : Prop
  | quiet (htransactions : h'.transactions = h.transactions) (hversions : h'.versions = h.versions)
      (hcommits : h'.commits = h.commits) (hreads : h'.readAt = h.readAt)
  | began {transactionId txn} (hfresh : h.transactions transactionId = none)
      (hstate : txn.state = .active) (hempty : txn.readSet = [])
      (htransactions : h'.transactions =
        Function.update h.transactions transactionId (some txn))
      (hversions : h'.versions = h.versions) (hcommits : h'.commits = h.commits)
      (hreads : h'.readAt = h.readAt)
  | kept {transactionId txn txn'} (htxn : h.transactions transactionId = some txn)
      (htransactions : h'.transactions =
        Function.update h.transactions transactionId (some txn'))
      (hstate : txn'.state = .committed ↔ txn.state = .committed)
      (hundo : txn.state = .committed → txn'.undoLog = txn.undoLog)
      (hset : txn'.readSet = txn.readSet) (hlevel : txn'.isolationLevel = txn.isolationLevel)
      (hversions : h'.versions = h.versions) (hcommits : h'.commits = h.commits)
      (hreads : h'.readAt = h.readAt)
  | stamped {i transactionId entityId modality version txn}
      (hi : h.sections.calls i =
        some (.recordRead transactionId entityId modality, .sampled version))
      (htxn : h.transactions transactionId = some txn) (hstate : txn.state = .active)
      (htransactions : h'.transactions = Function.update h.transactions transactionId
        (some { txn with readSet := txn.readSet ++ [⟨entityId, modality, version⟩] }))
      (hversions : h'.versions = h.versions) (hcommits : h'.commits = h.commits)
      (hreads : h'.readAt = Function.update h.readAt transactionId
        (h.readAt transactionId ++ [((entityId, modality), h.sampledAt i)]))
  | applied {transactionId txn now} (htxn : h.transactions transactionId = some txn)
      (hstate : txn.state = .active) (hstale : h.sections.manager.stale txn = none)
      (htransactions : h'.transactions = Function.update h.transactions transactionId
        (some { txn with state := .committed, completedAt := some now }))
      (hversions : h'.versions = txn.undoLog.foldl TransactionManager.increment h.versions)
      (hcommits : h'.commits = h.commits ++ [{
        transactionId := transactionId
        isolationLevel := txn.isolationLevel
        writes := txn.undoLog.map UndoEntry.key
        reads := h.readAt transactionId }])
      (hreads : h'.readAt = h.readAt)

variable {h h' : History} {a : Step}

open Sections (active_some)

theorem effect_of_step (hguarded : h.sections.Guarded) (hstep : h.step a = some h') :
    Effect h h' := by
  obtain ⟨t, ht, rfl⟩ := Option.map_eq_some_iff.mp hstep
  cases Sections.step_moves ht with
  | returned hnew => exact .quiet rfl rfl (List.append_nil _) rfl
  | began hnew hfree hfresh => exact .began hfresh rfl rfl rfl rfl (List.append_nil _) rfl
  | @wrote i transactionId entityId modality previousData previousVersion now hnew hfree =>
    by_cases hmodality : modality ∈ MODALITIES
    · cases htxn : h.sections.manager.active transactionId with
      | error e =>
        have hsame : (h.sections.manager.recordUndo transactionId entityId modality previousData
            previousVersion now).2 = h.sections.manager := by
          simp [TransactionManager.recordUndo, hmodality, htxn]
        rw [hsame]
        exact .quiet rfl rfl (List.append_nil _) rfl
      | ok txn =>
        have hput : (h.sections.manager.recordUndo transactionId entityId modality previousData
            previousVersion now).2 = h.sections.manager.put transactionId { txn with
              undoLog := txn.undoLog ++
                [⟨entityId, modality, previousData, previousVersion, now⟩] } := by
          simp [TransactionManager.recordUndo, hmodality, htxn]
        rw [hput]
        refine .kept (active_some htxn) rfl Iff.rfl ?_ rfl rfl rfl (List.append_nil _) rfl
        intro hcommitted
        rw [TransactionManager.active_state htxn] at hcommitted
        cases hcommitted
    · have hsame : (h.sections.manager.recordUndo transactionId entityId modality previousData
          previousVersion now).2 = h.sections.manager := by
        simp [TransactionManager.recordUndo, hmodality]
      rw [hsame]
      exact .quiet rfl rfl (List.append_nil _) rfl
  | checked hnew => exact .quiet rfl rfl (List.append_nil _) rfl
  | sampled hnew => exact .quiet rfl rfl (List.append_nil _) rfl
  | opened hnew hfree htxn => exact .quiet rfl rfl (List.append_nil _) rfl
  | @rolledBack i transactionId now txn hnew hfree htxn =>
    have hstate := TransactionManager.active_state htxn
    exact .kept (active_some htxn) rfl (by simp [hstate]) (fun _ => rfl) rfl rfl rfl
      (List.append_nil _) rfl
  | refused hi hr =>
    exact .quiet rfl rfl (by simp [applying, hi]) (by simp [recording, hi])
  | granted hi hr =>
    exact .quiet rfl rfl (by simp [applying, hi]) (by simp [recording, hi])
  | @recorded i transactionId entityId modality lockType hi hfree =>
    have hcommits : h.commits ++ (h.applying (.resume i)).toList = h.commits := by
      simp [applying, hi]
    have hrecording : h.recording (.resume i) = none := by simp [recording, hi]
    cases htxn : h.sections.manager.activeTransactions transactionId with
    | none =>
      refine .quiet ?_ ?_ hcommits (by simp [hrecording])
      · simp [transactions, TransactionManager.recordLock, htxn]
      · simp [versions, TransactionManager.recordLock, htxn]
    | some txn =>
      have htransactions : (h.sections.manager.recordLock transactionId entityId modality
          lockType).activeTransactions = Function.update h.transactions transactionId
            (some { txn with locks :=
              (txn.locks.filter fun l => ¬ (l.entityId = entityId ∧ l.modality = modality)) ++
                [⟨entityId, modality, lockType⟩] }) := by
        simp [transactions, TransactionManager.recordLock, TransactionManager.put, htxn]
      refine .kept htxn htransactions Iff.rfl (fun _ => rfl) rfl rfl ?_ hcommits
        (by simp [hrecording])
      · simp [versions, TransactionManager.recordLock, TransactionManager.put, htxn]
  | @stamped i transactionId entityId modality version hi hfree =>
    have hcommits : h.commits ++ (h.applying (.resume i)).toList = h.commits := by
      simp [applying, hi]
    cases htxn : h.sections.manager.active transactionId with
    | error e =>
      refine .quiet ?_ ?_ hcommits ?_
      · simp [transactions, TransactionManager.recordStamp, htxn]
      · simp [versions, TransactionManager.recordStamp, htxn]
      · simp [recording, hi, htxn]
    | ok txn =>
      refine .stamped hi (active_some htxn) (TransactionManager.active_state htxn) ?_ ?_ hcommits ?_
      · simp [transactions, TransactionManager.recordStamp, TransactionManager.put, htxn]
      · simp [versions, TransactionManager.recordStamp, TransactionManager.put, htxn]
      · simp [recording, hi, htxn]
  | @failed i transactionId now txn stamp hi htxn hstale =>
    have hstate := TransactionManager.active_state htxn
    exact .kept (active_some htxn) rfl (by simp [hstate]) (fun _ => rfl) rfl rfl rfl
      (by simp [applying, hi]) (by simp [recording, hi])
  | validated hi htxn hstale =>
    exact .quiet rfl rfl (by simp [applying, hi]) (by simp [recording, hi])
  | @applied i transactionId now txn hi htxn =>
    obtain ⟨txn', htxn', hstale⟩ := hguarded.current i transactionId now hi
    rw [htxn] at htxn'
    cases htxn'
    exact .applied (active_some htxn) (TransactionManager.active_state htxn) hstale rfl rfl
      (by simp [applying, hi, htxn]) (by simp [recording, hi])
  | @released i call hi =>
    refine .quiet rfl rfl ?_ ?_
    · cases call <;> simp [applying, hi]
    · cases call <;> simp [recording, hi]

/-! ### Versions count commits -/

theorem writesBefore_append {commits : List Commit} {c : Commit} {key : LockKey} {n : ℕ}
    (hn : n ≤ commits.length) :
    writesBefore (commits ++ [c]) key n = writesBefore commits key n := by
  unfold writesBefore
  rw [List.take_append_of_le_length hn]

theorem writesBefore_length (commits : List Commit) (key : LockKey) :
    writesBefore commits key commits.length = (commits.flatMap Commit.writes).count key := by
  unfold writesBefore
  rw [List.take_length]

theorem increment_apply (versions : LockKey → ℕ) (entry : UndoEntry) (key : LockKey) :
    TransactionManager.increment versions entry key =
      versions key + [entry.key].count key := by
  unfold TransactionManager.increment
  rw [Function.update_apply, List.count_singleton]
  by_cases h : key = entry.key
  · subst h
    simp [UndoEntry.key]
  · have hne : key ≠ (entry.entityId, entry.modality) := h
    simp [hne, Ne.symm h]

/-- A commit raises each version by the number of undo entries on its pair. -/
theorem foldl_increment (undoLog : List UndoEntry) (versions : LockKey → ℕ) (key : LockKey) :
    undoLog.foldl TransactionManager.increment versions key =
      versions key + (undoLog.map UndoEntry.key).count key := by
  induction undoLog generalizing versions with
  | nil => rfl
  | cons entry rest ih =>
    rw [List.foldl_cons, ih, increment_apply, List.map_cons, Nat.add_assoc, ← List.count_append]
    rfl

/-- What the versions and the stamps count. -/
structure Counted (h : History) : Prop where
  versions : ∀ key, h.versions key = writesBefore h.commits key h.commits.length
  sampled : ∀ i transactionId entityId modality version,
    h.sections.calls i = some (.recordRead transactionId entityId modality, .sampled version) →
      h.sampledAt i ≤ h.commits.length ∧
        version = writesBefore h.commits (entityId, modality) (h.sampledAt i)
  stamps : ∀ transactionId txn, h.transactions transactionId = some txn →
    txn.readSet.map (fun stamp => (stamp.key, stamp.versionAtRead)) =
      (h.readAt transactionId).map fun read => (read.1, writesBefore h.commits read.1 read.2)
  earlier : ∀ transactionId, ∀ read ∈ h.readAt transactionId, read.2 ≤ h.commits.length
  fresh : ∀ transactionId, h.transactions transactionId = none → h.readAt transactionId = []

theorem counted_new : new.Counted where
  versions _ := rfl
  sampled := by
    intro i transactionId entityId modality version hi
    cases hi
  stamps := by
    intro transactionId txn htxn
    cases htxn
  earlier := by
    intro transactionId read hread
    cases hread
  fresh _ _ := rfl

/-- A section commits one transaction, or changes neither commits nor versions. -/
theorem commits_of_effect (he : Effect h h') :
    h'.commits = h.commits ∧ h'.versions = h.versions ∨
      ∃ transactionId txn, h.transactions transactionId = some txn ∧ txn.state = .active ∧
        h.sections.manager.stale txn = none ∧
        h'.versions = txn.undoLog.foldl TransactionManager.increment h.versions ∧
        h'.commits = h.commits ++ [{
          transactionId := transactionId
          isolationLevel := txn.isolationLevel
          writes := txn.undoLog.map UndoEntry.key
          reads := h.readAt transactionId }] := by
  cases he with
  | quiet _ hversions hcommits _ => exact .inl ⟨hcommits, hversions⟩
  | began _ _ _ _ hversions hcommits _ => exact .inl ⟨hcommits, hversions⟩
  | kept _ _ _ _ _ _ hversions hcommits _ => exact .inl ⟨hcommits, hversions⟩
  | stamped _ _ _ _ hversions hcommits _ => exact .inl ⟨hcommits, hversions⟩
  | applied htxn hstate hstale _ hversions hcommits _ =>
    exact .inr ⟨_, _, htxn, hstate, hstale, hversions, hcommits⟩

/-- Commits do not change what was counted before. -/
theorem writesBefore_of_effect (he : Effect h h') :
    h.commits.length ≤ h'.commits.length ∧ ∀ key n, n ≤ h.commits.length →
      writesBefore h'.commits key n = writesBefore h.commits key n := by
  rcases commits_of_effect he with ⟨hcommits, -⟩ | ⟨transactionId, txn, -, -, -, -, hcommits⟩
  · rw [hcommits]
    exact ⟨le_rfl, fun _ _ _ => rfl⟩
  · rw [hcommits]
    refine ⟨?_, fun key n hn => writesBefore_append hn⟩
    rw [List.length_append]
    exact Nat.le_add_right _ _

theorem Counted.versions_step (hc : h.Counted) (he : Effect h h') (key : LockKey) :
    h'.versions key = writesBefore h'.commits key h'.commits.length := by
  rcases commits_of_effect he with
    ⟨hcommits, hversions⟩ | ⟨transactionId, txn, -, -, -, hversions, hcommits⟩
  · rw [hversions, hcommits]
    exact hc.versions key
  · rw [hversions, hcommits, foldl_increment, hc.versions key, writesBefore_length,
      writesBefore_length, List.flatMap_append, List.count_append]
    simp

/-- A version that a call has read, in a later state. -/
theorem Counted.sampled_step (hc : h.Counted) (he : Effect h h') (hstep : h.step a = some h')
    {i : ℕ} {transactionId : Uuid} {entityId modality : String} {version : ℕ}
    (hi : h'.sections.calls i =
      some (.recordRead transactionId entityId modality, .sampled version)) :
    h'.sampledAt i ≤ h'.commits.length ∧
      version = writesBefore h'.commits (entityId, modality) (h'.sampledAt i) := by
  obtain ⟨hle, hsame⟩ := writesBefore_of_effect he
  have hold : h.sections.calls i =
      some (.recordRead transactionId entityId modality, .sampled version) →
      h'.sampledAt i = h.sampledAt i → h'.sampledAt i ≤ h'.commits.length ∧
        version = writesBefore h'.commits (entityId, modality) (h'.sampledAt i) := by
    intro hcall hat
    obtain ⟨hbound, hversion⟩ := hc.sampled i transactionId entityId modality version hcall
    rw [hat, hsame _ _ hbound]
    exact ⟨hbound.trans hle, hversion⟩
  obtain ⟨t, ht, rfl⟩ := Option.map_eq_some_iff.mp hstep
  rcases Sections.sampled_of_step ht hi with ⟨hcall, hne⟩ | ⟨rfl, rfl⟩
  · refine hold hcall ?_
    cases a with
    | start j call =>
      refine Function.update_of_ne ?_ _ _
      rintro rfl
      exact hne call rfl
    | resume j => rfl
  · have hat : Function.update h.sampledAt i h.commits.length i = h.commits.length :=
      Function.update_self _ _ _
    refine ⟨(le_of_eq hat).trans hle, ?_⟩
    refine (hc.versions (entityId, modality)).trans ?_
    exact (hsame _ _ le_rfl).symm.trans (congrArg _ hat.symm)

theorem Counted.fresh_step (hc : h.Counted) (he : Effect h h') (transactionId : Uuid)
    (hnone : h'.transactions transactionId = none) : h'.readAt transactionId = [] := by
  have hupdate : ∀ {u txn}, h'.transactions = Function.update h.transactions u (some txn) →
      transactionId ≠ u ∧ h.transactions transactionId = none := by
    intro u txn htransactions
    rw [htransactions, Function.update_apply] at hnone
    split at hnone
    · cases hnone
    · next hne => exact ⟨hne, hnone⟩
  cases he with
  | quiet htransactions hversions hcommits hreads =>
    rw [htransactions] at hnone
    rw [hreads]
    exact hc.fresh transactionId hnone
  | began hfresh hstate hempty htransactions hversions hcommits hreads =>
    rw [hreads]
    exact hc.fresh transactionId (hupdate htransactions).2
  | kept htxn htransactions hstate hundo hset hlevel hversions hcommits hreads =>
    rw [hreads]
    exact hc.fresh transactionId (hupdate htransactions).2
  | stamped hi htxn hstate htransactions hversions hcommits hreads =>
    obtain ⟨hne, hold⟩ := hupdate htransactions
    rw [hreads, Function.update_of_ne hne]
    exact hc.fresh transactionId hold
  | applied htxn hstate hstale htransactions hversions hcommits hreads =>
    rw [hreads]
    exact hc.fresh transactionId (hupdate htransactions).2

theorem Counted.earlier_step (hc : h.Counted) (he : Effect h h') (transactionId : Uuid)
    (read : LockKey × ℕ) (hread : read ∈ h'.readAt transactionId) :
    read.2 ≤ h'.commits.length := by
  obtain ⟨hle, -⟩ := writesBefore_of_effect he
  have hold : read ∈ h.readAt transactionId → read.2 ≤ h'.commits.length :=
    fun hmem => (hc.earlier transactionId read hmem).trans hle
  cases he with
  | quiet _ _ _ hreads => exact hold (hreads ▸ hread)
  | began _ _ _ _ _ _ hreads => exact hold (hreads ▸ hread)
  | kept _ _ _ _ _ _ _ _ hreads => exact hold (hreads ▸ hread)
  | stamped hi _ _ _ _ _ hreads =>
    rw [hreads, Function.update_apply] at hread
    split at hread
    · next heq =>
      rcases List.mem_append.mp hread with hmem | hmem
      · exact hold (heq ▸ hmem)
      · rw [List.mem_singleton.mp hmem]
        exact ((hc.sampled _ _ _ _ _ hi).1).trans hle
    · exact hold hread
  | applied _ _ _ _ _ _ hreads => exact hold (hreads ▸ hread)

theorem Counted.stamps_step (hc : h.Counted) (he : Effect h h') (transactionId : Uuid)
    (txn : Transaction) (htxn : h'.transactions transactionId = some txn) :
    txn.readSet.map (fun stamp => (stamp.key, stamp.versionAtRead)) =
      (h'.readAt transactionId).map fun read =>
        (read.1, writesBefore h'.commits read.1 read.2) := by
  obtain ⟨-, hsame⟩ := writesBefore_of_effect he
  have hcounts : (h.readAt transactionId).map (fun read =>
        (read.1, writesBefore h'.commits read.1 read.2)) =
      (h.readAt transactionId).map fun read =>
        (read.1, writesBefore h.commits read.1 read.2) := by
    refine List.map_congr_left fun read hread => ?_
    rw [hsame _ _ (hc.earlier transactionId read hread)]
  have hupdate : ∀ {u old new}, h'.transactions = Function.update h.transactions u (some new) →
      h.transactions u = some old → new.readSet = old.readSet → h'.readAt = h.readAt →
      txn.readSet.map (fun stamp => (stamp.key, stamp.versionAtRead)) =
        (h'.readAt transactionId).map fun read =>
          (read.1, writesBefore h'.commits read.1 read.2) := by
    intro u old new htransactions hold hset hreads
    rw [hreads, hcounts]
    rw [htransactions, Function.update_apply] at htxn
    split at htxn
    · next heq =>
      cases htxn
      rw [hset]
      exact hc.stamps transactionId old (heq ▸ hold)
    · exact hc.stamps transactionId txn htxn
  cases he with
  | quiet htransactions hversions hcommits hreads =>
    rw [hreads, hcounts]
    exact hc.stamps transactionId txn (htransactions ▸ htxn)
  | began hfresh hstate hempty htransactions hversions hcommits hreads =>
    rw [hreads, hcounts]
    rw [htransactions, Function.update_apply] at htxn
    split at htxn
    · next heq =>
      cases htxn
      rw [hempty, hc.fresh transactionId (heq ▸ hfresh)]
      rfl
    · exact hc.stamps transactionId txn htxn
  | kept hold htransactions hstate hundo hset hlevel hversions hcommits hreads =>
    exact hupdate htransactions hold hset hreads
  | @stamped i u entityId modality version old hi hold hstate htransactions hversions hcommits
      hreads =>
    obtain ⟨hbound, hversion⟩ := hc.sampled _ _ _ _ _ hi
    rw [htransactions, Function.update_apply] at htxn
    rw [hreads, Function.update_apply]
    split at htxn
    · next heq =>
      subst heq
      cases htxn
      rw [if_pos rfl, List.map_append, List.map_append, hcounts, hc.stamps _ _ hold]
      simp [ReadStamp.key, hsame _ _ hbound, hversion]
    · next hne =>
      rw [if_neg hne, hcounts]
      exact hc.stamps transactionId txn htxn
  | applied hold hstate hstale htransactions hversions hcommits hreads =>
    exact hupdate htransactions hold rfl hreads

theorem Counted.step (hc : h.Counted) (he : Effect h h') (hstep : h.step a = some h') :
    h'.Counted where
  versions := hc.versions_step he
  sampled _ _ _ _ _ hi := hc.sampled_step he hstep hi
  stamps := hc.stamps_step he
  earlier := hc.earlier_step he
  fresh := hc.fresh_step he

/-! ### Serializability -/

/-- No commit between the read of a serializable transaction and its own commit has written
what it read. -/
def Serial (commits : List Commit) : Prop :=
  ∀ (n : ℕ) (c : Commit), commits[n]? = some c → c.isolationLevel = .serializable →
    ∀ key k, (key, k) ∈ c.reads → k ≤ n ∧
      ∀ (m : ℕ) (other : Commit), k ≤ m → m < n → commits[m]? = some other →
        key ∉ other.writes

theorem not_written_of_count {commits : List Commit} {key : LockKey} {k m : ℕ} {other : Commit}
    (hcount : writesBefore commits key k = writesBefore commits key commits.length)
    (hk : k ≤ m) (hother : commits[m]? = some other) : key ∉ other.writes := by
  have hsplit : writesBefore commits key commits.length =
      writesBefore commits key k + ((commits.drop k).flatMap Commit.writes).count key := by
    unfold writesBefore
    rw [List.take_length, ← List.count_append, ← List.flatMap_append, List.take_append_drop]
  have hzero : ((commits.drop k).flatMap Commit.writes).count key = 0 := by
    omega
  intro hkey
  refine List.count_eq_zero.mp hzero (List.mem_flatMap.mpr ⟨other, ?_, hkey⟩)
  refine List.mem_of_getElem? (i := m - k) ?_
  rw [List.getElem?_drop, Nat.add_sub_cancel' hk]
  exact hother

/-- A read set that is current has not been overwritten since its reads. -/
theorem Counted.current (hc : h.Counted) {transactionId : Uuid} {txn : Transaction}
    (htxn : h.transactions transactionId = some txn)
    (hlevel : txn.isolationLevel = .serializable)
    (hstale : h.sections.manager.stale txn = none) {key : LockKey} {k : ℕ}
    (hread : (key, k) ∈ h.readAt transactionId) :
    writesBefore h.commits key k = writesBefore h.commits key h.commits.length := by
  have hmem : (key, writesBefore h.commits key k) ∈
      txn.readSet.map fun stamp => (stamp.key, stamp.versionAtRead) := by
    rw [hc.stamps transactionId txn htxn]
    exact List.mem_map.mpr ⟨(key, k), hread, rfl⟩
  obtain ⟨stamp, hstamp, heq⟩ := List.mem_map.mp hmem
  simp only [Prod.mk.injEq] at heq
  rw [← heq.2, ← hc.versions key, ← heq.1]
  unfold TransactionManager.stale at hstale
  rw [hlevel] at hstale
  have hcurrent := List.find?_eq_none.mp hstale stamp hstamp
  simp only [ne_eq, decide_not, Bool.not_eq_true', decide_eq_false_iff_not, not_not] at hcurrent
  exact hcurrent.symm

theorem Serial.append {commits : List Commit} {c : Commit} (hs : Serial commits)
    (hc : c.isolationLevel = .serializable → ∀ key k, (key, k) ∈ c.reads →
      k ≤ commits.length ∧
        writesBefore commits key k = writesBefore commits key commits.length) :
    Serial (commits ++ [c]) := by
  intro n c' hn hlevel key k hread
  rw [List.getElem?_append] at hn
  split at hn
  · next hlt =>
    obtain ⟨hk, hbetween⟩ := hs n c' hn hlevel key k hread
    refine ⟨hk, fun m other hkm hmn hm => hbetween m other hkm hmn ?_⟩
    rwa [List.getElem?_append_left (hmn.trans hlt)] at hm
  · next hge =>
    have hlast : n = commits.length := by
      have hbound := (List.getElem?_eq_some_iff.mp hn).1
      rw [List.length_singleton] at hbound
      omega
    subst hlast
    rw [Nat.sub_self] at hn
    cases hn
    obtain ⟨hk, hcount⟩ := hc hlevel key k hread
    refine ⟨hk, fun m other hkm hmn hm => ?_⟩
    rw [List.getElem?_append_left hmn] at hm
    exact not_written_of_count hcount hkm hm

theorem Serial.step (hs : Serial h.commits) (hc : h.Counted) (he : Effect h h') :
    Serial h'.commits := by
  rcases commits_of_effect he with
    ⟨hcommits, -⟩ | ⟨transactionId, txn, htxn, hstate, hstale, -, hcommits⟩
  · rw [hcommits]
    exact hs
  · rw [hcommits]
    refine hs.append fun hlevel key k hread => ⟨hc.earlier transactionId _ hread, ?_⟩
    exact hc.current htxn hlevel hstale hread

/-- The commits of the history are the committed transactions. -/
structure Recorded (h : History) : Prop where
  committed : ∀ c ∈ h.commits, ∃ txn, h.transactions c.transactionId = some txn ∧
    txn.state = .committed ∧ c.isolationLevel = txn.isolationLevel ∧
      c.writes = txn.undoLog.map UndoEntry.key ∧
      c.reads.map Prod.fst = txn.readSet.map ReadStamp.key
  all : ∀ transactionId txn, h.transactions transactionId = some txn → txn.state = .committed →
    ∃ c ∈ h.commits, c.transactionId = transactionId
  once : (h.commits.map Commit.transactionId).Nodup

/-- A change of a transaction that has not committed, or that leaves what it committed. -/
theorem Recorded.put (hr : h.Recorded) {transactionId : Uuid} {txn : Transaction}
    (hold : ∀ old, h.transactions transactionId = some old → old.state = .committed →
      txn.state = .committed ∧ txn.isolationLevel = old.isolationLevel ∧
        txn.undoLog = old.undoLog ∧ txn.readSet = old.readSet)
    (hnew : txn.state = .committed →
      ∃ old, h.transactions transactionId = some old ∧ old.state = .committed)
    (htransactions : h'.transactions = Function.update h.transactions transactionId (some txn))
    (hcommits : h'.commits = h.commits) : h'.Recorded where
  committed := by
    intro c hc
    rw [hcommits] at hc
    obtain ⟨old, htxn, hstate, hlevel, hwrites, hreads⟩ := hr.committed c hc
    rw [htransactions, Function.update_apply]
    split
    · next heq =>
      obtain ⟨hstate', hlevel', hundo', hset'⟩ := hold old (heq ▸ htxn) hstate
      exact ⟨txn, rfl, hstate', by rw [hlevel, hlevel'], by rw [hwrites, hundo'],
        by rw [hreads, hset']⟩
    · exact ⟨old, htxn, hstate, hlevel, hwrites, hreads⟩
  all := by
    intro u txn' htxn' hstate
    rw [hcommits]
    rw [htransactions, Function.update_apply] at htxn'
    split at htxn'
    · next heq =>
      cases htxn'
      obtain ⟨old, hold', hstate'⟩ := hnew hstate
      rw [heq]
      exact hr.all transactionId old hold' hstate'
    · exact hr.all u txn' htxn' hstate
  once := by
    rw [hcommits]
    exact hr.once

theorem Recorded.step (hr : h.Recorded) (hc : h.Counted) (he : Effect h h') : h'.Recorded := by
  cases he with
  | quiet htransactions hversions hcommits hreads =>
    refine ⟨?_, ?_, ?_⟩
    · rw [hcommits, htransactions]
      exact hr.committed
    · rw [hcommits, htransactions]
      exact hr.all
    · rw [hcommits]
      exact hr.once
  | began hfresh hstate hempty htransactions hversions hcommits hreads =>
    refine hr.put ?_ ?_ htransactions hcommits
    · intro old hold
      rw [hfresh] at hold
      cases hold
    · intro hcommitted
      rw [hstate] at hcommitted
      cases hcommitted
  | kept htxn htransactions hstate hundo hset hlevel hversions hcommits hreads =>
    refine hr.put ?_ (fun hcommitted => ⟨_, htxn, hstate.mp hcommitted⟩) htransactions hcommits
    intro old hold hcommitted
    rw [htxn] at hold
    cases hold
    exact ⟨hstate.mpr hcommitted, hlevel, hundo hcommitted, hset⟩
  | stamped hi htxn hstate htransactions hversions hcommits hreads =>
    refine hr.put ?_ ?_ htransactions hcommits
    · intro old hold hcommitted
      rw [htxn] at hold
      cases hold
      rw [hstate] at hcommitted
      cases hcommitted
    · intro hcommitted
      rw [show _ = TransactionState.active from hstate] at hcommitted
      cases hcommitted
  | @applied transactionId txn now htxn hstate hstale htransactions hversions hcommits hreads =>
    have hother : ∀ c ∈ h.commits, c.transactionId ≠ transactionId := by
      intro c hmem heq
      obtain ⟨old, hold, hcommitted, -⟩ := hr.committed c hmem
      rw [heq, htxn] at hold
      cases hold
      rw [hstate] at hcommitted
      cases hcommitted
    have hpairs : (h.readAt transactionId).map Prod.fst = txn.readSet.map ReadStamp.key := by
      have hstamps := congrArg (List.map Prod.fst) (hc.stamps transactionId txn htxn)
      rw [List.map_map, List.map_map] at hstamps
      exact hstamps.symm
    refine ⟨?_, ?_, ?_⟩
    · intro c hmem
      rw [hcommits] at hmem
      rw [htransactions]
      rcases List.mem_append.mp hmem with hmem | hmem
      · rw [Function.update_of_ne (hother c hmem)]
        exact hr.committed c hmem
      · rw [List.mem_singleton.mp hmem, Function.update_self]
        exact ⟨_, rfl, rfl, rfl, rfl, hpairs⟩
    · intro u txn' htxn' hcommitted
      rw [hcommits]
      rw [htransactions, Function.update_apply] at htxn'
      split at htxn'
      · next heq => exact ⟨_, List.mem_append_right _ List.mem_cons_self, heq.symm⟩
      · obtain ⟨c, hmem, hid⟩ := hr.all u txn' htxn' hcommitted
        exact ⟨c, List.mem_append_left _ hmem, hid⟩
    · rw [hcommits, List.map_append, List.nodup_append]
      refine ⟨hr.once, List.nodup_singleton _, ?_⟩
      intro u hu v hv
      obtain ⟨c, hmem, rfl⟩ := List.mem_map.mp hu
      rw [List.mem_singleton.mp hv]
      exact hother c hmem

/-- In every interleaving, a serializable transaction that commits has read nothing that
somebody else overwrote before its commit, and a version is the number of undo entries that
committed transactions recorded. -/
theorem serializable_commits (r : Run step (fun _ _ => True) new h) :
    Serial h.commits ∧
      (∀ key, h.sections.manager.versionTable key =
        (h.commits.flatMap Commit.writes).count key) ∧ h.Recorded := by
  have hall : h.sections.Guarded ∧ h.Counted ∧ Serial h.commits ∧ h.Recorded := by
    refine r.invariant (I := fun h => h.sections.Guarded ∧ h.Counted ∧ Serial h.commits ∧
      h.Recorded) ?_ ?_
    · rintro h a h' ⟨hguarded, hcounted, hserial, hrecorded⟩ - hstep
      have he := effect_of_step hguarded hstep
      obtain ⟨t, ht, heq⟩ := Option.map_eq_some_iff.mp hstep
      refine ⟨?_, hcounted.step he hstep, hserial.step hcounted he, hrecorded.step hcounted he⟩
      rw [← heq]
      exact hguarded.step ht
    · refine ⟨Sections.guarded_new, counted_new, ?_, ?_, ?_, List.nodup_nil⟩
      · intro n c hn
        cases hn
      · intro c hc
        cases hc
      · intro transactionId txn htxn
        cases htxn
  obtain ⟨-, hcounted, hserial, hrecorded⟩ := hall
  refine ⟨hserial, fun key => ?_, hrecorded⟩
  rw [← writesBefore_length]
  exact hcounted.versions key

/-- A reader commits after a writer of another pair. -/
theorem serializable_commits_apart :
    ∃ h, exec step new [.start 0 (.begin "a" .serializable DateTime.unixEpoch),
        .start 0 (.begin "b" .serializable DateTime.unixEpoch),
        .start 0 (.recordRead "a" "e" "graph"), .resume 0,
        .start 1 (.recordUndo "b" "e" "vector" none 0 DateTime.unixEpoch),
        .start 1 (.commit "b" DateTime.unixEpoch), .resume 1, .resume 1, .resume 1,
        .start 0 (.commit "a" DateTime.unixEpoch), .resume 0, .resume 0,
        .resume 0] = some h ∧
      h.commits.map Commit.transactionId = ["b", "a"] ∧ Serial h.commits ∧
      h.sections.manager.versionTable ("e", "vector") =
        (h.commits.flatMap Commit.writes).count ("e", "vector") := by
  refine Exists.imp (fun h hrun => ⟨hrun, ?_, ?_⟩) ⟨_, rfl⟩
  · cases hrun
    rfl
  · have hserializable := serializable_commits (run_of_steps hrun)
    exact ⟨hserializable.1, hserializable.2.1 _⟩

end History

end NextgenDatabases.Verisim
