import NextgenDatabases.Verisim.Locking

/-!
# Calls that interleave

The manager keeps its transactions, its lock table and its versions behind three locks. A
call is a sequence of sections, each under one of them; the calls that close a transaction
keep the transactions locked from their first section to their last.
-/
namespace NextgenDatabases.Verisim

open Foundations (Run exec run_of_steps Bytes)
open Wal (DateTime)

namespace TransactionManager

/-- Change the state of a transaction; its locks are released later. -/
def close (m : TransactionManager) (transactionId : Uuid) (txn : Transaction)
    (state : TransactionState) (now : DateTime) : TransactionManager :=
  m.put transactionId { txn with state := state, completedAt := some now }

/-- The record of a lock in the lock set, whatever the state of the transaction. -/
def recordLock (m : TransactionManager) (transactionId : Uuid) (entityId modality : String)
    (lockType : LockType) : TransactionManager :=
  match m.activeTransactions transactionId with
  | none => m
  | some txn =>
    let others := txn.locks.filter fun l => ¬ (l.entityId = entityId ∧ l.modality = modality)
    m.put transactionId { txn with locks := others ++ [⟨entityId, modality, lockType⟩] }

/-- The record of a version that was read before. -/
def recordStamp (m : TransactionManager) (transactionId : Uuid) (stamp : ReadStamp) :
    TransactionManager :=
  match m.active transactionId with
  | .error _ => m
  | .ok txn => m.put transactionId { txn with readSet := txn.readSet ++ [stamp] }

def release (m : TransactionManager) (transactionId : Uuid) : TransactionManager :=
  { m with lockTable := m.lockTable.releaseAll transactionId }

end TransactionManager

namespace TransactionManager

def Call.transactionId : Call → Uuid
  | .begin transactionId _ _ | .acquireLock transactionId _ _ _
  | .recordUndo transactionId _ _ _ _ _ | .recordRead transactionId _ _
  | .commit transactionId _ | .rollback transactionId _ => transactionId

end TransactionManager

open TransactionManager (Call)

/-- The sections that a call has behind it. -/
inductive Reached
  /-- `acquire_lock` has found the transaction active. -/
  | checked
  /-- `acquire_lock` has been granted the lock. -/
  | granted
  /-- `record_read` has read the version. -/
  | sampled (version : ℕ)
  /-- `commit` has found the transaction active. -/
  | opened
  /-- `commit` has found the read set current. -/
  | validated
  /-- `commit` or `rollback` has changed the state of the transaction. -/
  | closed
  deriving DecidableEq

/-- The manager and the calls in progress. -/
structure Sections where
  manager : TransactionManager
  /-- The call that keeps the transactions locked. -/
  writer : Option ℕ
  calls : ℕ → Option (Call × Reached)

namespace Sections

def new : Sections := ⟨.new, none, fun _ => none⟩

/-- The first section of a call, or the next one. -/
inductive Step
  | start (i : ℕ) (call : Call)
  | resume (i : ℕ)

/-- The call goes on after the section. -/
def goOn (s : Sections) (i : ℕ) (call : Call) (reached : Reached) : Sections :=
  { s with calls := Function.update s.calls i (some (call, reached)) }

/-- The call returns. -/
def finish (s : Sections) (i : ℕ) : Sections :=
  { s with calls := Function.update s.calls i none }

/-- The first section. A section of the transactions has to wait while a call keeps them
locked. -/
def first (s : Sections) (i : ℕ) (call : Call) : Option Sections :=
  match call with
  | .begin transactionId isolationLevel now =>
    if s.writer = none ∧ s.manager.activeTransactions transactionId = none then
      some { s with manager := s.manager.begin transactionId isolationLevel now }
    else none
  | .acquireLock transactionId _ modality _ =>
    if modality ∉ MODALITIES then some s
    else if s.writer ≠ none then none
    else
      match s.manager.active transactionId with
      | .error _ => some s
      | .ok _ => some (s.goOn i call .checked)
  | .recordUndo transactionId entityId modality previousData previousVersion now =>
    if s.writer ≠ none then none
    else
      some { s with manager := (s.manager.recordUndo transactionId entityId modality previousData
        previousVersion now).2 }
  | .recordRead _ entityId modality =>
    if modality ∉ MODALITIES then some s
    else some (s.goOn i call (.sampled (s.manager.versionTable (entityId, modality))))
  | .commit transactionId _ =>
    if s.writer ≠ none then none
    else
      match s.manager.active transactionId with
      | .error _ => some s
      | .ok _ => some { s.goOn i call .opened with writer := some i }
  | .rollback transactionId now =>
    if s.writer ≠ none then none
    else
      match s.manager.active transactionId with
      | .error _ => some s
      | .ok txn =>
        some { s.goOn i call .closed with
          writer := some i
          manager := s.manager.close transactionId txn .rolledBack now }

/-- The section after those that the call has behind it. -/
def next (s : Sections) (i : ℕ) : Call → Reached → Option Sections
  | .acquireLock transactionId entityId modality lockType, .checked =>
    let r := s.manager.lockTable.acquire transactionId entityId modality lockType
    let manager := { s.manager with lockTable := r.2 }
    match r.1 with
    | .error _ => some { s.finish i with manager := manager }
    | .ok () =>
      some { s.goOn i (.acquireLock transactionId entityId modality lockType) .granted with
        manager := manager }
  | .acquireLock transactionId entityId modality lockType, .granted =>
    if s.writer ≠ none then none
    else
      some { s.finish i with
        manager := s.manager.recordLock transactionId entityId modality lockType }
  | .recordRead transactionId entityId modality, .sampled version =>
    if s.writer ≠ none then none
    else
      some { s.finish i with
        manager := s.manager.recordStamp transactionId ⟨entityId, modality, version⟩ }
  | .commit transactionId now, .opened =>
    match s.manager.active transactionId with
    | .error _ => none
    | .ok txn =>
      match s.manager.stale txn with
      | some _ =>
        some { s.goOn i (.commit transactionId now) .closed with
          manager := s.manager.close transactionId txn .rolledBack now }
      | none => some (s.goOn i (.commit transactionId now) .validated)
  | .commit transactionId now, .validated =>
    match s.manager.active transactionId with
    | .error _ => none
    | .ok txn =>
      some { s.goOn i (.commit transactionId now) .closed with
        manager := { s.manager.close transactionId txn .committed now with
          versionTable := txn.undoLog.foldl TransactionManager.increment
            s.manager.versionTable } }
  | .commit transactionId _, .closed | .rollback transactionId _, .closed =>
    some { s.finish i with writer := none, manager := s.manager.release transactionId }
  | _, _ => none

def step (s : Sections) : Step → Option Sections
  | .start i call => if s.calls i = none then s.first i call else none
  | .resume i =>
    match s.calls i with
    | none => none
    | some (call, reached) => s.next i call reached

/-! ### What a section can do -/

/-- The effect of each section. -/
inductive Moves (s : Sections) : Step → Sections → Prop
  | returned {i call} (hnew : s.calls i = none) : Moves s (.start i call) s
  | began {i transactionId isolationLevel now} (hnew : s.calls i = none) (hfree : s.writer = none)
      (hfresh : s.manager.activeTransactions transactionId = none) :
      Moves s (.start i (.begin transactionId isolationLevel now))
        { s with manager := s.manager.begin transactionId isolationLevel now }
  | wrote {i transactionId entityId modality previousData previousVersion now}
      (hnew : s.calls i = none) (hfree : s.writer = none) :
      Moves s (.start i (.recordUndo transactionId entityId modality previousData
          previousVersion now))
        { s with manager := (s.manager.recordUndo transactionId entityId modality previousData
          previousVersion now).2 }
  | checked {i transactionId entityId modality lockType} (hnew : s.calls i = none) :
      Moves s (.start i (.acquireLock transactionId entityId modality lockType))
        (s.goOn i (.acquireLock transactionId entityId modality lockType) .checked)
  | sampled {i transactionId entityId modality} (hnew : s.calls i = none) :
      Moves s (.start i (.recordRead transactionId entityId modality))
        (s.goOn i (.recordRead transactionId entityId modality)
          (.sampled (s.manager.versionTable (entityId, modality))))
  | opened {i transactionId now txn} (hnew : s.calls i = none) (hfree : s.writer = none)
      (htxn : s.manager.active transactionId = .ok txn) :
      Moves s (.start i (.commit transactionId now))
        { s.goOn i (.commit transactionId now) .opened with writer := some i }
  | rolledBack {i transactionId now txn} (hnew : s.calls i = none) (hfree : s.writer = none)
      (htxn : s.manager.active transactionId = .ok txn) :
      Moves s (.start i (.rollback transactionId now))
        { s.goOn i (.rollback transactionId now) .closed with
          writer := some i
          manager := s.manager.close transactionId txn .rolledBack now }
  | refused {i transactionId entityId modality lockType e}
      (hi : s.calls i = some (.acquireLock transactionId entityId modality lockType, .checked))
      (hr : (s.manager.lockTable.acquire transactionId entityId modality lockType).1 = .error e) :
      Moves s (.resume i)
        { s.finish i with manager := { s.manager with
          lockTable := (s.manager.lockTable.acquire transactionId entityId modality lockType).2 } }
  | granted {i transactionId entityId modality lockType}
      (hi : s.calls i = some (.acquireLock transactionId entityId modality lockType, .checked))
      (hr : (s.manager.lockTable.acquire transactionId entityId modality lockType).1 = .ok ()) :
      Moves s (.resume i)
        { s.goOn i (.acquireLock transactionId entityId modality lockType) .granted with
          manager := { s.manager with
            lockTable :=
              (s.manager.lockTable.acquire transactionId entityId modality lockType).2 } }
  | recorded {i transactionId entityId modality lockType}
      (hi : s.calls i = some (.acquireLock transactionId entityId modality lockType, .granted))
      (hfree : s.writer = none) :
      Moves s (.resume i)
        { s.finish i with
          manager := s.manager.recordLock transactionId entityId modality lockType }
  | stamped {i transactionId entityId modality version}
      (hi : s.calls i = some (.recordRead transactionId entityId modality, .sampled version))
      (hfree : s.writer = none) :
      Moves s (.resume i)
        { s.finish i with
          manager := s.manager.recordStamp transactionId ⟨entityId, modality, version⟩ }
  | failed {i transactionId now txn stamp}
      (hi : s.calls i = some (.commit transactionId now, .opened))
      (htxn : s.manager.active transactionId = .ok txn)
      (hstale : s.manager.stale txn = some stamp) :
      Moves s (.resume i)
        { s.goOn i (.commit transactionId now) .closed with
          manager := s.manager.close transactionId txn .rolledBack now }
  | validated {i transactionId now txn}
      (hi : s.calls i = some (.commit transactionId now, .opened))
      (htxn : s.manager.active transactionId = .ok txn)
      (hstale : s.manager.stale txn = none) :
      Moves s (.resume i) (s.goOn i (.commit transactionId now) .validated)
  | applied {i transactionId now txn}
      (hi : s.calls i = some (.commit transactionId now, .validated))
      (htxn : s.manager.active transactionId = .ok txn) :
      Moves s (.resume i)
        { s.goOn i (.commit transactionId now) .closed with
          manager := { s.manager.close transactionId txn .committed now with
            versionTable := txn.undoLog.foldl TransactionManager.increment
              s.manager.versionTable } }
  | released {i call}
      (hi : s.calls i = some (call, .closed)) :
      Moves s (.resume i)
        { s.finish i with writer := none, manager := s.manager.release call.transactionId }

variable {s t : Sections} {i : ℕ} {call : Call} {reached : Reached}

theorem first_moves (hnew : s.calls i = none) (h : s.first i call = some t) :
    Moves s (.start i call) t := by
  cases call with
  | begin transactionId isolationLevel now =>
    obtain ⟨⟨hfree, hfresh⟩, hs⟩ := Option.ite_none_right_eq_some.mp h
    cases hs
    exact .began hnew hfree hfresh
  | acquireLock transactionId entityId modality lockType =>
    simp only [first] at h
    split at h
    · cases h
      exact .returned hnew
    · split at h
      · cases h
      · split at h
        · cases h
          exact .returned hnew
        · cases h
          exact .checked hnew
  | recordUndo transactionId entityId modality previousData previousVersion now =>
    simp only [first] at h
    split at h
    · cases h
    · next hfree =>
      cases h
      exact .wrote hnew (not_not.mp hfree)
  | recordRead transactionId entityId modality =>
    simp only [first] at h
    split at h
    · cases h
      exact .returned hnew
    · cases h
      exact .sampled hnew
  | commit transactionId now =>
    simp only [first] at h
    split at h
    · cases h
    · next hfree =>
      split at h
      · cases h
        exact .returned hnew
      · next htxn =>
        cases h
        exact .opened hnew (not_not.mp hfree) htxn
  | rollback transactionId now =>
    simp only [first] at h
    split at h
    · cases h
    · next hfree =>
      split at h
      · cases h
        exact .returned hnew
      · next htxn =>
        cases h
        exact .rolledBack hnew (not_not.mp hfree) htxn

theorem next_moves (hi : s.calls i = some (call, reached)) (h : s.next i call reached = some t) :
    Moves s (.resume i) t := by
  unfold next at h
  split at h
  · dsimp only at h
    split at h
    · next hr =>
      cases h
      exact .refused hi hr
    · next hr =>
      cases h
      exact .granted hi hr
  · split at h
    · cases h
    · next hfree =>
      cases h
      exact .recorded hi (not_not.mp hfree)
  · split at h
    · cases h
    · next hfree =>
      cases h
      exact .stamped hi (not_not.mp hfree)
  · split at h
    · cases h
    · next htxn =>
      split at h
      · next hstale =>
        cases h
        exact .failed hi htxn hstale
      · next hstale =>
        cases h
        exact .validated hi htxn hstale
  · split at h
    · cases h
    · next htxn =>
      cases h
      exact .applied hi htxn
  · cases h
    exact .released hi
  · cases h
    exact .released hi
  · cases h

theorem step_moves {a : Step} (h : s.step a = some t) : Moves s a t := by
  cases a with
  | start i call =>
    obtain ⟨hnew, hfirst⟩ := Option.ite_none_right_eq_some.mp h
    exact first_moves hnew hfirst
  | resume i =>
    unfold step at h
    dsimp only at h
    split at h
    · cases h
    · next call reached hi => exact next_moves hi h

/-! ### A call with nothing in between -/

/-- No call is in progress. -/
def alone (m : TransactionManager) : Sections := ⟨m, none, fun _ => none⟩

/-- Whatever the guard of the run. -/
abbrev Reaches : Sections → Sections → Prop := Run step fun _ _ => True

theorem reaches_start {s t : Sections} (i : ℕ) (call : Call) (h : s.step (.start i call) = some t) :
    s.Reaches t := Run.single (e := .start i call) trivial h

theorem reaches_resume {s t : Sections} (i : ℕ) (h : s.step (.resume i) = some t) :
    s.Reaches t := Run.single (e := .resume i) trivial h

theorem active_some {m : TransactionManager} {transactionId : Uuid} {txn : Transaction}
    (h : m.active transactionId = .ok txn) : m.activeTransactions transactionId = some txn := by
  unfold TransactionManager.active at h
  split at h
  · cases h
  · next heq =>
    split at h
    · cases h
    · cases h
      exact heq

@[simp] theorem update_none (i : ℕ) :
    Function.update (fun _ : ℕ => (none : Option (Call × Reached))) i none = fun _ => none := by
  rw [Function.update_eq_self_iff]

theorem reaches_acquireLock (m : TransactionManager) (transactionId : Uuid)
    (entityId modality : String) (lockType : LockType) :
    (alone m).Reaches (alone (m.acquireLock transactionId entityId modality lockType).2) := by
  unfold TransactionManager.acquireLock
  split
  · exact .refl
  · next hmodality =>
    split
    · exact .refl
    · next txn htxn =>
      have hchecked := reaches_start (s := alone m) 0
        (.acquireLock transactionId entityId modality lockType)
        (t := (alone m).goOn 0 (.acquireLock transactionId entityId modality lockType) .checked)
        (by simp [step, first, alone, hmodality, htxn])
      refine hchecked.trans ?_
      dsimp only
      split
      · next e he =>
        refine reaches_resume 0 ?_
        simp [step, goOn, next, alone, he, finish]
      · next he =>
        refine (reaches_resume 0 (t := { (alone m).goOn 0
          (.acquireLock transactionId entityId modality lockType) .granted with
          manager := { m with lockTable :=
            (m.lockTable.acquire transactionId entityId modality lockType).2 } }) ?_).trans
          (reaches_resume 0 ?_)
        · simp [step, goOn, next, alone, he]
        · simp [step, goOn, next, alone, finish, TransactionManager.recordLock,
            TransactionManager.put, active_some htxn]

theorem reaches_recordRead (m : TransactionManager) (transactionId : Uuid)
    (entityId modality : String) :
    (alone m).Reaches (alone (m.recordRead transactionId entityId modality).2) := by
  unfold TransactionManager.recordRead
  split
  · exact .refl
  · next hmodality =>
    have hsampled := reaches_start (s := alone m) 0 (.recordRead transactionId entityId modality)
      (t := (alone m).goOn 0 (.recordRead transactionId entityId modality)
        (.sampled (m.versionTable (entityId, modality))))
      (by simp [step, first, alone, hmodality])
    refine hsampled.trans (reaches_resume 0 ?_)
    dsimp only
    split
    · next e he => simp [step, goOn, next, alone, finish, TransactionManager.recordStamp, he]
    · next txn htxn =>
      simp [step, goOn, next, alone, finish, TransactionManager.recordStamp, htxn]

theorem reaches_commit (m : TransactionManager) (transactionId : Uuid) (now : DateTime) :
    (alone m).Reaches (alone (m.commit transactionId now).2) := by
  unfold TransactionManager.commit
  split
  · exact .refl
  · next txn htxn =>
    have hopened := reaches_start (s := alone m) 0 (.commit transactionId now)
      (t := { (alone m).goOn 0 (.commit transactionId now) .opened with writer := some 0 })
      (by simp [step, first, alone, htxn])
    refine hopened.trans ?_
    split
    · next stamp hstale =>
      refine (reaches_resume 0 (t := { (alone m).goOn 0 (.commit transactionId now) .closed with
        writer := some 0
        manager := m.close transactionId txn .rolledBack now }) ?_).trans (reaches_resume 0 ?_)
      · simp [step, goOn, next, alone, htxn, hstale]
      · simp [step, goOn, next, alone, finish]
        rfl
    · next hstale =>
      refine (reaches_resume 0 (t := { (alone m).goOn 0 (.commit transactionId now) .validated with
        writer := some 0 }) ?_).trans ?_
      · simp [step, goOn, next, alone, htxn, hstale]
      refine (reaches_resume 0 (t := { (alone m).goOn 0 (.commit transactionId now) .closed with
        writer := some 0
        manager := { m.close transactionId txn .committed now with
          versionTable := txn.undoLog.foldl TransactionManager.increment m.versionTable } })
        ?_).trans (reaches_resume 0 ?_)
      · simp [step, goOn, next, alone, htxn]
      · simp [step, goOn, next, alone, finish]
        rfl

theorem reaches_rollback (m : TransactionManager) (transactionId : Uuid) (now : DateTime) :
    (alone m).Reaches (alone (m.rollback transactionId now).2) := by
  unfold TransactionManager.rollback
  split
  · exact .refl
  · next txn htxn =>
    refine (reaches_start 0 (.rollback transactionId now) (t := { (alone m).goOn 0
      (.rollback transactionId now) .closed with
        writer := some 0
        manager := m.close transactionId txn .rolledBack now }) ?_).trans (reaches_resume 0 ?_)
    · simp [step, first, alone, htxn, goOn]
    · simp [step, goOn, next, alone, finish]
      rfl

/-- The sections of a call, one after another, do what the call does. -/
theorem reaches_call {m m' : TransactionManager} {call : Call} (h : m.step call = some m') :
    (alone m).Reaches (alone m') := by
  cases call with
  | begin transactionId isolationLevel now =>
    obtain ⟨hfresh, hbegin⟩ := Option.ite_none_right_eq_some.mp h
    cases hbegin
    exact reaches_start 0 (.begin transactionId isolationLevel now)
      (by simp [step, first, alone, hfresh])
  | acquireLock transactionId entityId modality lockType =>
    cases h
    exact reaches_acquireLock m transactionId entityId modality lockType
  | recordUndo transactionId entityId modality previousData previousVersion now =>
    cases h
    exact reaches_start 0
      (.recordUndo transactionId entityId modality previousData previousVersion now)
      (by simp [step, first, alone])
  | recordRead transactionId entityId modality =>
    cases h
    exact reaches_recordRead m transactionId entityId modality
  | commit transactionId now =>
    cases h
    exact reaches_commit m transactionId now
  | rollback transactionId now =>
    cases h
    exact reaches_rollback m transactionId now

/-- A sequence of calls is one of the interleavings. -/
theorem reaches_of_calls {m m' : TransactionManager} {ok : TransactionManager → Call → Prop}
    (r : Run TransactionManager.step ok m m') : (alone m).Reaches (alone m') := by
  induction r with
  | refl => exact .refl
  | tail _ hnext ih =>
    obtain ⟨call, -, hcall⟩ := hnext
    exact ih.trans (reaches_call hcall)

/-! ### Locks that outlive their transaction -/

/-- A call that has closed the transaction will release its locks. -/
def Releasing (s : Sections) (transactionId : Uuid) : Prop :=
  ∃ i call, s.calls i = some (call, .closed) ∧ call.transactionId = transactionId

def Live (m : TransactionManager) (transactionId : Uuid) : Prop :=
  ∃ txn, m.active transactionId = .ok txn

/-- The lock table grants a lock only to a transaction that has not released its locks. -/
def Prompt (s : Sections) : Step → Prop
  | .start _ _ => True
  | .resume i =>
    ∀ transactionId entityId modality lockType,
      s.calls i = some (.acquireLock transactionId entityId modality lockType, .checked) →
        s.manager.lockTable.grants transactionId (entityId, modality) lockType = true →
          Live s.manager transactionId ∨ s.Releasing transactionId

/-- Whoever holds a lock is active or about to release it. -/
def Covered (s : Sections) : Prop :=
  ∀ key, ∀ info ∈ s.manager.lockTable.locks key,
    Live s.manager info.holder ∨ s.Releasing info.holder

theorem Live.put {m : TransactionManager} {transactionId other : Uuid} {txn txn' : Transaction}
    (h : Live m other) (htxn : m.activeTransactions transactionId = some txn)
    (hstate : txn'.state = txn.state) : Live (m.put transactionId txn') other := by
  unfold Live
  rw [TransactionManager.active_put]
  split
  · next heq =>
    obtain ⟨txn₀, h₀⟩ := h
    have hsame := active_some h₀
    rw [heq, htxn] at hsame
    cases hsame
    exact ⟨txn', by simp [hstate, TransactionManager.active_state h₀]⟩
  · exact h

theorem Live.put_other {m : TransactionManager} {transactionId other : Uuid} {txn : Transaction}
    (h : Live m other) (hne : other ≠ transactionId) : Live (m.put transactionId txn) other := by
  unfold Live
  rw [TransactionManager.active_put, if_neg hne]
  exact h

/-- A section that grants nothing and closes nothing keeps the locks covered. -/
theorem Covered.of_sub (h : s.Covered)
    (hlocks : ∀ key, ∀ info ∈ t.manager.lockTable.locks key,
      info ∈ s.manager.lockTable.locks key)
    (hlive : ∀ other, Live s.manager other → Live t.manager other ∨ t.Releasing other)
    (hreleasing : ∀ other, s.Releasing other → t.Releasing other) : t.Covered := by
  intro key info hinfo
  rcases h key info (hlocks key info hinfo) with hcase | hcase
  · exact hlive _ hcase
  · exact .inr (hreleasing _ hcase)

/-- A call that is not about to release keeps those that are. -/
theorem Releasing.update {other : Uuid} {x : Option (Call × Reached)} (h : s.Releasing other)
    (hi : ∀ c, s.calls i ≠ some (c, .closed)) (hcalls : t.calls = Function.update s.calls i x) :
    t.Releasing other := by
  obtain ⟨j, call, hj, hother⟩ := h
  refine ⟨j, call, ?_, hother⟩
  rw [hcalls]
  refine (Function.update_of_ne ?_ _ _).trans hj
  rintro rfl
  exact hi call hj

theorem Live.congr {m m' : TransactionManager} {other : Uuid} (h : Live m other)
    (heq : m'.activeTransactions = m.activeTransactions) : Live m' other := by
  unfold Live TransactionManager.active at *
  rw [heq]
  exact h

/-- Closing a transaction, by a call that goes on to release its locks. -/
theorem Covered.close {txn : Transaction} {state : TransactionState} {now : DateTime}
    (h : s.Covered) (hi : ∀ c, s.calls i ≠ some (c, .closed))
    (hcalls : t.calls = Function.update s.calls i (some (call, .closed)))
    (hlocks : t.manager.lockTable = s.manager.lockTable)
    (hactive : t.manager.activeTransactions =
      (s.manager.close call.transactionId txn state now).activeTransactions) : t.Covered := by
  refine h.of_sub (fun key info hinfo => hlocks ▸ hinfo) ?_ ?_
  · intro other hother
    by_cases heq : other = call.transactionId
    · refine .inr ⟨i, call, ?_, heq.symm⟩
      rw [hcalls]
      exact Function.update_self _ _ _
    · exact .inl ((hother.put_other heq).congr hactive)
  · exact fun other hother => hother.update hi hcalls

theorem Covered.release (h : s.Covered) (hi : s.calls i = some (call, .closed)) :
    Covered { s.finish i with
      writer := none
      manager := s.manager.release call.transactionId } := by
  intro key info hinfo
  obtain ⟨hinfo, hne⟩ := LockTable.mem_releaseAll.mp hinfo
  rcases h key info hinfo with hlive | ⟨j, c, hj, hholder⟩
  · exact .inl hlive
  · refine .inr ⟨j, c, ?_, hholder⟩
    refine (Function.update_of_ne ?_ _ _).trans hj
    rintro rfl
    rw [hi] at hj
    cases hj
    exact hne hholder.symm

theorem Covered.granted {transactionId : Uuid} {entityId modality : String} {lockType : LockType}
    (h : s.Covered)
    (hi : s.calls i = some (.acquireLock transactionId entityId modality lockType, .checked))
    (hholder : Live s.manager transactionId ∨ s.Releasing transactionId) :
    Covered { s.goOn i (.acquireLock transactionId entityId modality lockType) .granted with
      manager := { s.manager with
        lockTable :=
          (s.manager.lockTable.acquire transactionId entityId modality lockType).2 } } := by
  have hcalls : ∀ c, s.calls i ≠ some (c, .closed) := by
    intro c hc
    rw [hi] at hc
    cases hc
  have hkept : ∀ other, Live s.manager other ∨ s.Releasing other →
      Live s.manager other ∨
        (s.goOn i (.acquireLock transactionId entityId modality lockType) .granted).Releasing
          other :=
    fun other hother => hother.imp id fun hreleasing => hreleasing.update hcalls rfl
  intro key info hinfo
  rcases LockTable.acquire_locks s.manager.lockTable transactionId entityId modality lockType with
    hlocks | ⟨-, hlocks⟩
  · rw [hlocks] at hinfo
    exact hkept _ (h key info hinfo)
  · rw [hlocks] at hinfo
    rcases LockTable.mem_grant.mp hinfo with ⟨hinfo, -⟩ | ⟨-, rfl⟩
    · exact hkept _ (h key info hinfo)
    · exact hkept _ hholder

theorem Covered.step {a : Step} (h : s.Covered) (hprompt : s.Prompt a) (hstep : s.step a = some t) :
    t.Covered := by
  cases step_moves hstep with
  | returned hnew => exact h
  | began hnew hfree hfresh =>
    refine h.of_sub (fun _ _ hinfo => hinfo) (fun other hother => .inl ?_)
      fun other hother => hother
    refine hother.put_other ?_
    rintro rfl
    obtain ⟨txn, htxn⟩ := hother
    rw [active_some htxn] at hfresh
    cases hfresh
  | wrote hnew hfree =>
    refine h.of_sub ?_ (fun other hother => .inl ?_) fun other hother => hother
    · intro key info hinfo
      rwa [TransactionManager.recordUndo_lockTable] at hinfo
    · unfold TransactionManager.recordUndo
      split
      · exact hother
      · split
        · exact hother
        · next htxn => exact hother.put (active_some htxn) rfl
  | checked hnew =>
    exact h.of_sub (fun _ _ hinfo => hinfo) (fun _ hother => .inl hother)
      fun _ hother => hother.update (fun c => by simp [hnew]) rfl
  | sampled hnew =>
    exact h.of_sub (fun _ _ hinfo => hinfo) (fun _ hother => .inl hother)
      fun _ hother => hother.update (fun c => by simp [hnew]) rfl
  | opened hnew hfree htxn =>
    exact h.of_sub (fun _ _ hinfo => hinfo) (fun _ hother => .inl hother)
      fun _ hother => hother.update (fun c => by simp [hnew]) rfl
  | rolledBack hnew hfree htxn => exact h.close (fun c => by simp [hnew]) rfl rfl rfl
  | @refused i transactionId entityId modality lockType e hi hr =>
    have hlocks : (s.manager.lockTable.acquire transactionId entityId modality lockType).2.locks =
        s.manager.lockTable.locks := by
      rcases LockTable.acquire_cases s.manager.lockTable transactionId entityId modality
        lockType with ⟨heq, -⟩ | ⟨heq, -⟩ | ⟨-, -, hlocks⟩
      · rw [heq] at hr
        cases hr
      · rw [heq] at hr
        cases hr
      · exact hlocks
    refine h.of_sub ?_ (fun _ hother => .inl hother)
      fun _ hother => hother.update (fun c => by simp [hi]) rfl
    intro key info hinfo
    rwa [hlocks] at hinfo
  | granted hi hr =>
    exact h.granted hi (hprompt _ _ _ _ hi ((LockTable.acquire_ok_iff _ _ _ _ _).mp hr))
  | recorded hi hfree =>
    refine h.of_sub ?_ (fun other hother => .inl ?_)
      fun _ hother => hother.update (fun c => by simp [hi]) rfl
    · intro key info hinfo
      unfold TransactionManager.recordLock at hinfo
      dsimp only at hinfo
      split at hinfo
      · exact hinfo
      · exact hinfo
    · unfold TransactionManager.recordLock
      dsimp only
      split
      · exact hother
      · next htxn => exact hother.put htxn rfl
  | stamped hi hfree =>
    refine h.of_sub ?_ (fun other hother => .inl ?_)
      fun _ hother => hother.update (fun c => by simp [hi]) rfl
    · intro key info hinfo
      unfold TransactionManager.recordStamp at hinfo
      dsimp only at hinfo
      split at hinfo
      · exact hinfo
      · exact hinfo
    · unfold TransactionManager.recordStamp
      dsimp only
      split
      · exact hother
      · next htxn => exact hother.put (active_some htxn) rfl
  | failed hi htxn hstale => exact h.close (fun c => by simp [hi]) rfl rfl rfl
  | validated hi htxn hstale =>
    exact h.of_sub (fun _ _ hinfo => hinfo) (fun _ hother => .inl hother)
      fun _ hother => hother.update (fun c => by simp [hi]) rfl
  | applied hi htxn => exact h.close (fun c => by simp [hi]) rfl rfl rfl
  | released hi => exact h.release hi

/-- If every lock is granted before its transaction has released its locks, then nobody holds
a lock but active transactions, once no call is in progress. -/
theorem locks_released (r : Run step Prompt new s) (hidle : ∀ i, s.calls i = none) :
    ∀ key, ∀ info ∈ s.manager.lockTable.locks key, Live s.manager info.holder := by
  have hcovered : s.Covered := by
    refine r.invariant (I := Covered) (fun _ _ _ h hprompt hstep => h.step hprompt hstep) ?_
    intro key info hinfo
    cases hinfo
  intro key info hinfo
  rcases hcovered key info hinfo with hlive | ⟨i, call, hi, -⟩
  · exact hlive
  · rw [hidle i] at hi
    cases hi

/-- A lock that is held when its call has returned. -/
theorem locks_released_held :
    ∃ s, exec step new [.start 0 (.begin "a" .serializable DateTime.unixEpoch),
        .start 0 (.acquireLock "a" "e" "graph" .exclusive), .resume 0, .resume 0] = some s ∧
      (s.manager.lockTable.locks ("e", "graph")).map LockInfo.holder = ["a"] ∧
      ∀ key, ∀ info ∈ s.manager.lockTable.locks key, Live s.manager info.holder := by
  have hgranted (s : Sections) (call : Call) (hi : s.calls 0 = some (call, .granted)) :
      s.Prompt (.resume 0) := by
    intro transactionId entityId modality lockType hcall
    rw [hi] at hcall
    cases hcall
  have hidle (c d : Call × Reached) : ∀ i, Function.update (Function.update (Function.update
      (fun _ : ℕ => (none : Option (Call × Reached))) 0 (some c)) 0 (some d)) 0 none i = none := by
    intro i
    rw [Function.update_idem, Function.update_idem, update_none]
  refine ⟨_, rfl, rfl, locks_released (.tail (.tail (.tail (.single
    ⟨.start 0 (.begin "a" .serializable DateTime.unixEpoch), trivial, rfl⟩)
    ⟨.start 0 (.acquireLock "a" "e" "graph" .exclusive), trivial, rfl⟩)
    ⟨.resume 0, ?_, rfl⟩) ⟨.resume 0, hgranted _ _ rfl, rfl⟩) (hidle _ _)⟩
  intro transactionId entityId modality lockType hcall _
  cases hcall
  exact .inl ⟨_, rfl⟩

/-- The lock is granted after its transaction has committed and released its locks. -/
theorem lock_outlives_commit :
    ¬ ∀ s, Run step (fun _ _ => True) new s → (∀ i, s.calls i = none) →
      ∀ key, ∀ info ∈ s.manager.lockTable.locks key, Live s.manager info.holder := by
  intro h
  let now : DateTime := DateTime.unixEpoch
  let leak : List Step := [.start 0 (.begin "a" .serializable now),
    .start 0 (.acquireLock "a" "e" "graph" .exclusive), .start 1 (.commit "a" now),
    .resume 1, .resume 1, .resume 1, .resume 0, .resume 0]
  obtain ⟨s, hs, hidle, info, hinfo, hstate⟩ : ∃ s, exec step new leak = some s ∧
      (∀ i, s.calls i = none) ∧ ∃ info ∈ s.manager.lockTable.locks ("e", "graph"),
        s.manager.active info.holder = .error (.invalidState info.holder .committed "Active") := by
    refine ⟨_, rfl, ?_, _, .head _, rfl⟩
    intro i
    match i with
    | 0 | 1 | _ + 2 => rfl
  obtain ⟨txn, htxn⟩ := h s (run_of_steps hs) hidle _ info hinfo
  rw [hstate] at htxn
  cases htxn

end Sections

end NextgenDatabases.Verisim
