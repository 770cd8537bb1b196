import NextgenDatabases.Verisim.Data
import Mathlib.Logic.Function.Basic

/-!
# The transaction manager

Transactions take locks on pairs of an entity and a modality. A request that meets a
conflicting holder is refused, as a deadlock if it closes a cycle of waiting
transactions. Commit and rollback release everything that a transaction holds.
-/
namespace NextgenDatabases.Verisim

open Wal (DateTime)
open Foundations (Bytes)

abbrev Uuid := String

def MODALITIES : List String :=
  ["graph", "vector", "tensor", "semantic", "document", "temporal", "provenance", "spatial"]

inductive TransactionState
  | active | committed | rolledBack
  deriving DecidableEq, Repr

inductive IsolationLevel
  | readCommitted | serializable
  deriving DecidableEq, Repr

inductive LockType
  | shared | exclusive
  deriving DecidableEq, Repr

inductive TransactionError
  | invalidState (transactionId : Uuid) (current : TransactionState) (expected : String)
  | lockConflict (entityId modality : String) (heldBy : Uuid)
  | deadlockDetected (transactionId : Uuid) (cycle : List Uuid)
  | transactionNotFound (transactionId : Uuid)
  | invalidModality (modality : String)
  | versionConflict (entityId : String) (expectedVersion actualVersion : ℕ)
  deriving DecidableEq, Repr

def TransactionState.text : TransactionState → String
  | active => "Active"
  | committed => "Committed"
  | rolledBack => "RolledBack"

/-- The `Display` text. -/
def TransactionError.text : TransactionError → String
  | invalidState transactionId current expected =>
    "Transaction " ++ transactionId ++ ": state is " ++ current.text ++ ", expected " ++ expected
  | lockConflict entityId modality heldBy =>
    "Lock conflict on " ++ entityId ++ "/" ++ modality ++ " held by " ++ heldBy
  | deadlockDetected transactionId cycle =>
    "Deadlock detected for " ++ transactionId ++ ": cycle [" ++ ", ".intercalate cycle ++ "]"
  | transactionNotFound transactionId => "Transaction not found: " ++ transactionId
  | invalidModality modality => "Invalid modality: " ++ modality
  | versionConflict entityId expectedVersion actualVersion =>
    "Version conflict on " ++ entityId ++ ": expected v" ++ toString expectedVersion ++
      ", found v" ++ toString actualVersion

structure LockEntry where
  entityId : String
  modality : String
  lockType : LockType
  deriving DecidableEq

structure UndoEntry where
  entityId : String
  modality : String
  previousData : Option Bytes
  previousVersion : ℕ
  recordedAt : DateTime
  deriving DecidableEq

structure ReadStamp where
  entityId : String
  modality : String
  versionAtRead : ℕ
  deriving DecidableEq

structure Transaction where
  id : Uuid
  state : TransactionState
  isolationLevel : IsolationLevel
  undoLog : List UndoEntry
  locks : List LockEntry
  readSet : List ReadStamp
  startedAt : DateTime
  completedAt : Option DateTime
  deriving DecidableEq

/-! ### The lock table -/

abbrev LockKey := String × String

structure LockInfo where
  holder : Uuid
  lockType : LockType
  deriving DecidableEq

/-- A key without holders has the empty list. -/
structure LockTable where
  locks : LockKey → List LockInfo
  waitFor : List (Uuid × List Uuid)

inductive AcquireAction
  | alreadyHeld
  | upgrade
  | upgradeConflict (otherHolder : Uuid)
  | conflict (blocker : Uuid)
  | grant
  deriving DecidableEq

namespace LockTable

def empty : LockTable := ⟨fun _ => [], []⟩

/-- The transactions that a transaction waits for. -/
def waits (t : LockTable) (transactionId : Uuid) : List Uuid :=
  (t.waitFor.lookup transactionId).getD []

def addWait (t : LockTable) (transactionId blocker : Uuid) : LockTable :=
  let others := t.waitFor.filter fun w => w.1 ≠ transactionId
  let blockers := t.waits transactionId
  { t with waitFor :=
      (transactionId, if blocker ∈ blockers then blockers else blockers ++ [blocker]) :: others }

def removeWait (t : LockTable) (transactionId : Uuid) : LockTable :=
  { t with waitFor := t.waitFor.filter fun w => w.1 ≠ transactionId }

/-- The breadth-first search of `detect_cycle`: paths still to extend and transactions
already visited. The fuel bounds the paths that are taken from the queue. -/
def search (t : LockTable) (start : Uuid) : ℕ → List (List Uuid) → List Uuid → Option (List Uuid)
  | 0, _, _ => none
  | _, [], _ => none
  | fuel + 1, path :: queue, visited =>
    match path.getLast? with
    | none => t.search start fuel queue visited
    | some current =>
      if current = start then some path
      else if current ∈ visited then t.search start fuel queue visited
      else
        t.search start fuel (queue ++ (t.waits current).map fun next => path ++ [next])
          (current :: visited)

/-- A transaction is extended once, so each wait enters the queue at most once. -/
def detectCycle (t : LockTable) (start : Uuid) : Option (List Uuid) :=
  t.search start ((t.waitFor.map fun w => w.2.length).sum + 1)
    ((t.waits start).map fun next => [start, next]) []

/-- What a request does, seen from the holders in order. -/
def decide (holders : List LockInfo) (transactionId : Uuid) (lockType : LockType) :
    List LockInfo → AcquireAction
  | [] => .grant
  | info :: rest =>
    if info.holder = transactionId then
      if info.lockType = .shared ∧ lockType = .exclusive then
        if holders.length = 1 then .upgrade
        else
          .upgradeConflict (((holders.find? fun h => h.holder ≠ transactionId).map
            LockInfo.holder).getD transactionId)
      else .alreadyHeld
    else if ¬ (info.lockType = .shared ∧ lockType = .shared) then .conflict info.holder
    else decide holders transactionId lockType rest

/-- Replace what a transaction holds on a key. -/
def grant (t : LockTable) (transactionId : Uuid) (key : LockKey) (lockType : LockType) :
    LockTable :=
  let holders := (t.locks key).filter fun info => info.holder ≠ transactionId
  LockTable.removeWait
    { t with locks := Function.update t.locks key (holders ++ [⟨transactionId, lockType⟩]) }
    transactionId

def acquire (t : LockTable) (transactionId : Uuid) (entityId modality : String)
    (lockType : LockType) : Except TransactionError Unit × LockTable :=
  let key := (entityId, modality)
  match decide (t.locks key) transactionId lockType (t.locks key) with
  | .alreadyHeld => (.ok (), t)
  | .upgradeConflict otherHolder => (.error (.lockConflict entityId modality otherHolder), t)
  | .conflict blocker =>
    let t := t.addWait transactionId blocker
    match t.detectCycle transactionId with
    | some cycle =>
      (.error (.deadlockDetected transactionId cycle), t.removeWait transactionId)
    | none => (.error (.lockConflict entityId modality blocker), t)
  | .upgrade | .grant => (.ok (), t.grant transactionId key lockType)

/-- Remove everything that a transaction holds or waits for. -/
def releaseAll (t : LockTable) (transactionId : Uuid) : LockTable where
  locks key := (t.locks key).filter fun info => info.holder ≠ transactionId
  waitFor := (t.waitFor.filter fun w => w.1 ≠ transactionId).map fun w =>
    (w.1, w.2.filter fun u => u ≠ transactionId)

/-- Whether a request for a lock is met. -/
def grants (t : LockTable) (transactionId : Uuid) (key : LockKey) (lockType : LockType) : Bool :=
  match decide (t.locks key) transactionId lockType (t.locks key) with
  | .alreadyHeld | .upgrade | .grant => true
  | .upgradeConflict _ | .conflict _ => false

theorem grants_congr {t u : LockTable} {key : LockKey} (h : t.locks key = u.locks key)
    (transactionId : Uuid) (lockType : LockType) :
    t.grants transactionId key lockType = u.grants transactionId key lockType := by
  unfold grants
  rw [h]

/-- The locks on a key that other transactions hold. -/
def foreign (t : LockTable) (transactionId : Uuid) (key : LockKey) : List LockInfo :=
  (t.locks key).filter fun info => info.holder ≠ transactionId

section acquire

variable (t : LockTable) (transactionId : Uuid) (entityId modality : String) (lockType : LockType)

theorem grant_locks (key k : LockKey) :
    (t.grant transactionId key lockType).locks k =
      if k = key then t.foreign transactionId key ++ [⟨transactionId, lockType⟩]
      else t.locks k := by
  simp [grant, removeWait, foreign, Function.update_apply]

theorem acquire_ok_iff :
    (t.acquire transactionId entityId modality lockType).1 = .ok () ↔
      t.grants transactionId (entityId, modality) lockType = true := by
  unfold acquire grants
  dsimp only
  cases decide (t.locks (entityId, modality)) transactionId lockType
      (t.locks (entityId, modality)) with
  | alreadyHeld => simp
  | upgrade => simp
  | upgradeConflict otherHolder => simp
  | conflict blocker =>
    dsimp only
    split <;> simp
  | grant => simp

/-- A request leaves the locks as they are, or is met and replaces those on its key. -/
theorem acquire_locks :
    (t.acquire transactionId entityId modality lockType).2.locks = t.locks ∨
      t.grants transactionId (entityId, modality) lockType = true ∧
      (t.acquire transactionId entityId modality lockType).2.locks =
        (t.grant transactionId (entityId, modality) lockType).locks := by
  unfold acquire grants
  dsimp only
  cases decide (t.locks (entityId, modality)) transactionId lockType
      (t.locks (entityId, modality)) with
  | alreadyHeld => exact .inl rfl
  | upgrade => exact .inr ⟨rfl, rfl⟩
  | upgradeConflict otherHolder => exact .inl rfl
  | conflict blocker =>
    left
    dsimp only
    split <;> rfl
  | grant => exact .inr ⟨rfl, rfl⟩

theorem acquire_foreign (key : LockKey) :
    (t.acquire transactionId entityId modality lockType).2.foreign transactionId key =
      t.foreign transactionId key := by
  unfold foreign
  rcases acquire_locks t transactionId entityId modality lockType with h | ⟨-, h⟩
  · rw [h]
  · rw [h, grant_locks]
    split
    · next hkey => simp [foreign, hkey]
    · rfl

theorem acquire_other {key : LockKey} (hkey : key ≠ (entityId, modality)) :
    (t.acquire transactionId entityId modality lockType).2.locks key = t.locks key := by
  rcases acquire_locks t transactionId entityId modality lockType with h | ⟨-, h⟩
  · rw [h]
  · rw [h, grant_locks, if_neg hkey]

end acquire

/-! ### Exclusive locks -/

/-- No key has more than one holder, and no lock is shared. -/
def Exclusive (t : LockTable) : Prop :=
  ∀ key, t.locks key = [] ∨ ∃ holder, t.locks key = [⟨holder, .exclusive⟩]

def HeldBy (t : LockTable) (holder : Uuid) (key : LockKey) : Prop :=
  t.locks key = [⟨holder, .exclusive⟩]

variable {t : LockTable} {transactionId holder : Uuid} {key : LockKey}
  {entityId modality : String}

theorem HeldBy.foreign_ne_nil (h : t.HeldBy holder key) (hne : holder ≠ transactionId) :
    t.foreign transactionId key ≠ [] := by
  unfold HeldBy at h
  simp [foreign, h, hne]

/-- A request for an exclusive lock is met only if nobody else holds the key. -/
theorem Exclusive.foreign_of_grants (hex : t.Exclusive)
    (h : t.grants transactionId key .exclusive = true) : t.foreign transactionId key = [] := by
  unfold foreign
  rcases hex key with hnone | ⟨holder, hone⟩
  · rw [hnone]
    rfl
  · by_cases hne : holder = transactionId
    · simp [hone, hne]
    · simp [grants, hone, decide, hne] at h

theorem Exclusive.acquire (hex : t.Exclusive) :
    (t.acquire transactionId entityId modality .exclusive).2.Exclusive := by
  intro key
  rcases acquire_locks t transactionId entityId modality .exclusive with h | ⟨hgrants, h⟩
  · rw [h]
    exact hex key
  · rw [h, grant_locks]
    split
    · rw [hex.foreign_of_grants hgrants]
      exact .inr ⟨transactionId, rfl⟩
    · exact hex key

/-- Whoever is granted an exclusive lock holds it. -/
theorem Exclusive.heldBy_of_ok (hex : t.Exclusive)
    (hok : (t.acquire transactionId entityId modality .exclusive).1 = .ok ()) :
    (t.acquire transactionId entityId modality .exclusive).2.HeldBy transactionId
      (entityId, modality) := by
  have hgrants := (acquire_ok_iff t transactionId entityId modality .exclusive).mp hok
  unfold HeldBy
  rcases hex (entityId, modality) with hnone | ⟨holder, hone⟩
  · simp [LockTable.acquire, hnone, LockTable.decide, grant_locks, foreign]
  · have hself : holder = transactionId := by
      by_contra hne
      exact HeldBy.foreign_ne_nil hone hne (hex.foreign_of_grants hgrants)
    simp [LockTable.acquire, hone, hself, LockTable.decide]

/-- A lock that somebody else holds stays. -/
theorem HeldBy.acquire (h : t.HeldBy holder key) (hex : t.Exclusive)
    (hne : holder ≠ transactionId) :
    (t.acquire transactionId entityId modality .exclusive).2.HeldBy holder key := by
  unfold HeldBy
  rcases acquire_locks t transactionId entityId modality .exclusive with hl | ⟨hgrants, hl⟩
  · rw [hl]
    exact h
  · rw [hl, grant_locks, if_neg]
    · exact h
    · rintro rfl
      exact h.foreign_ne_nil hne (hex.foreign_of_grants hgrants)

theorem Exclusive.releaseAll (hex : t.Exclusive) : (t.releaseAll transactionId).Exclusive := by
  intro key
  rcases hex key with hnone | ⟨holder, hone⟩
  · exact .inl (by simp [LockTable.releaseAll, hnone])
  · by_cases hne : holder = transactionId
    · exact .inl (by simp [LockTable.releaseAll, hone, hne])
    · exact .inr ⟨holder, by simp [LockTable.releaseAll, hone, hne]⟩

theorem HeldBy.releaseAll (h : t.HeldBy holder key) (hne : holder ≠ transactionId) :
    (t.releaseAll transactionId).HeldBy holder key := by
  unfold HeldBy at *
  simp [LockTable.releaseAll, h, hne]

end LockTable

/-! ### The manager -/

namespace Transaction

/-- `Transaction::new`, with the identifier and the time that it reads. -/
def new (id : Uuid) (isolationLevel : IsolationLevel) (now : DateTime) : Transaction where
  id := id
  state := .active
  isolationLevel := isolationLevel
  undoLog := []
  locks := []
  readSet := []
  startedAt := now
  completedAt := none

end Transaction

structure TransactionManager where
  activeTransactions : Uuid → Option Transaction
  lockTable : LockTable
  /-- The committed version of an entity and a modality. -/
  versionTable : LockKey → ℕ

namespace TransactionManager

def new : TransactionManager := ⟨fun _ => none, .empty, fun _ => 0⟩

/-- Replace a transaction. -/
def put (m : TransactionManager) (transactionId : Uuid) (txn : Transaction) :
    TransactionManager :=
  { m with activeTransactions := Function.update m.activeTransactions transactionId (some txn) }

def begin (m : TransactionManager) (transactionId : Uuid) (isolationLevel : IsolationLevel)
    (now : DateTime) : TransactionManager :=
  m.put transactionId (Transaction.new transactionId isolationLevel now)

/-- The transaction, if it exists and is active. -/
def active (m : TransactionManager) (transactionId : Uuid) : Except TransactionError Transaction :=
  match m.activeTransactions transactionId with
  | none => .error (.transactionNotFound transactionId)
  | some txn =>
    if txn.state ≠ .active then .error (.invalidState transactionId txn.state "Active")
    else .ok txn

/-- A read that another transaction has overtaken; only serializable ones are validated. -/
def stale (m : TransactionManager) (txn : Transaction) : Option ReadStamp :=
  match txn.isolationLevel with
  | .readCommitted => none
  | .serializable =>
    txn.readSet.find? fun stamp =>
      m.versionTable (stamp.entityId, stamp.modality) ≠ stamp.versionAtRead

/-- Close a transaction and release its locks. -/
def finish (m : TransactionManager) (transactionId : Uuid) (txn : Transaction)
    (state : TransactionState) (now : DateTime) : TransactionManager :=
  { m.put transactionId { txn with state := state, completedAt := some now } with
    lockTable := m.lockTable.releaseAll transactionId }

def increment (versions : LockKey → ℕ) (entry : UndoEntry) : LockKey → ℕ :=
  Function.update versions (entry.entityId, entry.modality)
    (versions (entry.entityId, entry.modality) + 1)

def commit (m : TransactionManager) (transactionId : Uuid) (now : DateTime) :
    Except TransactionError Unit × TransactionManager :=
  match m.active transactionId with
  | .error e => (.error e, m)
  | .ok txn =>
    match m.stale txn with
    | some stamp =>
      (.error (.versionConflict stamp.entityId stamp.versionAtRead
        (m.versionTable (stamp.entityId, stamp.modality))),
        m.finish transactionId txn .rolledBack now)
    | none =>
      (.ok (), { m.finish transactionId txn .committed now with
        versionTable := txn.undoLog.foldl increment m.versionTable })

def rollback (m : TransactionManager) (transactionId : Uuid) (now : DateTime) :
    Except TransactionError (List UndoEntry) × TransactionManager :=
  match m.active transactionId with
  | .error e => (.error e, m)
  | .ok txn => (.ok txn.undoLog.reverse, m.finish transactionId txn .rolledBack now)

def acquireLock (m : TransactionManager) (transactionId : Uuid) (entityId modality : String)
    (lockType : LockType) : Except TransactionError Unit × TransactionManager :=
  if modality ∉ MODALITIES then (.error (.invalidModality modality), m)
  else
    match m.active transactionId with
    | .error e => (.error e, m)
    | .ok txn =>
      let r := m.lockTable.acquire transactionId entityId modality lockType
      match r.1 with
      | .error e => (.error e, { m with lockTable := r.2 })
      | .ok () =>
        let others := txn.locks.filter fun l => ¬ (l.entityId = entityId ∧ l.modality = modality)
        (.ok (), { m.put transactionId
          { txn with locks := others ++ [⟨entityId, modality, lockType⟩] } with
          lockTable := r.2 })

def recordUndo (m : TransactionManager) (transactionId : Uuid) (entityId modality : String)
    (previousData : Option Bytes) (previousVersion : ℕ) (now : DateTime) :
    Except TransactionError Unit × TransactionManager :=
  if modality ∉ MODALITIES then (.error (.invalidModality modality), m)
  else
    match m.active transactionId with
    | .error e => (.error e, m)
    | .ok txn =>
      let entry := ⟨entityId, modality, previousData, previousVersion, now⟩
      (.ok (), m.put transactionId { txn with undoLog := txn.undoLog ++ [entry] })

/-- Record the version that a transaction reads. -/
def recordRead (m : TransactionManager) (transactionId : Uuid) (entityId modality : String) :
    Except TransactionError Unit × TransactionManager :=
  if modality ∉ MODALITIES then (.error (.invalidModality modality), m)
  else
    let currentVersion := m.versionTable (entityId, modality)
    match m.active transactionId with
    | .error e => (.error e, m)
    | .ok txn =>
      let stamp := ⟨entityId, modality, currentVersion⟩
      (.ok (), m.put transactionId { txn with readSet := txn.readSet ++ [stamp] })

/-! ### What the operations keep -/

/-- The transaction is active, and its commit validates nothing. -/
def Open (m : TransactionManager) (transactionId : Uuid) : Prop :=
  ∃ txn, m.active transactionId = .ok txn ∧ txn.isolationLevel = .readCommitted

variable {m : TransactionManager} {transactionId other : Uuid} {entityId modality : String}
  {lockType : LockType} {now : DateTime}

theorem active_state {txn : Transaction} (h : m.active transactionId = .ok txn) :
    txn.state = .active := by
  unfold active at h
  split at h
  · cases h
  · split at h
    · cases h
    · next hstate =>
      cases h
      exact not_not.mp hstate

theorem active_put (txn : Transaction) :
    (m.put transactionId txn).active other =
      if other = transactionId then
        if txn.state ≠ .active then .error (.invalidState transactionId txn.state "Active")
        else .ok txn
      else m.active other := by
  unfold active put
  by_cases h : other = transactionId
  · subst h
    simp
  · simp [h]

/-- Changing an active transaction, but neither its state nor its level, closes none. -/
theorem Open.put {txn txn' : Transaction} (h : m.Open other)
    (htxn : m.active transactionId = .ok txn) (hstate : txn'.state = txn.state)
    (hlevel : txn'.isolationLevel = txn.isolationLevel) :
    (m.put transactionId txn').Open other := by
  unfold Open
  rw [active_put]
  split
  · next heq =>
    obtain ⟨old, hold, hcommitted⟩ := h
    rw [heq, htxn] at hold
    cases hold
    exact ⟨txn', by simp [hstate, active_state htxn], hlevel.trans hcommitted⟩
  · exact h

theorem Open.put_other {txn : Transaction} (h : m.Open other) (hne : other ≠ transactionId) :
    (m.put transactionId txn).Open other := by
  unfold Open
  rw [active_put, if_neg hne]
  exact h

theorem open_begin : (m.begin transactionId .readCommitted now).Open transactionId := by
  unfold Open begin
  rw [active_put]
  exact ⟨Transaction.new transactionId .readCommitted now, by simp [Transaction.new], rfl⟩

theorem Open.begin (h : m.Open other) (hne : other ≠ transactionId) :
    (m.begin transactionId .readCommitted now).Open other := h.put_other hne

theorem Open.acquireLock (h : m.Open other) :
    (m.acquireLock transactionId entityId modality lockType).2.Open other := by
  unfold TransactionManager.acquireLock
  split
  · exact h
  · split
    · exact h
    · next txn htxn =>
      dsimp only
      split
      · exact h
      · exact h.put htxn rfl rfl

theorem Open.recordUndo {previousData : Option Bytes} {previousVersion : ℕ} (h : m.Open other) :
    (m.recordUndo transactionId entityId modality previousData previousVersion now).2.Open
      other := by
  unfold TransactionManager.recordUndo
  split
  · exact h
  · split
    · exact h
    · next txn htxn =>
      exact h.put htxn rfl rfl

theorem Open.commit (h : m.Open other) (hne : other ≠ transactionId) :
    (m.commit transactionId now).2.Open other := by
  unfold TransactionManager.commit
  split
  · exact h
  · split
    · exact h.put_other hne
    · exact h.put_other hne

theorem Open.rollback (h : m.Open other) (hne : other ≠ transactionId) :
    (m.rollback transactionId now).2.Open other := by
  unfold TransactionManager.rollback
  split
  · exact h
  · exact h.put_other hne

theorem Open.commit_ok (h : m.Open transactionId) (now : DateTime) :
    (m.commit transactionId now).1 = .ok () ∧
      (m.commit transactionId now).2.lockTable = m.lockTable.releaseAll transactionId := by
  obtain ⟨txn, htxn, hlevel⟩ := h
  simp [TransactionManager.commit, htxn, stale, hlevel, finish]

theorem Open.rollback_lockTable (h : m.Open transactionId) (now : DateTime) :
    (m.rollback transactionId now).2.lockTable = m.lockTable.releaseAll transactionId := by
  obtain ⟨txn, htxn, -⟩ := h
  simp [TransactionManager.rollback, htxn, finish]

@[simp] theorem begin_lockTable (isolationLevel : IsolationLevel) :
    (m.begin transactionId isolationLevel now).lockTable = m.lockTable := rfl

@[simp] theorem recordUndo_lockTable (previousData : Option Bytes) (previousVersion : ℕ) :
    (m.recordUndo transactionId entityId modality previousData previousVersion now).2.lockTable =
      m.lockTable := by
  unfold recordUndo
  split
  · rfl
  · split <;> rfl

@[simp] theorem recordRead_lockTable :
    (m.recordRead transactionId entityId modality).2.lockTable = m.lockTable := by
  unfold recordRead
  split
  · rfl
  · dsimp only
    split <;> rfl

theorem commit_lockTable (m : TransactionManager) (transactionId : Uuid) (now : DateTime) :
    (m.commit transactionId now).2.lockTable = m.lockTable ∨
      (m.commit transactionId now).2.lockTable = m.lockTable.releaseAll transactionId := by
  unfold commit
  split
  · exact .inl rfl
  · split
    · exact .inr rfl
    · exact .inr rfl

theorem rollback_lockTable (m : TransactionManager) (transactionId : Uuid) (now : DateTime) :
    (m.rollback transactionId now).2.lockTable = m.lockTable ∨
      (m.rollback transactionId now).2.lockTable = m.lockTable.releaseAll transactionId := by
  unfold rollback
  split
  · exact .inl rfl
  · exact .inr rfl

/-- A request reaches the lock table, or is refused before. -/
theorem acquireLock_lockTable (m : TransactionManager) (transactionId : Uuid)
    (entityId modality : String) (lockType : LockType) :
    (m.acquireLock transactionId entityId modality lockType).2.lockTable = m.lockTable ∧
        (∃ e, (m.acquireLock transactionId entityId modality lockType).1 = .error e) ∨
      (m.acquireLock transactionId entityId modality lockType).2.lockTable =
          (m.lockTable.acquire transactionId entityId modality lockType).2 ∧
        (m.acquireLock transactionId entityId modality lockType).1 =
          (m.lockTable.acquire transactionId entityId modality lockType).1 := by
  unfold acquireLock
  split
  · exact .inl ⟨rfl, _, rfl⟩
  · split
    · exact .inl ⟨rfl, _, rfl⟩
    · dsimp only
      split
      · next heq => exact .inr ⟨rfl, heq.symm⟩
      · next heq => exact .inr ⟨rfl, heq.symm⟩

theorem Open.acquireLock_ok_iff (h : m.Open transactionId) (hmodality : modality ∈ MODALITIES) :
    (m.acquireLock transactionId entityId modality lockType).1 = .ok () ↔
      m.lockTable.grants transactionId (entityId, modality) lockType = true := by
  obtain ⟨txn, htxn, -⟩ := h
  rw [← LockTable.acquire_ok_iff]
  unfold TransactionManager.acquireLock
  rw [if_neg (not_not.mpr hmodality), htxn]
  dsimp only
  split
  · next heq => simp [heq]
  · next heq => simp [heq]

end TransactionManager

end NextgenDatabases.Verisim
