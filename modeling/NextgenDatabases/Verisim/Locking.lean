import NextgenDatabases.Foundations.Runs
import NextgenDatabases.Verisim.Transactions
import Mathlib.Data.List.Nodup

/-!
# Who holds which lock

A key has one holder, or several that share it. The lock set of a transaction is what
the lock table records for it, unless a transaction asks for a shared lock on a key that
it holds exclusively.
-/
namespace NextgenDatabases.Verisim

open Foundations (Run Bytes)
open Wal (DateTime)

/-- A lock that is held is strong enough for one that is requested. -/
def LockType.Covers : LockType → LockType → Prop
  | exclusive, _ => True
  | shared, requested => requested = shared

theorem LockType.covers_refl (lockType : LockType) : lockType.Covers lockType := by
  cases lockType with
  | shared => rfl
  | exclusive => trivial

/-- Two transactions may hold these locks on one key. -/
def LockType.Compatible (held requested : LockType) : Prop :=
  held = shared ∧ requested = shared

instance (held requested : LockType) : Decidable (held.Compatible requested) :=
  inferInstanceAs (Decidable (_ ∧ _))

/-- No transaction holds the key twice, and several holders share it. -/
structure Coherent (holders : List LockInfo) : Prop where
  nodup : (holders.map LockInfo.holder).Nodup
  shared : 1 < holders.length → ∀ info ∈ holders, info.lockType = .shared

/-- A transaction holds a key at most once. -/
theorem Coherent.holder_unique {holders : List LockInfo} (h : Coherent holders)
    {info other : LockInfo} (hinfo : info ∈ holders) (hother : other ∈ holders)
    (heq : info.holder = other.holder) : info = other :=
  List.inj_on_of_nodup_map h.nodup hinfo hother heq

namespace LockTable

/-! ### What a request meets -/

/-- What an action says about the holders that are still to be seen. -/
def Meaning (holders : List LockInfo) (transactionId : Uuid) (lockType : LockType)
    (rest : List LockInfo) : AcquireAction → Prop
  | .alreadyHeld =>
    ∃ info ∈ rest, info.holder = transactionId ∧ info.lockType.Covers lockType
  | .upgrade =>
    lockType = .exclusive ∧ holders.length = 1 ∧ ⟨transactionId, .shared⟩ ∈ rest
  | .upgradeConflict _ =>
    lockType = .exclusive ∧ holders.length ≠ 1 ∧ ⟨transactionId, .shared⟩ ∈ rest
  | .conflict blocker =>
    blocker ≠ transactionId ∧
      ∃ held : LockType, ¬ held.Compatible lockType ∧ ⟨blocker, held⟩ ∈ rest
  | .grant =>
    ∀ info ∈ rest, info.holder ≠ transactionId ∧ info.lockType.Compatible lockType

variable {t : LockTable} {transactionId : Uuid} {entityId modality : String}
  {lockType : LockType}

theorem Meaning.mono {holders rest : List LockInfo} {info : LockInfo} {action : AcquireAction}
    (hne : info.holder ≠ transactionId) (hcompatible : info.lockType.Compatible lockType)
    (h : Meaning holders transactionId lockType rest action) :
    Meaning holders transactionId lockType (info :: rest) action := by
  cases action with
  | alreadyHeld =>
    obtain ⟨held, hmem, hheld⟩ := h
    exact ⟨held, List.mem_cons_of_mem _ hmem, hheld⟩
  | upgrade => exact ⟨h.1, h.2.1, List.mem_cons_of_mem _ h.2.2⟩
  | upgradeConflict otherHolder => exact ⟨h.1, h.2.1, List.mem_cons_of_mem _ h.2.2⟩
  | conflict blocker =>
    obtain ⟨hblocker, held, hheld, hmem⟩ := h
    exact ⟨hblocker, held, hheld, List.mem_cons_of_mem _ hmem⟩
  | grant =>
    intro other hother
    rcases List.mem_cons.mp hother with rfl | hother
    · exact ⟨hne, hcompatible⟩
    · exact h other hother

theorem decide_meaning (holders : List LockInfo) (transactionId : Uuid) (lockType : LockType)
    (rest : List LockInfo) :
    Meaning holders transactionId lockType rest
      (decide holders transactionId lockType rest) := by
  induction rest with
  | nil =>
    intro info hinfo
    cases hinfo
  | cons info rest ih =>
    obtain ⟨holder, held⟩ := info
    unfold decide
    split
    · next hself =>
      cases hself
      split
      · next hupgrade =>
        obtain ⟨rfl, rfl⟩ := hupgrade
        split
        · next hlength => exact ⟨rfl, hlength, List.mem_cons_self⟩
        · next hlength => exact ⟨rfl, hlength, List.mem_cons_self⟩
      · next hcovers =>
        refine ⟨_, List.mem_cons_self, rfl, ?_⟩
        cases held with
        | exclusive => trivial
        | shared =>
          cases lockType with
          | shared => rfl
          | exclusive => exact absurd ⟨rfl, rfl⟩ hcovers
    · next hother =>
      split
      · next hconflict => exact ⟨hother, held, hconflict, List.mem_cons_self⟩
      · next hcompatible => exact ih.mono hother (not_not.mp hcompatible)

/-- A request is met by what the transaction holds, is granted, or is refused. -/
theorem acquire_cases (t : LockTable) (transactionId : Uuid) (entityId modality : String)
    (lockType : LockType) :
    t.acquire transactionId entityId modality lockType = (.ok (), t) ∧
        (∃ info ∈ t.locks (entityId, modality),
          info.holder = transactionId ∧ info.lockType.Covers lockType) ∨
      t.acquire transactionId entityId modality lockType =
          (.ok (), t.grant transactionId (entityId, modality) lockType) ∧
        (∀ info ∈ t.foreign transactionId (entityId, modality),
          info.lockType.Compatible lockType) ∧
        (∀ info ∈ t.locks (entityId, modality),
          info.holder = transactionId → lockType = .exclusive) ∨
      ∃ e, (t.acquire transactionId entityId modality lockType).1 = .error e ∧
        (t.acquire transactionId entityId modality lockType).2.locks = t.locks := by
  have hmeaning := decide_meaning (t.locks (entityId, modality)) transactionId lockType
    (t.locks (entityId, modality))
  unfold acquire
  dsimp only
  cases haction : decide (t.locks (entityId, modality)) transactionId lockType
      (t.locks (entityId, modality)) with
  | alreadyHeld =>
    rw [haction] at hmeaning
    exact .inl ⟨rfl, hmeaning⟩
  | upgrade =>
    rw [haction] at hmeaning
    obtain ⟨hexclusive, hlength, hmem⟩ := hmeaning
    obtain ⟨info, hone⟩ := List.length_eq_one_iff.mp hlength
    rw [hone, List.mem_singleton] at hmem
    refine .inr (.inl ⟨rfl, ?_, fun _ _ _ => hexclusive⟩)
    intro other hother
    simp [foreign, hone, ← hmem] at hother
  | upgradeConflict otherHolder => exact .inr (.inr ⟨_, rfl, rfl⟩)
  | conflict blocker =>
    right
    right
    dsimp only
    split
    · exact ⟨_, rfl, rfl⟩
    · exact ⟨_, rfl, rfl⟩
  | grant =>
    rw [haction] at hmeaning
    refine .inr (.inl ⟨rfl, ?_, ?_⟩)
    · intro info hinfo
      exact (hmeaning info (List.mem_filter.mp hinfo).1).2
    · intro info hinfo hself
      exact absurd hself (hmeaning info hinfo).1

theorem mem_foreign {info : LockInfo} {key : LockKey} :
    info ∈ t.foreign transactionId key ↔
      info ∈ t.locks key ∧ info.holder ≠ transactionId := by
  simp [foreign]

theorem mem_grant {info : LockInfo} {key k : LockKey} :
    info ∈ (t.grant transactionId key lockType).locks k ↔
      info ∈ t.locks k ∧ (info.holder ≠ transactionId ∨ k ≠ key) ∨
        k = key ∧ info = ⟨transactionId, lockType⟩ := by
  rw [grant_locks]
  split
  · next h => simp [h, mem_foreign]
  · next h => simp [h]

theorem mem_releaseAll {info : LockInfo} {key : LockKey} :
    info ∈ (t.releaseAll transactionId).locks key ↔
      info ∈ t.locks key ∧ info.holder ≠ transactionId := by
  simp [releaseAll]

/-! ### Exclusion -/

theorem coherent_foreign {key : LockKey} (h : Coherent (t.locks key)) :
    Coherent (t.foreign transactionId key) where
  nodup := h.nodup.sublist (List.filter_sublist.map _)
  shared := by
    intro hlength info hinfo
    have hle : (t.foreign transactionId key).length ≤ (t.locks key).length :=
      List.length_filter_le _ _
    exact h.shared (by omega) info (List.mem_filter.mp hinfo).1

/-- A lock may be added to others if all of them are compatible with it. -/
theorem coherent_add {key : LockKey} (h : Coherent (t.locks key))
    (hcompatible : ∀ info ∈ t.foreign transactionId key, info.lockType.Compatible lockType) :
    Coherent (t.foreign transactionId key ++ [⟨transactionId, lockType⟩]) where
  nodup := by
    rw [List.map_append, List.map_singleton]
    refine List.nodup_append.mpr ⟨(coherent_foreign h).nodup, List.nodup_singleton _, ?_⟩
    intro holder hholder self hself
    obtain ⟨info, hinfo, rfl⟩ := List.mem_map.mp hholder
    rw [List.mem_singleton.mp hself]
    exact (mem_foreign.mp hinfo).2
  shared := by
    intro hlength info hinfo
    have hne : t.foreign transactionId key ≠ [] := by
      intro hnil
      simp [hnil] at hlength
    obtain ⟨first, hfirst⟩ := List.exists_mem_of_ne_nil _ hne
    rcases List.mem_append.mp hinfo with hinfo | hinfo
    · exact (hcompatible info hinfo).1
    · rw [List.mem_singleton.mp hinfo]
      exact (hcompatible first hfirst).2

theorem coherent_acquire (h : ∀ key, Coherent (t.locks key)) (key : LockKey) :
    Coherent ((t.acquire transactionId entityId modality lockType).2.locks key) := by
  rcases acquire_cases t transactionId entityId modality lockType with
    ⟨heq, -⟩ | ⟨heq, hcompatible, -⟩ | ⟨e, -, hlocks⟩
  · rw [heq]
    exact h key
  · rw [heq, grant_locks]
    split
    · exact coherent_add (h _) hcompatible
    · exact h key
  · rw [hlocks]
    exact h key

theorem coherent_releaseAll (h : ∀ key, Coherent (t.locks key)) (key : LockKey) :
    Coherent ((t.releaseAll transactionId).locks key) := coherent_foreign (h key)

theorem coherent_empty (key : LockKey) : Coherent (empty.locks key) :=
  ⟨List.nodup_nil, fun _ _ hinfo => absurd hinfo List.not_mem_nil⟩

/-- Whoever is granted a lock holds one that covers it. -/
theorem held_of_ok (hok : (t.acquire transactionId entityId modality lockType).1 = .ok ()) :
    ∃ info ∈ (t.acquire transactionId entityId modality lockType).2.locks (entityId, modality),
      info.holder = transactionId ∧ info.lockType.Covers lockType := by
  rcases acquire_cases t transactionId entityId modality lockType with
    ⟨heq, hheld⟩ | ⟨heq, -, -⟩ | ⟨e, herr, -⟩
  · rw [heq]
    exact hheld
  · rw [heq]
    exact ⟨⟨transactionId, lockType⟩, mem_grant.mpr (.inr ⟨rfl, rfl⟩), rfl,
      lockType.covers_refl⟩
  · rw [herr] at hok
    cases hok

/-- A call on the lock table. -/
inductive Call
  | acquire (transactionId : Uuid) (entityId modality : String) (lockType : LockType)
  | releaseAll (transactionId : Uuid)

def step (t : LockTable) : Call → Option LockTable
  | .acquire transactionId entityId modality lockType =>
    some (t.acquire transactionId entityId modality lockType).2
  | .releaseAll transactionId => some (t.releaseAll transactionId)

/-- Whatever is requested and released, a key has one holder or several distinct ones that
share it, and a request that is granted makes its transaction a holder. -/
theorem exclusion {t : LockTable} (r : Run step (fun _ _ => True) .empty t) :
    (∀ key, Coherent (t.locks key)) ∧
      ∀ transactionId entityId modality lockType,
        (t.acquire transactionId entityId modality lockType).1 = .ok () →
          ∃ info ∈ (t.acquire transactionId entityId modality lockType).2.locks
              (entityId, modality),
            info.holder = transactionId ∧ info.lockType.Covers lockType := by
  refine ⟨?_, fun transactionId entityId modality lockType => held_of_ok⟩
  refine Run.invariant (I := fun t => ∀ key, Coherent (t.locks key)) ?_ r ?_
  · intro t call u h _ hstep
    cases call with
    | acquire transactionId entityId modality lockType =>
      cases hstep
      exact coherent_acquire h
    | releaseAll transactionId =>
      cases hstep
      exact coherent_releaseAll h
  · exact coherent_empty

/-- Two readers share a key. -/
theorem exclusion_shared :
    Coherent ((((LockTable.empty.acquire "a" "e" "graph" .shared).2.acquire "b" "e" "graph"
      .shared).2).locks ("e", "graph")) :=
  (exclusion (.tail (.single ⟨.acquire "a" "e" "graph" .shared, trivial, rfl⟩)
    ⟨.acquire "b" "e" "graph" .shared, trivial, rfl⟩)).1 _

end LockTable

namespace TransactionManager

/-! ### The lock sets -/

/-- A call on the manager; the identifier of a new transaction is fresh. -/
inductive Call
  | begin (transactionId : Uuid) (isolationLevel : IsolationLevel) (now : DateTime)
  | acquireLock (transactionId : Uuid) (entityId modality : String) (lockType : LockType)
  | recordUndo (transactionId : Uuid) (entityId modality : String)
      (previousData : Option Bytes) (previousVersion : ℕ) (now : DateTime)
  | recordRead (transactionId : Uuid) (entityId modality : String)
  | commit (transactionId : Uuid) (now : DateTime)
  | rollback (transactionId : Uuid) (now : DateTime)

def step (m : TransactionManager) : Call → Option TransactionManager
  | .begin transactionId isolationLevel now =>
    if m.activeTransactions transactionId = none then
      some (m.begin transactionId isolationLevel now)
    else none
  | .acquireLock transactionId entityId modality lockType =>
    some (m.acquireLock transactionId entityId modality lockType).2
  | .recordUndo transactionId entityId modality previousData previousVersion now =>
    some (m.recordUndo transactionId entityId modality previousData previousVersion now).2
  | .recordRead transactionId entityId modality =>
    some (m.recordRead transactionId entityId modality).2
  | .commit transactionId now => some (m.commit transactionId now).2
  | .rollback transactionId now => some (m.rollback transactionId now).2

/-- The lock sets of the active transactions are what the lock table records, and no other
transaction holds a lock. -/
structure Agrees (m : TransactionManager) : Prop where
  locks : ∀ transactionId txn, m.active transactionId = .ok txn →
    ∀ entityId modality lockType,
      ⟨entityId, modality, lockType⟩ ∈ txn.locks ↔
        ⟨transactionId, lockType⟩ ∈ m.lockTable.locks (entityId, modality)
  nodup : ∀ transactionId txn, m.active transactionId = .ok txn → txn.locks.Nodup
  holders : ∀ key, ∀ info ∈ m.lockTable.locks key, ∃ txn, m.active info.holder = .ok txn

/-- The call asks for a shared lock on a key that its transaction holds exclusively. -/
def Weakens (m : TransactionManager) : Call → Prop
  | .acquireLock transactionId entityId modality lockType =>
    lockType = .shared ∧ ⟨transactionId, .exclusive⟩ ∈ m.lockTable.locks (entityId, modality)
  | _ => False

variable {m : TransactionManager} {transactionId : Uuid} {entityId modality : String}
  {lockType : LockType} {now : DateTime}

theorem agrees_new : TransactionManager.new.Agrees where
  locks := by
    intro transactionId txn h
    cases h
  nodup := by
    intro transactionId txn h
    cases h
  holders := by
    intro key info hinfo
    cases hinfo

/-- Changing an active transaction, but neither its state nor its locks, keeps the agreement. -/
theorem Agrees.put {txn txn' : Transaction} (h : m.Agrees)
    (htxn : m.active transactionId = .ok txn) (hstate : txn'.state = txn.state)
    (hlocks : txn'.locks = txn.locks) : (m.put transactionId txn').Agrees := by
  have hactive : txn'.state = .active := hstate.trans (active_state htxn)
  have hput : ∀ other txn₁, (m.put transactionId txn').active other = .ok txn₁ →
      ∃ txn₀, m.active other = .ok txn₀ ∧ txn₁.locks = txn₀.locks := by
    intro other txn₁ h₁
    rw [active_put] at h₁
    split at h₁
    · next heq =>
      simp only [hactive, ne_eq, not_true_eq_false, if_false] at h₁
      cases h₁
      exact ⟨txn, heq ▸ htxn, hlocks⟩
    · exact ⟨txn₁, h₁, rfl⟩
  constructor
  · intro other txn₁ h₁ entityId modality lockType
    obtain ⟨txn₀, h₀, heq⟩ := hput other txn₁ h₁
    rw [heq]
    exact h.locks other txn₀ h₀ entityId modality lockType
  · intro other txn₁ h₁
    obtain ⟨txn₀, h₀, heq⟩ := hput other txn₁ h₁
    rw [heq]
    exact h.nodup other txn₀ h₀
  · intro key info hinfo
    rw [active_put]
    split
    · exact ⟨txn', by simp [hactive]⟩
    · exact h.holders key info hinfo

theorem Agrees.begin (h : m.Agrees) (hfresh : m.activeTransactions transactionId = none)
    (isolationLevel : IsolationLevel) :
    (m.begin transactionId isolationLevel now).Agrees := by
  have hnone : ∀ txn, m.active transactionId ≠ .ok txn := by
    intro txn htxn
    simp [active, hfresh] at htxn
  have hbegin : ∀ other txn, (m.begin transactionId isolationLevel now).active other = .ok txn →
      m.active other = .ok txn ∨ other = transactionId ∧ txn.locks = [] := by
    intro other txn htxn
    rw [TransactionManager.begin, active_put] at htxn
    split at htxn
    · next heq =>
      cases htxn
      exact .inr ⟨heq, rfl⟩
    · exact .inl htxn
  constructor
  · intro other txn htxn entityId modality lockType
    rcases hbegin other txn htxn with hold | ⟨rfl, hnil⟩
    · exact h.locks other txn hold entityId modality lockType
    · rw [hnil]
      refine ⟨fun hmem => absurd hmem List.not_mem_nil, fun hmem => ?_⟩
      obtain ⟨txn₀, h₀⟩ := h.holders _ _ hmem
      exact absurd h₀ (hnone txn₀)
  · intro other txn htxn
    rcases hbegin other txn htxn with hold | ⟨-, hnil⟩
    · exact h.nodup other txn hold
    · rw [hnil]
      exact List.nodup_nil
  · intro key info hinfo
    obtain ⟨txn, htxn⟩ := h.holders key info hinfo
    refine ⟨txn, ?_⟩
    rw [TransactionManager.begin, active_put, if_neg]
    · exact htxn
    · rintro heq
      exact hnone txn (heq ▸ htxn)

/-- Closing a transaction and releasing what it holds keeps the agreement. -/
theorem Agrees.finish {txn : Transaction} {state : TransactionState} (h : m.Agrees)
    (hstate : state ≠ .active) : (m.finish transactionId txn state now).Agrees := by
  have hfinish : ∀ other, (m.finish transactionId txn state now).active other =
      if other = transactionId then .error (.invalidState transactionId state "Active")
      else m.active other := by
    intro other
    refine (active_put (m := m) { txn with state := state, completedAt := some now }).trans ?_
    simp only [ne_eq, hstate, not_false_eq_true, if_true]
  constructor
  · intro other txn₁ h₁ entityId modality lockType
    rw [hfinish] at h₁
    split at h₁
    · cases h₁
    · next hne =>
      rw [h.locks other txn₁ h₁]
      exact ⟨fun hmem => LockTable.mem_releaseAll.mpr ⟨hmem, hne⟩,
        fun hmem => (LockTable.mem_releaseAll.mp hmem).1⟩
  · intro other txn₁ h₁
    rw [hfinish] at h₁
    split at h₁
    · cases h₁
    · exact h.nodup other txn₁ h₁
  · intro key info hinfo
    obtain ⟨hinfo, hne⟩ := LockTable.mem_releaseAll.mp hinfo
    rw [hfinish, if_neg hne]
    exact h.holders key info hinfo

theorem Agrees.commit (h : m.Agrees) : (m.commit transactionId now).2.Agrees := by
  unfold TransactionManager.commit
  split
  · exact h
  · next txn _ =>
    split
    · exact h.finish (by decide)
    · have hfinish : (m.finish transactionId txn .committed now).Agrees := h.finish (by decide)
      exact ⟨hfinish.locks, hfinish.nodup, hfinish.holders⟩

theorem Agrees.rollback (h : m.Agrees) : (m.rollback transactionId now).2.Agrees := by
  unfold TransactionManager.rollback
  split
  · exact h
  · exact h.finish (by decide)

theorem Agrees.recordUndo {previousData : Option Bytes} {previousVersion : ℕ} (h : m.Agrees) :
    (m.recordUndo transactionId entityId modality previousData previousVersion now).2.Agrees := by
  unfold TransactionManager.recordUndo
  split
  · exact h
  · split
    · exact h
    · next txn htxn => exact h.put htxn rfl rfl

theorem Agrees.recordRead (h : m.Agrees) :
    (m.recordRead transactionId entityId modality).2.Agrees := by
  unfold TransactionManager.recordRead
  split
  · exact h
  · dsimp only
    split
    · exact h
    · next txn htxn => exact h.put htxn rfl rfl

/-- A refused request changes neither locks nor transactions. -/
theorem Agrees.refused {lockTable : LockTable} (h : m.Agrees)
    (hlocks : lockTable.locks = m.lockTable.locks) :
    ({ m with lockTable := lockTable } : TransactionManager).Agrees where
  locks := by
    intro other txn htxn entityId modality lockType
    rw [hlocks]
    exact h.locks other txn htxn entityId modality lockType
  nodup := h.nodup
  holders := by
    intro key info hinfo
    rw [hlocks] at hinfo
    exact h.holders key info hinfo

/-- Recording a lock keeps the agreement if the lock table holds it, with its type. -/
theorem Agrees.granted {txn : Transaction} {lockTable : LockTable} (h : m.Agrees)
    (htxn : m.active transactionId = .ok txn)
    (hheld : ∀ info ∈ lockTable.locks (entityId, modality),
      info.holder = transactionId ↔ info = ⟨transactionId, lockType⟩)
    (hmem : ⟨transactionId, lockType⟩ ∈ lockTable.locks (entityId, modality))
    (hother : ∀ key info, info.holder ≠ transactionId ∨ key ≠ (entityId, modality) →
      (info ∈ lockTable.locks key ↔ info ∈ m.lockTable.locks key)) :
    ({ m.put transactionId { txn with locks :=
        (txn.locks.filter fun l => ¬ (l.entityId = entityId ∧ l.modality = modality)) ++
          [⟨entityId, modality, lockType⟩] } with
      lockTable := lockTable } : TransactionManager).Agrees := by
  set txn' : Transaction := { txn with locks :=
    (txn.locks.filter fun l => ¬ (l.entityId = entityId ∧ l.modality = modality)) ++
      [⟨entityId, modality, lockType⟩] } with htxn'
  have hstate : txn'.state = .active := (active_state htxn : txn.state = .active)
  have hput : ∀ other, ({ m.put transactionId txn' with
      lockTable := lockTable } : TransactionManager).active other =
        if other = transactionId then .ok txn' else m.active other := by
    intro other
    refine (active_put (m := m) txn').trans ?_
    simp only [hstate, ne_eq, not_true_eq_false, if_false]
  constructor
  · intro other txn₁ h₁ entityId' modality' lockType'
    rw [hput] at h₁
    split at h₁
    · next heq =>
      cases h₁
      subst heq
      have hiff := h.locks other txn htxn entityId' modality' lockType'
      by_cases hkey : entityId' = entityId ∧ modality' = modality
      · obtain ⟨rfl, rfl⟩ := hkey
        constructor
        · intro hin
          have : lockType' = lockType := by simpa [htxn'] using hin
          rw [this]
          exact hmem
        · intro hin
          have : lockType' = lockType := by simpa using (hheld _ hin).mp rfl
          simp [htxn', this]
      · have hne : (entityId', modality') ≠ (entityId, modality) := by simpa using hkey
        rw [hother _ _ (.inr hne), ← hiff]
        simp only [htxn', List.mem_append, List.mem_filter, List.mem_singleton]
        grind
    · next hne =>
      rw [h.locks other txn₁ h₁]
      exact (hother _ _ (.inl hne)).symm
  · intro other txn₁ h₁
    rw [hput] at h₁
    split at h₁
    · cases h₁
      have hnodup := (h.nodup transactionId txn htxn).filter
        fun l => ¬ (l.entityId = entityId ∧ l.modality = modality)
      refine List.nodup_append.mpr ⟨hnodup, List.nodup_singleton _, ?_⟩
      intro l hl l' hl'
      rw [List.mem_singleton.mp hl']
      rintro rfl
      simp at hl
    · exact h.nodup other txn₁ h₁
  · intro key info hinfo
    rw [hput]
    split
    · exact ⟨txn', rfl⟩
    · next hne => exact h.holders key info ((hother key info (.inl hne)).mp hinfo)

theorem Agrees.acquireLock (h : m.Agrees) (hcoherent : ∀ key, Coherent (m.lockTable.locks key))
    (hweak : ¬ m.Weakens (.acquireLock transactionId entityId modality lockType)) :
    (m.acquireLock transactionId entityId modality lockType).2.Agrees := by
  unfold TransactionManager.acquireLock
  split
  · exact h
  · split
    · exact h
    · next txn htxn =>
      dsimp only
      rcases LockTable.acquire_cases m.lockTable transactionId entityId modality lockType with
        ⟨heq, info, hinfo, hself, hcovers⟩ | ⟨heq, -, -⟩ | ⟨e, herr, hlocks⟩
      · -- the key is held already, with the type that is requested
        rw [heq]
        have htype : info = ⟨transactionId, lockType⟩ := by
          obtain ⟨holder, held⟩ := info
          cases hself
          cases held with
          | shared => rw [show lockType = .shared from hcovers]
          | exclusive =>
            cases lockType with
            | shared => exact absurd ⟨rfl, hinfo⟩ hweak
            | exclusive => rfl
        rw [htype] at hinfo
        refine h.granted htxn ?_ hinfo fun _ _ _ => Iff.rfl
        intro other hother
        refine ⟨fun hholder => ?_, fun hfull => by rw [hfull]⟩
        exact (hcoherent _).holder_unique hother hinfo hholder
      · rw [heq]
        refine h.granted htxn ?_ (LockTable.mem_grant.mpr (.inr ⟨rfl, rfl⟩)) ?_
        · intro other hother
          refine ⟨fun hholder => ?_, fun hfull => by rw [hfull]⟩
          rcases LockTable.mem_grant.mp hother with ⟨-, hne | hne⟩ | ⟨-, hfull⟩
          · exact absurd hholder hne
          · exact absurd rfl hne
          · exact hfull
        · intro key other hne
          rw [LockTable.mem_grant]
          constructor
          · rintro (⟨hother, -⟩ | ⟨rfl, rfl⟩)
            · exact hother
            · simp at hne
          · exact fun hother => .inl ⟨hother, hne⟩
      · rw [herr]
        exact h.refused hlocks

/-! ### Runs -/

theorem coherent_acquireLock (h : ∀ key, Coherent (m.lockTable.locks key)) (key : LockKey) :
    Coherent ((m.acquireLock transactionId entityId modality lockType).2.lockTable.locks key) := by
  rcases acquireLock_lockTable m transactionId entityId modality lockType with
    ⟨heq, -⟩ | ⟨heq, -⟩
  · rw [heq]
    exact h key
  · rw [heq]
    exact LockTable.coherent_acquire h key

theorem step_coherent {m m' : TransactionManager} {call : Call}
    (h : ∀ key, Coherent (m.lockTable.locks key)) (hstep : m.step call = some m') (key : LockKey) :
    Coherent (m'.lockTable.locks key) := by
  cases call with
  | begin transactionId isolationLevel now =>
    obtain ⟨-, hbegin⟩ := Option.ite_none_right_eq_some.mp hstep
    cases hbegin
    exact h key
  | acquireLock transactionId entityId modality lockType =>
    cases hstep
    exact coherent_acquireLock h key
  | recordUndo transactionId entityId modality previousData previousVersion now =>
    cases hstep
    rw [recordUndo_lockTable]
    exact h key
  | recordRead transactionId entityId modality =>
    cases hstep
    rw [recordRead_lockTable]
    exact h key
  | commit transactionId now =>
    cases hstep
    rcases commit_lockTable m transactionId now with heq | heq
    · rw [heq]
      exact h key
    · rw [heq]
      exact LockTable.coherent_releaseAll h key
  | rollback transactionId now =>
    cases hstep
    rcases rollback_lockTable m transactionId now with heq | heq
    · rw [heq]
      exact h key
    · rw [heq]
      exact LockTable.coherent_releaseAll h key

theorem step_agrees {m m' : TransactionManager} {call : Call} (h : m.Agrees)
    (hcoherent : ∀ key, Coherent (m.lockTable.locks key)) (hweak : ¬ m.Weakens call)
    (hstep : m.step call = some m') : m'.Agrees := by
  cases call with
  | begin transactionId isolationLevel now =>
    obtain ⟨hfresh, hbegin⟩ := Option.ite_none_right_eq_some.mp hstep
    cases hbegin
    exact h.begin hfresh isolationLevel
  | acquireLock transactionId entityId modality lockType =>
    cases hstep
    exact h.acquireLock hcoherent hweak
  | recordUndo transactionId entityId modality previousData previousVersion now =>
    cases hstep
    exact h.recordUndo
  | recordRead transactionId entityId modality =>
    cases hstep
    exact h.recordRead
  | commit transactionId now =>
    cases hstep
    exact h.commit
  | rollback transactionId now =>
    cases hstep
    exact h.rollback

/-- The lock sets agree with the lock table in every run in which no transaction asks for a
shared lock on a key that it holds exclusively. -/
theorem lock_sets_agree {m : TransactionManager}
    (r : Run step (fun m call => ¬ m.Weakens call) .new m) : m.Agrees := by
  refine (r.invariant
    (I := fun m => m.Agrees ∧ ∀ key, Coherent (m.lockTable.locks key)) ?_ ?_).1
  · rintro m call m' ⟨h, hcoherent⟩ hweak hstep
    exact ⟨step_agrees h hcoherent hweak hstep, step_coherent hcoherent hstep⟩
  · exact ⟨agrees_new, LockTable.coherent_empty⟩

/-- A transaction that takes a key twice with the same type keeps the agreement. -/
theorem lock_sets_agree_twice :
    (((new.begin "a" .serializable DateTime.unixEpoch).acquireLock "a" "e" "graph"
      .shared).2.acquireLock "a" "e" "graph" .shared).2.Agrees :=
  lock_sets_agree (.tail (.tail (.single
    ⟨.begin "a" .serializable DateTime.unixEpoch, not_false, rfl⟩)
    ⟨.acquireLock "a" "e" "graph" .shared, fun h => List.not_mem_nil h.2, rfl⟩)
    ⟨.acquireLock "a" "e" "graph" .shared, fun h => absurd h.2 (by decide), rfl⟩)

/-- The lock set says shared where the lock table says exclusive. -/
theorem lock_set_weakened :
    ∃ m, Run step (fun _ _ => True) .new m ∧ ¬ m.Agrees := by
  let now : DateTime := DateTime.unixEpoch
  let began := new.begin "a" .serializable now
  let locked := (began.acquireLock "a" "e" "graph" .exclusive).2
  let again := (locked.acquireLock "a" "e" "graph" .shared).2
  refine ⟨again, ?_, fun h => ?_⟩
  · have hbegan : Run step (fun _ _ => True) new began :=
      Run.single (e := .begin "a" .serializable now) trivial rfl
    have hlocked : Run step (fun _ _ => True) new locked :=
      hbegan.tail ⟨.acquireLock "a" "e" "graph" .exclusive, trivial, rfl⟩
    exact hlocked.tail ⟨.acquireLock "a" "e" "graph" .shared, trivial, rfl⟩
  · have hshared := (h.locks "a" _ rfl "e" "graph" .shared).mp (by decide)
    exact absurd hshared (by decide)

end TransactionManager

end NextgenDatabases.Verisim
