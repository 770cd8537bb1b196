import NextgenDatabases.Foundations.Runs
import Mathlib.Algebra.Group.Int.Defs
import Mathlib.Data.List.AList

/-!
# The transactions of the API

Transactions buffer operations until they are committed or rolled back. What a commit gives back is
what was buffered since the transaction was begun, in any order of the calls of any clients.
-/
namespace NextgenDatabases.Endpoint

open Foundations

abbrev TransactionId : Type := String

inductive TransactionState
  | active
  | committed
  | rolledBack
  deriving DecidableEq

inductive OperationType
  | create
  | update
  | delete
  deriving DecidableEq

structure BufferedOperation where
  entityId : String
  operation : OperationType
  payload : List UInt8
  timestamp : String
  deriving DecidableEq

/-- Times are in nanoseconds. -/
structure Transaction where
  id : TransactionId
  state : TransactionState
  operations : List BufferedOperation
  startedAt : ℤ
  completedAt : Option ℤ

structure TransactionStatus where
  id : TransactionId
  state : TransactionState
  operationCount : ℕ
  startedAt : ℤ
  completedAt : Option ℤ

def Transaction.status (txn : Transaction) : TransactionStatus :=
  ⟨txn.id, txn.state, txn.operations.length, txn.startedAt, txn.completedAt⟩

inductive TransactionError
  | notFound (id : TransactionId)
  | alreadyCommitted (id : TransactionId)
  | alreadyRolledBack (id : TransactionId)
  | tooManyTransactions

structure TransactionConfig where
  maxConcurrent : ℕ
  timeoutSeconds : ℕ

structure TransactionManager where
  config : TransactionConfig
  transactions : AList fun _ : TransactionId => Transaction

namespace TransactionManager

def new (config : TransactionConfig) : TransactionManager := ⟨config, ∅⟩

def isActive (e : Sigma fun _ : TransactionId => Transaction) : Bool := e.2.state = .active

def activeCount (m : TransactionManager) : ℕ := m.transactions.entries.countP isActive

/-- `begin`, with the identifier that the clock gives. -/
def start (m : TransactionManager) (id : TransactionId) (now : ℤ) :
    Except TransactionError TransactionId × TransactionManager :=
  if m.config.maxConcurrent ≤ m.activeCount then (.error .tooManyTransactions, m)
  else
    let txn : Transaction := ⟨id, .active, [], now, none⟩
    (.ok id, { m with transactions := m.transactions.insert id txn })

/-- The active transaction of a call, or the error that it answers. -/
def active (m : TransactionManager) (id : TransactionId) : Except TransactionError Transaction :=
  match m.transactions.lookup id with
  | none => .error (.notFound id)
  | some txn =>
    match txn.state with
    | .active => .ok txn
    | .committed => .error (.alreadyCommitted id)
    | .rolledBack => .error (.alreadyRolledBack id)

def put (m : TransactionManager) (id : TransactionId) (txn : Transaction) : TransactionManager :=
  { m with transactions := m.transactions.insert id txn }

def bufferOperation (m : TransactionManager) (id : TransactionId) (operation : BufferedOperation) :
    Except TransactionError Unit × TransactionManager :=
  match m.active id with
  | .error e => (.error e, m)
  | .ok txn => (.ok (), m.put id { txn with operations := txn.operations ++ [operation] })

def commit (m : TransactionManager) (id : TransactionId) (now : ℤ) :
    Except TransactionError (List BufferedOperation) × TransactionManager :=
  match m.active id with
  | .error e => (.error e, m)
  | .ok txn =>
    (.ok txn.operations, m.put id { txn with state := .committed, completedAt := some now })

def rollback (m : TransactionManager) (id : TransactionId) (now : ℤ) :
    Except TransactionError ℕ × TransactionManager :=
  match m.active id with
  | .error e => (.error e, m)
  | .ok txn =>
    (.ok txn.operations.length,
      m.put id { txn with operations := [], state := .rolledBack, completedAt := some now })

def status (m : TransactionManager) (id : TransactionId) :
    Except TransactionError TransactionStatus :=
  match m.transactions.lookup id with
  | none => .error (.notFound id)
  | some txn => .ok txn.status

def isExpired (m : TransactionManager) (now : ℤ)
    (e : Sigma fun _ : TransactionId => Transaction) : Bool :=
  let timeout : ℤ := m.config.timeoutSeconds * 10 ^ 9
  if e.2.state ≠ .active then
    match e.2.completedAt with
    | some completedAt => timeout < now - completedAt
    | none => false
  else timeout < now - e.2.startedAt

def cleanupExpired (m : TransactionManager) (now : ℤ) : ℕ × TransactionManager :=
  let expiredIds := (m.transactions.entries.filter (m.isExpired now)).map Sigma.fst
  (expiredIds.length,
    { m with transactions := expiredIds.foldl (fun txns id => txns.erase id) m.transactions })

end TransactionManager

/-! ### Calls in any order -/

/-- A call, which holds the lock of the table from start to end. -/
inductive TransactionCall
  | start (id : TransactionId) (now : ℤ)
  | bufferOperation (id : TransactionId) (operation : BufferedOperation)
  | commit (id : TransactionId) (now : ℤ)
  | rollback (id : TransactionId) (now : ℤ)
  | status (id : TransactionId)
  | cleanupExpired (now : ℤ)

/-- What calls have done so far; calls that were refused have done nothing. -/
inductive Deed
  | began (id : TransactionId)
  | buffered (id : TransactionId) (operation : BufferedOperation)
  | committed (id : TransactionId) (operations : List BufferedOperation)
  | rolledBack (id : TransactionId) (discarded : ℕ)
  deriving DecidableEq

structure Desk where
  manager : TransactionManager
  deeds : List Deed

namespace Desk

def new (config : TransactionConfig) : Desk := ⟨.new config, []⟩

/-- What the call has done, and the table behind it. -/
def call (m : TransactionManager) : TransactionCall → Option Deed × TransactionManager
  | .start id now => ((m.start id now).1.toOption.map .began, (m.start id now).2)
  | .bufferOperation id operation =>
    ((m.bufferOperation id operation).1.toOption.map fun _ => .buffered id operation,
      (m.bufferOperation id operation).2)
  | .commit id now => ((m.commit id now).1.toOption.map (.committed id), (m.commit id now).2)
  | .rollback id now => ((m.rollback id now).1.toOption.map (.rolledBack id), (m.rollback id now).2)
  | .status _ => (none, m)
  | .cleanupExpired now => (none, (m.cleanupExpired now).2)

def step (s : Desk) (c : TransactionCall) : Option Desk :=
  some ⟨(call s.manager c).2, s.deeds ++ (call s.manager c).1.toList⟩

end Desk

/-- The operations that were buffered for a transaction. -/
def bufferedOf (id : TransactionId) (deeds : List Deed) : List BufferedOperation :=
  deeds.filterMap fun
    | .buffered i operation => if i = id then some operation else none
    | _ => none

/-- With this deed a transaction begins or ends. -/
def Bounds (id : TransactionId) : Deed → Prop
  | .began i => i = id
  | .buffered _ _ => False
  | .committed i _ => i = id
  | .rolledBack i _ => i = id

/-- The deeds since the transaction was begun, which none has ended. -/
structure Life (id : TransactionId) (deeds life : List Deed) : Prop where
  suffix : .began id :: life <:+ deeds
  unbounded : ∀ d ∈ life, ¬ Bounds id d

/-- The deed ends the transaction. -/
def Ends (id : TransactionId) : Deed → Prop
  | .began _ => False
  | .buffered _ _ => False
  | .committed i _ => i = id
  | .rolledBack i _ => i = id

/-- What a commit gave back, and the number of operations that a rollback gave up. -/
def Settles (operations : List BufferedOperation) : Deed → Prop
  | .began _ => False
  | .buffered _ _ => False
  | .committed _ ops => ops = operations
  | .rolledBack _ discarded => discarded = operations.length

variable {m m' : TransactionManager} {id i : TransactionId} {txn txn' : Transaction} {now : ℤ}
  {d e : Deed} {deeds life before after : List Deed} {s t : Desk} {c : TransactionCall}

namespace TransactionManager

theorem active_eq_ok_iff : m.active id = .ok txn ↔
    m.transactions.lookup id = some txn ∧ txn.state = .active := by
  rw [active]
  cases hlookup : m.transactions.lookup id with
  | none => simp
  | some txn' => cases hstate : txn'.state <;> simp [hstate] <;> rintro rfl <;> simp [hstate]

theorem lookup_put : (m.put id txn).transactions.lookup i =
    if i = id then some txn else m.transactions.lookup i := by
  split_ifs with h
  · rw [h]
    exact AList.lookup_insert _
  · exact AList.lookup_insert_ne h

theorem lookup_foldl_erase {ids : List TransactionId} {txns : AList fun _ : TransactionId => Transaction}
    (h : (ids.foldl (fun txns id => txns.erase id) txns).lookup i = some txn) :
    txns.lookup i = some txn := by
  induction ids generalizing txns with
  | nil => exact h
  | cons id ids ih =>
    have hlookup := ih h
    rcases eq_or_ne i id with rfl | hne
    · rw [AList.lookup_erase] at hlookup
      cases hlookup
    · rwa [AList.lookup_erase_ne hne] at hlookup

theorem activeCount_put : (m.put id txn).activeCount =
    (m.transactions.entries.kerase id).countP isActive + if txn.state = .active then 1 else 0 := by
  rw [activeCount, put, AList.entries_insert, List.countP_cons, isActive]
  simp only [decide_eq_true_eq]

theorem countP_kerase_le :
    (m.transactions.entries.kerase id).countP isActive ≤ m.activeCount :=
  (List.kerase_sublist id _).countP_le

theorem countP_kerase_lt (h : m.transactions.lookup id = some txn) (hactive : txn.state = .active) :
    (m.transactions.entries.kerase id).countP isActive < m.activeCount := by
  have hmem : id ∈ m.transactions.entries.keys := AList.lookup_isSome.mp (h ▸ rfl)
  obtain ⟨b, l₁, l₂, -, hentries, hkerase⟩ := List.exists_of_kerase hmem
  have hb : m.transactions.lookup id = some b :=
    AList.mem_lookup_iff.mpr (by rw [hentries]; simp)
  obtain rfl : txn = b := Option.some.inj (h.symm.trans hb)
  rw [activeCount, hkerase, hentries, List.countP_append, List.countP_append, List.countP_cons]
  simp [isActive, hactive]

theorem countP_foldl_erase {ids : List TransactionId}
    {txns : AList fun _ : TransactionId => Transaction} :
    (ids.foldl (fun txns id => txns.erase id) txns).entries.countP isActive ≤
      txns.entries.countP isActive := by
  induction ids generalizing txns with
  | nil => exact le_rfl
  | cons id ids ih => exact le_trans ih (List.kerase_sublist id _).countP_le

end TransactionManager

open TransactionManager

/-! ### What a call does -/

/-- A call does nothing and keeps no more than there was, or one thing to one transaction. -/
inductive Turns (m : TransactionManager) : Option Deed → TransactionManager → Prop
  | rest {m' : TransactionManager} : m'.config = m.config → m'.activeCount ≤ m.activeCount →
      (∀ id txn, m'.transactions.lookup id = some txn → m.transactions.lookup id = some txn) →
      Turns m none m'
  | start {id : TransactionId} {now : ℤ} : m.activeCount < m.config.maxConcurrent →
      Turns m (some (.began id)) (m.put id ⟨id, .active, [], now, none⟩)
  | buffer {id : TransactionId} {txn : Transaction} {operation : BufferedOperation} :
      m.transactions.lookup id = some txn → txn.state = .active →
      Turns m (some (.buffered id operation))
        (m.put id { txn with operations := txn.operations ++ [operation] })
  | settle {id : TransactionId} {txn txn' : Transaction} {d : Deed} :
      m.transactions.lookup id = some txn → txn.state = .active → txn'.state ≠ .active →
      Ends id d → Settles txn.operations d → Turns m (some d) (m.put id txn')

theorem turns_call (m : TransactionManager) (c : TransactionCall) :
    Turns m (Desk.call m c).1 (Desk.call m c).2 := by
  have hrest : Turns m none m := .rest rfl le_rfl fun _ _ h => h
  cases c with
  | start id now =>
    rw [Desk.call, TransactionManager.start]
    split_ifs with hlimit
    · exact hrest
    · exact .start (not_le.mp hlimit)
  | bufferOperation id operation =>
    rw [Desk.call, TransactionManager.bufferOperation]
    cases hactive : m.active id with
    | error => exact hrest
    | ok txn =>
      obtain ⟨hlookup, hstate⟩ := active_eq_ok_iff.mp hactive
      exact .buffer hlookup hstate
  | commit id now =>
    rw [Desk.call, TransactionManager.commit]
    cases hactive : m.active id with
    | error => exact hrest
    | ok txn =>
      obtain ⟨hlookup, hstate⟩ := active_eq_ok_iff.mp hactive
      exact .settle hlookup hstate nofun rfl rfl
  | rollback id now =>
    rw [Desk.call, TransactionManager.rollback]
    cases hactive : m.active id with
    | error => exact hrest
    | ok txn =>
      obtain ⟨hlookup, hstate⟩ := active_eq_ok_iff.mp hactive
      exact .settle hlookup hstate nofun rfl rfl
  | status id => exact hrest
  | cleanupExpired now => exact .rest rfl countP_foldl_erase fun _ _ h => lookup_foldl_erase h

/-! ### Lives of transactions -/

theorem Life.push (h : Life id deeds life) (hd : ¬ Bounds id d) :
    Life id (deeds ++ [d]) (life ++ [d]) where
  suffix := by
    obtain ⟨earlier, rfl⟩ := h.suffix
    exact ⟨earlier, by simp⟩
  unbounded e he := by
    rcases List.mem_append.mp he with he | he
    · exact h.unbounded e he
    · exact List.mem_singleton.mp he ▸ hd

theorem life_began : Life id (deeds ++ [.began id]) [] where
  suffix := List.suffix_append _ _
  unbounded := nofun

/-- What is done to another transaction buffers nothing for this one. -/
theorem bufferedOf_push (h : ∀ operation, d ≠ .buffered id operation) :
    bufferedOf id (life ++ [d]) = bufferedOf id life := by
  rw [bufferedOf, List.filterMap_append, ← bufferedOf]
  cases d with
  | buffered i operation =>
    have hne : i ≠ id := by
      rintro rfl
      exact h operation rfl
    simp [hne]
  | _ => simp

theorem cases_of_push (h : deeds ++ [d] = before ++ e :: after) :
    (before = deeds ∧ e = d) ∨ ∃ after', deeds = before ++ e :: after' := by
  rcases List.eq_nil_or_concat' after with rfl | ⟨after, d', rfl⟩
  · obtain ⟨hdeeds, hd⟩ := List.append_inj' h rfl
    exact .inl ⟨hdeeds.symm, (List.singleton_inj.mp hd).symm⟩
  · rw [← List.cons_append, ← List.append_assoc] at h
    exact .inr ⟨after, (List.append_inj' h rfl).1⟩

/-- An active transaction holds what was buffered in its life, every end so far settled it, and no
more are active than the limit says. -/
structure Kept (s : Desk) : Prop where
  alive : ∀ id txn, s.manager.transactions.lookup id = some txn → txn.state = .active →
    ∃ life, Life id s.deeds life ∧ txn.operations = bufferedOf id life
  settled : ∀ before d after, s.deeds = before ++ d :: after → ∀ id, Ends id d →
    ∃ life, Life id before life ∧ Settles (bufferedOf id life) d
  limit : s.manager.activeCount ≤ s.manager.config.maxConcurrent

theorem Ends.eq (h : Ends id d) (h' : Ends i d) : id = i := by
  cases d with
  | began => cases h
  | buffered => cases h
  | committed j => exact h.symm.trans h'
  | rolledBack j => exact h.symm.trans h'

/-- A deed that ends no transaction leaves the ends as they are settled. -/
theorem settled_push {deeds : List Deed}
    (h : ∀ before d after, deeds = before ++ d :: after → ∀ id, Ends id d →
      ∃ life, Life id before life ∧ Settles (bufferedOf id life) d)
    (hd : ∀ id, Ends id d → ∃ life, Life id deeds life ∧ Settles (bufferedOf id life) d) :
    ∀ before e after, deeds ++ [d] = before ++ e :: after → ∀ id, Ends id e →
      ∃ life, Life id before life ∧ Settles (bufferedOf id life) e := by
  intro before e after heq id hends
  obtain ⟨rfl, rfl⟩ | ⟨after', hdeeds⟩ := cases_of_push heq
  · exact hd id hends
  · exact h before e after' hdeeds id hends

/-- Another transaction is as alive as it was. -/
theorem alive_push (h : ∃ life, Life i deeds life ∧ txn.operations = bufferedOf i life)
    (hbounds : ¬ Bounds i d) (hbuffered : ∀ operation, d ≠ .buffered i operation) :
    ∃ life, Life i (deeds ++ [d]) life ∧ txn.operations = bufferedOf i life := by
  obtain ⟨life, hlife, hoperations⟩ := h
  exact ⟨life ++ [d], hlife.push hbounds, by rw [bufferedOf_push hbuffered, hoperations]⟩

theorem kept_turn {o : Option Deed} (h : Kept ⟨m, deeds⟩) (hturns : Turns m o m') :
    Kept ⟨m', deeds ++ o.toList⟩ := by
  cases hturns with
  | rest hconfig hcount hlookup =>
    rw [Option.toList_none, List.append_nil]
    exact ⟨fun id txn hid => h.alive id txn (hlookup id txn hid), h.settled,
      hconfig ▸ Nat.le_trans hcount h.limit⟩
  | @start id now hlimit =>
    refine ⟨fun i txn hi hactive => ?_, settled_push h.settled nofun, ?_⟩
    · rw [lookup_put] at hi
      split_ifs at hi with hid
      · rw [hid, ← Option.some.inj hi]
        exact ⟨[], life_began, rfl⟩
      · exact alive_push (h.alive i txn hi hactive) (fun hb => hid hb.symm) nofun
    · rw [activeCount_put]
      exact Nat.le_trans (Nat.add_le_add_right countP_kerase_le 1) hlimit
  | @buffer id txn operation hlookup hstate =>
    refine ⟨fun i txn' hi hactive => ?_, settled_push h.settled nofun, ?_⟩
    · rw [lookup_put] at hi
      split_ifs at hi with hid
      · obtain ⟨life, hlife, hoperations⟩ := h.alive id txn hlookup hstate
        rw [hid, ← Option.some.inj hi]
        have hpush := hlife.push (d := .buffered id operation) not_false
        exact ⟨_, hpush, by simp [bufferedOf, hoperations]⟩
      · exact alive_push (h.alive i txn' hi hactive) not_false fun _ heq => by
          cases heq
          exact hid rfl
    · rw [activeCount_put, if_pos hstate]
      exact Nat.le_trans (countP_kerase_lt hlookup hstate) h.limit
  | @settle id txn txn' d hlookup hstate hstate' hends hsettles =>
    refine ⟨fun i txn'' hi hactive => ?_, settled_push h.settled fun i hi => ?_, ?_⟩
    · rw [lookup_put] at hi
      split_ifs at hi with hid
      · exact absurd (Option.some.inj hi ▸ hactive) hstate'
      · refine alive_push (h.alive i txn'' hi hactive) ?_ ?_
        · cases d with
          | began => cases hends
          | buffered => cases hends
          | committed j => exact fun hb => hid (hb.symm.trans hends)
          | rolledBack j => exact fun hb => hid (hb.symm.trans hends)
        · rintro operation rfl
          cases hends
    · obtain ⟨life, hlife, hoperations⟩ := h.alive id txn hlookup hstate
      rw [hi.eq hends]
      exact ⟨life, hlife, hoperations ▸ hsettles⟩
    · rw [activeCount_put, if_neg hstate']
      exact Nat.le_trans countP_kerase_le h.limit

theorem kept_run {config : TransactionConfig} (h : Run Desk.step (fun _ _ => True) (.new config) s) :
    Kept s := by
  refine Run.invariant (fun s c t hs _ hst => ?_) h ⟨nofun, ?_, ?_⟩
  · obtain rfl := Option.some.inj hst
    exact kept_turn hs (turns_call s.manager c)
  · intro before d after hdeeds
    simp [Desk.new] at hdeeds
  · exact Nat.zero_le _

/-- A transaction ends once in a life: a commit gives back what was buffered since the transaction
was begun, in the order in which it was buffered, and a rollback gives up as much. -/
theorem settled_exactly {config : TransactionConfig}
    (h : Run Desk.step (fun _ _ => True) (.new config) s) (hd : s.deeds = before ++ d :: after)
    (hends : Ends id d) : ∃ life, Life id before life ∧ Settles (bufferedOf id life) d :=
  (kept_run h).settled before d after hd id hends

theorem settled_exactly_twice : ∃ life,
    Life "t" [.began "t", .buffered "t" ⟨"e", .create, [], ""⟩, .began "u"] life ∧
      Settles (bufferedOf "t" life) (.committed "t" [⟨"e", .create, [], ""⟩]) :=
  settled_exactly
    (run_of_steps (show exec Desk.step (.new ⟨2, 300⟩)
      [.start "t" 1, .bufferOperation "t" ⟨"e", .create, [], ""⟩, .start "u" 2, .commit "t" 3,
        .rollback "t" 4] = _ from rfl))
    rfl rfl

/-- No more transactions are active than the configuration allows. -/
theorem activeCount_le {config : TransactionConfig}
    (h : Run Desk.step (fun _ _ => True) (.new config) s) :
    s.manager.activeCount ≤ s.manager.config.maxConcurrent := (kept_run h).limit

end NextgenDatabases.Endpoint
