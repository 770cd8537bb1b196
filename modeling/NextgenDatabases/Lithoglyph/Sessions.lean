import NextgenDatabases.Lithoglyph.Commit

/-!
# Reachable databases

What each call of the bridge does when it is accepted, and what holds in every database that calls
reach, also when reads and writes fail.
-/
namespace NextgenDatabases.Lithoglyph

open Foundations
open Function (update)

namespace TxnState

variable {state state' : TxnState} {blockId : ℕ} {data : Bytes}

def withWrite (self : TxnState) (pw : PendingWrite) : TxnState :=
  { self with pendingWrites := self.pendingWrites ++ [pw] }

def withDelete (self : TxnState) (blockId : ℕ) : TxnState :=
  { self with pendingDeletes := self.pendingDeletes ++ [blockId] }

/-- What an open transaction keeps. -/
def Usable (self : TxnState) : Prop :=
  self.isActive = true ∧ ∀ pw ∈ self.pendingWrites, pw.Fits

/-- The offset of every block that the transaction names fits into 64 bits. -/
def InRange (self : TxnState) : Prop :=
  ∀ id, id ∈ self.pendingWrites.map PendingWrite.blockId ∨ id ∈ self.pendingDeletes →
    overflows (id * blockSize) = false

theorem Usable.withWrite (h : state.Usable) {pw : PendingWrite} (hfit : pw.Fits) :
    (state.withWrite pw).Usable := by
  refine ⟨h.1, fun qw hqw => ?_⟩
  rcases List.mem_append.mp hqw with hqw | hqw
  · exact h.2 qw hqw
  · rw [List.mem_singleton.mp hqw]
    exact hfit

theorem updateBlock_ok (h : state.updateBlock blockId data = .ok state') :
    state.mode = .readWrite ∧ data.length ≤ payloadSize ∧
      ∃ msg, state' = state.withWrite ⟨blockId, data, msg, false⟩ := by
  rw [updateBlock] at h
  split_ifs at h with hopen hlen
  simp only [Bool.or_eq_true, decide_eq_true_eq, not_or, not_not] at hopen
  cases h
  exact ⟨hopen.2, by omega, _, rfl⟩

theorem deleteBlock_ok (h : state.deleteBlock blockId = .ok state') :
    state.mode = .readWrite ∧ state' = state.withDelete blockId := by
  rw [deleteBlock] at h
  split_ifs at h with hopen
  simp only [Bool.or_eq_true, decide_eq_true_eq, not_or, not_not] at hopen
  cases h
  exact ⟨hopen.2, rfl⟩

end TxnState

namespace BlockStorage

variable {s : BlockStorage}

theorem caught_appendAll (faults : ℕ → JournalFaults) (k : ℕ) (msgs : List String)
    (hc : 0 < s.superblock.blockCount) :
    0 < (caught (s.appendAll faults k msgs)).superblock.blockCount ∧
      (s.Owned → (caught (s.appendAll faults k msgs)).Owned) := by
  induction msgs generalizing s k with
  | nil => exact ⟨hc, id⟩
  | cons msg msgs ih =>
    have hone := appendJournal_attempted hc (faults k) msg
    rw [appendAll]
    cases h : s.appendJournal (faults k) msg with
    | error t =>
      rw [h] at hone
      exact ⟨by simp only [bind, Except.bind, caught] at hone ⊢; rw [hone.count]; omega, hone.owned⟩
    | ok t =>
      rw [h] at hone
      have hrest := ih (s := t) (k + 1) (by
        have hcount : t.superblock.blockCount = _ := hone.count
        omega)
      exact ⟨hrest.1, hrest.2 ∘ hone.owned⟩

theorem caught_writeAll (faults : ℕ → Option WriteFault) (sequence k : ℕ)
    (pws : List PendingWrite) :
    (caught (s.writeAll faults sequence k pws)).superblock = s.superblock ∧
      (s.Owned → (caught (s.writeAll faults sequence k pws)).Owned) := by
  induction pws generalizing s k with
  | nil => exact ⟨rfl, id⟩
  | cons pw pws ih =>
    by_cases hfit : pw.Fits
    · rw [writeAll_cons hfit]
      split
      · exact ⟨rfl, fun h => h.write _ rfl⟩
      · exact ⟨(ih (k + 1)).1, fun h => (ih (k + 1)).2 (h.put rfl)⟩
    · rw [writeAll, if_pos (Nat.lt_of_not_le hfit)]
      exact ih (k + 1)

theorem caught_flushSuperblock (fault : Option WriteFault) :
    caught (s.flushSuperblock fault) = s.write fault 0 s.superblock.toBlock :=
  caught_writeBlock ..

end BlockStorage

namespace DbState

open BlockStorage

variable {db db' : DbState} {txn : ℕ}

theorem apply_ok {memory : Memory} {op : Bytes} {id : ℕ}
    (h : db.apply memory txn op = .ok (id, db')) :
    memory = .lasts ∧
    ∃ state msg, db.txnRegistry txn = some state ∧ state.mode = .readWrite ∧
      op.length ≤ payloadSize ∧ id = db.storage.superblock.blockCount ∧
      db' = ⟨db.storage.reserveBlockId.2,
        update db.txnRegistry txn (some (state.withWrite ⟨id, op, msg, true⟩))⟩ := by
  rw [apply] at h
  split at h
  case h_1 => cases h
  case h_2 state hstate =>
    split_ifs at h with hactive hmode hlen
    rw [not_not] at hmode
    cases memory with
    | lasts =>
      cases h
      exact ⟨rfl, state, _, hstate, hmode, by omega, rfl, rfl⟩
    | noBuffer => cases h
    | noResult => cases h

/-- A refused call changes nothing, unless memory has run out. -/
theorem apply_error {memory : Memory} {op : Bytes} {e : LgError}
    (h : db.apply memory txn op = .error (e, db')) :
    db' = db ∨ (memory = .noBuffer ∧ db' = { db with storage := db.storage.reserveBlockId.2 }) ∨
      memory = .noResult ∧ ∃ id, db.apply .lasts txn op = .ok (id, db') := by
  rw [apply] at h
  split at h
  case h_1 =>
    cases h
    exact .inl rfl
  case h_2 state hstate =>
    split_ifs at h with hactive hmode hlen
    · cases h
      exact .inl rfl
    · cases h
      exact .inl rfl
    · cases h
      exact .inl rfl
    · cases memory with
      | lasts => cases h
      | noBuffer =>
        cases h
        exact .inr (.inl ⟨rfl, rfl⟩)
      | noResult =>
        cases h
        refine .inr (.inr ⟨rfl, db.storage.superblock.blockCount, ?_⟩)
        simp [apply, hstate, hactive, hmode, hlen, reserveBlockId]

/-- What holds in every database that calls reach. -/
structure Wf (db : DbState) : Prop where
  counted : 0 < db.storage.superblock.blockCount
  owned : db.storage.Owned
  usable : ∀ txn state, db.txnRegistry txn = some state → state.Usable

theorem forall_update {P : ℕ → TxnState → Prop} {reg : ℕ → Option TxnState}
    {next : Option TxnState} (hnext : ∀ state, next = some state → P txn state)
    (h : ∀ t state, t ≠ txn → reg t = some state → P t state) :
    ∀ t state, update reg txn next t = some state → P t state := by
  intro t state ht
  by_cases heq : t = txn
  · subst heq
    rw [Function.update_self] at ht
    exact hnext state ht
  · rw [Function.update_of_ne heq] at ht
    exact h t state heq ht

/-- A change of one transaction keeps what holds. -/
theorem Wf.change (h : db.Wf) {s : BlockStorage} (hc : 0 < s.superblock.blockCount)
    (hs : s.Owned) {next : Option TxnState} (hnext : ∀ state, next = some state → state.Usable) :
    Wf ⟨s, update db.txnRegistry txn next⟩ where
  counted := hc
  owned := hs
  usable := forall_update hnext fun t state _ ht => h.usable t state ht

theorem create_wf : create.Wf where
  counted := Nat.one_pos
  owned := by
    have hnone : Owned ⟨fun _ => none, Superblock.init, false⟩ :=
      ⟨fun _ _ h => absurd h.symm (Option.some_ne_none _), fun _ _ h => absurd h Bool.false_ne_true⟩
    exact hnone.put rfl
  usable _ _ h := by cases h

theorem Wf.commit (h : db.Wf) (faults : CommitFaults) (txn : ℕ) :
    (settled (db.commit faults txn)).Wf := by
  cases hstate : db.txnRegistry txn with
  | none =>
    simp only [DbState.commit, hstate]
    exact h
  | some state =>
    have hactive := (h.usable txn state hstate).1
    have hj := caught_appendAll faults.journal 0 state.journal h.counted
    cases hjournal : db.storage.appendAll faults.journal 0 state.journal with
    | error s =>
      rw [hjournal] at hj
      obtain ⟨e, he⟩ := commit_journal_error hstate hactive hjournal
      rw [he]
      exact ⟨hj.1, hj.2 h.owned, h.usable⟩
    | ok s =>
      rw [hjournal] at hj
      have hw := caught_writeAll (s := s) faults.data state.sequence 0 state.pendingWrites
      cases hwrite : s.writeAll faults.data state.sequence 0 state.pendingWrites with
      | error t =>
        rw [hwrite] at hw
        obtain ⟨e, he⟩ := commit_data_error hstate hactive hjournal hwrite
        rw [he]
        refine ⟨?_, hw.2 (hj.2 h.owned), h.usable⟩
        exact (congrArg Superblock.blockCount hw.1).symm ▸ hj.1
      | ok t =>
        rw [hwrite] at hw
        rw [commit_ok hstate hactive hjournal hwrite, caught_flushSuperblock]
        have howned : t.Owned := hw.2 (hj.2 h.owned)
        set u := t.freeAll faults.free 0 state.pendingDeletes with hu
        have hflushed : (u.write faults.flush 0 u.superblock.toBlock).Owned :=
          (howned.freeAll _ _ _).write faults.flush rfl
        refine h.change ?_ hflushed fun _ hnone => by cases hnone
        rw [write_superblock, hu, freeAll_count]
        exact (congrArg Superblock.blockCount hw.1).symm ▸ hj.1

theorem Wf.apply (h : db.Wf) {op : Bytes} {id : ℕ} (happly : db.apply .lasts txn op = .ok (id, db')) :
    db'.Wf := by
  obtain ⟨-, state, msg, hstate, -, hlen, -, rfl⟩ := apply_ok happly
  refine h.change (s := db.storage.reserveBlockId.2) (Nat.succ_pos _) h.owned.reserve fun _ hs => ?_
  cases hs
  exact (h.usable txn state hstate).withWrite hlen

/-- A step is a call that does not panic. -/
theorem step_eq_some {call : Call} :
    db.step call = some db' ↔ db.next call = some db' ∧ db'.storage.panicked = false := by
  rw [DbState.step, Option.filter_eq_some_iff, Bool.not_eq_true']

theorem Wf.next {call : Call} (h : db.Wf) (hstep : db.next call = some db') : db'.Wf := by
  cases call with
  | begin txn mode =>
    rw [DbState.next] at hstep
    split at hstep
    · cases hstep
      refine h.change h.counted h.owned fun _ hs => ?_
      cases hs
      exact ⟨rfl, by simp⟩
    · cases hstep
  | apply memory txn op =>
    rw [DbState.next] at hstep
    split at hstep
    case h_1 id db' happly =>
      obtain ⟨rfl, -⟩ := apply_ok happly
      cases hstep
      exact h.apply happly
    case h_2 e db' happly =>
      cases hstep
      rcases apply_error happly with rfl | ⟨-, rfl⟩ | ⟨-, id, hok⟩
      · exact h
      · exact ⟨Nat.succ_pos _, h.owned.reserve, h.usable⟩
      · exact h.apply hok
  | update txn id data =>
    simp only [DbState.next, Option.map_eq_some_iff] at hstep
    obtain ⟨state, hstate, hstep⟩ := hstep
    split at hstep
    case h_1 state' hup =>
      obtain ⟨-, hlen, msg, rfl⟩ := TxnState.updateBlock_ok hup
      cases hstep
      refine h.change h.counted h.owned fun _ hs => ?_
      cases hs
      exact (h.usable txn state hstate).withWrite hlen
    case h_2 => cases hstep; exact h
  | delete txn id =>
    simp only [DbState.next, Option.map_eq_some_iff] at hstep
    obtain ⟨state, hstate, hstep⟩ := hstep
    split at hstep
    case h_1 state' hdel =>
      obtain ⟨-, rfl⟩ := TxnState.deleteBlock_ok hdel
      cases hstep
      refine h.change h.counted h.owned fun _ hs => ?_
      cases hs
      exact h.usable txn state hstate
    case h_2 => cases hstep; exact h
  | read => cases hstep; exact h
  | commit faults txn =>
    cases hstep
    exact h.commit faults txn
  | abort txn =>
    rw [DbState.next, DbState.abort] at hstep
    split at hstep
    · cases hstep
      exact h
    · cases hstep
      exact h.change h.counted h.owned fun _ hs => by cases hs

theorem Wf.step {call : Call} (h : db.Wf) (hstep : db.step call = some db') : db'.Wf :=
  h.next (step_eq_some.mp hstep).1

/-- Databases that calls reach, whatever reads and writes of their commits fail. -/
abbrev Reached : DbState → Prop := Run DbState.step (fun _ _ => True) create

theorem Reached.wf (h : Reached db) : db.Wf :=
  Run.invariant (fun _ _ _ hwf _ hstep => hwf.step hstep) h create_wf

/-! ### Reading -/

theorem readBlocks_eq (h : db.storage.Owned) : db.readBlocks .document =
    (List.range' 1 (db.storage.superblock.blockCount - 1)).filterMap fun id =>
      (db.storage.documents id).map (id, ·) := by
  refine List.filterMap_congr fun id _ => ?_
  cases hb : db.storage.file id with
  | none => simp [documents, hb, document]
  | some b =>
    have hid := h.own id b hb
    subst hid
    simp only [documents, hb, document]
    split_ifs <;> rfl

theorem mem_readBlocks (h : db.storage.Owned) {id : ℕ} {payload : Content} :
    (id, payload) ∈ db.readBlocks .document ↔ db.storage.docs id = some payload := by
  rw [readBlocks_eq h, List.mem_filterMap, docs]
  simp only [Option.map_eq_some_iff, Prod.mk.injEq, List.mem_range'_1]
  constructor
  · rintro ⟨j, hj, p, hp, rfl, rfl⟩
    rw [if_pos (by omega)]
    exact hp
  · intro hdoc
    split_ifs at hdoc with hid
    exact ⟨id, by omega, payload, hdoc, rfl, rfl⟩

end DbState

end NextgenDatabases.Lithoglyph
