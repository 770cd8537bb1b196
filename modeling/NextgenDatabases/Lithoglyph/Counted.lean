import NextgenDatabases.Lithoglyph.Sessions

/-!
# Counted blocks

The superblock counts the ids that have been given out. An id is given out before its block is
written, and an aborted transaction does not write it.
-/
namespace NextgenDatabases.Lithoglyph

open Foundations
open Function (update)

/-- No read or write of the call fails, and memory lasts. -/
def Call.Faultless : Call → Prop
  | .apply memory _ _ => memory = .lasts
  | .commit faults _ => faults = .none
  | _ => True

namespace DbState

open BlockStorage

variable {db db' : DbState} {txn : ℕ}

/-- The block of `id` is read back with that id. -/
def Readable (self : DbState) (id : ℕ) : Prop :=
  ∃ block storage, self.storage.readBlock false id = .ok (block, storage) ∧
    storage.panicked = false ∧ block.blockId = id

/-- The superblock that is stored in block 0. -/
def onDisk (self : DbState) : Option Superblock :=
  match self.storage.file 0 with
  | some { content := .superblock sb, .. } => some sb
  | _ => none

/-- Every id that is counted, in memory or on disk, names a block. -/
def CountedExist (self : DbState) : Prop :=
  (∀ id < self.storage.superblock.blockCount, self.Readable id) ∧
    ∃ sb, self.onDisk = some sb ∧ ∀ id < sb.blockCount, self.Readable id

/-- An open transaction has been given the id and has not written it. -/
def Reserved (self : DbState) (id : ℕ) : Prop :=
  ∃ txn state, self.txnRegistry txn = some state ∧
    ∃ pw ∈ state.pendingWrites, pw.isNew = true ∧ pw.blockId = id

/-- Memory lasts until a reserved id has its pending write, commits have no faults and name blocks
that can be, and a transaction is only aborted when no insert of it is pending. -/
def AbortsKeep (self : DbState) : Call → Prop
  | .apply memory _ _ => memory ≠ .noBuffer
  | .commit faults txn =>
    faults = .none ∧ ∀ state, self.txnRegistry txn = some state → state.InRange
  | .abort txn => ∀ state, self.txnRegistry txn = some state →
    ∀ pw ∈ state.pendingWrites, pw.isNew = false
  | _ => True

structure Counted (db : DbState) : Prop extends db.Wf where
  stored : ∀ id < db.storage.superblock.blockCount, (db.storage.file id).isSome ∨ db.Reserved id
  disk : ∃ sb, db.onDisk = some sb ∧ sb.blockCount ≤ db.storage.superblock.blockCount
  sound : db.storage.panicked = false

theorem readable_of_isSome (h : db.storage.Owned) (hsound : db.storage.panicked = false) {id : ℕ}
    (hsome : (db.storage.file id).isSome) : db.Readable id := by
  obtain ⟨b, hb⟩ := Option.isSome_iff_exists.mp hsome
  refine ⟨b, db.storage.seekTo id, ?_, ?_, h.own id b hb⟩
  · simp [readBlock, seekTo, hb]
  · exact Bool.or_eq_false_iff.mpr ⟨hsound, h.offset hsound id hsome⟩

theorem onDisk_toBlock {sb : Superblock} (h : db.storage.file 0 = some sb.toBlock) :
    db.onDisk = some sb := by
  rw [onDisk, h]
  rfl

theorem Counted.exist (h : db.Counted) (hclosed : ∀ txn, db.txnRegistry txn = none) :
    db.CountedExist := by
  have hread (id : ℕ) (hid : id < db.storage.superblock.blockCount) : db.Readable id := by
    refine readable_of_isSome h.owned h.sound ((h.stored id hid).resolve_right ?_)
    rintro ⟨txn, state, hstate, -⟩
    rw [hclosed txn] at hstate
    cases hstate
  obtain ⟨sb, hsb, hle⟩ := h.disk
  exact ⟨hread, sb, hsb, fun id hid => hread id (hid.trans_le hle)⟩

/-- What is reserved stays reserved when a transaction that keeps its inserts changes. -/
theorem Reserved.update {id : ℕ} (h : db.Reserved id) {s : BlockStorage}
    {next : Option TxnState}
    (hkeep : ∀ state, db.txnRegistry txn = some state → ∀ pw ∈ state.pendingWrites,
      pw.isNew = true → ∃ state', next = some state' ∧ pw ∈ state'.pendingWrites) :
    Reserved ⟨s, update db.txnRegistry txn next⟩ id := by
  obtain ⟨t, state, hstate, pw, hpw, hnew, hid⟩ := h
  by_cases heq : t = txn
  · subst heq
    obtain ⟨state', hnext, hpw'⟩ := hkeep state hstate pw hpw hnew
    exact ⟨t, state', (Function.update_self ..).trans hnext, pw, hpw', hnew, hid⟩
  · exact ⟨t, state, (Function.update_of_ne heq ..).trans hstate, pw, hpw, hnew, hid⟩

/-- A change of one transaction that keeps its inserts. -/
theorem Counted.change (h : db.Counted) {next : Option TxnState}
    (hnext : ∀ state, next = some state → state.Usable)
    (hkeep : ∀ state, db.txnRegistry txn = some state → ∀ pw ∈ state.pendingWrites,
      pw.isNew = true → ∃ state', next = some state' ∧ pw ∈ state'.pendingWrites) :
    Counted ⟨db.storage, update db.txnRegistry txn next⟩ where
  toWf := h.toWf.change h.counted h.owned hnext
  stored id hid := (h.stored id hid).imp_right fun hres => hres.update hkeep
  disk := h.disk
  sound := h.sound

theorem Counted.apply (h : db.Counted) {op : Bytes} {id : ℕ}
    (happly : db.apply .lasts txn op = .ok (id, db')) (hsound : db'.storage.panicked = false) :
    db'.Counted := by
  have hwf := h.toWf.apply happly
  obtain ⟨-, state, msg, hstate, -, -, rfl, rfl⟩ := apply_ok happly
  refine ⟨hwf, ?_, ?_, hsound⟩
  · intro id hid
    rcases Nat.lt_succ_iff_lt_or_eq.mp hid with hid | rfl
    · refine (h.stored id hid).imp_right fun hres => hres.update ?_
      intro st hst pw hpw _
      cases hstate.symm.trans hst
      exact ⟨_, rfl, List.mem_append_left _ hpw⟩
    · exact .inr ⟨txn, _, Function.update_self .., _, List.mem_append_right _ (.head _), rfl, rfl⟩
  · obtain ⟨sb, hsb, hle⟩ := h.disk
    exact ⟨sb, hsb, hle.trans (Nat.le_succ _)⟩

theorem Counted.commit (h : db.Counted) (txn : ℕ)
    (hsound : (settled (db.commit .none txn)).storage.panicked = false) :
    (settled (db.commit .none txn)).Counted := by
  cases hstate : db.txnRegistry txn with
  | none =>
    simp only [DbState.commit, hstate]
    exact h
  | some state =>
    obtain ⟨hactive, hfit⟩ := h.usable txn state hstate
    obtain ⟨db', hcommit, hfin, hreg⟩ := commit_none hstate hactive h.counted hfit
    have hwf := h.toWf.commit .none txn
    rw [hcommit] at hwf hsound ⊢
    have hdisk := onDisk_toBlock hfin.disk
    refine ⟨hwf, ?_, ⟨_, hdisk, le_rfl⟩, hsound⟩
    intro id hid
    by_cases h0 : id = 0
    · subst h0
      exact .inl (Option.isSome_iff_exists.mpr ⟨_, hfin.disk⟩)
    · by_cases hnew : db.storage.superblock.blockCount ≤ id
      · rw [settled, hfin.count] at hid
        exact .inl (hfin.stored id h0 (.inl ⟨hnew, hid⟩))
      · rcases h.stored id (by omega) with hsome | ⟨t, st, hst, pw, hpw, hpwnew, hpwid⟩
        · exact .inl (hfin.stored id h0 (.inr (.inr hsome)))
        · by_cases heq : t = txn
          · subst heq
            cases hstate.symm.trans hst
            exact .inl (hfin.stored id h0 (.inr (.inl (hpwid ▸ List.mem_map_of_mem hpw))))
          · refine .inr ⟨t, st, ?_, pw, hpw, hpwnew, hpwid⟩
            rw [settled, hreg, Function.update_of_ne heq, hst]

theorem Counted.step {call : Call} (h : db.Counted) (hok : db.AbortsKeep call)
    (hstep : db.step call = some db') : db'.Counted := by
  rw [step_eq_some] at hstep
  obtain ⟨hstep, hsound⟩ := hstep
  cases call with
  | begin txn mode =>
    rw [DbState.next] at hstep
    split at hstep
    case h_1 hnone =>
      cases hstep
      refine h.change (fun _ hs => ?_) fun state hs => ?_
      · cases hs
        exact ⟨rfl, by simp⟩
      · rw [hnone] at hs
        cases hs
    case h_2 => cases hstep
  | apply memory txn op =>
    rw [DbState.next] at hstep
    split at hstep
    case h_1 id db' happly =>
      obtain ⟨rfl, -⟩ := apply_ok happly
      cases hstep
      exact h.apply happly hsound
    case h_2 e db' happly =>
      cases hstep
      rcases apply_error happly with rfl | ⟨hmemory, -⟩ | ⟨-, id, hok'⟩
      · exact h
      · exact absurd hmemory hok
      · exact h.apply hok' hsound
  | update txn id data =>
    simp only [DbState.next, Option.map_eq_some_iff] at hstep
    obtain ⟨state, hstate, hstep⟩ := hstep
    split at hstep
    case h_1 state' hup =>
      obtain ⟨-, hlen, msg, rfl⟩ := TxnState.updateBlock_ok hup
      cases hstep
      refine h.change (fun _ hs => ?_) fun st hst pw hpw _ => ?_
      · cases hs
        exact (h.usable txn state hstate).withWrite hlen
      · cases hstate.symm.trans hst
        exact ⟨_, rfl, List.mem_append_left _ hpw⟩
    case h_2 => cases hstep; exact h
  | delete txn id =>
    simp only [DbState.next, Option.map_eq_some_iff] at hstep
    obtain ⟨state, hstate, hstep⟩ := hstep
    split at hstep
    case h_1 state' hdel =>
      obtain ⟨-, rfl⟩ := TxnState.deleteBlock_ok hdel
      cases hstep
      refine h.change (fun _ hs => ?_) fun st hst pw hpw _ => ?_
      · cases hs
        exact h.usable txn state hstate
      · cases hstate.symm.trans hst
        exact ⟨_, rfl, hpw⟩
    case h_2 => cases hstep; exact h
  | read => cases hstep; exact h
  | commit faults txn =>
    obtain rfl : faults = .none := hok.1
    cases hstep
    exact h.commit txn hsound
  | abort txn =>
    rw [DbState.next, DbState.abort] at hstep
    split at hstep
    · cases hstep
      exact h
    · cases hstep
      refine h.change (fun _ hs => by cases hs) fun state hstate pw hpw hnew => ?_
      rw [hok state hstate pw hpw] at hnew
      cases hnew

theorem create_counted : create.Counted where
  toWf := create_wf
  stored id hid := by
    obtain rfl : id = 0 := Nat.lt_one_iff.mp hid
    exact .inl rfl
  disk := ⟨_, rfl, le_rfl⟩
  sound := rfl

/-- Where no insert is aborted, every counted block exists whenever no transaction is open. -/
theorem counted_exist (hrun : Run DbState.step AbortsKeep create db)
    (hclosed : ∀ txn, db.txnRegistry txn = none) : db.CountedExist := by
  have hinv : db.Counted :=
    Run.invariant (fun _ _ _ h hok hstep => h.step hok hstep) hrun create_counted
  exact hinv.exist hclosed

theorem counted_exist_committed :
    ∃ db : DbState, db.CountedExist ∧ db.storage.superblock.blockCount = 3 := by
  have hbegin := @Run.single _ _ step AbortsKeep create _ (.begin 0 .readWrite) trivial rfl
  have happly := hbegin.tail ⟨.apply .lasts 0 [0x2A], Memory.noConfusion, rfl⟩
  have hcommits {db : DbState} {state : TxnState} (hdb : db.txnRegistry 0 = some state)
      (hids : state.pendingWrites.map PendingWrite.blockId = [1] ∧ state.pendingDeletes = []) :
      db.AbortsKeep (.commit .none 0) := by
    refine ⟨rfl, fun _ hstate id hid => ?_⟩
    cases hdb.symm.trans hstate
    rw [hids.1, hids.2] at hid
    obtain rfl : id = 1 := by simpa using hid
    rfl
  have hcommit := happly.tail ⟨.commit .none 0, hcommits rfl ⟨rfl, rfl⟩, rfl⟩
  have hsecond := hcommit.tail ⟨.begin 0 .readWrite, trivial, rfl⟩
  have hupdate := hsecond.tail ⟨.update 0 1 [0x2B], trivial, rfl⟩
  have hkeep {db : DbState} (hdb : db.txnRegistry 0 = some
      ⟨.readWrite, true, 4, [⟨1, [0x2B], "UPDATE block_id=1 size=1", false⟩], []⟩) :
      db.AbortsKeep (.abort 0) := by
    intro state hstate pw hpw
    cases hdb.symm.trans hstate
    rw [List.mem_singleton.mp hpw]
  have habort := hupdate.tail ⟨.abort 0, hkeep rfl, rfl⟩
  refine ⟨_, counted_exist habort ?_, rfl⟩
  intro txn
  by_cases h : txn = 0
  · subst h
    rfl
  · iterate 6 refine (Function.update_of_ne h ..).trans ?_
    rfl

/-- The id of an aborted insert stays counted and names no block. -/
theorem aborted_insert_counted : ∃ db, Run step (fun _ call => call.Faultless) create db ∧
    (∀ txn, db.txnRegistry txn = none) ∧ ¬ db.CountedExist := by
  have hbegin := @Run.single _ _ step (fun _ call => call.Faultless) create _
    (.begin 0 .readWrite) trivial rfl
  have happly := @Run.single _ _ step (fun _ call => call.Faultless)
    (create.begin 0 .readWrite) _ (.apply .lasts 0 [0x2A]) rfl rfl
  have habort := hbegin.trans (happly.tail ⟨.abort 0, trivial, rfl⟩)
  refine ⟨_, habort, ?_, ?_⟩
  · intro txn
    by_cases h : txn = 0
    · subst h
      rfl
    · simp [abort, begin, create]
  · intro h
    obtain ⟨block, storage, hblock, -⟩ := h.1 1 (by decide)
    cases hblock

end DbState

end NextgenDatabases.Lithoglyph
