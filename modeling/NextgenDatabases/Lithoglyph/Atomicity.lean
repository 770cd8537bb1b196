import NextgenDatabases.Lithoglyph.Sessions

/-!
# Failed commits

A commit stops at the first journal entry or block that it cannot write, and skips what it cannot
free. What it has written until then stays.
-/
namespace NextgenDatabases.Lithoglyph

open Foundations
open Function (update)

theorem JournalFaults.faulty_of_missed {self : JournalFaults} (h : self.missed = true) :
    self.faulty = true := by
  simp only [missed, Bool.or_eq_true, Bool.not_eq_true'] at h
  rcases h with h | h
  · simp [faulty, h]
  · have hcreate : self.create.isSome := by
      cases hc : self.create with
      | none => simp [hc, reachesFile] at h
      | some => rfl
    simp [faulty, hcreate]

/-- What a failed write of a document leaves of what was in its block. -/
def WriteFault.document (fault : WriteFault) (old new : Option Content) : Option Content :=
  match fault with
  | .unwritten => old
  | .torn left => left
  | .unsynced => new

namespace DbState

open BlockStorage

variable {db db' : DbState} {txn : ℕ} {state : TxnState} {faults : CommitFaults}

/-- Every pending write and deletion was made, as far as the transaction itself does not write the
block again or delete it. -/
def TookEffect (state : TxnState) (s : BlockStorage) : Prop :=
  (∀ pre pw post, state.pendingWrites = pre ++ pw :: post →
    pw.blockId ∉ post.map PendingWrite.blockId → pw.blockId ∉ state.pendingDeletes →
    s.documents pw.blockId = some (.data pw.data)) ∧
  ∀ id ∈ state.pendingDeletes, s.FreedAt id

/-- A commit that fails leaves nothing behind once the transaction is aborted, and one that
succeeds has done everything. -/
def CommitsAll (self : DbState) (faults : CommitFaults) (txn : ℕ) (state : TxnState) : Prop :=
  match self.commit faults txn with
  | .ok db => TookEffect state db.storage
  | .error (_, db) => (db.abort txn).2.readBlocks .document = self.readBlocks .document

/-- What the first `i` writes leave in a block. -/
def lastWrite (state : TxnState) (i : ℕ) : ℕ → Option Content :=
  putAll (fun _ => none) ((state.pendingWrites.take i).map PendingWrite.pair)

/-- The block can be read when the deletions are made. -/
def ReadableThen (self : DbState) (state : TxnState) (id : ℕ) : Prop :=
  id ∈ state.pendingWrites.map PendingWrite.blockId ∨
    (self.storage.superblock.blockCount ≤ id ∧
      id < self.storage.superblock.blockCount + state.journal.length) ∨
    (self.storage.file id).isSome

/-- The block is on the free list when the deletions are made. -/
def FreedThen (self : DbState) (state : TxnState) (id : ℕ) : Prop :=
  id ∉ state.pendingWrites.map PendingWrite.blockId ∧
    (id < self.storage.superblock.blockCount ∨
      self.storage.superblock.blockCount + state.journal.length ≤ id) ∧
    self.storage.FreedAt id

/-- The faults do no harm. -/
structure Harmless (db : DbState) (faults : CommitFaults) (state : TxnState) : Prop where
  /-- The block that the first failing journal entry has not touched holds no document. -/
  journal : ∀ j < state.journal.length, (∀ i < j, (faults.journal i).faulty = false) →
    (faults.journal j).missed = true →
    db.storage.documents (db.storage.superblock.blockCount + j) = none
  /-- What was written before the first failing write was there before. -/
  data : (∀ j < state.journal.length, (faults.journal j).faulty = false) →
    ∀ i pw, state.pendingWrites[i]? = some pw → (∀ k < i, faults.data k = none) →
    (faults.data i).isSome → ∀ id payload, id ≠ 0 → id ≠ pw.blockId →
    id < db.storage.superblock.blockCount + state.journal.length →
    lastWrite state i id = some payload → db.storage.docs id = some payload
  /-- What the first failing write has left in its block was there before. -/
  failed : (∀ j < state.journal.length, (faults.journal j).faulty = false) →
    ∀ i pw fault, state.pendingWrites[i]? = some pw → (∀ k < i, faults.data k = none) →
    faults.data i = some fault → pw.blockId ≠ 0 →
    pw.blockId < db.storage.superblock.blockCount + state.journal.length →
    fault.document ((lastWrite state i pw.blockId).or (db.storage.docs pw.blockId))
      (some (.data pw.data)) = db.storage.docs pw.blockId
  /-- No deletion is skipped, and a write to block 0 is not overwritten by the superblock. -/
  done : (∀ j < state.journal.length, (faults.journal j).faulty = false) →
    (∀ i < state.pendingWrites.length, faults.data i = none) →
    (∀ id ∈ state.pendingDeletes, id ≠ 0 ∧ db.ReadableThen state id ∧
      Frees (faultsOf faults.free 0 state.pendingDeletes id) (db.FreedThen state id)) ∧
    (0 ∈ state.pendingWrites.map PendingWrite.blockId → reachesFile faults.flush = false ∧
      ¬ Stores (db.ReadableThen state) faults.free 0 state.pendingDeletes)

/-! ### What is read -/

theorem readBlocks_docs (h : db.storage.Owned) {n : ℕ}
    (hn : db.storage.superblock.blockCount - 1 ≤ n) : db.readBlocks .document =
      (List.range' 1 n).filterMap fun id => (db.storage.docs id).map (id, ·) := by
  rw [readBlocks_eq h]
  obtain ⟨k, rfl⟩ := Nat.exists_eq_add_of_le hn
  rw [← List.range'_append_1, List.filterMap_append]
  have hrest : (List.range' (1 + (db.storage.superblock.blockCount - 1)) k).filterMap
      (fun id => (db.storage.docs id).map (id, ·)) = [] := by
    refine List.filterMap_eq_nil_iff.mpr fun id hid => ?_
    rw [List.mem_range'_1] at hid
    rw [docs_of_le (by omega)]
    rfl
  rw [hrest, List.append_nil]
  refine List.filterMap_congr fun id hid => ?_
  rw [List.mem_range'_1] at hid
  rw [BlockStorage.docs, if_pos (by omega)]
  rfl

theorem readBlocks_eq_iff (h : db.storage.Owned) (h' : db'.storage.Owned) :
    db'.readBlocks .document = db.readBlocks .document ↔ db'.storage.docs = db.storage.docs := by
  constructor
  · intro heq
    funext id
    refine Option.ext fun payload => ?_
    rw [← mem_readBlocks h, ← mem_readBlocks h', heq]
  · intro heq
    have hmax := le_max_left (db.storage.superblock.blockCount - 1)
      (db'.storage.superblock.blockCount - 1)
    rw [readBlocks_docs h hmax, readBlocks_docs h' (le_max_right _ _), heq]

/-! ### Each phase -/

section Phases

variable {s t u : BlockStorage} {n : ℕ} {missed : Bool} {sequence : ℕ} {pws : List PendingWrite}
  {pw : PendingWrite}

/-- The documents after a journal entry has failed. -/
theorem docs_attempted (hc : 0 < s.superblock.blockCount) (hj : Journaled s t n)
    (ha : Attempted t u missed) :
    u.docs = s.docs ↔ (missed = true → s.documents (s.superblock.blockCount + n) = none) := by
  have hcount : u.superblock.blockCount = s.superblock.blockCount + n + 1 := by
    rw [ha.count, hj.count]
  have hlast : u.docs (s.superblock.blockCount + n)
      = if missed then s.documents (s.superblock.blockCount + n) else none := by
    rw [BlockStorage.docs, if_pos (by omega), ← hj.count]
    cases missed with
    | true =>
      rw [if_pos rfl]
      refine documents_congr ((ha.missing rfl).trans (hj.other _ ?_ (.inr ?_)))
      · rw [hj.count]
        omega
      · rw [hj.count]
    | false => exact hj.count ▸ ha.entry rfl
  constructor
  · intro heq hm
    rw [heq, docs_of_le (by omega), hm] at hlast
    exact hlast.symm
  · intro hnone
    funext id
    by_cases hid : id = s.superblock.blockCount + n
    · rw [hid, hlast, docs_of_le (by omega)]
      cases hm : missed with
      | true => exact hnone hm
      | false => rfl
    · have hsame (h0 : id ≠ 0) : u.documents id = s.cleared n id := by
        rw [← hj.documents h0]
        exact documents_congr (ha.other id h0 (by rw [hj.count]; exact hid))
      rw [BlockStorage.docs, BlockStorage.docs]
      by_cases hlo : 1 ≤ id ∧ id < s.superblock.blockCount
      · rw [if_pos (by omega), if_pos hlo]
        refine (hsame (by omega)).trans ?_
        rw [cleared, if_neg (by omega)]
        rfl
      · rw [if_neg hlo]
        by_cases hhi : 1 ≤ id ∧ id < u.superblock.blockCount
        · rw [if_pos hhi]
          refine (hsame (by omega)).trans ?_
          rw [cleared, if_pos (by omega)]
        · rw [if_neg hhi]

/-- The documents after some writes. -/
theorem docs_written (hj : Journaled s t n) {id : ℕ} (h0 : id ≠ 0)
    (hid : id < s.superblock.blockCount + n) : (t.written sequence pws).docs id =
      (putAll (fun _ => none) (pws.map PendingWrite.pair) id).or (s.docs id) := by
  rw [BlockStorage.docs, written_superblock, hj.count, if_pos (by omega)]
  refine (congrFun (documents_written pws) id).trans ?_
  rw [putAll_eq_or, hj.documents h0, cleared, BlockStorage.docs]
  congr 1
  by_cases hlo : id < s.superblock.blockCount
  · rw [if_neg (by omega), if_pos (by omega)]
    rfl
  · rw [if_pos (by omega), if_neg (by omega)]

theorem document_leave (fault : WriteFault) (old : Option Stored) :
    document (fault.leave old (pw.toBlock sequence)) =
      fault.document (document old) (some (.data pw.data)) := by
  match fault with
  | .unwritten => rfl
  | .torn none => rfl
  | .torn (some content) => rfl
  | .unsynced => rfl

/-- The documents after a write has failed. -/
theorem docs_failed (hj : Journaled s t n) (fault : WriteFault) :
    ((t.written sequence pws).write (some fault) pw.blockId (pw.toBlock sequence)).docs = s.docs ↔
      (∀ id payload, id ≠ 0 → id ≠ pw.blockId → id < s.superblock.blockCount + n →
        putAll (fun _ => none) (pws.map PendingWrite.pair) id = some payload →
        s.docs id = some payload) ∧
      (pw.blockId ≠ 0 → pw.blockId < s.superblock.blockCount + n →
        fault.document ((putAll (fun _ => none) (pws.map PendingWrite.pair) pw.blockId).or
          (s.docs pw.blockId)) (some (.data pw.data)) = s.docs pw.blockId) := by
  set u := t.written sequence pws with hu
  set v := u.write (some fault) pw.blockId (pw.toBlock sequence) with hv
  have hcount : v.superblock.blockCount = s.superblock.blockCount + n := by
    rw [hv, write_superblock, hu, written_superblock, hj.count]
  have hother (id : ℕ) (hne : id ≠ pw.blockId) : v.docs id = u.docs id := by
    have hfile : v.file id = u.file id := write_file_of_ne _ _ _ hne
    rw [BlockStorage.docs, BlockStorage.docs, hfile, hv, write_superblock]
  have hself (h0 : pw.blockId ≠ 0) (hid : pw.blockId < s.superblock.blockCount + n) :
      v.docs pw.blockId = fault.document (u.docs pw.blockId) (some (.data pw.data)) := by
    have hfile : v.file pw.blockId = fault.leave (u.file pw.blockId) (pw.toBlock sequence) :=
      write_file_self ..
    rw [BlockStorage.docs, if_pos (by omega), hfile, document_leave, BlockStorage.docs, hu,
      written_superblock, hj.count, if_pos (by omega)]
  constructor
  · intro heq
    constructor
    · intro id payload h0 hne hid hput
      rw [← heq, hother id hne, docs_written hj h0 hid, hput]
      rfl
    · intro h0 hid
      rw [← docs_written hj h0 hid, ← hu, ← hself h0 hid, heq]
  · rintro ⟨hwritten, hfailed⟩
    funext id
    by_cases hid : id ≠ 0 ∧ id < s.superblock.blockCount + n
    · by_cases hne : id = pw.blockId
      · subst hne
        rw [hself hid.1 hid.2, hu, docs_written hj hid.1 hid.2]
        exact hfailed hid.1 hid.2
      · rw [hother id hne, hu, docs_written hj hid.1 hid.2]
        cases hp : putAll (fun _ => none) (pws.map PendingWrite.pair) id with
        | none => rfl
        | some payload => exact (hwritten id payload hid.1 hne hid.2 hp).symm
    · rw [BlockStorage.docs, BlockStorage.docs, hcount, if_neg (by omega), if_neg (by omega)]

/-- Block 0 is never on the free list. -/
def ZeroKept (s : BlockStorage) : Prop := ∀ b, s.file 0 = some b → b.blockType ≠ .free

theorem ZeroKept.superblock (h : s.file 0 = some s.superblock.toBlock) : ZeroKept s := by
  intro b hb
  cases h.symm.trans hb
  exact BlockType.noConfusion

theorem ZeroKept.write (h : ZeroKept s) (fault : Option WriteFault) {id : ℕ} {b : Stored}
    (hb : b.blockType ≠ .free) : ZeroKept (s.write fault id b) := by
  intro c hc
  by_cases h0 : 0 = id
  · subst h0
    rw [write_file_self] at hc
    rcases afterWrite_cases fault (s.file 0) b with ⟨-, heq⟩ | ⟨-, heq⟩ | ⟨-, -, content, heq⟩
    · exact h c (heq ▸ hc)
    · rw [heq] at hc
      cases hc
    · rw [heq] at hc
      cases hc
      exact hb
  · rw [write_file_of_ne s fault b h0] at hc
    exact h c hc

theorem ZeroKept.written (h : ZeroKept s) : ZeroKept (s.written sequence pws) := by
  induction pws generalizing s with
  | nil => exact h
  | cons pw pws ih => exact ih (h.write none BlockType.noConfusion)

theorem ZeroKept.freeAll (h : ZeroKept s) (faults : ℕ → FreeFaults) (k : ℕ) (ids : List ℕ) :
    ZeroKept (s.freeAll faults k ids) := by
  refine freeAll_induction (P := ZeroKept) (fun t id f u h0 ht hdel b hb => ?_) h
  have hzero := hdel.superblock
  split_ifs at hzero
  · have hwrite : ZeroKept (t.write f.superblock 0 u.superblock.toBlock) :=
      ht.write f.superblock BlockType.noConfusion
    exact hwrite b (by rw [write_file_self, ← hzero, hb])
  · exact ht b (hzero ▸ hb)

theorem flush_file (fault : Option WriteFault) {id : ℕ} (h0 : id ≠ 0) :
    (caught (s.flushSuperblock fault)).file id = s.file id := by
  rw [caught_flushSuperblock, write_file_of_ne _ _ _ h0]

theorem flush_zero (fault : Option WriteFault) : (caught (s.flushSuperblock fault)).documents 0
    = if reachesFile fault then none else s.documents 0 := by
  rw [caught_flushSuperblock, BlockStorage.documents, write_file_self, documents_afterWrite]
  rfl

theorem isSome_written (hj : Journaled db.storage t state.journal.length) {id : ℕ} (h0 : id ≠ 0) :
    ((t.written sequence state.pendingWrites).file id).isSome ↔ db.ReadableThen state id := by
  by_cases hid : id ∈ state.pendingWrites.map PendingWrite.blockId
  · exact iff_of_true (written_file_isSome hid) (.inl hid)
  · rw [written_file_of_notMem hid, ReadableThen, or_iff_right hid]
    by_cases hnew : db.storage.superblock.blockCount ≤ id ∧
        id < db.storage.superblock.blockCount + state.journal.length
    · obtain ⟨b, hb, -⟩ := hj.entry id hnew.1 hnew.2
      exact iff_of_true (by simp [hb]) (.inl hnew)
    · rw [or_iff_right hnew, hj.other id h0 (by omega)]

theorem freedAt_written (hj : Journaled db.storage t state.journal.length) {id : ℕ}
    (h0 : id ≠ 0) :
    (t.written sequence state.pendingWrites).FreedAt id ↔ db.FreedThen state id := by
  by_cases hid : id ∈ state.pendingWrites.map PendingWrite.blockId
  · refine iff_of_false (fun hfreed => ?_) fun h => h.1 hid
    have hnone := hfreed.documents
    have hmem : id ∈ (state.pendingWrites.map PendingWrite.pair).map Prod.fst := by
      rwa [List.map_map]
    rw [documents_written] at hnone
    simpa [hnone] using putAll_isSome (m := t.documents) hmem
  · rw [FreedAt, written_file_of_notMem hid, FreedThen, and_iff_right hid]
    by_cases hnew : db.storage.superblock.blockCount ≤ id ∧
        id < db.storage.superblock.blockCount + state.journal.length
    · refine iff_of_false ?_ (by omega)
      rintro ⟨b, hb, htype, -⟩
      obtain ⟨b', hb', htype'⟩ := hj.entry id hnew.1 hnew.2
      cases hb.symm.trans hb'
      rw [htype] at htype'
      cases htype'
    · rw [and_iff_right (by omega), hj.other id h0 (by omega)]
      rfl

/-- What a commit that succeeds leaves. -/
def finalStorage (faults : CommitFaults) (state : TxnState) (t : BlockStorage) : BlockStorage :=
  caught <| ((t.written state.sequence state.pendingWrites).freeAll faults.free 0
    state.pendingDeletes).flushSuperblock faults.flush

theorem freedAt_final (hj : Journaled db.storage t state.journal.length) {id : ℕ}
    (hid : id ∈ state.pendingDeletes) :
    (finalStorage faults state t).FreedAt id ↔ id ≠ 0 ∧ db.ReadableThen state id ∧
      Frees (faultsOf faults.free 0 state.pendingDeletes id) (db.FreedThen state id) := by
  by_cases h0 : id = 0
  · subst h0
    refine iff_of_false ?_ fun h => h.1 rfl
    rintro ⟨b, hb, htype, -⟩
    have hpos : 0 < state.journal.length := by
      rw [TxnState.journal, List.length_append, List.length_map, List.length_map]
      have hlen := List.length_pos_of_mem hid
      omega
    have hkept : ZeroKept (t.written state.sequence state.pendingWrites) :=
      (ZeroKept.superblock (hj.disk (.inl hpos))).written
    have hfreed := hkept.freeAll faults.free 0 state.pendingDeletes
    rw [finalStorage, caught_flushSuperblock] at hb
    exact hfreed.write faults.flush BlockType.noConfusion b hb htype
  · rw [and_iff_right h0, FreedAt, finalStorage, flush_file faults.flush h0]
    refine (freeAll_freedAt_iff h0 _ _ _).trans ?_
    rw [isSome_written hj h0, freedAt_written hj h0]

theorem exists_last {α β : Type*} {f : α → β} {b : β} {l : List α} (h : b ∈ l.map f) :
    ∃ pre a post, l = pre ++ a :: post ∧ f a = b ∧ b ∉ post.map f := by
  induction l with
  | nil => cases h
  | cons a l ih =>
    by_cases hl : b ∈ l.map f
    · obtain ⟨pre, c, post, rfl, hc, hpost⟩ := ih hl
      exact ⟨a :: pre, c, post, rfl, hc, hpost⟩
    · have hab : b = f a := by simpa [hl] using h
      exact ⟨[], a, l, rfl, hab.symm, hl⟩

theorem documents_last (pre post : List PendingWrite) (pw : PendingWrite)
    (hpws : state.pendingWrites = pre ++ pw :: post)
    (hlast : pw.blockId ∉ post.map PendingWrite.blockId) :
    (t.written sequence state.pendingWrites).documents pw.blockId = some (.data pw.data) := by
  have hmem : pw.pair.1 ∉ (post.map PendingWrite.pair).map Prod.fst := by
    rwa [List.map_map]
  rw [documents_written, hpws, List.map_append, List.map_cons]
  exact putAll_last hmem

theorem tookEffect_iff (hj : Journaled db.storage t state.journal.length) :
    TookEffect state (finalStorage faults state t) ↔
      (∀ id ∈ state.pendingDeletes, id ≠ 0 ∧ db.ReadableThen state id ∧
        Frees (faultsOf faults.free 0 state.pendingDeletes id) (db.FreedThen state id)) ∧
      (0 ∈ state.pendingWrites.map PendingWrite.blockId → reachesFile faults.flush = false ∧
        ¬ Stores (db.ReadableThen state) faults.free 0 state.pendingDeletes) := by
  obtain ⟨hstores, hnot⟩ := freeAll_zero (s := t.written state.sequence state.pendingWrites)
    faults.free 0 state.pendingDeletes fun id h0 => isSome_written hj h0
  have hzero := flush_zero (s := (t.written state.sequence state.pendingWrites).freeAll
    faults.free 0 state.pendingDeletes) faults.flush
  have hfreed : (∀ id ∈ state.pendingDeletes, (finalStorage faults state t).FreedAt id) ↔ _ :=
    forall₂_congr fun id hid => freedAt_final hj hid
  rw [TookEffect, and_comm, hfreed]
  refine and_congr_right fun hdel => ⟨fun hwrite h0 => ?_, fun hflush pre pw post hpws hlast hpw => ?_⟩
  · obtain ⟨pre, pw, post, hpws, hid, hlast⟩ := exists_last h0
    have hdoc := hwrite pre pw post hpws (hid ▸ hlast) fun hmem => (hdel _ hmem).1 hid
    rw [hid, finalStorage, hzero] at hdoc
    cases hf : reachesFile faults.flush with
    | true =>
      rw [hf] at hdoc
      cases hdoc
    | false =>
      refine ⟨rfl, fun hst => ?_⟩
      rw [hf, if_neg Bool.false_ne_true, hstores hst] at hdoc
      cases hdoc
  · have hw := @documents_last _ t state.sequence pre post pw hpws hlast
    by_cases h0 : pw.blockId = 0
    · obtain ⟨hf, hst⟩ := hflush (by
        rw [hpws, List.map_append, List.map_cons, h0]
        simp)
      rw [h0, finalStorage, hzero, hf, if_neg Bool.false_ne_true, hnot hst, ← h0]
      exact hw
    · refine Eq.trans (documents_congr ?_) hw
      rw [finalStorage, flush_file _ h0, freeAll_file h0 _ _ hpw]

end Phases

/-- A property of the first numbers fails at a first one or nowhere. -/
theorem first_failure (p : ℕ → Bool) (n : ℕ) :
    (∀ i < n, p i = false) ∨ ∃ j < n, (∀ i < j, p i = false) ∧ p j = true := by
  induction n with
  | zero => exact .inl fun i hi => by cases hi
  | succ n ih =>
    rcases ih with hall | ⟨j, hj, hfirst⟩
    · cases hp : p n with
      | true => exact .inr ⟨n, Nat.lt_succ_self n, hall, hp⟩
      | false =>
        refine .inl fun i hi => ?_
        rcases Nat.lt_succ_iff_lt_or_eq.mp hi with hi | rfl
        · exact hall i hi
        · exact hp
    · exact .inr ⟨j, Nat.lt_succ_of_lt hj, hfirst⟩

theorem first_unique {p : ℕ → Bool} {i j : ℕ} (hi : ∀ k < i, p k = false) (hpi : p i = true)
    (hj : ∀ k < j, p k = false) (hpj : p j = true) : i = j := by
  rcases Nat.lt_trichotomy i j with h | h | h
  · rw [hj i h] at hpi
    cases hpi
  · exact h
  · rw [hi j h] at hpj
    cases hpj

theorem abort_readBlocks (h : db.txnRegistry txn = some state) (s : BlockStorage) :
    (({ db with storage := s } : DbState).abort txn).2.readBlocks .document
      = ({ db with storage := s } : DbState).readBlocks .document := by
  rw [abort, h]
  rfl

section Commit

variable (hwf : db.Wf) (hstate : db.txnRegistry txn = some state)

include hwf hstate

/-- After an error the documents are compared with those before. -/
theorem commitsAll_error {e : LgError} {s : BlockStorage}
    (hcommit : db.commit faults txn = .error (e, { db with storage := s })) :
    db.CommitsAll faults txn state ↔ s.docs = db.storage.docs := by
  have hafter := hwf.commit faults txn
  rw [hcommit] at hafter
  rw [CommitsAll, hcommit]
  dsimp only
  rw [abort_readBlocks hstate]
  exact readBlocks_eq_iff hwf.owned hafter.owned

theorem commitsAll_journal {j : ℕ} (hj : j < state.journal.length)
    (hbefore : ∀ i < j, (faults.journal i).faulty = false)
    (hfault : (faults.journal j).faulty = true) :
    db.CommitsAll faults txn state ↔ db.Harmless faults state := by
  obtain ⟨t, u, hu, hjt, hlast⟩ := @appendAll_error _ faults.journal _ 0 _ hwf.counted
    hj (by simpa using hbefore) (by simpa using hfault)
  obtain ⟨e, he⟩ := commit_journal_error hstate (hwf.usable txn state hstate).1 hu
  rw [commitsAll_error hwf hstate he, docs_attempted hwf.counted hjt hlast, Nat.zero_add]
  have hfail (h : ∀ j < state.journal.length, (faults.journal j).faulty = false) : False := by
    rw [h j hj] at hfault
    cases hfault
  constructor
  · intro hnone
    refine ⟨fun i hi hbefore' hmissed => ?_, fun h => (hfail h).elim, fun h => (hfail h).elim,
      fun h => (hfail h).elim⟩
    obtain rfl := first_unique hbefore' (JournalFaults.faulty_of_missed hmissed) hbefore hfault
    exact hnone hmissed
  · intro h hmissed
    exact h.journal j hj hbefore hmissed

theorem commitsAll_data {i : ℕ} {pw : PendingWrite} {fault : WriteFault}
    (hjournal : ∀ j < state.journal.length, (faults.journal j).faulty = false)
    (hpw : state.pendingWrites[i]? = some pw) (hbefore : ∀ k < i, faults.data k = none)
    (hfault : faults.data i = some fault) :
    db.CommitsAll faults txn state ↔ db.Harmless faults state := by
  obtain ⟨hactive, hfit⟩ := hwf.usable txn state hstate
  obtain ⟨t, ht, hjt⟩ := @appendAll_ok _ faults.journal _ 0 hwf.counted
    (by simpa using hjournal)
  have hw := @writeAll_error t state.sequence faults.data _ 0 _ _
    hfit hpw (by simpa using hbefore) (by simp [hfault])
  rw [Nat.zero_add, hfault] at hw
  obtain ⟨e, he⟩ := commit_data_error hstate hactive ht hw
  rw [commitsAll_error hwf hstate he, docs_failed hjt]
  have hfirst {k : ℕ} (hk : ∀ m < k, faults.data m = none) (hsome : (faults.data k).isSome = true) :
      k = i :=
    first_unique (p := fun m => (faults.data m).isSome) (fun m hm => by simp [hk m hm]) hsome
      (fun m hm => by simp [hbefore m hm]) (by simp [hfault])
  constructor
  · rintro ⟨hput, hfailed⟩
    refine
      { journal := fun j hj _ hmissed => ?_
        data := fun _ k qw hqw hbefore' hsome => ?_
        failed := fun _ k qw g hqw hbefore' hg => ?_
        done := fun _ hall => ?_ }
    · have hfaulty := JournalFaults.faulty_of_missed hmissed
      rw [hjournal j hj] at hfaulty
      cases hfaulty
    · obtain rfl := hfirst hbefore' hsome
      cases hpw.symm.trans hqw
      exact hput
    · obtain rfl := hfirst hbefore' (by simp [hg])
      cases hpw.symm.trans hqw
      cases hfault.symm.trans hg
      exact hfailed
    · rw [hall i (List.getElem?_eq_some_iff.mp hpw).1] at hfault
      cases hfault
  · intro h
    exact ⟨h.data hjournal i pw hpw hbefore (by simp [hfault]),
      h.failed hjournal i pw fault hpw hbefore hfault⟩

theorem commitsAll_done
    (hjournal : ∀ j < state.journal.length, (faults.journal j).faulty = false)
    (hdata : ∀ i < state.pendingWrites.length, faults.data i = none) :
    db.CommitsAll faults txn state ↔ db.Harmless faults state := by
  obtain ⟨hactive, hfit⟩ := hwf.usable txn state hstate
  obtain ⟨t, ht, hjt⟩ := @appendAll_ok _ faults.journal _ 0 hwf.counted
    (by simpa using hjournal)
  have hw := @writeAll_ok t state.sequence faults.data _ 0
    hfit (by simpa using hdata)
  have hok := commit_ok hstate hactive ht hw
  rw [CommitsAll, hok]
  have hlt {i : ℕ} {pw : PendingWrite} (hpw : state.pendingWrites[i]? = some pw) :
      faults.data i = none := hdata i (List.getElem?_eq_some_iff.mp hpw).1
  refine (tookEffect_iff hjt).trans ⟨fun h => ?_, fun h => h.done hjournal hdata⟩
  refine
    { journal := fun j hj _ hmissed => ?_
      data := fun _ i pw hpw _ hsome => ?_
      failed := fun _ i pw fault hpw _ hfault => ?_
      done := fun _ _ => h }
  · have hfaulty := JournalFaults.faulty_of_missed hmissed
    rw [hjournal j hj] at hfaulty
    cases hfaulty
  · rw [hlt hpw] at hsome
    cases hsome
  · rw [hlt hpw] at hfault
    cases hfault

end Commit

/-- A commit with faults does all or nothing just when its faults do no harm. -/
theorem commits_all_iff (hreached : Reached db) (hstate : db.txnRegistry txn = some state)
    (faults : CommitFaults) : db.CommitsAll faults txn state ↔ db.Harmless faults state := by
  rcases first_failure (fun j => (faults.journal j).faulty) state.journal.length with
    hjournal | ⟨j, hj, hbefore, hfault⟩
  · rcases first_failure (fun i => (faults.data i).isSome) state.pendingWrites.length with
      hdata | ⟨i, hi, hbefore, hfault⟩
    · exact commitsAll_done hreached.wf hstate hjournal fun i hi => by simpa using hdata i hi
    · obtain ⟨fault, hfault⟩ := Option.isSome_iff_exists.mp hfault
      exact commitsAll_data hreached.wf hstate hjournal (List.getElem?_eq_getElem hi)
        (fun k hk => by simpa using hbefore k hk) hfault
  · exact commitsAll_journal hreached.wf hstate hj hbefore hfault

theorem commits_all_sample : ∃ (db : DbState) (faults : CommitFaults) (state : TxnState),
    (∃ e db', db.commit faults 0 = .error (e, db')) ∧ db.CommitsAll faults 0 state := by
  have hbegin := @Run.single _ _ step (fun _ _ => True) create _ (.begin 0 .readWrite)
    trivial rfl
  have happly := hbegin.tail ⟨.apply .lasts 0 [0x2A], trivial, rfl⟩
  -- the write of the data stops in the middle and leaves a block that fails its check
  let faults : CommitFaults :=
    { CommitFaults.none with data := fun _ => some (.torn none) }
  refine ⟨_, faults, _, ⟨_, _, rfl⟩, (commits_all_iff happly rfl faults).mpr
    { journal := fun _ _ _ h => ?_
      data := fun _ i pw hpw _ _ id payload _ hne _ hlast => ?_
      failed := fun _ i pw fault hpw _ hfault _ _ => ?_
      done := fun _ h => ?_ }⟩
  · cases h
  · cases i with
    | zero => cases hlast
    | succ i => cases hpw
  · cases hfault
    cases i with
    | zero =>
      cases hpw
      rfl
    | succ i => cases hpw
  · cases h 0 Nat.one_pos

/-- When the sync after the second of two writes fails both documents stay. -/
theorem half_commit_stays : ∃ (db : DbState) (faults : CommitFaults) (state : TxnState),
    Reached db ∧ db.txnRegistry 0 = some state ∧ ¬ db.CommitsAll faults 0 state := by
  have hbegin := @Run.single _ _ step (fun _ _ => True) create _ (.begin 0 .readWrite)
    trivial rfl
  have happly := hbegin.tail ⟨.apply .lasts 0 [0x2A], trivial, rfl⟩
  have happly' := happly.tail ⟨.apply .lasts 0 [0x2B], trivial, rfl⟩
  let faults : CommitFaults :=
    { CommitFaults.none with data := fun i => if i = 1 then some .unsynced else none }
  refine ⟨_, faults, _, happly', rfl, fun h => ?_⟩
  have hlength := congrArg List.length h
  cases hlength

end DbState

end NextgenDatabases.Lithoglyph
