import Mathlib
import NextgenDatabases.Foundations.LinkedLists
import NextgenDatabases.Lithoglyph.Atomicity

/-!
# The free list

Freed blocks are linked through the field that links the journal. Which commits keep the list exact
and apart from the journal.
-/
namespace NextgenDatabases.Lithoglyph

open Foundations LinkedLists
open Function (update)

namespace BlockStorage

variable {s t : BlockStorage} {id : ℕ}

/-! ### The two lists -/

/-- `prev_block_id`, and 0 where there is no block. -/
def prevOf (self : BlockStorage) (id : ℕ) : ℕ :=
  match self.file id with
  | some b => b.prevBlockId
  | none => 0

def FreeAt (self : BlockStorage) (id : ℕ) : Prop :=
  ∃ b, self.file id = some b ∧ b.blockType = .free

/-- The block is in the chain of the journal. -/
def OnJournal (self : BlockStorage) (id : ℕ) : Prop :=
  Reaches 0 self.prevOf self.superblock.journalTail id

/-- Following the list from its head visits every free block once and nothing else, and no block
of the journal. -/
def FreeListExact (self : BlockStorage) : Prop :=
  ∃ visited, Follows 0 self.prevOf self.superblock.freeListHead visited ∧ visited.Nodup ∧
    (∀ id, id ∈ visited ↔ self.FreeAt id) ∧ ∀ id ∈ visited, ¬ self.OnJournal id

theorem prevOf_congr (h : t.file id = s.file id) : t.prevOf id = s.prevOf id := by
  rw [prevOf, prevOf, h]

theorem freeAt_congr (h : t.file id = s.file id) : t.FreeAt id ↔ s.FreeAt id := by
  rw [FreeAt, FreeAt, h]

theorem not_freeAt_superblock {sb : Superblock} (h : s.file 0 = some sb.toBlock) :
    ¬ s.FreeAt 0 := by
  rintro ⟨b, hb, htype⟩
  rw [h] at hb
  cases hb
  cases htype

/-! ### Entries -/

/-- `n` journal entries were appended: each is linked to the one before it. -/
structure Linked (s t : BlockStorage) (n : ℕ) : Prop where
  count : t.superblock.blockCount = s.superblock.blockCount + n
  head : t.superblock.freeListHead = s.superblock.freeListHead
  tail : t.superblock.journalTail =
    if n = 0 then s.superblock.journalTail else s.superblock.blockCount + n - 1
  entry : ∀ id, s.superblock.blockCount ≤ id → id < s.superblock.blockCount + n →
    ∃ b, t.file id = some b ∧ b.blockType = .journalSegment ∧
      b.prevBlockId = if id = s.superblock.blockCount then s.superblock.journalTail else id - 1
  other : ∀ id, id ≠ 0 → id < s.superblock.blockCount ∨ s.superblock.blockCount + n ≤ id →
    t.file id = s.file id
  zero : ¬ s.FreeAt 0 → ¬ t.FreeAt 0

theorem Linked.refl (s : BlockStorage) : Linked s s 0 where
  count := rfl
  head := rfl
  tail := rfl
  entry _ h h' := absurd h' (by omega)
  other _ _ _ := rfl
  zero h := h

theorem appendJournal_linked (hc : 0 < s.superblock.blockCount) (msg : String) :
    ∃ t, s.appendJournal (CommitFaults.none.journal 0) msg = .ok t ∧ Linked s t 1 := by
  have hok : s.appendJournal (CommitFaults.none.journal 0) msg = .ok (s.appended msg) :=
    appendJournal_whole msg rfl
  obtain ⟨t, ht, hattempt, -, hdisk⟩ := appendJournal_ok hc msg
    (show (CommitFaults.none.journal 0).faulty = false from rfl)
  obtain rfl := Except.ok.inj (hok.symm.trans ht)
  have hentry : (s.appended msg).file s.superblock.blockCount = some (s.entryBlock msg) :=
    (put_file_of_ne _ _ hc.ne').trans (put_file_self ..)
  exact ⟨_, hok,
    { count := hattempt.count
      head := rfl
      tail := rfl
      entry := fun id hlo hhi => by
        obtain rfl : id = s.superblock.blockCount := by omega
        refine ⟨_, hentry, rfl, ?_⟩
        rw [if_pos rfl]
        rfl
      other := fun id h0 hid => hattempt.other id h0 (by omega)
      zero := fun _ => not_freeAt_superblock hdisk }⟩

/-- One entry and then `n` more. -/
theorem Linked.cons {u : BlockStorage} {n : ℕ} (hc : 0 < s.superblock.blockCount)
    (h : Linked s t 1) (h' : Linked t u n) : Linked s u (n + 1) where
  count := by rw [h'.count, h.count]; omega
  head := h'.head.trans h.head
  tail := by
    rw [h'.tail, h.count, h.tail, if_neg Nat.one_ne_zero, if_neg (Nat.succ_ne_zero n)]
    split_ifs <;> omega
  entry id hlo hhi := by
    by_cases hid : id = s.superblock.blockCount
    · subst hid
      rw [h'.other _ (by omega) (.inl (by rw [h.count]; omega))]
      exact h.entry _ le_rfl (by omega)
    · obtain ⟨b, hb, htype, hprev⟩ := h'.entry id (by rw [h.count]; omega) (by rw [h.count]; omega)
      refine ⟨b, hb, htype, ?_⟩
      rw [hprev, h.count, h.tail, if_neg Nat.one_ne_zero, if_neg hid]
      split_ifs <;> omega
  other id h0 hid := by
    rw [h'.other id h0 (by rw [h.count]; omega), h.other id h0 (by omega)]
  zero h0 := h'.zero (h.zero h0)

theorem appendAll_linked (hc : 0 < s.superblock.blockCount) (k : ℕ) (msgs : List String) :
    ∃ t, s.appendAll CommitFaults.none.journal k msgs = .ok t ∧ Linked s t msgs.length := by
  induction msgs generalizing s k with
  | nil => exact ⟨s, rfl, .refl s⟩
  | cons msg msgs ih =>
    obtain ⟨t, ht, hone⟩ := appendJournal_linked hc msg
    obtain ⟨u, hu, hrest⟩ := ih (s := t) (by rw [hone.count]; omega) (k + 1)
    refine ⟨u, ?_, hone.cons hc hrest⟩
    rw [appendAll, show CommitFaults.none.journal k = CommitFaults.none.journal 0 from rfl, ht]
    exact hu

/-! ### Deletions -/

theorem freeBlock_none {b : Stored} (h0 : id ≠ 0) (hb : s.file id = some b) :
    caught (s.freeBlock ⟨false, none, none⟩ id) =
      (s.freed id b).put 0 (s.freed id b).superblock.toBlock := by
  rw [freeBlock_eq h0 hb]
  rfl

/-- A deletion that finds no block. -/
theorem freeBlock_skipped (h : ¬ (id ≠ 0 ∧ (s.file id).isSome)) (f : FreeFaults) :
    ∃ panicked, caught (s.freeBlock f id) = { s with panicked } := by
  by_cases h0 : id = 0
  · subst h0
    exact ⟨s.panicked, rfl⟩
  · have hnone : s.file id = none := by simpa [h0] using h
    refine ⟨(s.seekTo id).panicked, ?_⟩
    simp [freeBlock, h0, readBlock, seekTo, hnone, bind, Except.bind, caught]

/-- What a deletion of a block leaves. -/
structure Pushed (s t : BlockStorage) (id : ℕ) : Prop where
  head : t.superblock.freeListHead = id
  tail : t.superblock.journalTail = s.superblock.journalTail
  free : t.FreeAt id
  prev : t.prevOf id = s.superblock.freeListHead
  other : ∀ j, j ≠ 0 → j ≠ id → t.file j = s.file j

theorem freeBlock_pushed (h0 : id ≠ 0) (hsome : (s.file id).isSome) :
    Pushed s (caught (s.freeBlock ⟨false, none, none⟩ id)) id := by
  obtain ⟨b, hb⟩ := Option.isSome_iff_exists.mp hsome
  rw [freeBlock_none h0 hb]
  have hfile : ((s.freed id b).put 0 (s.freed id b).superblock.toBlock).file id =
      some (onFreeList b s.superblock.freeListHead) :=
    (put_file_of_ne _ _ h0).trans (put_file_self ..)
  exact
    { head := rfl
      tail := rfl
      free := ⟨_, hfile, rfl⟩
      prev := by rw [prevOf, hfile]; rfl
      other := fun j hj hne => (put_file_of_ne _ _ hj).trans (put_file_of_ne _ _ hne) }

/-- A block that is neither free nor in the journal is put in front of the list. -/
theorem FreeListExact.push (h : s.FreeListExact) (hp : Pushed s t id) (h0 : id ≠ 0)
    (hzero : ¬ s.FreeAt 0) (hzero' : ¬ t.FreeAt 0) (hfree : ¬ s.FreeAt id)
    (hjournal : ¬ s.OnJournal id) : t.FreeListExact ∧ ∀ j, t.OnJournal j ↔ s.OnJournal j := by
  obtain ⟨visited, hfollows, hnodup, hmem, hapart⟩ := h
  have hprev (j : ℕ) (hj : j ≠ 0) (hne : j ≠ id) : t.prevOf j = s.prevOf j :=
    prevOf_congr (hp.other j hj hne)
  have hnew : id ∉ visited := fun hid => hfree ((hmem id).mp hid)
  have hchain (j : ℕ) : t.OnJournal j ↔ s.OnJournal j := by
    rw [OnJournal, hp.tail]
    refine reaches_congr fun j hj => hprev j hj.ne_null ?_
    rintro rfl
    exact hjournal hj
  refine ⟨⟨id :: visited, ?_, List.nodup_cons.mpr ⟨hnew, hnodup⟩, fun j => ?_, fun j hj => ?_⟩,
    hchain⟩
  · rw [hp.head]
    refine .visit h0 ?_
    rw [hp.prev]
    refine hfollows.congr fun j hj => hprev j (hfollows.ne_null hj) ?_
    rintro rfl
    exact hnew hj
  · rw [List.mem_cons, hmem]
    by_cases hid : j = id
    · subst hid
      exact iff_of_true (.inl rfl) hp.free
    · by_cases hj : j = 0
      · subst hj
        exact iff_of_false (not_or.mpr ⟨hid, hzero⟩) hzero'
      · rw [freeAt_congr (hp.other j hj hid)]
        exact or_iff_right hid
  · rw [hchain]
    rcases List.mem_cons.mp hj with rfl | hj
    · exact hjournal
    · exact hapart j hj

theorem FreeListExact.zero (h : s.FreeListExact) : ¬ s.FreeAt 0 := by
  obtain ⟨visited, hfollows, -, hmem, -⟩ := h
  exact fun hfree => hfollows.ne_null ((hmem 0).mpr hfree) rfl

theorem FreeListExact.not_freeAt (h : s.FreeListExact)
    (hhead : s.superblock.freeListHead = 0) (id : ℕ) : ¬ s.FreeAt id := by
  obtain ⟨visited, hfollows, -, hmem, -⟩ := h
  rw [hhead] at hfollows
  have hnil : visited = [] := hfollows.unique .done
  rw [← hmem, hnil]
  exact List.not_mem_nil

/-- The superblock is no part of the two lists. -/
theorem FreeListExact.congr (h : s.FreeListExact)
    (hhead : t.superblock.freeListHead = s.superblock.freeListHead)
    (htail : t.superblock.journalTail = s.superblock.journalTail)
    (hother : ∀ id, id ≠ 0 → t.file id = s.file id) (hzero : ¬ t.FreeAt 0) :
    t.FreeListExact := by
  have hnone := h.zero
  obtain ⟨visited, hfollows, hnodup, hmem, hapart⟩ := h
  refine ⟨visited, ?_, hnodup, fun id => ?_, fun id hid => ?_⟩
  · rw [hhead]
    exact hfollows.congr fun id hid => prevOf_congr (hother id (hfollows.ne_null hid))
  · by_cases hid : id = 0
    · subst hid
      exact iff_of_false (fun hid => hnone ((hmem 0).mp hid)) hzero
    · rw [hmem, freeAt_congr (hother id hid)]
  · rw [OnJournal, htail, reaches_congr fun j hj => prevOf_congr (hother j hj.ne_null)]
    exact hapart id hid

theorem freeAll_exact {ids : List ℕ} (h : s.FreeListExact) (k : ℕ)
    (hids : ∀ id ∈ ids, id ≠ 0 → (s.file id).isSome →
      ¬ s.FreeAt id ∧ ids.count id = 1 ∧ ¬ s.OnJournal id) :
    (s.freeAll CommitFaults.none.free k ids).FreeListExact := by
  induction ids generalizing s k with
  | nil => exact h
  | cons id ids ih =>
    rw [freeAll, show CommitFaults.none.free k = ⟨false, none, none⟩ from rfl]
    by_cases hid : id ≠ 0 ∧ (s.file id).isSome
    · obtain ⟨h0, hsome⟩ := hid
      obtain ⟨hfree, hcount, hjournal⟩ := hids id List.mem_cons_self h0 hsome
      have hp := freeBlock_pushed h0 hsome
      obtain ⟨b, hb⟩ := Option.isSome_iff_exists.mp hsome
      have hzero : ¬ (caught (s.freeBlock ⟨false, none, none⟩ id)).FreeAt 0 := by
        rw [freeBlock_none h0 hb]
        exact not_freeAt_superblock (put_file_self ..)
      obtain ⟨hexact, hchain⟩ := h.push hp h0 h.zero hzero hfree hjournal
      refine ih hexact (k + 1) fun j hj hj0 hjsome => ?_
      have hne : j ≠ id := by
        rintro rfl
        rw [List.count_cons_self] at hcount
        exact List.count_pos_iff.mpr hj |>.ne' (by omega)
      rw [hp.other j hj0 hne] at hjsome
      obtain ⟨hjfree, hjcount, hjjournal⟩ := hids j (List.mem_cons_of_mem _ hj) hj0 hjsome
      rw [List.count_cons_of_ne hne.symm] at hjcount
      exact ⟨(freeAt_congr (hp.other j hj0 hne)).not.mpr hjfree, hjcount,
        (hchain j).not.mpr hjjournal⟩
    · obtain ⟨panicked, hskip⟩ := freeBlock_skipped hid ⟨false, none, none⟩
      rw [hskip]
      refine ih (s := { s with panicked }) h (k + 1) fun j hj hj0 hjsome => ?_
      have hne : j ≠ id := fun heq => hid (heq ▸ ⟨hj0, hjsome⟩)
      obtain ⟨hjfree, hjcount, hjjournal⟩ := hids j (List.mem_cons_of_mem _ hj) hj0 hjsome
      rw [List.count_cons_of_ne hne.symm] at hjcount
      exact ⟨hjfree, hjcount, hjjournal⟩

end BlockStorage

namespace DbState

open BlockStorage

variable {db db' : DbState} {txn : ℕ} {state : TxnState}

/-! ### Commits -/

/-- Where the chain goes on from a block once the entries and the writes are made. -/
def prevThen (self : DbState) (state : TxnState) (id : ℕ) : ℕ :=
  let sb := self.storage.superblock
  if id ∈ state.pendingWrites.map PendingWrite.blockId then 0
  else if sb.blockCount ≤ id ∧ id < sb.blockCount + state.journal.length then
    if id = sb.blockCount then sb.journalTail else id - 1
  else self.storage.prevOf id

/-- The block is in the chain of the journal once the entries and the writes are made. -/
def OnJournalThen (self : DbState) (state : TxnState) : ℕ → Prop :=
  Reaches 0 (self.prevThen state)
    (self.storage.superblock.blockCount + state.journal.length - 1)

/-- The blocks that are named can be, the entries and writes take no free block, and the deletions
name each block once and none that is free or in the journal. -/
structure Sound (db : DbState) (state : TxnState) : Prop where
  inRange : state.InRange
  entries : ∀ id, db.storage.superblock.blockCount ≤ id →
    id < db.storage.superblock.blockCount + state.journal.length → ¬ db.storage.FreeAt id
  writes : ∀ id ∈ state.pendingWrites.map PendingWrite.blockId, ¬ db.storage.FreeAt id
  deletes : ∀ id ∈ state.pendingDeletes, id ≠ 0 → db.ReadableThen state id →
    ¬ db.storage.FreeAt id ∧ state.pendingDeletes.count id = 1 ∧ ¬ db.OnJournalThen state id

/-- Commits have no fault and are sound. -/
def Careful (db : DbState) : Call → Prop
  | .commit faults txn =>
    faults = .none ∧ ∀ state, db.txnRegistry txn = some state → db.Sound state
  | _ => True

theorem written_file_of_mem {s : BlockStorage} {sequence id : ℕ} {pws : List PendingWrite}
    (h : id ∈ pws.map PendingWrite.blockId) : ∃ pw ∈ pws,
      (s.written sequence pws).file id = some (pw.toBlock sequence) := by
  induction pws generalizing s with
  | nil => cases h
  | cons pw pws ih =>
    rw [written_cons]
    by_cases hid : id ∈ pws.map PendingWrite.blockId
    · obtain ⟨pw', hpw, hfile⟩ := ih hid
      exact ⟨pw', List.mem_cons_of_mem _ hpw, hfile⟩
    · have hpw : id = pw.blockId := by simpa [hid] using h
      refine ⟨pw, List.mem_cons_self, ?_⟩
      rw [written_file_of_notMem hid, hpw, put_file_self]

/-- Where a block comes from when the deletions are made. -/
inductive Origin (db : DbState) (state : TxnState) (u : BlockStorage) (id : ℕ) : Prop
  | written (hid : id ∈ state.pendingWrites.map PendingWrite.blockId) (pw : PendingWrite)
      (hfile : u.file id = some (pw.toBlock state.sequence))
  | entry (hid : id ∉ state.pendingWrites.map PendingWrite.blockId)
      (hlo : db.storage.superblock.blockCount ≤ id)
      (hhi : id < db.storage.superblock.blockCount + state.journal.length) (b : Stored)
      (hfile : u.file id = some b) (htype : b.blockType = .journalSegment)
      (hprev : b.prevBlockId = if id = db.storage.superblock.blockCount then
        db.storage.superblock.journalTail else id - 1)
  | old (hid : id ∉ state.pendingWrites.map PendingWrite.blockId)
      (hrange : ¬ (db.storage.superblock.blockCount ≤ id ∧
        id < db.storage.superblock.blockCount + state.journal.length))
      (hfile : u.file id = db.storage.file id)

theorem origin {t : BlockStorage} (h : Linked db.storage t state.journal.length) {id : ℕ}
    (h0 : id ≠ 0) :
    Origin db state (t.written state.sequence state.pendingWrites) id := by
  by_cases hid : id ∈ state.pendingWrites.map PendingWrite.blockId
  · obtain ⟨pw, -, hfile⟩ := written_file_of_mem hid
    exact .written hid pw hfile
  · have hfile := @written_file_of_notMem t state.sequence _ _ hid
    by_cases hrange : db.storage.superblock.blockCount ≤ id ∧
        id < db.storage.superblock.blockCount + state.journal.length
    · obtain ⟨b, hb, htype, hprev⟩ := h.entry id hrange.1 hrange.2
      exact .entry hid hrange.1 hrange.2 b (hfile.trans hb) htype hprev
    · exact .old hid hrange (hfile.trans (h.other id h0 (by omega)))

section origin

variable {u : BlockStorage} {id : ℕ}

theorem Origin.prevOf (h : Origin db state u id) : u.prevOf id = db.prevThen state id := by
  cases h with
  | written hid pw hfile =>
    rw [prevThen, if_pos hid, BlockStorage.prevOf, hfile]
    rfl
  | entry hid hlo hhi b hfile htype hprev =>
    rw [prevThen, if_neg hid, if_pos ⟨hlo, hhi⟩, BlockStorage.prevOf, hfile]
    exact hprev
  | old hid hrange hfile => rw [prevThen, if_neg hid, if_neg hrange, prevOf_congr hfile]

theorem Origin.freeAt_iff (h : Origin db state u id) (hsound : db.Sound state) :
    u.FreeAt id ↔ db.storage.FreeAt id := by
  cases h with
  | written hid pw hfile =>
    refine iff_of_false ?_ (hsound.writes id hid)
    rintro ⟨b, hb, htype⟩
    rw [hfile] at hb
    cases hb
    cases htype
  | entry hid hlo hhi b hfile htype hprev =>
    refine iff_of_false ?_ (hsound.entries id hlo hhi)
    rintro ⟨b', hb', hfree⟩
    rw [hfile] at hb'
    cases hb'
    rw [htype] at hfree
    cases hfree
  | old hid hrange hfile => exact freeAt_congr hfile

theorem Origin.readable (h : Origin db state u id) (hsome : (u.file id).isSome) :
    db.ReadableThen state id := by
  cases h with
  | written hid pw hfile => exact .inl hid
  | entry hid hlo hhi b hfile htype hprev => exact .inr (.inl ⟨hlo, hhi⟩)
  | old hid hrange hfile => exact .inr (.inr (hfile ▸ hsome))

end origin

/-- The new chain is in the new entries and the old chain. -/
theorem reaches_prevThen {id start : ℕ} (h : Reaches 0 (db.prevThen state) start id)
    (hstart : start ≠ 0 → (db.storage.superblock.blockCount ≤ start ∧
      start < db.storage.superblock.blockCount + state.journal.length) ∨
        db.storage.OnJournal start) :
    (db.storage.superblock.blockCount ≤ id ∧
      id < db.storage.superblock.blockCount + state.journal.length) ∨ db.storage.OnJournal id := by
  refine h.induction (P := fun id => (db.storage.superblock.blockCount ≤ id ∧
    id < db.storage.superblock.blockCount + state.journal.length) ∨ db.storage.OnJournal id)
    hstart fun b hb hne => ?_
  have hwrite : b ∉ state.pendingWrites.map PendingWrite.blockId := fun hw =>
    hne (by rw [prevThen, if_pos hw])
  rw [prevThen, if_neg hwrite] at hne ⊢
  by_cases hrange : db.storage.superblock.blockCount ≤ b ∧
      b < db.storage.superblock.blockCount + state.journal.length
  · rw [if_pos hrange] at hne ⊢
    by_cases hfirst : b = db.storage.superblock.blockCount
    · rw [if_pos hfirst] at hne ⊢
      exact .inr (.here hne)
    · rw [if_neg hfirst]
      exact .inl (by omega)
  · rw [if_neg hrange] at hne ⊢
    exact .inr ((hb.resolve_left hrange).succ hne)

/-- The entries and writes of a sound commit keep the list. -/
theorem written_exact {t : BlockStorage} (hexact : db.storage.FreeListExact)
    (h : Linked db.storage t state.journal.length) (hsound : db.Sound state) :
    (t.written state.sequence state.pendingWrites).FreeListExact := by
  have hzero := hexact.zero
  obtain ⟨visited, hfollows, hnodup, hmem, hapart⟩ := hexact
  refine ⟨visited, ?_, hnodup, fun id => ?_, fun id hid hjournal => ?_⟩
  · rw [written_superblock, h.head]
    refine hfollows.congr fun id hid => ?_
    have hfree := (hmem id).mp hid
    cases origin h (hfollows.ne_null hid) with
    | written hw => exact absurd hfree (hsound.writes id hw)
    | entry _ hlo hhi => exact absurd hfree (hsound.entries id hlo hhi)
    | old _ _ hfile => exact prevOf_congr hfile
  · by_cases hid : id = 0
    · subst hid
      refine iff_of_false (fun hid => hzero ((hmem 0).mp hid)) ?_
      by_cases hw : 0 ∈ state.pendingWrites.map PendingWrite.blockId
      · obtain ⟨pw, -, hfile⟩ := @written_file_of_mem t state.sequence _ _ hw
        rintro ⟨b, hb, htype⟩
        rw [hfile] at hb
        cases hb
        cases htype
      · rw [freeAt_congr (written_file_of_notMem hw)]
        exact h.zero hzero
    · rw [hmem, (origin h hid).freeAt_iff hsound]
  · have hfree := (hmem id).mp hid
    rw [OnJournal, written_superblock, reaches_congr fun j hj => (origin h hj.ne_null).prevOf]
      at hjournal
    refine (reaches_prevThen hjournal fun hne => ?_).elim
      (fun hrange => hsound.entries id hrange.1 hrange.2 hfree) (hapart id hid)
    rw [h.tail] at hne ⊢
    split_ifs at hne ⊢ with hn
    · exact .inr (.here hne)
    · exact .inl (by omega)

theorem onJournal_written {t : BlockStorage} (h : Linked db.storage t state.journal.length)
    (hpos : 0 < state.journal.length) (id : ℕ) :
    (t.written state.sequence state.pendingWrites).OnJournal id ↔ db.OnJournalThen state id := by
  rw [OnJournal, written_superblock, h.tail, if_neg hpos.ne', OnJournalThen]
  exact reaches_congr fun j hj => (origin h hj.ne_null).prevOf

theorem commit_exact (hwf : db.Wf) (hexact : db.storage.FreeListExact)
    (hstate : db.txnRegistry txn = some state) (hsound : db.Sound state) :
    (settled (db.commit .none txn)).storage.FreeListExact := by
  obtain ⟨hactive, hfit⟩ := hwf.usable txn state hstate
  obtain ⟨t, ht, hlinked⟩ := appendAll_linked hwf.counted 0 state.journal
  have hw := @writeAll_ok t state.sequence CommitFaults.none.data _ 0 hfit fun _ _ => rfl
  have hwritten := written_exact hexact hlinked hsound
  rw [commit_ok hstate hactive ht hw]
  have hfreed : ((t.written state.sequence state.pendingWrites).freeAll CommitFaults.none.free 0
      state.pendingDeletes).FreeListExact := by
    refine freeAll_exact hwritten 0 fun id hid h0 hsome => ?_
    have horigin := origin hlinked h0
    obtain ⟨hfree, hcount, hjournal⟩ := hsound.deletes id hid h0 (horigin.readable hsome)
    have hpos : 0 < state.journal.length := by
      have hlen := List.length_pos_of_mem hid
      simp only [TxnState.journal, List.length_append, List.length_map]
      omega
    exact ⟨(horigin.freeAt_iff hsound).not.mpr hfree, hcount, (onJournal_written hlinked hpos id).not.mpr hjournal⟩
  exact hfreed.congr rfl rfl (fun id h0 => put_file_of_ne _ _ h0)
    (not_freeAt_superblock (put_file_self ..))

/-! ### Runs -/

theorem create_exact : create.storage.FreeListExact := by
  have hnone (id : ℕ) : ¬ create.storage.FreeAt id := by
    rintro ⟨b, hb, htype⟩
    by_cases hid : id = 0
    · subst hid
      cases hb
      cases htype
    · change update (fun _ => none) 0 (some Superblock.init.toBlock) id = some b at hb
      rw [Function.update_of_ne hid] at hb
      cases hb
  exact ⟨[], .done, List.nodup_nil, fun id => iff_of_false List.not_mem_nil (hnone id),
    fun id hid => absurd hid List.not_mem_nil⟩

theorem step_exact {call : Call} (hwf : db.Wf) (hexact : db.storage.FreeListExact)
    (hcareful : db.Careful call) (hstep : db.step call = some db') :
    db'.storage.FreeListExact := by
  rw [step_eq_some] at hstep
  obtain ⟨hstep, -⟩ := hstep
  cases call with
  | begin txn mode =>
    simp only [next] at hstep
    split at hstep
    · cases hstep
      exact hexact
    · cases hstep
  | apply memory txn op =>
    have hok {id : ℕ} {db'' : DbState} (happly : db.apply .lasts txn op = .ok (id, db'')) :
        db''.storage.FreeListExact := by
      obtain ⟨-, state, msg, -, -, -, -, rfl⟩ := apply_ok happly
      exact hexact
    simp only [next] at hstep
    split at hstep
    case h_1 id db'' happly =>
      obtain ⟨rfl, -⟩ := apply_ok happly
      cases hstep
      exact hok happly
    case h_2 e db'' happly =>
      cases hstep
      rcases apply_error happly with rfl | ⟨-, rfl⟩ | ⟨-, id, happly⟩
      · exact hexact
      · exact hexact
      · exact hok happly
  | update txn id data =>
    obtain ⟨state, -, rfl⟩ := Option.map_eq_some_iff.mp hstep
    split <;> exact hexact
  | delete txn id =>
    obtain ⟨state, -, rfl⟩ := Option.map_eq_some_iff.mp hstep
    split <;> exact hexact
  | read type =>
    cases hstep
    exact hexact
  | commit faults txn =>
    obtain ⟨rfl, hsound⟩ := hcareful
    cases hstep
    cases hstate : db.txnRegistry txn with
    | none =>
      rw [commit, hstate]
      exact hexact
    | some state => exact commit_exact hwf hexact hstate (hsound state hstate)
  | abort txn =>
    cases hstep
    rw [abort]
    split <;> exact hexact

theorem run_exact (h : Run step Careful create db) : db.Wf ∧ db.storage.FreeListExact :=
  Run.invariant (I := fun db => db.Wf ∧ db.storage.FreeListExact)
    (fun _ _ _ hI hcareful hstep => ⟨hI.1.step hstep, step_exact hI.1 hI.2 hcareful hstep⟩) h
    ⟨create_wf, create_exact⟩

/-- A document in block 1 is pending. -/
def inserted : DbState where
  storage := create.storage.reserveBlockId.2
  txnRegistry := update (create.begin 0 .readWrite).txnRegistry 0
    (some (TxnState.insertBlock ⟨.readWrite, true, 1, [], []⟩ 1 [0]))

/-- The document is stored, and its deletion is pending. -/
def condemned : DbState where
  storage := (settled (inserted.commit .none 0)).storage
  txnRegistry := update ((settled (inserted.commit .none 0)).begin 0 .readWrite).txnRegistry 0
    (some ⟨.readWrite, true, 4, [], [1]⟩)

theorem inserted_run : Run step Careful create (settled (inserted.commit .none 0)) := by
  have hbegin : step create (.begin 0 .readWrite) = some (create.begin 0 .readWrite) := rfl
  have happly : step (create.begin 0 .readWrite) (.apply .lasts 0 [0]) = some inserted :=
    rfl
  have hcommit : step inserted (.commit .none 0) = some (settled (inserted.commit .none 0)) := rfl
  have hsound : inserted.Careful (.commit .none 0) := by
    constructor
    · rfl
    intro state hstate
    cases hstate
    have hnone : ∀ id, ¬ inserted.storage.FreeAt id := create_exact.not_freeAt rfl
    have hrange : (TxnState.insertBlock ⟨.readWrite, true, 1, [], []⟩ 1 [0]).InRange := by
      intro id hid
      obtain rfl : id = 1 := by simpa [TxnState.insertBlock] using hid
      rfl
    exact ⟨hrange, fun id _ _ => hnone id, fun id _ => hnone id,
      fun id hid => absurd hid List.not_mem_nil⟩
  exact (Run.single trivial hbegin).trans ((Run.single trivial happly).trans
    (Run.single hsound hcommit))

theorem condemned_run : Run step Careful create (settled (condemned.commit .none 0)) := by
  have hbegin : step (settled (inserted.commit .none 0)) (.begin 0 .readWrite) =
      some ((settled (inserted.commit .none 0)).begin 0 .readWrite) := rfl
  have hdelete : step ((settled (inserted.commit .none 0)).begin 0 .readWrite) (.delete 0 1) =
      some condemned := rfl
  have hcommit : step condemned (.commit .none 0) = some (settled (condemned.commit .none 0)) := rfl
  have hsound : condemned.Careful (.commit .none 0) := by
    constructor
    · rfl
    intro state hstate
    cases hstate
    have hnone : ∀ id, ¬ condemned.storage.FreeAt id := (run_exact inserted_run).2.not_freeAt rfl
    have hrange : TxnState.InRange ⟨.readWrite, true, 4, [], [1]⟩ := by
      intro id hid
      obtain rfl : id = 1 := by simpa using hid
      rfl
    refine ⟨hrange, fun id _ _ => hnone id, fun id _ => hnone id,
      fun id hid _ _ => ⟨hnone id, ?_⟩⟩
    obtain rfl : id = 1 := List.mem_singleton.mp hid
    refine ⟨rfl, fun hreach => ?_⟩
    -- the chain is the new entry and the one of the insertion
    have hchain : Follows 0 (condemned.prevThen ⟨.readWrite, true, 4, [], [1]⟩) 3 [3, 2] :=
      .visit (by decide) (.visit (by decide) .done)
    exact absurd (hchain.mem_iff.mpr hreach) (by decide)
  exact inserted_run.trans ((Run.single trivial hbegin).trans ((Run.single trivial hdelete).trans
    (Run.single hsound hcommit)))

/-- Along every run of careful commits the free list is exact. -/
theorem free_list_exact (h : Run step Careful create db) : db.storage.FreeListExact :=
  (run_exact h).2

/-- A document is stored and deleted. -/
theorem free_list_exact_deletion :
    (settled (condemned.commit .none 0)).storage.superblock.freeListHead = 1 ∧
      (settled (condemned.commit .none 0)).storage.FreeListExact :=
  ⟨rfl, free_list_exact condemned_run⟩

/-- The block is deleted twice in one transaction, and then it names itself. -/
theorem free_list_cycle : ∃ db, exec step create
      [.begin 0 .readWrite, .apply .lasts 0 [0], .commit .none 0, .begin 0 .readWrite,
        .delete 0 1, .delete 0 1, .commit .none 0] = some db ∧
    db.storage.superblock.freeListHead = 1 ∧ db.storage.prevOf 1 = 1 ∧
    ¬ db.storage.FreeListExact := by
  refine ⟨_, rfl, rfl, rfl, ?_⟩
  rintro ⟨visited, hfollows, -, -, -⟩
  have hmem := hfollows.mem_iff.mpr (.here (by decide))
  exact hfollows.next_ne hmem rfl

end DbState

end NextgenDatabases.Lithoglyph
