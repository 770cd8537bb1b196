import NextgenDatabases.Foundations.Edits
import NextgenDatabases.Lithoglyph.Bridge

/-!
# The phases of a commit

What the journal, the writes and the deletions of a commit leave in the file when any of their
reads and writes may fail.
-/
namespace NextgenDatabases.Lithoglyph

open Foundations
open Function (update)

/-- What is in a block after a write, failed or not. -/
def afterWrite (fault : Option WriteFault) (old : Option Stored) (block : Stored) : Option Stored :=
  match fault with
  | none => some block
  | some fault => fault.leave old block

/-- The write changes its block. -/
def reachesFile : Option WriteFault → Bool
  | some .unwritten => false
  | _ => true

/-- The write leaves a block that fails its check. -/
def leavesNone : Option WriteFault → Bool
  | some (.torn none) => true
  | _ => false

/-- What a deletion makes of its block. -/
def onFreeList (b : Stored) (freeListHead : ℕ) : Stored :=
  { b with
    blockType := .free
    prevBlockId := freeListHead
    deleted := true }

def FreeFaults.leave (self : FreeFaults) (freeListHead : ℕ) : Option Stored → Option Stored
  | none => none
  | some b =>
    if self.read then some b else afterWrite self.write (some b) (onFreeList b freeListHead)

def JournalFaults.faulty (self : JournalFaults) : Bool :=
  self.count.isSome || self.create.isSome || self.read || self.write.isSome || self.pointers.isSome

/-- The new block of the entry is not touched. -/
def JournalFaults.missed (self : JournalFaults) : Bool :=
  self.count.isSome || !reachesFile self.create

/-- The block can be read and marked. -/
def FreeFaults.passes (self : FreeFaults) : Bool := !self.read && self.write.isNone

/-- The block stays as it is. -/
def FreeFaults.idle (self : FreeFaults) : Bool := self.read || !reachesFile self.write

/-- The block fails its check afterwards. -/
def FreeFaults.ruins (self : FreeFaults) : Bool := !self.read && leavesNone self.write

namespace PendingWrite

def Fits (self : PendingWrite) : Prop := self.data.length ≤ payloadSize

def toBlock (self : PendingWrite) (sequence : ℕ) : Stored :=
  (Stored.init .document self.blockId sequence).setPayload (.data self.data)

def pair (self : PendingWrite) : ℕ × Content := (self.blockId, .data self.data)

end PendingWrite

theorem afterWrite_cases (fault : Option WriteFault) (old : Option Stored) (block : Stored) :
    (reachesFile fault = false ∧ afterWrite fault old block = old) ∨
      (leavesNone fault = true ∧ afterWrite fault old block = none) ∨
      reachesFile fault = true ∧ leavesNone fault = false ∧
        ∃ content, afterWrite fault old block = some (block.setPayload content) := by
  match fault with
  | none => exact .inr (.inr ⟨rfl, rfl, block.content, rfl⟩)
  | some .unwritten => exact .inl ⟨rfl, rfl⟩
  | some (.torn none) => exact .inr (.inl ⟨rfl, rfl⟩)
  | some (.torn (some content)) => exact .inr (.inr ⟨rfl, rfl, content, rfl⟩)
  | some .unsynced => exact .inr (.inr ⟨rfl, rfl, block.content, rfl⟩)

theorem FreeFaults.leave_cases (f : FreeFaults) (head : ℕ) (b : Stored) :
    (f.idle = true ∧ f.ruins = false ∧ f.leave head (some b) = some b) ∨
      (f.idle = false ∧ f.ruins = true ∧ f.leave head (some b) = none) ∨
      f.idle = false ∧ f.ruins = false ∧
        ∃ content, f.leave head (some b) = some { onFreeList b head with content } := by
  obtain ⟨read, fault, superblock⟩ := f
  cases read with
  | true => exact .inl ⟨rfl, rfl, rfl⟩
  | false =>
    match fault with
    | none => exact .inr (.inr ⟨rfl, rfl, b.content, rfl⟩)
    | some .unwritten => exact .inl ⟨rfl, rfl, rfl⟩
    | some (.torn none) => exact .inr (.inl ⟨rfl, rfl, rfl⟩)
    | some (.torn (some content)) => exact .inr (.inr ⟨rfl, rfl, content, rfl⟩)
    | some .unsynced => exact .inr (.inr ⟨rfl, rfl, b.content, rfl⟩)

theorem FreeFaults.isSome_leave (f : FreeFaults) (head : ℕ) (c : Option Stored) :
    (f.leave head c).isSome ↔ c.isSome ∧ f.ruins = false := by
  cases c with
  | none => exact iff_of_false (by simp [FreeFaults.leave]) (by simp)
  | some b =>
    rcases f.leave_cases head b with ⟨-, hr, heq⟩ | ⟨-, hr, heq⟩ | ⟨-, hr, content, heq⟩ <;>
      simp [heq, hr]

namespace BlockStorage

variable {s s' t : BlockStorage} {sequence : ℕ}

/-- Every block carries its own id, and its offset fits into 64 bits. -/
structure Owned (s : BlockStorage) : Prop where
  own : ∀ id b, s.file id = some b → b.blockId = id
  offset : s.panicked = false → ∀ id, (s.file id).isSome → overflows (id * blockSize) = false

def JournalAt (self : BlockStorage) (id : ℕ) : Prop :=
  ∃ b, self.file id = some b ∧ b.blockType = .journalSegment

/-- The documents by id, counted or not. -/
def documents (self : BlockStorage) (id : ℕ) : Option Content := document (self.file id)

theorem docs_of_le {id : ℕ} (h : s.superblock.blockCount ≤ id) : s.docs id = none := by
  rw [docs, if_neg (by omega)]

theorem document_of_ne {b : Stored} (h : b.blockType ≠ .document) : document (some b) = none := by
  rw [document, if_pos h]

/-- A write of a block that is no document. -/
theorem document_afterWrite (fault : Option WriteFault) (old : Option Stored) {block : Stored}
    (h : block.blockType ≠ .document) : document (afterWrite fault old block) =
      if reachesFile fault then none else document old := by
  rcases afterWrite_cases fault old block with ⟨hf, heq⟩ | ⟨hf, heq⟩ | ⟨hf, -, content, heq⟩
  · rw [hf, heq, if_neg Bool.false_ne_true]
  · rw [heq]
    split_ifs with hr
    · rfl
    · match fault, hf, hr with
      | some (.torn none), _, hr => exact absurd rfl hr
  · rw [hf, heq, if_pos rfl]
    exact document_of_ne h

theorem JournalAt.documents {id : ℕ} (h : s.JournalAt id) : s.documents id = none := by
  obtain ⟨b, hb, htype⟩ := h
  rw [BlockStorage.documents, hb, document_of_ne (by simp [htype])]

theorem documents_congr {id : ℕ} (h : s.file id = t.file id) : s.documents id = t.documents id :=
  congrArg document h

/-- A write, failed or not. -/
def write (self : BlockStorage) (fault : Option WriteFault) (id : ℕ) (block : Stored) :
    BlockStorage :=
  { self.seekTo id with file := update self.file id (afterWrite fault (self.file id) block) }

/-- A write that does not fail. -/
def put (self : BlockStorage) (id : ℕ) (block : Stored) : BlockStorage := self.write none id block

@[simp] theorem write_file_self (s : BlockStorage) (fault : Option WriteFault) (id : ℕ) (b : Stored) :
    (s.write fault id b).file id = afterWrite fault (s.file id) b :=
  Function.update_self ..

theorem write_file_of_ne (s : BlockStorage) (fault : Option WriteFault) {id j : ℕ} (b : Stored)
    (h : j ≠ id) : (s.write fault id b).file j = s.file j :=
  Function.update_of_ne h ..

@[simp] theorem write_superblock (s : BlockStorage) (fault : Option WriteFault) (id : ℕ)
    (b : Stored) : (s.write fault id b).superblock = s.superblock := rfl

@[simp] theorem put_file_self (s : BlockStorage) (id : ℕ) (b : Stored) :
    (s.put id b).file id = some b :=
  write_file_self ..

theorem put_file_of_ne (s : BlockStorage) {id j : ℕ} (b : Stored) (h : j ≠ id) :
    (s.put id b).file j = s.file j :=
  write_file_of_ne _ _ _ h

@[simp] theorem put_superblock (s : BlockStorage) (id : ℕ) (b : Stored) :
    (s.put id b).superblock = s.superblock := rfl

theorem writeBlock_eq (s : BlockStorage) (fault : Option WriteFault) (id : ℕ) (b : Stored) :
    s.writeBlock fault id b =
      if fault.isSome then .error (s.write fault id b) else .ok (s.write fault id b) := by
  cases fault <;> rfl

theorem caught_writeBlock (s : BlockStorage) (fault : Option WriteFault) (id : ℕ) (b : Stored) :
    caught (s.writeBlock fault id b) = s.write fault id b := by
  cases fault <;> rfl

theorem Owned.write (h : s.Owned) (fault : Option WriteFault) {id : ℕ} {b : Stored}
    (hb : b.blockId = id) : (s.write fault id b).Owned where
  own j c hc := by
    by_cases hj : j = id
    · subst hj
      rw [write_file_self] at hc
      rcases afterWrite_cases fault (s.file j) b with ⟨-, heq⟩ | ⟨-, heq⟩ | ⟨-, -, content, heq⟩
      · exact h.own j c (heq ▸ hc)
      · rw [heq] at hc
        cases hc
      · rw [heq] at hc
        cases hc
        exact hb
    · rw [write_file_of_ne s fault b hj] at hc
      exact h.own j c hc
  offset hok j hj := by
    obtain ⟨hs, hid⟩ := Bool.or_eq_false_iff.mp hok
    by_cases heq : j = id
    · exact heq ▸ hid
    · rw [write_file_of_ne s fault b heq] at hj
      exact h.offset hs j hj

theorem Owned.put (h : s.Owned) {id : ℕ} {b : Stored} (hb : b.blockId = id) : (s.put id b).Owned :=
  h.write none hb

/-- A change of the superblock or a panic. -/
theorem Owned.memory (h : s.Owned) (hfile : t.file = s.file)
    (hpanic : t.panicked = false → s.panicked = false) : t.Owned where
  own id b hb := h.own id b (hfile ▸ hb)
  offset hok id hid := h.offset (hpanic hok) id (hfile ▸ hid)

theorem Owned.seekTo (h : s.Owned) (id : ℕ) : (s.seekTo id).Owned :=
  h.memory rfl fun hok => (Bool.or_eq_false_iff.mp hok).1

theorem Owned.reserve (h : s.Owned) : s.reserveBlockId.2.Owned :=
  h.memory rfl fun hok => (Bool.or_eq_false_iff.mp hok).1

/-! ### Journal -/

/-- A journal entry was appended, or one was begun and its block was `missed`. -/
structure Attempted (s s' : BlockStorage) (missed : Bool) : Prop where
  count : s'.superblock.blockCount = s.superblock.blockCount + 1
  entry : missed = false → s'.documents s.superblock.blockCount = none
  missing : missed = true →
    s'.file s.superblock.blockCount = s.file s.superblock.blockCount
  other : ∀ id, id ≠ 0 → id ≠ s.superblock.blockCount → s'.file id = s.file id
  owned : s.Owned → s'.Owned

/-- `n` journal entries were appended. -/
structure Journaled (s s' : BlockStorage) (n : ℕ) : Prop where
  count : s'.superblock.blockCount = s.superblock.blockCount + n
  entry : ∀ id, s.superblock.blockCount ≤ id → id < s.superblock.blockCount + n → s'.JournalAt id
  other : ∀ id, id ≠ 0 → id < s.superblock.blockCount ∨ s.superblock.blockCount + n ≤ id →
    s'.file id = s.file id
  disk : 0 < n ∨ s.file 0 = some s.superblock.toBlock → s'.file 0 = some s'.superblock.toBlock
  owned : s.Owned → s'.Owned

theorem Journaled.refl (s : BlockStorage) : Journaled s s 0 where
  count := rfl
  entry id h h' := absurd h' (by omega)
  other _ _ _ := rfl
  disk h := h.resolve_left (lt_irrefl 0)
  owned := id

theorem Journaled.cons {n : ℕ} (h' : Journaled s' t n) (hc : 0 < s.superblock.blockCount)
    (h : Attempted s s' false) (hentry : s'.JournalAt s.superblock.blockCount)
    (hdisk : s'.file 0 = some s'.superblock.toBlock) : Journaled s t (n + 1) where
  count := by rw [h'.count, h.count]; omega
  entry id hlo hhi := by
    by_cases hid : id = s.superblock.blockCount
    · subst hid
      obtain ⟨b, hb, htype⟩ := hentry
      exact ⟨b, by rw [h'.other _ (by omega) (.inl (by rw [h.count]; omega)), hb], htype⟩
    · exact h'.entry id (by rw [h.count]; omega) (by rw [h.count]; omega)
  other id h0 hid := by
    rw [h'.other id h0 (by rw [h.count]; omega), h.other id h0 (by omega)]
  disk _ := h'.disk (.inr hdisk)
  owned := h'.owned ∘ h.owned

namespace Attempted

variable {missed : Bool}

theorem reserve (s : BlockStorage) : Attempted s s.reserveBlockId.2 true where
  count := rfl
  entry h := by cases h
  missing _ := rfl
  other _ _ _ := rfl
  owned := Owned.reserve

theorem superblock (h : Attempted s t missed) (hc : 0 < s.superblock.blockCount)
    (fault : Option WriteFault) :
    Attempted s (t.write fault 0 t.superblock.toBlock) missed where
  count := h.count
  entry hm := (documents_congr (write_file_of_ne _ _ _ (by omega))).trans (h.entry hm)
  missing hm := by rw [write_file_of_ne _ _ _ (by omega), h.missing hm]
  other id h0 hid := by rw [write_file_of_ne _ _ _ h0, h.other id h0 hid]
  owned hs := (h.owned hs).write fault rfl

theorem written (h : Attempted s t missed) (fault : Option WriteFault) {b : Stored}
    (hid : b.blockId = s.superblock.blockCount) (htype : b.blockType = .journalSegment) :
    Attempted s (t.write fault s.superblock.blockCount b) (missed && !reachesFile fault) where
  count := h.count
  entry hm := by
    rw [documents, write_file_self, document_afterWrite _ _ (by simp [htype])]
    cases hf : reachesFile fault with
    | true => rfl
    | false => exact h.entry (by simpa [hf] using hm)
  missing hm := by
    have hf := (Bool.and_eq_true_iff.mp hm).2
    rw [write_file_self]
    match fault, hf with
    | some .unwritten, _ => exact h.missing (Bool.and_eq_true_iff.mp hm).1
  other id h0 hne := by rw [write_file_of_ne _ _ _ hne, h.other id h0 hne]
  owned hs := (h.owned hs).write fault hid

theorem memory {u : BlockStorage} (h : Attempted s t missed) (hfile : u.file = t.file)
    (hcount : u.superblock.blockCount = t.superblock.blockCount)
    (hpanic : u.panicked = false → t.panicked = false) : Attempted s u missed where
  count := hcount.trans h.count
  entry hm := (documents_congr (congrFun hfile _)).trans (h.entry hm)
  missing hm := (congrFun hfile _).trans (h.missing hm)
  other id h0 hid := (congrFun hfile _).trans (h.other id h0 hid)
  owned hs := (h.owned hs).memory hfile hpanic

theorem seekTo (h : Attempted s t missed) (id : ℕ) : Attempted s (t.seekTo id) missed :=
  h.memory rfl rfl fun hok => (Bool.or_eq_false_iff.mp hok).1

end Attempted

theorem allocateBlock_eq (s : BlockStorage) (countFault createFault : Option WriteFault)
    (type : BlockType) : s.allocateBlock countFault createFault type =
      let a := s.reserveBlockId.2
      let b := a.write countFault 0 a.superblock.toBlock
      if countFault.isSome then .error b
      else
        let c := b.write createFault s.superblock.blockCount
          (.init type s.superblock.blockCount (s.superblock.journalHead + 1))
        if createFault.isSome then .error c else .ok (s.superblock.blockCount, c) := by
  cases countFault <;> cases createFault <;> rfl

/-- What the last write of an entry writes. -/
def entryBlock (self : BlockStorage) (msg : String) : Stored :=
  { (Stored.init .journalSegment self.superblock.blockCount
      (self.superblock.journalHead + 1)).setPayload (.text msg) with
    prevBlockId := self.superblock.journalTail
    sequence := self.superblock.journalHead + 1 }

/-- The superblock after an entry. -/
def entryPointers (self : BlockStorage) : Superblock :=
  { self.superblock with
    blockCount := self.superblock.blockCount + 1
    journalTail := self.superblock.blockCount
    journalHead := (if self.superblock.journalHead = 0 then self.superblock.blockCount
      else self.superblock.journalHead) + 1 }

theorem appendJournal_eq (s : BlockStorage) (f : JournalFaults) (msg : String) :
    s.appendJournal f msg =
      let n := s.superblock.blockCount
      let a := s.reserveBlockId.2
      let b := a.write f.count 0 a.superblock.toBlock
      if f.count.isSome then .error b
      else
        let c := b.write f.create n (.init .journalSegment n (s.superblock.journalHead + 1))
        if f.create.isSome then .error c
        else if f.read then .error (c.seekTo n)
        else
          let d := (c.seekTo n).write f.write n (s.entryBlock msg)
          if f.write.isSome then .error d
          else
            let e := { d with superblock := s.entryPointers }
            if f.pointers.isSome then .error (e.write f.pointers 0 e.superblock.toBlock)
            else .ok (e.write f.pointers 0 e.superblock.toBlock) := by
  obtain ⟨count, create, read, write, pointers⟩ := f
  cases count with
  | some => rfl
  | none =>
    cases create with
    | some => rfl
    | none =>
      simp only [appendJournal, allocateBlock_eq, readBlock, seekTo, bind, Except.bind,
        write_file_self, afterWrite, Option.isSome_none, Bool.false_eq_true, if_false]
      cases read with
      | true => rfl
      | false =>
        cases write with
        | some => rfl
        | none => cases pointers <;> rfl

/-- Without a fault the entry is written. -/
def appended (self : BlockStorage) (msg : String) : BlockStorage :=
  let n := self.superblock.blockCount
  let a := self.reserveBlockId.2
  let c := (a.put 0 a.superblock.toBlock).put n
    (.init .journalSegment n (self.superblock.journalHead + 1))
  let d := (c.seekTo n).put n (self.entryBlock msg)
  { d with superblock := self.entryPointers }.put 0 self.entryPointers.toBlock

theorem appendJournal_attempted (hc : 0 < s.superblock.blockCount) (f : JournalFaults)
    (msg : String) : Attempted s (caught (s.appendJournal f msg)) f.missed := by
  have hb := (Attempted.reserve s).superblock hc f.count
  rw [appendJournal_eq]
  cases hcount : f.count with
  | some fault =>
    rw [hcount] at hb
    simpa [JournalFaults.missed, hcount, caught] using hb
  | none =>
    rw [hcount] at hb
    have hd := hb.written f.create (b := .init .journalSegment s.superblock.blockCount
      (s.superblock.journalHead + 1)) rfl rfl
    have hmissed : f.missed = (true && !reachesFile f.create) := by simp [JournalFaults.missed, hcount]
    rw [← hmissed] at hd
    cases hcreate : f.create with
    | some fault =>
      rw [hcreate] at hd
      exact hd
    | none =>
      rw [hcreate] at hd
      have hno : f.missed = false := by rw [hmissed, hcreate]; rfl
      rw [hno] at hd ⊢
      have he := (hd.seekTo s.superblock.blockCount).written f.write
        (b := s.entryBlock msg) rfl rfl
      simp only [Option.isSome_none, Bool.false_eq_true, if_false]
      cases hread : f.read with
      | true => exact hd.seekTo _
      | false =>
        cases hwrite : f.write with
        | some fault =>
          rw [hwrite] at he
          exact he
        | none =>
          rw [hwrite] at he
          have hp := (Attempted.memory (u := ⟨_, s.entryPointers, _⟩) he rfl rfl id).superblock
            hc f.pointers
          cases hpointers : f.pointers with
          | some fault =>
            rw [hpointers] at hp
            exact hp
          | none =>
            rw [hpointers] at hp
            exact hp

theorem appendJournal_isOk (s : BlockStorage) (f : JournalFaults) (msg : String) :
    (s.appendJournal f msg).isOk = !f.faulty := by
  rw [appendJournal_eq]
  obtain ⟨count, create, read, write, pointers⟩ := f
  cases count <;> cases create <;> cases read <;> cases write <;> cases pointers <;> rfl

theorem appendJournal_whole {f : JournalFaults} (msg : String) (hf : f.faulty = false) :
    s.appendJournal f msg = .ok (s.appended msg) := by
  obtain ⟨count, create, read, write, pointers⟩ := f
  simp only [JournalFaults.faulty, Bool.or_eq_false_iff, Option.isSome_eq_false_iff,
    Option.isNone_iff_eq_none] at hf
  obtain ⟨⟨⟨⟨rfl, rfl⟩, rfl⟩, rfl⟩, rfl⟩ := hf
  rw [appendJournal_eq]
  rfl

/-- Without a fault the entry is appended. -/
theorem appendJournal_ok (hc : 0 < s.superblock.blockCount) {f : JournalFaults} (msg : String)
    (hf : f.faulty = false) :
    ∃ t, s.appendJournal f msg = .ok t ∧ Attempted s t false ∧
      t.JournalAt s.superblock.blockCount ∧ t.file 0 = some t.superblock.toBlock := by
  have hwhole := appendJournal_whole (s := s) msg hf
  have hattempt := appendJournal_attempted hc f msg
  have hmissed : f.missed = false := by
    simp only [JournalFaults.faulty, Bool.or_eq_false_iff, Option.isSome_eq_false_iff,
      Option.isNone_iff_eq_none] at hf
    simp [JournalFaults.missed, hf, reachesFile]
  rw [hwhole, hmissed] at hattempt
  have hentry : (s.appended msg).file s.superblock.blockCount = some (s.entryBlock msg) :=
    (put_file_of_ne _ _ hc.ne').trans (put_file_self ..)
  exact ⟨_, hwhole, hattempt, ⟨_, hentry, rfl⟩, put_file_self ..⟩

/-- Any fault is reported. -/
theorem appendJournal_error (hc : 0 < s.superblock.blockCount) {f : JournalFaults} (msg : String)
    (hf : f.faulty = true) :
    ∃ t, s.appendJournal f msg = .error t ∧ Attempted s t f.missed := by
  have hok := appendJournal_isOk s f msg
  have hattempt := appendJournal_attempted hc f msg
  cases h : s.appendJournal f msg with
  | ok t => simp [h, hf, Except.isOk, Except.toBool] at hok
  | error t => exact ⟨t, rfl, by simpa only [h, caught] using hattempt⟩

theorem appendAll_ok {faults : ℕ → JournalFaults} {msgs : List String} {k : ℕ}
    (hc : 0 < s.superblock.blockCount)
    (hf : ∀ j < msgs.length, (faults (k + j)).faulty = false) :
    ∃ t, s.appendAll faults k msgs = .ok t ∧ Journaled s t msgs.length := by
  induction msgs generalizing s k with
  | nil => exact ⟨s, rfl, .refl s⟩
  | cons msg msgs ih =>
    obtain ⟨t, ht, hone, hentry, hdisk⟩ := appendJournal_ok hc msg (hf 0 (by simp))
    obtain ⟨u, hu, hrest⟩ := ih (s := t) (k := k + 1) (by rw [hone.count]; omega) fun j hj => by
      rw [show k + 1 + j = k + (j + 1) by omega]
      exact hf (j + 1) (by simpa using hj)
    refine ⟨u, ?_, hrest.cons hc hone hentry hdisk⟩
    rw [Nat.add_zero] at ht
    rw [appendAll, ht]
    exact hu

/-- The first fault ends the journal phase. -/
theorem appendAll_error {faults : ℕ → JournalFaults} {msgs : List String} {k j : ℕ}
    (hc : 0 < s.superblock.blockCount) (hj : j < msgs.length)
    (hbefore : ∀ i < j, (faults (k + i)).faulty = false) (hf : (faults (k + j)).faulty = true) :
    ∃ t u, s.appendAll faults k msgs = .error u ∧ Journaled s t j ∧
      Attempted t u (faults (k + j)).missed := by
  induction msgs generalizing s k j with
  | nil => cases hj
  | cons msg msgs ih =>
    cases j with
    | zero =>
      obtain ⟨u, hu, hone⟩ := appendJournal_error hc msg hf
      refine ⟨s, u, ?_, .refl s, hone⟩
      rw [Nat.add_zero] at hu
      rw [appendAll, hu]
      rfl
    | succ j =>
      obtain ⟨t, ht, hone, hentry, hdisk⟩ := appendJournal_ok hc msg (hbefore 0 (by omega))
      rw [show k + (j + 1) = k + 1 + j by omega] at hf ⊢
      obtain ⟨v, u, hu, hrest, hlast⟩ := ih (s := t) (by rw [hone.count]; omega)
        (by simpa using hj) (fun i hi => by
          rw [show k + 1 + i = k + (i + 1) by omega]
          exact hbefore (i + 1) (by omega)) hf
      refine ⟨v, u, ?_, hrest.cons hc hone hentry hdisk, hlast⟩
      rw [Nat.add_zero] at ht
      rw [appendAll, ht]
      exact hu

/-! ### Data -/

/-- The pending writes when none fails. -/
def written (sequence : ℕ) (self : BlockStorage) (pws : List PendingWrite) : BlockStorage :=
  pws.foldl (fun s pw => s.put pw.blockId (pw.toBlock sequence)) self

theorem written_cons (pw : PendingWrite) (pws : List PendingWrite) :
    written sequence s (pw :: pws) = written sequence (s.put pw.blockId (pw.toBlock sequence)) pws :=
  rfl

theorem writeAll_cons {faults : ℕ → Option WriteFault} {k : ℕ} {pw : PendingWrite}
    {pws : List PendingWrite} (hfit : pw.Fits) : s.writeAll faults sequence k (pw :: pws) =
      if (faults k).isSome then .error (s.write (faults k) pw.blockId (pw.toBlock sequence))
      else writeAll faults sequence (k + 1) (s.put pw.blockId (pw.toBlock sequence)) pws := by
  rw [writeAll, if_neg (Nat.not_lt.mpr hfit)]
  cases h : faults k <;> simp [writeBlock_eq, bind, Except.bind, PendingWrite.toBlock, put]

theorem writeAll_ok {faults : ℕ → Option WriteFault} {pws : List PendingWrite} {k : ℕ}
    (hfit : ∀ pw ∈ pws, pw.Fits) (hf : ∀ j < pws.length, faults (k + j) = none) :
    s.writeAll faults sequence k pws = .ok (s.written sequence pws) := by
  induction pws generalizing s k with
  | nil => rfl
  | cons pw pws ih =>
    have hhead : faults k = none := hf 0 (by simp)
    rw [writeAll_cons (hfit _ (.head _)), hhead, written_cons]
    refine ih (fun pw hpw => hfit pw (.tail _ hpw)) fun j hj => ?_
    rw [show k + 1 + j = k + (j + 1) by omega]
    exact hf (j + 1) (by simpa using hj)

/-- The first fault ends the data phase. -/
theorem writeAll_error {faults : ℕ → Option WriteFault} {pws : List PendingWrite} {k j : ℕ}
    {pw : PendingWrite} (hfit : ∀ pw ∈ pws, pw.Fits) (hpw : pws[j]? = some pw)
    (hbefore : ∀ i < j, faults (k + i) = none) (hf : (faults (k + j)).isSome) :
    s.writeAll faults sequence k pws = .error ((s.written sequence (pws.take j)).write
      (faults (k + j)) pw.blockId (pw.toBlock sequence)) := by
  induction pws generalizing s k j with
  | nil => cases hpw
  | cons qw pws ih =>
    rw [writeAll_cons (hfit _ (.head _))]
    cases j with
    | zero =>
      cases hpw
      rw [Nat.add_zero] at hf ⊢
      rw [if_pos hf]
      rfl
    | succ j =>
      have hhead : faults k = none := hbefore 0 (by omega)
      rw [hhead, List.take_succ_cons, written_cons]
      rw [show k + (j + 1) = k + 1 + j by omega] at hf ⊢
      refine ih (fun pw hpw => hfit pw (.tail _ hpw)) hpw (fun i hi => ?_) hf
      rw [show k + 1 + i = k + (i + 1) by omega]
      exact hbefore (i + 1) (by omega)

@[simp] theorem written_superblock (pws : List PendingWrite) :
    (s.written sequence pws).superblock = s.superblock := by
  induction pws generalizing s with
  | nil => rfl
  | cons pw pws ih => rw [written_cons, ih, put_superblock]

theorem documents_put (pw : PendingWrite) :
    (s.put pw.blockId (pw.toBlock sequence)).documents
      = update s.documents pw.blockId (some (.data pw.data)) := by
  funext id
  by_cases hid : id = pw.blockId
  · subst hid
    rw [Function.update_self, documents, put_file_self]
    rfl
  · rw [Function.update_of_ne hid]
    exact documents_congr (put_file_of_ne _ _ hid)

theorem documents_written (pws : List PendingWrite) :
    (s.written sequence pws).documents = putAll s.documents (pws.map PendingWrite.pair) := by
  induction pws generalizing s with
  | nil => rfl
  | cons pw pws ih =>
    rw [written_cons, ih, documents_put]
    rfl

theorem written_file_of_notMem {pws : List PendingWrite} {id : ℕ}
    (h : id ∉ pws.map PendingWrite.blockId) : (s.written sequence pws).file id = s.file id := by
  induction pws generalizing s with
  | nil => rfl
  | cons pw pws ih =>
    rw [List.map_cons, List.mem_cons, not_or] at h
    rw [written_cons, ih h.2, put_file_of_ne _ _ h.1]

theorem written_file_isSome {pws : List PendingWrite} {id : ℕ}
    (h : id ∈ pws.map PendingWrite.blockId) : ((s.written sequence pws).file id).isSome := by
  induction pws generalizing s with
  | nil => cases h
  | cons pw pws ih =>
    by_cases hid : id ∈ pws.map PendingWrite.blockId
    · exact ih hid
    · have hpw : id = pw.blockId := by simpa [hid] using h
      subst hpw
      rw [written_cons, written_file_of_notMem hid, put_file_self]
      rfl

theorem Owned.written (h : s.Owned) (pws : List PendingWrite) :
    (s.written sequence pws).Owned := by
  induction pws generalizing s with
  | nil => exact h
  | cons pw pws ih => exact ih (h.put rfl)

/-! ### Deletions -/

def FreedAt (self : BlockStorage) (id : ℕ) : Prop :=
  ∃ b, self.file id = some b ∧ b.blockType = .free ∧ b.deleted = true

theorem FreedAt.documents {id : ℕ} (h : s.FreedAt id) : s.documents id = none := by
  obtain ⟨b, hb, htype, -⟩ := h
  rw [BlockStorage.documents, hb, document, if_pos (by simp [htype])]

/-- A deletion of a block other than block 0. -/
structure Deleted (s s' : BlockStorage) (id : ℕ) (f : FreeFaults) : Prop where
  count : s'.superblock.blockCount = s.superblock.blockCount
  block : s'.file id = f.leave s.superblock.freeListHead (s.file id)
  other : ∀ j, j ≠ 0 → j ≠ id → s'.file j = s.file j
  superblock : s'.file 0 = if (s.file id).isSome ∧ f.passes = true then
    afterWrite f.superblock (s.file 0) s'.superblock.toBlock else s.file 0
  owned : s.Owned → s'.Owned

/-- The block `b` on the free list. -/
def freed (self : BlockStorage) (id : ℕ) (b : Stored) : BlockStorage :=
  { (self.seekTo id).put id (onFreeList b self.superblock.freeListHead) with
    superblock := { self.superblock with freeListHead := id } }

theorem freeBlock_eq {id : ℕ} {b : Stored} (h0 : id ≠ 0) (hb : s.file id = some b)
    (f : FreeFaults) : s.freeBlock f id =
      if f.read then .error (s.seekTo id)
      else if f.write.isSome then
        .error ((s.seekTo id).write f.write id (onFreeList b s.superblock.freeListHead))
      else (s.freed id b).flushSuperblock f.superblock := by
  obtain ⟨read, write, superblock⟩ := f
  simp only [freeBlock, h0, if_false, readBlock, seekTo, hb, bind, Except.bind]
  cases read with
  | true => rfl
  | false => cases write <;> rfl

theorem freeBlock_deleted {id : ℕ} (h0 : id ≠ 0) (f : FreeFaults) :
    Deleted s (caught (s.freeBlock f id)) id f := by
  cases hb : s.file id with
  | none =>
    have hskip : s.freeBlock f id = .error (s.seekTo id) := by
      simp [freeBlock, h0, readBlock, seekTo, hb, bind, Except.bind]
    rw [hskip]
    exact ⟨rfl, by simp [caught, seekTo, hb, FreeFaults.leave], fun _ _ _ => rfl,
      by simp [caught, seekTo, hb], fun h => h.seekTo id⟩
  | some b =>
    have hid (h : s.Owned) : (onFreeList b s.superblock.freeListHead).blockId = id := h.own id b hb
    rw [freeBlock_eq h0 hb]
    cases hread : f.read with
    | true =>
      exact ⟨rfl, by simp [caught, seekTo, hb, FreeFaults.leave, hread], fun _ _ _ => rfl,
        by simp [caught, seekTo, FreeFaults.passes, hread], fun h => h.seekTo id⟩
    | false =>
      have hleave : f.leave s.superblock.freeListHead (s.file id) =
          afterWrite f.write (s.file id) (onFreeList b s.superblock.freeListHead) := by
        rw [hb, FreeFaults.leave, hread]
        rfl
      have howned (h : s.Owned) := ((h.seekTo id).write f.write (hid h))
      cases hwrite : f.write with
      | some fault =>
        rw [hwrite] at hleave howned
        have hzero := write_file_of_ne (s.seekTo id) (some fault)
          (onFreeList b s.superblock.freeListHead) h0.symm
        have hpass : ¬ ((s.file id).isSome = true ∧ f.passes = true) := by
          simp [FreeFaults.passes, hwrite]
        exact
          { count := rfl
            block := by rw [hleave]; exact write_file_self ..
            other := fun j _ hj => write_file_of_ne _ _ _ hj
            superblock := by rw [if_neg hpass]; exact hzero
            owned := howned }
      | none =>
        rw [hwrite] at hleave howned
        have hfile : (s.freed id b).file id = _ := put_file_self ..
        have hother (j : ℕ) (hj : j ≠ id) : (s.freed id b).file j = s.file j :=
          put_file_of_ne _ _ hj
        simp only [flushSuperblock, Option.isSome_none, Bool.false_eq_true, if_false,
          caught_writeBlock]
        exact
          { count := rfl
            block := by rw [write_file_of_ne _ _ _ h0, hfile, hleave]; rfl
            other := fun j h0 hj => by rw [write_file_of_ne _ _ _ h0, hother j hj]
            superblock := by
              rw [if_pos ⟨by simp [hb], by simp [FreeFaults.passes, hread, hwrite]⟩,
                write_file_self, hother 0 h0.symm]
              rfl
            owned := fun h => ((howned h).memory (t := s.freed id b) rfl fun hok => hok).write _ rfl }

/-- Block 0 is not deleted. -/
theorem freeBlock_zero (f : FreeFaults) : caught (s.freeBlock f 0) = s := rfl

/-- The faults of the deletions of `id` in their order. -/
def faultsOf (faults : ℕ → FreeFaults) : ℕ → List ℕ → ℕ → List FreeFaults
  | _, [], _ => []
  | k, j :: ids, id =>
    if j = id then faults k :: faultsOf faults (k + 1) ids id else faultsOf faults (k + 1) ids id

/-- What one deletion preserves, all do. -/
theorem freeAll_induction {P : BlockStorage → Prop} {faults : ℕ → FreeFaults}
    (hstep : ∀ t id f u, id ≠ 0 → P t → Deleted t u id f → P u) {ids : List ℕ} {k : ℕ} (hs : P s) :
    P (s.freeAll faults k ids) := by
  induction ids generalizing s k with
  | nil => exact hs
  | cons id ids ih =>
    by_cases h0 : id = 0
    · subst h0
      exact ih hs
    · exact ih (hstep _ _ _ _ h0 hs (freeBlock_deleted h0 (faults k)))

theorem freeAll_count (faults : ℕ → FreeFaults) (k : ℕ) (ids : List ℕ) :
    (s.freeAll faults k ids).superblock.blockCount = s.superblock.blockCount :=
  freeAll_induction (P := fun t => t.superblock.blockCount = s.superblock.blockCount)
    (fun _ _ _ _ _ h hdel => hdel.count.trans h) rfl

theorem Owned.freeAll (h : s.Owned) (faults : ℕ → FreeFaults) (k : ℕ) (ids : List ℕ) :
    (s.freeAll faults k ids).Owned :=
  freeAll_induction (fun _ _ _ _ _ h hdel => hdel.owned h) h

/-- What the deletions do to a block other than block 0. -/
theorem freeAll_block {id : ℕ} (h0 : id ≠ 0) {P : List FreeFaults → Option Stored → Prop}
    {faults : ℕ → FreeFaults} {k : ℕ} {ids : List ℕ}
    (hcons : ∀ f fs head c, P fs (f.leave head c) → P (f :: fs) c)
    (hnil : P [] ((s.freeAll faults k ids).file id)) :
    P (faultsOf faults k ids id) (s.file id) := by
  induction ids generalizing s k with
  | nil => exact hnil
  | cons j ids ih =>
    have hrest := ih (s := caught (s.freeBlock (faults k) j)) hnil
    rw [faultsOf]
    by_cases hj : j = id
    · subst hj
      rw [if_pos rfl]
      rw [(freeBlock_deleted h0 (faults k)).block] at hrest
      exact hcons _ _ _ _ hrest
    · rw [if_neg hj]
      by_cases hj0 : j = 0
      · subst hj0
        exact hrest
      · rwa [(freeBlock_deleted hj0 (faults k)).other id h0 (Ne.symm hj)] at hrest

/-- No deletion of the block leaves it unreadable, and one writes it or it was free before. -/
def Frees (fs : List FreeFaults) (free : Prop) : Prop :=
  (∀ f ∈ fs, f.ruins = false) ∧ ((∃ f ∈ fs, f.idle = false) ∨ free)

/-- A block is free at the end if the deletions free it. -/
theorem freeAll_freedAt_iff {id : ℕ} (h0 : id ≠ 0) (faults : ℕ → FreeFaults) (k : ℕ)
    (ids : List ℕ) : (s.freeAll faults k ids).FreedAt id ↔
      (s.file id).isSome ∧ Frees (faultsOf faults k ids id) (s.FreedAt id) := by
  let free (c : Option Stored) : Prop := ∃ b, c = some b ∧ b.blockType = .free ∧ b.deleted = true
  refine freeAll_block h0 (P := fun fs c =>
    (s.freeAll faults k ids).FreedAt id ↔ c.isSome ∧ Frees fs (free c)) ?_ ?_
  · intro f fs head c ih
    rw [ih, f.isSome_leave, Frees, Frees, List.forall_mem_cons]
    cases c with
    | none => simp
    | some b =>
      rcases f.leave_cases head b with ⟨hi, hr, heq⟩ | ⟨hi, hr, heq⟩ | ⟨hi, hr, content, heq⟩
      · simp [hi, hr, heq]
      · simp [hr]
      · have hfree : free (f.leave head (some b)) := ⟨_, heq, rfl, rfl⟩
        simp [hi, hr, hfree]
  · refine ⟨fun hfree => ⟨?_, by simp, .inr hfree⟩, fun h => h.2.2.resolve_left (by simp)⟩
    obtain ⟨b, hb, -⟩ := hfree
    simp [hb]

theorem mem_faultsOf {faults : ℕ → FreeFaults} {k id : ℕ} {ids : List ℕ} {f : FreeFaults} :
    f ∈ faultsOf faults k ids id ↔ ∃ i, ids[i]? = some id ∧ faults (k + i) = f := by
  induction ids generalizing k with
  | nil => simp [faultsOf]
  | cons j ids ih =>
    have hcons : (∃ i, (j :: ids)[i]? = some id ∧ faults (k + i) = f) ↔
        (j = id ∧ faults k = f) ∨ ∃ i, ids[i]? = some id ∧ faults (k + 1 + i) = f := by
      constructor
      · rintro ⟨i, hi, hf⟩
        cases i with
        | zero => exact .inl ⟨by simpa using hi, hf⟩
        | succ i => exact .inr ⟨i, by simpa using hi, by rwa [Nat.add_right_comm]⟩
      · rintro (⟨rfl, hf⟩ | ⟨i, hi, hf⟩)
        · exact ⟨0, rfl, hf⟩
        · exact ⟨i + 1, by simpa using hi, by rwa [Nat.add_right_comm] at hf⟩
    rw [hcons, faultsOf, ← ih]
    by_cases hj : j = id
    · rw [if_pos hj, List.mem_cons, and_iff_right hj, eq_comm]
    · rw [if_neg hj, or_iff_right fun h => hj h.1]

theorem faultsOf_of_notMem {faults : ℕ → FreeFaults} {k id : ℕ} {ids : List ℕ} (h : id ∉ ids) :
    faultsOf faults k ids id = [] := by
  refine List.eq_nil_iff_forall_not_mem.mpr fun f hf => ?_
  obtain ⟨i, hi, -⟩ := mem_faultsOf.mp hf
  exact h (List.mem_of_getElem? hi)

theorem freeAll_file {id : ℕ} (h0 : id ≠ 0) (faults : ℕ → FreeFaults) (k : ℕ) {ids : List ℕ}
    (h : id ∉ ids) : (s.freeAll faults k ids).file id = s.file id := by
  refine freeAll_block h0 (P := fun fs c => fs = [] → (s.freeAll faults k ids).file id = c)
    (fun _ _ _ _ _ hfs => by cases hfs) (fun _ => rfl) (faultsOf_of_notMem h)

/-- A deletion without a fault leaves no document. -/
theorem freeAll_documents {id : ℕ} (h0 : id ≠ 0) {faults : ℕ → FreeFaults} {k : ℕ} {ids : List ℕ}
    (hf : ∀ i, faults i = ⟨false, none, none⟩) (h : id ∈ ids) :
    (s.freeAll faults k ids).documents id = none := by
  have hclean (f : FreeFaults) (hmem : f ∈ faultsOf faults k ids id) : f = ⟨false, none, none⟩ := by
    obtain ⟨i, -, rfl⟩ := mem_faultsOf.mp hmem
    exact hf _
  obtain ⟨i, hi⟩ := List.mem_iff_getElem?.mp h
  have hne : faultsOf faults k ids id ≠ [] :=
    List.ne_nil_of_mem (mem_faultsOf.mpr ⟨i, hi, rfl⟩)
  refine freeAll_block (s := s) h0 (P := fun fs c => (∀ f ∈ fs, f = ⟨false, none, none⟩) →
    (fs ≠ [] ∨ document c = none) → (s.freeAll faults k ids).documents id = none) ?_ ?_ hclean
    (.inl hne)
  · intro f fs head c ih hall _
    obtain ⟨rfl, hfs⟩ := List.forall_mem_cons.mp hall
    refine ih hfs (.inr ?_)
    cases c with
    | none => rfl
    | some b => exact document_of_ne (by simp [onFreeList])
  · exact fun _ h => h.resolve_left (not_not.mpr rfl)

theorem freeAll_isSome {id : ℕ} (h0 : id ≠ 0) {faults : ℕ → FreeFaults} {k : ℕ} {ids : List ℕ}
    (hf : ∀ i, (faults i).ruins = false) (h : (s.file id).isSome) :
    ((s.freeAll faults k ids).file id).isSome := by
  have hkept (f : FreeFaults) (hmem : f ∈ faultsOf faults k ids id) : f.ruins = false := by
    obtain ⟨i, -, rfl⟩ := mem_faultsOf.mp hmem
    exact hf _
  refine freeAll_block h0 (P := fun fs c => (∀ f ∈ fs, f.ruins = false) → c.isSome = true →
    ((s.freeAll faults k ids).file id).isSome = true) ?_ (fun _ h => h) hkept h
  intro f fs head c ih hall hc
  obtain ⟨hhead, hfs⟩ := List.forall_mem_cons.mp hall
  exact ih hfs ((f.isSome_leave head c).mpr ⟨hc, hhead⟩)

/-- Some deletion writes the superblock. -/
def Stores (readable : ℕ → Prop) (faults : ℕ → FreeFaults) (k : ℕ) (ids : List ℕ) : Prop :=
  ∃ i id, ids[i]? = some id ∧ id ≠ 0 ∧ readable id ∧
    (∀ j < i, ids[j]? = some id → (faults (k + j)).ruins = false) ∧
    (faults (k + i)).passes = true ∧ reachesFile (faults (k + i)).superblock = true

theorem stores_cons {readable : ℕ → Prop} {faults : ℕ → FreeFaults} {k id : ℕ} {ids : List ℕ} :
    Stores readable faults k (id :: ids) ↔
      (id ≠ 0 ∧ readable id ∧ (faults k).passes = true ∧
        reachesFile (faults k).superblock = true) ∨
      Stores (fun j => readable j ∧ (id = j → (faults k).ruins = false)) faults (k + 1) ids := by
  constructor
  · rintro ⟨i, j, hi, h0, hr, hbefore, hf⟩
    cases i with
    | zero =>
      obtain rfl : id = j := by simpa using hi
      exact .inl ⟨h0, hr, hf⟩
    | succ i =>
      refine .inr ⟨i, j, by simpa using hi, h0, ⟨hr, fun hid => ?_⟩, fun m hm hmem => ?_, ?_⟩
      · exact hbefore 0 i.succ_pos (by simpa using hid)
      · rw [Nat.add_right_comm]
        exact hbefore (m + 1) (Nat.succ_lt_succ hm) (by simpa using hmem)
      · rwa [Nat.add_right_comm]
  · rintro (h | ⟨i, j, hi, h0, ⟨hr, hid⟩, hbefore, hf⟩)
    · obtain ⟨h0, hr, hf⟩ := h
      refine ⟨0, id, rfl, h0, hr, fun m hm => absurd hm m.not_lt_zero, hf⟩
    · refine ⟨i + 1, j, by simpa using hi, h0, hr, fun m hm hmem => ?_, ?_⟩
      · cases m with
        | zero => exact hid (by simpa using hmem)
        | succ m =>
          have hrest := hbefore m (Nat.lt_of_succ_lt_succ hm) (by simpa using hmem)
          rwa [Nat.add_right_comm] at hrest
      · rwa [Nat.add_right_comm] at hf

/-- A write of the superblock leaves no document, or it leaves block 0 alone. -/
theorem documents_afterWrite (fault : Option WriteFault) (old : Option Stored) (sb : Superblock) :
    document (afterWrite fault old sb.toBlock) =
      if reachesFile fault then none else document old :=
  document_afterWrite fault old (by simp [Superblock.toBlock, Stored.setPayload, Stored.init])

/-- Deletions overwrite block 0 with the superblock or leave it alone. -/
theorem freeAll_zero {readable : ℕ → Prop} (faults : ℕ → FreeFaults) (k : ℕ) (ids : List ℕ)
    (hread : ∀ id, id ≠ 0 → ((s.file id).isSome ↔ readable id)) :
    (Stores readable faults k ids → (s.freeAll faults k ids).documents 0 = none) ∧
      (¬ Stores readable faults k ids → (s.freeAll faults k ids).documents 0 = s.documents 0) := by
  induction ids generalizing s k readable with
  | nil => exact ⟨fun ⟨_, _, h, _⟩ => by simp at h, fun _ => rfl⟩
  | cons id ids ih =>
    rw [stores_cons, freeAll]
    by_cases h0 : id = 0
    · subst h0
      rw [freeBlock_zero]
      have hrest := @ih s (fun j => readable j ∧ (0 = j → (faults k).ruins = false)) (k + 1)
        fun j hj => by
          rw [hread j hj]
          simp [hj.symm]
      simpa using hrest
    · have hdel := freeBlock_deleted (s := s) h0 (faults k)
      set t := caught (s.freeBlock (faults k) id)
      obtain ⟨hstores, hnot⟩ := @ih t
        (fun j => readable j ∧ (id = j → (faults k).ruins = false)) (k + 1) fun j hj => by
          by_cases hid : id = j
          · subst hid
            rw [hdel.block, FreeFaults.isSome_leave, hread id h0]
            simp
          · rw [hdel.other j hj (Ne.symm hid), hread j hj]
            simp [hid]
      have hzero : t.documents 0 = if (s.file id).isSome ∧ (faults k).passes = true ∧
          reachesFile (faults k).superblock = true then none else s.documents 0 := by
        rw [documents, hdel.superblock, documents]
        by_cases hpass : (s.file id).isSome ∧ (faults k).passes = true
        · rw [if_pos hpass, documents_afterWrite]
          simp [hpass]
        · rw [if_neg hpass, if_neg fun h => hpass ⟨h.1, h.2.1⟩]
      by_cases hhead : readable id ∧ (faults k).passes = true ∧
          reachesFile (faults k).superblock = true
      · rw [if_pos ⟨(hread id h0).mpr hhead.1, hhead.2⟩] at hzero
        refine ⟨fun _ => ?_, fun hno => absurd (.inl ⟨h0, hhead⟩) hno⟩
        by_cases hrest : Stores (fun j => readable j ∧ (id = j → (faults k).ruins = false)) faults
            (k + 1) ids
        · exact hstores hrest
        · exact (hnot hrest).trans hzero
      · rw [if_neg fun h => hhead ⟨(hread id h0).mp h.1, h.2⟩] at hzero
        rw [or_iff_right fun h => hhead h.2]
        exact ⟨hstores, fun hno => (hnot hno).trans hzero⟩

/-! ### Without a fault -/

/-- The documents when `n` journal entries take the next blocks. -/
def cleared (self : BlockStorage) (n id : ℕ) : Option Content :=
  if self.superblock.blockCount ≤ id ∧ id < self.superblock.blockCount + n then none
  else self.documents id

theorem Journaled.documents {n id : ℕ} (h : Journaled s s' n) (h0 : id ≠ 0) :
    s'.documents id = s.cleared n id := by
  rw [cleared]
  split
  case isTrue hid => exact (h.entry id hid.1 hid.2).documents
  case isFalse hid => exact documents_congr (h.other id h0 (by omega))

/-- What a commit without a fault does to the storage. -/
structure Finished (s s' : BlockStorage) (state : TxnState) : Prop where
  count : s'.superblock.blockCount = s.superblock.blockCount + state.journal.length
  documents : ∀ id, id ≠ 0 → s'.documents id =
    eraseAll (putAll (s.cleared state.journal.length) (state.pendingWrites.map PendingWrite.pair))
      state.pendingDeletes id
  stored : ∀ id, id ≠ 0 →
    (s.superblock.blockCount ≤ id ∧ id < s.superblock.blockCount + state.journal.length) ∨
      id ∈ state.pendingWrites.map PendingWrite.blockId ∨ (s.file id).isSome →
    (s'.file id).isSome
  other : ∀ id, id ≠ 0 →
    id < s.superblock.blockCount ∨ s.superblock.blockCount + state.journal.length ≤ id →
    id ∉ state.pendingWrites.map PendingWrite.blockId → id ∉ state.pendingDeletes →
    s'.file id = s.file id
  owned : s.Owned → s'.Owned
  disk : s'.file 0 = some s'.superblock.toBlock

end BlockStorage

namespace DbState

open BlockStorage

variable {db : DbState} {txn : ℕ} {state : TxnState}

section Outcomes

variable {faults : CommitFaults} {s t : BlockStorage} (hstate : db.txnRegistry txn = some state)
  (hactive : state.isActive = true)

include hstate hactive

theorem commit_journal_error (h : db.storage.appendAll faults.journal 0 state.journal = .error s) :
    ∃ e, db.commit faults txn = .error (e, { db with storage := s }) := by
  simp only [commit, hstate, hactive, h]
  exact ⟨_, rfl⟩

theorem commit_data_error (h : db.storage.appendAll faults.journal 0 state.journal = .ok s)
    (h' : s.writeAll faults.data state.sequence 0 state.pendingWrites = .error t) :
    ∃ e, db.commit faults txn = .error (e, { db with storage := t }) := by
  simp only [commit, hstate, hactive, h, h']
  exact ⟨_, rfl⟩

theorem commit_ok (h : db.storage.appendAll faults.journal 0 state.journal = .ok s)
    (h' : s.writeAll faults.data state.sequence 0 state.pendingWrites = .ok t) :
    db.commit faults txn = .ok
      { storage := caught <|
          (t.freeAll faults.free 0 state.pendingDeletes).flushSuperblock faults.flush
        txnRegistry := update db.txnRegistry txn none } := by
  simp only [commit, hstate, hactive, h, h']
  rfl

end Outcomes

theorem commit_none (hstate : db.txnRegistry txn = some state) (hactive : state.isActive = true)
    (hc : 0 < db.storage.superblock.blockCount) (hfit : ∀ pw ∈ state.pendingWrites, pw.Fits) :
    ∃ db', db.commit .none txn = .ok db' ∧ Finished db.storage db'.storage state ∧
      db'.txnRegistry = update db.txnRegistry txn none := by
  obtain ⟨s, hs, hjournal⟩ := @appendAll_ok _ CommitFaults.none.journal state.journal 0 hc
    fun _ _ => rfl
  have hwrite := @writeAll_ok s state.sequence CommitFaults.none.data _ 0 hfit
    fun _ _ => rfl
  set t := s.written state.sequence state.pendingWrites with ht
  set u := t.freeAll CommitFaults.none.free 0 state.pendingDeletes with hu
  have hdocuments (id : ℕ) (h0 : id ≠ 0) : u.documents id =
      eraseAll (putAll (db.storage.cleared state.journal.length)
        (state.pendingWrites.map PendingWrite.pair)) state.pendingDeletes id := by
    rw [hu, eraseAll_apply]
    split
    case isTrue hid => exact freeAll_documents h0 (fun _ => rfl) hid
    case isFalse hid =>
      rw [documents_congr (freeAll_file h0 _ _ hid), ht, documents_written,
        putAll_congr _ (hjournal.documents h0)]
  have hstored (id : ℕ) (h0 : id ≠ 0) (h : id ∈ state.pendingWrites.map PendingWrite.blockId ∨
      (s.file id).isSome) : (u.file id).isSome := by
    refine freeAll_isSome h0 (fun _ => rfl) ?_
    by_cases hid : id ∈ state.pendingWrites.map PendingWrite.blockId
    · exact written_file_isSome hid
    · rw [ht, written_file_of_notMem hid]
      exact h.resolve_left hid
  have hput (id : ℕ) (h0 : id ≠ 0) : (u.put 0 u.superblock.toBlock).file id = u.file id :=
    put_file_of_ne _ _ h0
  refine ⟨⟨u.put 0 u.superblock.toBlock, update db.txnRegistry txn none⟩, ?_, ?_, rfl⟩
  · exact commit_ok hstate hactive hs hwrite
  · constructor
    · rw [put_superblock, hu, freeAll_count, ht, written_superblock, hjournal.count]
    · intro id h0
      rw [documents_congr (hput id h0), hdocuments id h0]
    · intro id h0 h
      rw [hput id h0]
      refine hstored id h0 ?_
      rcases h with ⟨hlo, hhi⟩ | hid | hsome
      · obtain ⟨b, hb, -⟩ := hjournal.entry id hlo hhi
        exact .inr (by simp [hb])
      · exact .inl hid
      · by_cases hid : db.storage.superblock.blockCount ≤ id ∧
            id < db.storage.superblock.blockCount + state.journal.length
        · obtain ⟨b, hb, -⟩ := hjournal.entry id hid.1 hid.2
          exact .inr (by simp [hb])
        · rw [← hjournal.other id h0 (by omega)] at hsome
          exact .inr hsome
    · intro id h0 hid hw hd
      rw [hput id h0, hu, freeAll_file h0 _ _ hd, ht, written_file_of_notMem hw,
        hjournal.other id h0 hid]
    · intro h
      exact (((hjournal.owned h).written _).freeAll _ _ _).put rfl
    · exact put_file_self ..

end DbState

end NextgenDatabases.Lithoglyph
