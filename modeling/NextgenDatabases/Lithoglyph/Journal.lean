import NextgenDatabases.Lithoglyph.Disk
import NextgenDatabases.Foundations.Runs

/-!
# The journal on disk

Runs of a new database. After one entry the head of the journal is one more than the id of its
block; before it and after the second entry it is the sequence of the latest entry.
-/
namespace NextgenDatabases.Lithoglyph

open Foundations Stateful

namespace Block

variable {block block' : Block} {data : Bytes} {now : UInt64}

theorem setPayload_error (h : payloadSize < data.length) :
    block.setPayload data now = .error .payloadTooLarge := dif_pos h

theorem exists_setPayload (block : Block) (now : UInt64) (h : data.length ≤ payloadSize) :
    ∃ block', block.setPayload data now = .ok block' ∧ block'.getPayload = data := by
  rw [setPayload, dif_neg (not_lt.mpr h)]
  refine ⟨_, rfl, ?_⟩
  have hsize : payloadSize = 4032 := rfl
  have hlen : (UInt32.ofNat data.length).toNat = data.length :=
    UInt32.toNat_ofNat_of_lt' (by rw [UInt32.size]; omega)
  rw [getPayload]
  simp only [hlen]
  rw [padded, List.take_left]

end Block

namespace Disk

namespace BlockStorage

variable {s : BlockStorage} {file : Bytes} {data : Bytes} {id : UInt64}

/-! ### The calls of a run -/

theorem run_freeBlock (h : s.Consistent) (hid : id ≠ 0)
    (hlt : id.toNat < s.superblock.blockCount.toNat) (now : UInt64) :
    (∃ e, (freeBlock id now).run s = .error e s) ∨
      ∃ file, (freeBlock id now).run s =
          .ok () ⟨file, { s.superblock with freeListHead := id }⟩ ∧
        (⟨file, { s.superblock with freeListHead := id }⟩ : BlockStorage).Consistent ∧
        SameBut id s.file file := by
  have hoffset : id.toNat * blockSize < 2 ^ 64 := by
    refine lt_of_lt_of_le ?_ h.bound
    exact Nat.mul_lt_mul_of_pos_right hlt (by decide)
  rw [freeBlock, if_neg hid]
  cases hread : readAt s.file id with
  | error e =>
    left
    exact ⟨e, run_bind_error (run_readBlock_error hoffset hread)⟩
  | ok block =>
    right
    obtain ⟨file, hwrite, hconsistent, -, hsame⟩ := run_writeBlock_consistent
      (free block s.superblock.freeListHead) h hid hlt
    obtain ⟨file', hflush, hconsistent', hsame'⟩ := run_flushSuperblock_consistent
      { s.superblock with freeListHead := id } hconsistent rfl now
    refine ⟨file', ?_, hconsistent', fun id' hzero hne => ?_⟩
    · rw [run_bind_ok (run_readBlock hoffset hread), run_get_bind, run_bind_ok hwrite,
        run_modify_bind]
      exact hflush
    · rw [hsame' id' hzero, hsame id' hzero hne]

/-- The head of the journal after the next entry. -/
def nextHead (s : BlockStorage) : UInt64 :=
  (if s.superblock.journalHead = 0 then s.superblock.blockCount else s.superblock.journalHead) + 1

/-- The storage after the next entry. -/
def journaled (s : BlockStorage) (file : Bytes) : BlockStorage :=
  ⟨file, { s.superblock with
    blockCount := s.superblock.blockCount + 1
    journalTail := s.superblock.blockCount
    journalHead := s.nextHead }⟩

/-- The entry that is appended next. -/
structure Entry (s : BlockStorage) (data : Bytes) (block : Block) : Prop where
  payload : block.getPayload = data
  prev : block.header.prevBlockId = s.superblock.journalTail
  sequence : block.header.sequence = s.superblock.journalHead + 1

theorem toNat_nextHead (hfits : s.Fits) : s.nextHead.toNat =
    (if s.superblock.journalHead = 0 then s.superblock.blockCount
      else s.superblock.journalHead).toNat + 1 := by
  rw [nextHead]
  split
  · exact toNat_succ hfits.count
  · exact toNat_succ hfits.head

theorem run_updatePointers (h : (if s.superblock.journalHead = 0 then id
      else s.superblock.journalHead).toNat + 1 < 2 ^ 64) :
    (updatePointers id).run s = .ok () { s with superblock := { s.superblock with
      journalTail := id
      journalHead := (if s.superblock.journalHead = 0 then id
        else s.superblock.journalHead) + 1 } } := by
  rw [updatePointers, run_modify_bind, run_modify_bind, run_get_bind]
  by_cases hzero : s.superblock.journalHead = 0
  · simp only [hzero, if_true] at h ⊢
    rw [run_bind_ok (run_succ h)]
    rfl
  · simp only [hzero, if_false] at h ⊢
    rw [run_bind_ok (run_succ h)]
    rfl

theorem panics_appendJournal (data : Bytes) (h : s.Consistent) (hfits : ¬ s.Fits) (now : UInt64) :
    Panics (appendJournal data now) s := by
  obtain ⟨s', hrun⟩ := panics_allocateBlock h hfits .journalSegment now
  exact ⟨s', run_bind_error hrun⟩

/-- Data that is too large leaves an empty block behind. -/
theorem run_appendJournal_error (h : s.Consistent) (hfits : s.Fits)
    (hlen : payloadSize < data.length) (now : UInt64) :
    ∃ file, (appendJournal data now).run s = .error (.block .payloadTooLarge) (s.grown file) ∧
      (s.grown file).Consistent ∧ SameBut s.superblock.blockCount s.file file := by
  obtain ⟨file, hrun, hconsistent, hread, hsame⟩ := run_allocateBlock h hfits .journalSegment now
  refine ⟨file, ?_, hconsistent, hsame⟩
  rw [appendJournal, run_bind_ok hrun, run_bind_ok (run_readBlock hfits.offset hread)]
  apply run_bind_error
  rw [setPayload, Block.setPayload_error hlen]
  rfl

theorem run_appendJournal (h : s.Consistent) (hfits : s.Fits) (hlen : data.length ≤ payloadSize)
    (now : UInt64) :
    ∃ file block, (appendJournal data now).run s =
        .ok s.superblock.blockCount (s.journaled file) ∧
      (s.journaled file).Consistent ∧ readAt file s.superblock.blockCount = .ok block ∧
      s.Entry data block ∧ SameBut s.superblock.blockCount s.file file := by
  obtain ⟨file, hrun, hconsistent, hread, hsame⟩ := run_allocateBlock h hfits .journalSegment now
  obtain ⟨block, hset, hpayload⟩ := Block.exists_setPayload (.init .journalSegment
    s.superblock.blockCount (s.superblock.journalHead + 1) now) now hlen
  have hset' : (setPayload (.init .journalSegment s.superblock.blockCount
      (s.superblock.journalHead + 1) now) data now).run (s.grown file) =
      .ok block (s.grown file) := by
    rw [setPayload, hset]
    rfl
  have hpos := h.blockCount_ne_zero
  have hlt : s.superblock.blockCount.toNat < (s.grown file).superblock.blockCount.toNat := by
    rw [grown, toNat_succ hfits.count]
    exact Nat.lt_succ_self _
  obtain ⟨file', hwrite, hconsistent', hread', hsame'⟩ := run_writeBlock_consistent
    (link block s.superblock.journalTail (s.superblock.journalHead + 1)) hconsistent
    hpos hlt
  obtain ⟨file'', hflush, hconsistent'', hsame''⟩ := run_flushSuperblock_consistent
    (s.journaled file').superblock hconsistent' rfl now
  have hblock : block.validate = .ok () := Block.validate_setPayload rfl rfl hset
  have hvalid : (link block s.superblock.journalTail (s.superblock.journalHead + 1)).validate =
      .ok () := hblock
  refine ⟨file'', link block s.superblock.journalTail (s.superblock.journalHead + 1), ?_,
    hconsistent'', ?_, ⟨hpayload, rfl, rfl⟩, fun id hzero hne => ?_⟩
  · have hhead : (s.grown file).superblock.journalHead.toNat + 1 < 2 ^ 64 := hfits.head
    have hnext : (if s.superblock.journalHead = 0 then s.superblock.blockCount
        else s.superblock.journalHead).toNat + 1 < 2 ^ 64 := by
      split
      · exact hfits.count
      · exact hfits.head
    rw [appendJournal, run_bind_ok hrun, run_bind_ok (run_readBlock hfits.offset hread),
      run_bind_ok hset', run_get_bind, run_bind_ok (run_succ hhead), run_get_bind]
    refine (run_bind_ok hwrite).trans ?_
    have hpointers := run_updatePointers (s := { s.grown file with file := file' }) hnext
    exact (run_bind_ok hpointers).trans (run_bind_ok hflush)
  · rw [hsame'' _ hpos, hread' hvalid]
  · rw [hsame'' id hzero, hsame' id hzero hne]
    exact hsame id hzero hne

end BlockStorage

/-! ### Runs -/

open BlockStorage

inductive Handle
  | closed (file : Option Bytes)
  | opened (storage : BlockStorage)

/-- A database, what `appendJournal` has been given and has returned, latest first, and the ids that
`allocateBlock` has returned. -/
structure Database where
  handle : Handle
  entries : List (UInt64 × Bytes)
  allocated : List UInt64

inductive Command
  | appendJournal (entryData : Bytes) (now : UInt64)
  | allocateBlock (blockType : BlockType) (now : UInt64)
  | writeBlock (blockId : UInt64) (block : Block)
  | freeBlock (blockId now : UInt64)
  | close
  | reopen (now : UInt64) (reserved : Bytes) (h : reserved.length = 3968)

namespace Database

/-- There is no file yet. -/
def new : Database := ⟨.closed none, [], []⟩

/-- The database after a call. A panic ends the run, any other error is returned. -/
def after {α : Type} (self : Database) (result : EStateM.Result StorageError BlockStorage α)
    (record : α → Database → Database) : Option Database :=
  match result with
  | .ok a storage => some (record a { self with handle := .opened storage })
  | .error .overflow _ => none
  | .error _ storage => some { self with handle := .opened storage }

def step (self : Database) (command : Command) : Option Database :=
  match self.handle, command with
  | .opened storage, .appendJournal entryData now =>
    self.after ((BlockStorage.appendJournal entryData now).run storage) fun id self =>
      { self with entries := (id, entryData) :: self.entries }
  | .opened storage, .allocateBlock blockType now =>
    self.after ((BlockStorage.allocateBlock blockType now).run storage) fun id self =>
      { self with allocated := id :: self.allocated }
  | .opened storage, .writeBlock blockId block =>
    self.after ((BlockStorage.writeBlock blockId block).run storage) fun _ self => self
  | .opened storage, .freeBlock blockId now =>
    self.after ((BlockStorage.freeBlock blockId now).run storage) fun _ self => self
  | .opened storage, .close => some { self with handle := .closed (some storage.file) }
  | .closed file, .reopen now reserved h =>
    match openFile file now reserved h with
    | .ok storage => some { self with handle := .opened storage }
    | .error _ => some self
  | _, _ => none

/-- Only blocks that have been allocated are written to and freed. -/
def Allowed (self : Database) : Command → Prop
  | .writeBlock blockId _ => blockId ∈ self.allocated
  | .freeBlock blockId _ => blockId ∈ self.allocated
  | _ => True

end Database

/-! ### The chain of entries -/

/-- The blocks from one on, each at the `prev_block_id` of the one before it, down to 0. -/
inductive Follows (file : Bytes) : UInt64 → List (UInt64 × Block) → Prop
  | done : Follows file 0 []
  | visit {id : UInt64} {block : Block} {rest : List (UInt64 × Block)} (hid : id ≠ 0)
      (hread : readAt file id = .ok block) (hrest : Follows file block.header.prevBlockId rest) :
      Follows file id ((id, block) :: rest)

theorem Follows.unique {file : Bytes} {id : UInt64} {visited visited' : List (UInt64 × Block)}
    (h : Follows file id visited) (h' : Follows file id visited') : visited = visited' := by
  induction h generalizing visited' with
  | done =>
    cases h' with
    | done => rfl
    | visit hid => exact absurd rfl hid
  | visit hid hread _ ih =>
    cases h' with
    | done => exact absurd rfl hid
    | visit _ hread' hrest' =>
      obtain rfl := Except.ok.inj (hread.symm.trans hread')
      rw [ih hrest']

theorem Follows.congr {file file' : Bytes} {id : UInt64} {visited : List (UInt64 × Block)}
    (h : Follows file id visited) (hsame : ∀ v ∈ visited, readAt file' v.1 = readAt file v.1) :
    Follows file' id visited := by
  induction h with
  | done => exact .done
  | visit hid hread _ ih =>
    have hread' := hsame _ List.mem_cons_self
    exact .visit hid (hread'.trans hread) (ih fun v hv => hsame v (List.mem_cons_of_mem _ hv))

def sequence (visited : UInt64 × Block) : ℕ := visited.2.header.sequence.toNat

/-- The sequence of the latest entry. -/
def latest : List (UInt64 × Block) → ℕ
  | [] => 0
  | v :: _ => sequence v

/-- The sequences decrease from the latest entry on. -/
def Decreasing (visited : List (UInt64 × Block)) : Prop :=
  visited.Pairwise fun v w => sequence w < sequence v

/-- From the tail of the journal the entries are visited, latest first, with their data and
decreasing sequences, and the head is the sequence of the latest one. -/
def Complete (storage : BlockStorage) (entries : List (UInt64 × Bytes)) : Prop :=
  ∃ visited, Follows storage.file storage.superblock.journalTail visited ∧
    visited.map (fun v => (v.1, v.2.getPayload)) = entries ∧ Decreasing visited ∧
    storage.superblock.journalHead.toNat = latest visited

theorem Decreasing.cons {v : UInt64 × Block} {visited : List (UInt64 × Block)}
    (h : Decreasing visited) (hlt : latest visited < sequence v) : Decreasing (v :: visited) := by
  refine List.pairwise_cons.mpr ⟨fun w hw => ?_, h⟩
  cases visited with
  | nil => exact absurd hw List.not_mem_nil
  | cons u rest =>
    cases List.mem_cons.mp hw with
    | inl heq => exact heq ▸ hlt
    | inr hmem => exact (List.rel_of_pairwise_cons h hmem).trans hlt

/-- The head of the journal after the first entry is not its sequence. -/
def Headed (head : ℕ) : List (UInt64 × Block) → Prop
  | [] => head = 0
  | [v] => sequence v < head
  | v :: _ => head = sequence v

theorem Headed.latest_le {head : ℕ} {visited : List (UInt64 × Block)} (h : Headed head visited) :
    latest visited ≤ head := by
  match visited with
  | [] => exact Nat.zero_le _
  | [v] => exact h.le
  | v :: w :: rest => exact h.ge

theorem Headed.pos {head : ℕ} {v : UInt64 × Block} {rest : List (UInt64 × Block)}
    (h : Headed head (v :: rest)) (hdecr : Decreasing (v :: rest)) : 0 < head := by
  cases rest with
  | nil => exact Nat.zero_lt_of_lt h
  | cons w rest =>
    have hlt := List.rel_of_pairwise_cons hdecr (List.mem_cons_self (a := w) (l := rest))
    have hhead : head = sequence v := h
    omega

theorem Headed.eq_latest_iff {head : ℕ} {visited : List (UInt64 × Block)}
    (h : Headed head visited) : head = latest visited ↔ visited.length ≠ 1 := by
  match visited with
  | [] =>
    have hhead : head = 0 := h
    simp [latest, hhead]
  | [v] =>
    have hlt : sequence v < head := h
    simp only [latest, List.length_singleton, ne_eq, not_true_eq_false, iff_false]
    omega
  | v :: w :: rest =>
    have hhead : head = sequence v := h
    simp [latest, hhead]

/-- The first entry makes its block id a head, and every later one counts the head up. -/
theorem Headed.next {storage : BlockStorage} {v : UInt64 × Block}
    {visited : List (UInt64 × Block)}
    (h : Headed storage.superblock.journalHead.toNat visited) (hdecr : Decreasing visited)
    (hcount : 0 < storage.superblock.blockCount.toNat) (hfits : storage.Fits)
    (hv : sequence v = storage.superblock.journalHead.toNat + 1) :
    Headed storage.nextHead.toNat (v :: visited) := by
  have hnext := toNat_nextHead hfits
  cases visited with
  | nil =>
    have hhead : storage.superblock.journalHead = 0 := UInt64.toNat_inj.mp h
    rw [if_pos hhead] at hnext
    change sequence v < _
    rw [hv, hhead, hnext]
    simpa using hcount
  | cons w rest =>
    have hpos := h.pos hdecr
    have hhead : storage.superblock.journalHead ≠ 0 := by
      intro heq
      rw [heq] at hpos
      exact absurd hpos (by decide)
    rw [if_neg hhead] at hnext
    change _ = sequence v
    rw [hv, hnext]

/-! ### The invariant -/

section invariant

variable {storage storage' : BlockStorage} {entries : List (UInt64 × Bytes)}
  {allocated : List UInt64} {id : UInt64} {file : Bytes}

/-- The entries can be visited, and lie in other blocks than the allocated ones. -/
structure Journal (storage : BlockStorage) (entries : List (UInt64 × Bytes))
    (allocated : List UInt64) : Prop where
  consistent : storage.Consistent
  chain : ∃ visited, Follows storage.file storage.superblock.journalTail visited ∧
    visited.map (fun v => (v.1, v.2.getPayload)) = entries ∧ Decreasing visited ∧
    Headed storage.superblock.journalHead.toNat visited
  of_mem_entries : ∀ e ∈ entries,
    e.1 ≠ 0 ∧ e.1.toNat < storage.superblock.blockCount.toNat ∧ e.1 ∉ allocated
  of_mem_allocated : ∀ id ∈ allocated,
    id ≠ 0 ∧ id.toNat < storage.superblock.blockCount.toNat

/-- The property holds but for the time between the first entry and the second. -/
theorem Journal.complete_iff (h : Journal storage entries allocated) :
    Complete storage entries ↔ entries.length ≠ 1 := by
  obtain ⟨visited, hfollows, hmap, hdecr, hhead⟩ := h.chain
  have hlen : entries.length = visited.length := by rw [← hmap, List.length_map]
  rw [hlen]
  constructor
  · intro hcomplete
    obtain ⟨visited', hfollows', -, -, hlatest⟩ := hcomplete
    rw [← hfollows.unique hfollows'] at hlatest
    exact hhead.eq_latest_iff.mp hlatest
  · intro hne
    exact ⟨visited, hfollows, hmap, hdecr, hhead.eq_latest_iff.mpr hne⟩

theorem Journal.readAt_visited (h : Journal storage entries allocated)
    {visited : List (UInt64 × Block)}
    (hmap : visited.map (fun v => (v.1, v.2.getPayload)) = entries)
    (hid : ∀ e ∈ entries, e.1 ≠ id) (hsame : SameBut id storage.file file) :
    ∀ v ∈ visited, readAt file v.1 = readAt storage.file v.1 := by
  intro v hv
  have hmem : (v.1, v.2.getPayload) ∈ entries := by
    rw [← hmap]
    exact List.mem_map_of_mem hv
  exact hsame v.1 (h.of_mem_entries _ hmem).1 (hid _ hmem)

/-- The entries stay when other blocks are written. -/
theorem Journal.frame (h : Journal storage entries allocated) (hconsistent : storage'.Consistent)
    (htail : storage'.superblock.journalTail = storage.superblock.journalTail)
    (hhead : storage'.superblock.journalHead = storage.superblock.journalHead)
    (hcount : storage.superblock.blockCount.toNat ≤ storage'.superblock.blockCount.toNat)
    (hid : ∀ e ∈ entries, e.1 ≠ id) (hsame : SameBut id storage.file storage'.file) :
    Journal storage' entries allocated := by
  obtain ⟨visited, hfollows, hmap, hdecr, hheaded⟩ := h.chain
  have hblocks := h.readAt_visited hmap hid hsame
  constructor
  case consistent => exact hconsistent
  case chain =>
    rw [htail, hhead]
    exact ⟨visited, hfollows.congr hblocks, hmap, hdecr, hheaded⟩
  case of_mem_entries =>
    intro e he
    have hmem := h.of_mem_entries e he
    exact ⟨hmem.1, hmem.2.1.trans_le hcount, hmem.2.2⟩
  case of_mem_allocated =>
    intro id hid
    have hmem := h.of_mem_allocated id hid
    exact ⟨hmem.1, hmem.2.trans_le hcount⟩

theorem Journal.ne_blockCount (h : Journal storage entries allocated) :
    ∀ e ∈ entries, e.1 ≠ storage.superblock.blockCount := by
  intro e he heq
  have hlt := (h.of_mem_entries e he).2.1
  rw [heq] at hlt
  exact absurd hlt (lt_irrefl _)

theorem Journal.blockCount_notMem (h : Journal storage entries allocated) :
    storage.superblock.blockCount ∉ allocated := by
  intro hmem
  exact absurd (h.of_mem_allocated _ hmem).2 (lt_irrefl _)

theorem Journal.grown (h : Journal storage entries allocated) (hfits : storage.Fits)
    (hconsistent : (storage.grown file).Consistent)
    (hsame : SameBut storage.superblock.blockCount storage.file file) :
    Journal (storage.grown file) entries allocated := by
  refine h.frame hconsistent rfl rfl ?_ h.ne_blockCount hsame
  rw [BlockStorage.grown, toNat_succ hfits.count]
  exact Nat.le_succ _

theorem Journal.allocate (h : Journal storage entries allocated) (hid : id ≠ 0)
    (hlt : id.toNat < storage.superblock.blockCount.toNat) (hne : ∀ e ∈ entries, e.1 ≠ id) :
    Journal storage entries (id :: allocated) := by
  constructor
  case consistent => exact h.consistent
  case chain => exact h.chain
  case of_mem_entries =>
    intro e he
    have hmem := h.of_mem_entries e he
    exact ⟨hmem.1, hmem.2.1, List.not_mem_cons_of_ne_of_not_mem (hne e he) hmem.2.2⟩
  case of_mem_allocated =>
    intro id' hid'
    cases List.mem_cons.mp hid' with
    | inl heq => exact heq ▸ ⟨hid, hlt⟩
    | inr hmem => exact h.of_mem_allocated id' hmem

theorem Journal.append (h : Journal storage entries allocated) (hfits : storage.Fits)
    {block : Block} {data : Bytes} (hconsistent : (storage.journaled file).Consistent)
    (hread : readAt file storage.superblock.blockCount = .ok block)
    (hentry : storage.Entry data block)
    (hsame : SameBut storage.superblock.blockCount storage.file file) :
    Journal (storage.journaled file) ((storage.superblock.blockCount, data) :: entries)
      allocated := by
  have hzero := h.consistent.blockCount_ne_zero
  have hcount : (storage.journaled file).superblock.blockCount.toNat =
      storage.superblock.blockCount.toNat + 1 := toNat_succ hfits.count
  obtain ⟨visited, hfollows, hmap, hdecr, hheaded⟩ := h.chain
  have hblocks := h.readAt_visited hmap h.ne_blockCount hsame
  have hsequence : sequence (storage.superblock.blockCount, block) =
      storage.superblock.journalHead.toNat + 1 := by
    rw [sequence, hentry.sequence, toNat_succ hfits.head]
  constructor
  case consistent => exact hconsistent
  case chain =>
    refine ⟨(storage.superblock.blockCount, block) :: visited, ?_, ?_, ?_, ?_⟩
    · refine .visit hzero hread ?_
      rw [hentry.prev]
      exact hfollows.congr hblocks
    · rw [List.map_cons, hmap, hentry.payload]
    · have hle := hheaded.latest_le
      exact hdecr.cons (by omega)
    · exact hheaded.next hdecr h.consistent.count_pos hfits hsequence
  case of_mem_entries =>
    intro e he
    rw [hcount]
    cases List.mem_cons.mp he with
    | inl heq =>
      subst heq
      exact ⟨hzero, Nat.lt_succ_self _, h.blockCount_notMem⟩
    | inr hmem =>
      have hold := h.of_mem_entries e hmem
      exact ⟨hold.1, Nat.lt_succ_of_lt hold.2.1, hold.2.2⟩
  case of_mem_allocated =>
    intro id hid
    rw [hcount]
    have hold := h.of_mem_allocated id hid
    exact ⟨hold.1, Nat.lt_succ_of_lt hold.2⟩

theorem openFile_new (now : UInt64) (reserved : Bytes) (hreserved : reserved.length = 3968) :
    ∃ storage, openFile none now reserved hreserved = .ok storage ∧ Journal storage [] [] ∧
      storage.superblock.blockCount = 1 ∧ storage.superblock.journalHead = 0 := by
  obtain ⟨block, hblock, hvalid, hfrom⟩ :=
    (Superblock.init now reserved hreserved).exists_toBlock now
  have hread : readAt block.toBytes 0 = .ok block :=
    readAt_eq (slice_whole (Nat.zero_mul blockSize) block.length_toBytes) hvalid
  refine ⟨⟨block.toBytes, .init now reserved hreserved⟩, ?_, ?_, rfl, rfl⟩
  · simp only [openFile, hblock]
  · constructor
    case consistent =>
      have hlength := block.length_toBytes.trans (Nat.one_mul blockSize).symm
      have hbound : (1 : UInt64).toNat * blockSize ≤ 2 ^ 64 := by decide
      exact ⟨hlength, ⟨block, hread, hfrom⟩, hbound⟩
    case chain => exact ⟨[], .done, rfl, List.Pairwise.nil, rfl⟩
    case of_mem_entries => exact fun e he => absurd he List.not_mem_nil
    case of_mem_allocated => exact fun id hid => absurd hid List.not_mem_nil

/-- The superblock is read again as it was. -/
theorem openFile_consistent (h : storage.Consistent) (now : UInt64) (reserved : Bytes)
    (hreserved : reserved.length = 3968) :
    openFile (some storage.file) now reserved hreserved = .ok storage := by
  obtain ⟨block, hread, hfrom⟩ := h.superblock
  have hle : ¬ storage.file.length < blockSize := by
    have hlength := length_of_readAt hread
    rw [show (0 : UInt64).toNat = 0 from rfl] at hlength
    omega
  simp only [openFile, if_neg hle, hread]
  change (Superblock.fromBlock block).bind _ = _
  rw [hfrom]
  rfl

end invariant

/-! ### Every run -/

namespace Database

variable {s t : Database} {storage : BlockStorage}

def Inv (s : Database) : Prop :=
  match s.handle with
  | .closed none => s.entries = [] ∧ s.allocated = []
  | .closed (some file) => ∃ superblock, Journal ⟨file, superblock⟩ s.entries s.allocated
  | .opened storage => Journal storage s.entries s.allocated

theorem after_eq {α : Type} {x : Call α} {record : α → Database → Database}
    (h : s.after (x.run storage) record = some t) :
    (∃ a storage', x.run storage = .ok a storage' ∧
      t = record a { s with handle := .opened storage' }) ∨
    ∃ e storage', e ≠ .overflow ∧ x.run storage = .error e storage' ∧
      t = { s with handle := .opened storage' } := by
  cases hrun : x.run storage with
  | ok a storage' =>
    rw [hrun] at h
    exact .inl ⟨a, storage', rfl, (Option.some.inj h).symm⟩
  | error e storage' =>
    rw [hrun] at h
    have hne : e ≠ .overflow := by
      intro heq
      subst heq
      cases h
    right
    refine ⟨e, storage', hne, rfl, ?_⟩
    cases e <;> first | exact absurd rfl hne | exact (Option.some.inj h).symm

theorem inv_appendJournal (h : Journal storage s.entries s.allocated) {data : Bytes} {now : UInt64}
    (hafter : s.after ((BlockStorage.appendJournal data now).run storage) (fun id self =>
      { self with entries := (id, data) :: self.entries }) = some t) : t.Inv := by
  by_cases hfits : storage.Fits
  case neg =>
    obtain ⟨storage', hrun⟩ := panics_appendJournal data h.consistent hfits now
    rw [hrun] at hafter
    cases hafter
  by_cases hlen : data.length ≤ payloadSize
  · obtain ⟨file, block, hrun, hconsistent, hread, hentry, hsame⟩ :=
      run_appendJournal h.consistent hfits hlen now
    rw [hrun] at hafter
    cases hafter
    exact h.append hfits hconsistent hread hentry hsame
  · obtain ⟨file, hrun, hconsistent, hsame⟩ :=
      run_appendJournal_error h.consistent hfits (not_le.mp hlen) now
    rw [hrun] at hafter
    cases hafter
    exact h.grown hfits hconsistent hsame

theorem inv_allocateBlock (h : Journal storage s.entries s.allocated) {blockType : BlockType}
    {now : UInt64} (hafter : s.after ((BlockStorage.allocateBlock blockType now).run storage)
      (fun id self => { self with allocated := id :: self.allocated }) = some t) : t.Inv := by
  by_cases hfits : storage.Fits
  case neg =>
    obtain ⟨storage', hrun⟩ := panics_allocateBlock h.consistent hfits blockType now
    rw [hrun] at hafter
    cases hafter
  obtain ⟨file, hrun, hconsistent, -, hsame⟩ := run_allocateBlock h.consistent hfits blockType now
  rw [hrun] at hafter
  cases hafter
  refine (h.grown hfits hconsistent hsame).allocate h.consistent.blockCount_ne_zero ?_
    h.ne_blockCount
  rw [BlockStorage.grown, toNat_succ hfits.count]
  exact Nat.lt_succ_self _

theorem ne_of_mem_allocated (h : Journal storage s.entries s.allocated) {id : UInt64}
    (hid : id ∈ s.allocated) : ∀ e ∈ s.entries, e.1 ≠ id := by
  intro e he heq
  exact (h.of_mem_entries e he).2.2 (heq ▸ hid)

theorem inv_writeBlock (h : Journal storage s.entries s.allocated) {id : UInt64} {block : Block}
    (hid : id ∈ s.allocated) (hafter : s.after ((BlockStorage.writeBlock id block).run storage)
      (fun _ self => self) = some t) : t.Inv := by
  obtain ⟨hzero, hlt⟩ := h.of_mem_allocated id hid
  obtain ⟨file, hrun, hconsistent, -, hsame⟩ :=
    run_writeBlock_consistent block h.consistent hzero hlt
  rw [hrun] at hafter
  cases hafter
  exact h.frame hconsistent rfl rfl le_rfl (ne_of_mem_allocated h hid) hsame

theorem inv_freeBlock (h : Journal storage s.entries s.allocated) {id now : UInt64}
    (hid : id ∈ s.allocated) (hafter : s.after ((BlockStorage.freeBlock id now).run storage)
      (fun _ self => self) = some t) : t.Inv := by
  obtain ⟨hzero, hlt⟩ := h.of_mem_allocated id hid
  cases run_freeBlock h.consistent hzero hlt now with
  | inl herror =>
    obtain ⟨e, hrun⟩ := herror
    obtain ⟨_, _, hok, -⟩ | ⟨e', storage', -, hrun', rfl⟩ := after_eq hafter
    · rw [hrun] at hok
      cases hok
    · rw [hrun] at hrun'
      cases hrun'
      exact h
  | inr hok =>
    obtain ⟨file, hrun, hconsistent, hsame⟩ := hok
    rw [hrun] at hafter
    cases hafter
    exact h.frame hconsistent rfl rfl le_rfl (ne_of_mem_allocated h hid) hsame

theorem inv_reopen {file : Option Bytes} (h : s.Inv) (hhandle : s.handle = .closed file)
    {now : UInt64} {reserved : Bytes} {hreserved : reserved.length = 3968}
    (hstep : s.step (.reopen now reserved hreserved) = some t) : t.Inv := by
  obtain ⟨handle, entries, allocated⟩ := s
  subst hhandle
  cases file with
  | none =>
    obtain ⟨rfl, rfl⟩ := h
    obtain ⟨storage, hopen, hjournal, -⟩ := openFile_new now reserved hreserved
    simp only [step, hopen, Option.some.injEq] at hstep
    subst hstep
    exact hjournal
  | some file =>
    obtain ⟨superblock, hjournal⟩ := h
    have hopen := openFile_consistent hjournal.consistent now reserved hreserved
    simp only [step, hopen, Option.some.injEq] at hstep
    subst hstep
    exact hjournal

theorem inv_step (h : s.Inv) {command : Command} (hallowed : s.Allowed command)
    (hstep : s.step command = some t) : t.Inv := by
  obtain ⟨handle, entries, allocated⟩ := s
  cases handle with
  | opened storage =>
    cases command with
    | appendJournal data now => exact inv_appendJournal h hstep
    | allocateBlock blockType now => exact inv_allocateBlock h hstep
    | writeBlock id block => exact inv_writeBlock h hallowed hstep
    | freeBlock id now => exact inv_freeBlock h hallowed hstep
    | close =>
      cases hstep
      exact ⟨storage.superblock, h⟩
    | reopen now reserved hreserved => cases hstep
  | closed file =>
    cases command with
    | reopen now reserved hreserved => exact inv_reopen h rfl hstep
    | _ => cases hstep

/-- The chain of entries is complete in every state of a run but those with a single entry. -/
theorem journal_complete_iff (h : Run step Allowed .new s) (hopened : s.handle = .opened storage) :
    Complete storage s.entries ↔ s.entries.length ≠ 1 := by
  have hinv : s.Inv := by
    refine h.invariant (fun s command t hs hallowed hstep => ?_) ⟨rfl, rfl⟩
    exact inv_step hs hallowed hstep
  obtain ⟨handle, entries, allocated⟩ := s
  cases hopened
  exact Journal.complete_iff hinv

theorem exists_append (data : Bytes) (h : Journal storage s.entries s.allocated)
    (hopened : s.handle = .opened storage) (hfits : storage.Fits)
    (hlen : data.length ≤ payloadSize) (now : UInt64) :
    ∃ file, s.step (.appendJournal data now) =
        some ⟨.opened (storage.journaled file),
          (storage.superblock.blockCount, data) :: s.entries, s.allocated⟩ ∧
      Journal (storage.journaled file) ((storage.superblock.blockCount, data) :: s.entries)
        s.allocated := by
  obtain ⟨file, block, hrun, hconsistent, hread, hentry, hsame⟩ :=
    run_appendJournal h.consistent hfits hlen now
  refine ⟨file, ?_, h.append hfits hconsistent hread hentry hsame⟩
  obtain ⟨handle, entries, allocated⟩ := s
  cases hopened
  simp only [step, hrun, after]

/-- A new file is opened. -/
def firstOpen : Command := .reopen 0 (List.replicate 3968 0) List.length_replicate

theorem exists_firstOpen : ∃ storage, new.step firstOpen = some ⟨.opened storage, [], []⟩ ∧
    Journal storage [] [] ∧ storage.superblock.blockCount = 1 ∧
    storage.superblock.journalHead = 0 := by
  obtain ⟨storage, hopen, hstart⟩ :=
    openFile_new 0 (List.replicate 3968 0) List.length_replicate
  refine ⟨storage, ?_, hstart⟩
  simp only [step, new, firstOpen, hopen]

/-- After one entry of the sequence 1 the head is 2. -/
theorem one_entry : ∃ s storage, exec step new [firstOpen, .appendJournal [1] 0] = some s ∧
    s.handle = .opened storage ∧ storage.superblock.journalHead = 2 ∧
    ¬ Complete storage s.entries := by
  obtain ⟨storage, hopen, hjournal, hcount, hhead⟩ := exists_firstOpen
  have hfits : storage.Fits := ⟨by rw [hhead]; decide, by rw [hcount]; decide⟩
  obtain ⟨file, happend, hjournal'⟩ := exists_append
    (s := ⟨.opened storage, [], []⟩) [1] hjournal rfl hfits (by decide) 0
  refine ⟨⟨.opened (storage.journaled file), [(storage.superblock.blockCount, [1])], []⟩,
    storage.journaled file, ?_, rfl, ?_, ?_⟩
  · simp only [exec, hopen, Option.bind_some, happend]
  · change storage.nextHead = 2
    rw [nextHead, hhead, hcount]
    rfl
  · intro hcomplete
    exact hjournal'.complete_iff.mp hcomplete rfl

/-- After two entries the chain is complete. -/
theorem journal_complete_two : ∃ s storage, Run step Allowed new s ∧ s.handle = .opened storage ∧
    s.entries.length = 2 ∧ Complete storage s.entries := by
  obtain ⟨storage, hopen, hjournal, hcount, hhead⟩ := exists_firstOpen
  have hfits : storage.Fits := ⟨by rw [hhead]; decide, by rw [hcount]; decide⟩
  obtain ⟨file, happend, hjournal'⟩ := exists_append
    (s := ⟨.opened storage, [], []⟩) [1] hjournal rfl hfits (by decide) 0
  have hfits' : (storage.journaled file).Fits := by
    constructor
    · change storage.nextHead.toNat + 1 < 2 ^ 64
      rw [nextHead, hhead, hcount]
      decide
    · change (storage.superblock.blockCount + 1).toNat * blockSize < 2 ^ 64
      rw [hcount]
      decide
  obtain ⟨file', happend', -⟩ := exists_append
    (s := ⟨.opened (storage.journaled file), [(storage.superblock.blockCount, [1])], []⟩)
    [2] hjournal' rfl hfits' (by decide) 0
  have hallowed : ∀ (s : Database) (data : Bytes), s.Allowed (.appendJournal data 0) :=
    fun _ _ => True.intro
  have hrun := (Run.single (e := firstOpen) True.intro hopen).trans
    ((Run.single (hallowed _ _) happend).trans (Run.single (hallowed _ _) happend'))
  exact ⟨_, _, hrun, rfl, rfl, (journal_complete_iff hrun rfl).mpr (by simp)⟩

end Database

end Disk

end NextgenDatabases.Lithoglyph
