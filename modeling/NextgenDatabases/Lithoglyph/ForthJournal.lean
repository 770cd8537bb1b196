import NextgenDatabases.Lithoglyph.ForthBlocks

/-!
# The journal in Forth

The words of the Forth journal that build an entry, append it to the journal file and read it
back, read off the source one after another. The file words belong to the Forth system and are
part of the world.
-/
namespace NextgenDatabases.Lithoglyph.Forth

open Foundations
open Foundations.Forth hiding Word

/-- What the file words do to the files. A result of 0 means success. -/
structure FileWords (φ : Type) where
  /-- Files, low cell and high cell of the offset, file id. -/
  reposition : φ → Cell → Cell → Cell → φ × Cell
  write : φ → Bytes → Cell → φ × Cell
  read : φ → ℕ → Cell → φ × Bytes × Cell

structure JournalWorld (φ : Type) where
  blocks : World
  entryBuffer : Cell
  journalFileId : Cell
  journalSequence : Cell
  journalHead : Cell
  journalCheckpoint : Cell
  journalEntryCount : Cell
  journalFileSize : Cell
  files : φ
  fileWords : FileWords φ

variable {φ : Type}

abbrev JournalWord (φ : Type) := Foundations.Forth.Word (JournalWorld φ)

abbrev JournalMachine (φ : Type) := Foundations.Forth.Machine (JournalWorld φ)

/-- A word of the block layer. -/
def inBlocks (word : Word) : JournalWord φ :=
  within JournalWorld.blocks (fun blocks w => { w with blocks }) word

def journalFileId : Variable (JournalWorld φ) where
  get w := w.journalFileId
  set x w := { w with journalFileId := x }

def journalSequence : Variable (JournalWorld φ) where
  get w := w.journalSequence
  set x w := { w with journalSequence := x }

def journalHead : Variable (JournalWorld φ) where
  get w := w.journalHead
  set x w := { w with journalHead := x }

def journalCheckpoint : Variable (JournalWorld φ) where
  get w := w.journalCheckpoint
  set x w := { w with journalCheckpoint := x }

def journalEntryCount : Variable (JournalWorld φ) where
  get w := w.journalEntryCount
  set x w := { w with journalEntryCount := x }

def journalFileSize : Variable (JournalWorld φ) where
  get w := w.journalFileSize
  set x w := { w with journalFileSize := x }

/-! ### File words -/

/-- `reposition-file ( ud fileid -- ior )` -/
def repositionFile : JournalWord φ := fun m =>
  match m.stack with
  | fid :: hi :: lo :: stack =>
    let r := m.world.fileWords.reposition m.world.files lo hi fid
    .done { m with stack := r.2 :: stack, world := { m.world with files := r.1 } }
  | _ => .thrown m

/-- `write-file ( addr u fileid -- ior )` -/
def writeFile : JournalWord φ := fun m =>
  match m.stack with
  | fid :: u :: addr :: stack =>
    let r := m.world.fileWords.write m.world.files (m.mem.fetch addr u.toNat) fid
    .done { m with stack := r.2 :: stack, world := { m.world with files := r.1 } }
  | _ => .thrown m

/-- `read-file ( addr u fileid -- u' ior )` -/
def readFile : JournalWord φ := fun m =>
  match m.stack with
  | fid :: u :: addr :: stack =>
    let r := m.world.fileWords.read m.world.files u.toNat fid
    .done ⟨r.2.2 :: .ofNat 64 r.2.1.length :: stack, m.mem.store addr r.2.1,
      { m.world with files := r.1 }⟩
  | _ => .thrown m

/-! ### Entry fields -/

def maxEntrySize : ℕ := 65536
def entryHeaderSize : ℕ := 48

def entrySequence : JournalWord φ := phrase []
def entryTimestamp : JournalWord φ := phrase [push 8, add]
def entryOpType : JournalWord φ := phrase [push 16, add]
def entryFlags : JournalWord φ := phrase [push 18, add]
def entryForwardLen : JournalWord φ := phrase [push 20, add]
def entryInverseLen : JournalWord φ := phrase [push 24, add]
def entryProvenanceLen : JournalWord φ := phrase [push 28, add]
def entryAffected : JournalWord φ := phrase [push 32, add]
def entryChecksum : JournalWord φ := phrase [push 40, add]
def entryLen : JournalWord φ := phrase [push 44, add]
def entryForward : JournalWord φ := phrase [push 48, add]

def entryInverse : JournalWord φ := phrase
  [dup, entryForward, swap, entryForwardLen, fetchBytes 8, add]

def entryProvenance : JournalWord φ := phrase
  [dup, entryInverse, swap, entryInverseLen, fetchBytes 8, add]

def entryBuffer : JournalWord φ := fun m => push m.world.entryBuffer m

/-! ### Building an entry -/

def clearEntry : JournalWord φ := phrase [entryBuffer, push 65536, push 0, fill]

def initEntry : JournalWord φ := phrase
  [clearEntry,
    push 1, journalSequence.addTo,
    journalSequence.fetch, entryBuffer, entrySequence, storeBytes 8,
    inBlocks nowMicroseconds, entryBuffer, entryTimestamp, storeBytes 8,
    swap, entryBuffer, entryOpType, storeBytes 2,
    push 0, entryBuffer, entryFlags, storeBytes 2,
    entryBuffer, entryAffected, storeBytes 8,
    push 0, entryBuffer, entryForwardLen, storeBytes 8,
    push 0, entryBuffer, entryInverseLen, storeBytes 8,
    push 0, entryBuffer, entryProvenanceLen, storeBytes 8]

def setForwardPayload : JournalWord φ := phrase
  [dup, entryBuffer, entryForwardLen, storeBytes 8, entryBuffer, entryForward, swap, move]

def setInversePayload : JournalWord φ := phrase
  [dup, entryBuffer, entryInverseLen, storeBytes 8, entryBuffer, entryInverse, swap, move]

def setProvenancePayload : JournalWord φ := phrase
  [dup, entryBuffer, entryProvenanceLen, storeBytes 8, entryBuffer, entryProvenance, swap, move]

def computeEntryLen : JournalWord φ := phrase
  [push 48,
    entryBuffer, entryForwardLen, fetchBytes 8, add,
    entryBuffer, entryInverseLen, fetchBytes 8, add,
    entryBuffer, entryProvenanceLen, fetchBytes 8, add]

def finalizeEntry : JournalWord φ := phrase
  [computeEntryLen, dup, entryBuffer, entryLen, storeBytes 8,
    entryBuffer, swap, inBlocks crc32c, entryBuffer, entryChecksum, storeBytes 8]

/-! ### The journal file -/

def appendEntry : JournalWord φ := phrase
  [finalizeEntry,
    journalFileSize.fetch, journalFileId.fetch, repositionFile,
    ifElse (phrase [drop, push (flag false)]) <| phrase
      [drop, entryBuffer, entryBuffer, entryLen, fetchBytes 8, journalFileId.fetch, writeFile,
        ifElse (phrase [drop, push (flag false)]) <| phrase
          [drop, entryBuffer, entryLen, fetchBytes 8, journalFileSize.addTo,
            push 1, journalEntryCount.addTo, push (flag true)]]]

def readEntryAt : JournalWord φ := phrase
  [journalFileId.fetch, repositionFile,
    ifElse (phrase [drop, push (flag false)]) <| phrase
      [drop, entryBuffer, push 48, journalFileId.fetch, readFile,
        ifElse (phrase [drop, push (flag false)]) <| phrase
          [push 48, differs, ifElse (push (flag false)) <| phrase
            [entryBuffer, entryLen, fetchBytes 8, push 48, sub, dup, isPositive,
              ifElse
                (phrase
                  [entryBuffer, push 48, add, swap, journalFileId.fetch, readFile,
                    ifElse (phrase [drop, push (flag false)]) (phrase [drop, push (flag true)])])
                (phrase [drop, push (flag true)])]]]]

def validateEntry : JournalWord φ := phrase
  [entryBuffer, entryChecksum, fetchBytes 8,
    entryBuffer, entryBuffer, entryLen, fetchBytes 8, inBlocks crc32c, equals]

/-! ### Running the words -/

/-- The end of the journal, the place of the buffer and the table of the checksum stay. -/
structure SameJournal (w w' : JournalWorld φ) : Prop where
  journalFileSize : w'.journalFileSize = w.journalFileSize
  entryBuffer : w'.entryBuffer = w.entryBuffer
  crcTable : w'.blocks.crcTable = w.blocks.crcTable

theorem SameJournal.trans {w w' w'' : JournalWorld φ} (h : SameJournal w w')
    (h' : SameJournal w' w'') : SameJournal w w'' where
  journalFileSize := h'.journalFileSize.trans h.journalFileSize
  entryBuffer := h'.entryBuffer.trans h.entryBuffer
  crcTable := h'.crcTable.trans h.crcTable

theorem SameJournal.ready {w w' : JournalWorld φ} (h : SameJournal w w')
    (hw : w.blocks.TableReady) : w'.blocks.TableReady := by
  intro i hi
  rw [h.crcTable]
  exact hw i hi

section

variable (s : List Cell) (mem : Memory) (w : JournalWorld φ)

@[simp] theorem entryBuffer_run :
    entryBuffer ⟨s, mem, w⟩ = .done ⟨w.entryBuffer :: s, mem, w⟩ := rfl

theorem crc32c_within (hw : w.blocks.TableReady) (addr len : Cell) :
    inBlocks crc32c ⟨len :: addr :: s, mem, w⟩ =
      .done ⟨cellCheck (mem.fetch addr len.toNat) :: s, mem,
        { w with blocks := { w.blocks with crcAddr := addr } }⟩ :=
  within_done (crc32c_run hw addr len s mem)

theorem initEntry_run (op block : Cell) : ∃ mem' w',
    initEntry ⟨block :: op :: s, mem, w⟩ = .done ⟨s, mem', w'⟩ ∧ SameJournal w w' := by
  have hrun : ∃ mem', initEntry ⟨block :: op :: s, mem, w⟩ = .done ⟨s, mem',
      { w with journalSequence := w.journalSequence + 1,
               blocks := { w.blocks with ticks := w.blocks.ticks + 1 } }⟩ := ⟨_, rfl⟩
  obtain ⟨mem', h⟩ := hrun
  refine ⟨mem', _, h, ?_⟩
  exact ⟨rfl, rfl, rfl⟩

theorem setForwardPayload_run (src len : Cell) : ∃ mem',
    setForwardPayload ⟨len :: src :: s, mem, w⟩ = .done ⟨s, mem', w⟩ := ⟨_, rfl⟩

theorem setInversePayload_run (src len : Cell) : ∃ mem',
    setInversePayload ⟨len :: src :: s, mem, w⟩ = .done ⟨s, mem', w⟩ := ⟨_, rfl⟩

theorem setProvenancePayload_run (src len : Cell) : ∃ mem',
    setProvenancePayload ⟨len :: src :: s, mem, w⟩ = .done ⟨s, mem', w⟩ := ⟨_, rfl⟩

end

end NextgenDatabases.Lithoglyph.Forth
