import NextgenDatabases.Lithoglyph.ForthJournal

/-!
# Journal entries on disk

The length field of an entry is four bytes behind the checksum, but both are stored and fetched
eight bytes wide. What `append-entry` takes for the length is a multiple of `2 ^ 32`.
-/
namespace NextgenDatabases.Lithoglyph.Forth

open Foundations
open Foundations.Forth hiding Word

variable {φ : Type}

/-- What goes into an entry: payloads by address and length, any of them possibly omitted. -/
structure EntryParts where
  opType : BitVec 16
  affected : Cell
  forward : Option (Cell × Cell)
  inverse : Option (Cell × Cell)
  provenance : Option (Cell × Cell)

def payloadLength (p : Option (Cell × Cell)) : ℕ := (p.map fun q => q.2.toNat).getD 0

/-- The bytes of the entry. -/
def EntryParts.length (e : EntryParts) : ℕ :=
  entryHeaderSize + payloadLength e.forward + payloadLength e.inverse + payloadLength e.provenance

/-- A payload that is omitted is not set. -/
def setPayload (word : JournalWord φ) : Option (Cell × Cell) → JournalWord φ
  | none => phrase []
  | some (addr, len) => phrase [push addr, push len, word]

def writeEntry (e : EntryParts) : JournalWord φ := phrase
  [push (e.opType.setWidth 64), push e.affected, initEntry,
    setPayload setForwardPayload e.forward,
    setPayload setInversePayload e.inverse,
    setPayload setProvenancePayload e.provenance,
    appendEntry]

/-- A word that leaves `true`, which its caller takes. -/
def Succeeds (word : JournalWord φ) (m m' : JournalMachine φ) : Prop :=
  word m = .done { m' with stack := flag true :: m'.stack }

/-- The payload of an entry in memory, at its place behind the others. -/
def PayloadAt (m m' : JournalMachine φ) (off : ℕ) : Option (Cell × Cell) → Prop
  | none => True
  | some (addr, len) =>
    m'.mem.fetch (m'.world.entryBuffer + .ofNat 64 off) len.toNat = m.mem.fetch addr len.toNat

/-- A header field of the entry in the buffer. -/
def entryField (m : JournalMachine φ) (off n : ℕ) : ℕ :=
  ofLe (m.mem.fetch (m.world.entryBuffer + .ofNat 64 off) n)

/-- Every header field and all payloads, as given to the machine `m`. -/
structure ReadsBack (e : EntryParts) (m m' : JournalMachine φ) : Prop where
  sequence : entryField m' 0 8 = (m.world.journalSequence + 1).toNat
  timestamp : entryField m' 8 8 = (m.world.blocks.clock m.world.blocks.ticks).toNat
  opType : entryField m' 16 2 = e.opType.toNat
  flags : entryField m' 18 2 = 0
  forwardLen : entryField m' 20 4 = payloadLength e.forward
  inverseLen : entryField m' 24 4 = payloadLength e.inverse
  provenanceLen : entryField m' 28 4 = payloadLength e.provenance
  affected : entryField m' 32 8 = e.affected.toNat
  entryLen : entryField m' 44 4 = e.length
  forward : PayloadAt m m' 48 e.forward
  inverse : PayloadAt m m' (48 + payloadLength e.forward) e.inverse
  provenance : PayloadAt m m' (48 + payloadLength e.forward + payloadLength e.inverse) e.provenance

/-- An entry that is appended, read again at its offset and found valid, with all its parts, and
the next one starts at its end. -/
def Survives (e : EntryParts) (m : JournalMachine φ) : Prop :=
  ∃ m₁ m₂ m₃, Succeeds (writeEntry e) m m₁ ∧
    Succeeds readEntryAt { m₁ with stack := m.world.journalFileSize :: m₁.stack } m₂ ∧
    Succeeds validateEntry m₂ m₃ ∧ ReadsBack e m m₃ ∧
    m₁.world.journalFileSize = m.world.journalFileSize + .ofNat 64 e.length

/-! ### The length field -/

/-- A field of the buffer, fetched eight bytes wide. -/
def wideField (mem : Memory) (buffer : Cell) (off : ℕ) : Cell :=
  .ofNat 64 (ofLe (mem.fetch (buffer + .ofNat 64 off) 8))

theorem high_half_toLe {n : ℕ} (h : n < 2 ^ 32) : (toLe 8 n).drop 4 = zeros 4 := by
  have hhigh : n / 256 / 256 / 256 / 256 = 0 := by omega
  change toLe 4 (n / 256 / 256 / 256 / 256) = zeros 4
  rw [hhigh]
  decide

/-- A checksum, stored eight bytes wide, clears the low half of the length. -/
theorem wideField_dvd (mem : Memory) (buffer : Cell) {check : Cell}
    (hcheck : check.toNat < 2 ^ 32) :
    2 ^ 32 ∣
      (wideField (mem.store (buffer + .ofNat 64 40) (toLe 8 check.toNat)) buffer 44).toNat := by
  obtain ⟨mem', hmem'⟩ :
      ∃ mem', mem.store (buffer + .ofNat 64 40) (toLe 8 check.toNat) = mem' := ⟨_, rfl⟩
  have hbytes : mem'.fetch (buffer + .ofNat 64 40) 8 = toLe 8 check.toNat := by
    rw [← hmem', fetch_store_same _ _ (length_toLe 8 _) (by decide)]
  have hlow : mem'.fetch (buffer + .ofNat 64 44) 4 = zeros 4 := by
    have happend := fetch_append mem' (buffer + .ofNat 64 40) 4 4
    rw [hbytes, BitVec.add_assoc] at happend
    have hdrop := congrArg (List.drop 4) happend
    rw [high_half_toLe hcheck, List.drop_left' (length_fetch _ _ _)] at hdrop
    exact hdrop.symm
  have hsplit := fetch_append mem' (buffer + .ofNat 64 44) 4 4
  have hzero : ofLe (zeros 4) = 0 := by decide
  rw [hmem', wideField, hsplit, hlow, ofLe_append, hzero, length_zeros, BitVec.toNat_ofNat]
  omega

/-! ### Appending -/

/-- What `compute-entry-len` leaves. -/
def computedLength (mem : Memory) (buffer : Cell) : Cell :=
  48 + wideField mem buffer 20 + wideField mem buffer 24 + wideField mem buffer 28

/-- The memory after `finalize-entry`. -/
def finalized (mem : Memory) (buffer : Cell) : Memory :=
  let len := computedLength mem buffer
  let mem' := mem.store (buffer + .ofNat 64 44) (toLe 8 len.toNat)
  mem'.store (buffer + .ofNat 64 40) (toLe 8 (cellCheck (mem'.fetch buffer len.toNat)).toNat)

theorem finalized_dvd (mem : Memory) (buffer : Cell) :
    2 ^ 32 ∣ (wideField (finalized mem buffer) buffer 44).toNat := by
  apply wideField_dvd
  rw [toNat_cellCheck]
  exact (castagnoli _).isLt

section

variable (s : List Cell) (mem : Memory) (w : JournalWorld φ)

theorem finalizeEntry_run (hw : w.blocks.TableReady) : ∃ w',
    finalizeEntry ⟨s, mem, w⟩ = .done ⟨s, finalized mem w.entryBuffer, w'⟩ ∧
      SameJournal w w' := by
  refine ⟨{ w with blocks := { w.blocks with crcAddr := w.entryBuffer } }, ?_, ⟨rfl, rfl, rfl⟩⟩
  simp only [finalizeEntry, computeEntryLen, phrase_cons, phrase_nil, andThen_done, push_run,
    entryBuffer_run, entryForwardLen, entryInverseLen, entryProvenanceLen, entryLen, entryChecksum,
    add_run, fetchBytes_run, dup_run, storeBytes_run, swap_run, crc32c_within _ _ _ hw]
  rfl

end

/-! What a phrase that succeeds has found on the stack. -/

section

variable {s : List Cell} {mem : Memory} {w : JournalWorld φ} {m m' : JournalMachine φ}
  {words : List (JournalWord φ)}

theorem succeeds_phrase {word : JournalWord φ} {m₁ : JournalMachine φ} (hword : word m = .done m₁)
    (h : Succeeds (phrase (word :: words)) m m') : Succeeds (phrase words) m₁ m' := by
  rwa [Succeeds, phrase_cons, hword, andThen_done] at h

theorem succeeds_drop (h : Succeeds (phrase (drop :: words)) ⟨s, mem, w⟩ m') :
    ∃ x s', s = x :: s' ∧ Succeeds (phrase words) ⟨s', mem, w⟩ m' := by
  cases s with
  | nil => cases h
  | cons x s => exact ⟨x, s, rfl, h⟩

theorem drop_false_fails : ¬Succeeds (phrase [drop, push (flag false)]) m m' := by
  obtain ⟨s, mem, w⟩ := m
  intro h
  obtain ⟨x, s', rfl, hpush⟩ := succeeds_drop h
  injection hpush with hdone
  injection congrArg Machine.stack hdone with hflag
  exact absurd hflag (by decide)

/-- The way on after a file word. -/
theorem succeeds_ifElse {word : JournalWord φ} {ior : Cell}
    (h : Succeeds (phrase [ifElse (phrase [drop, push (flag false)]) word]) ⟨ior :: s, mem, w⟩ m') :
    Succeeds word ⟨s, mem, w⟩ m' := by
  rw [Succeeds, phrase_cons, andThen_nil, ifElse_cell] at h
  split_ifs at h with hior
  · exact h
  · exact absurd h drop_false_fails

theorem succeeds_reposition {fid hi : Cell}
    (h : Succeeds (phrase (repositionFile :: words)) ⟨fid :: hi :: s, mem, w⟩ m') :
    ∃ lo s' ior w', s = lo :: s' ∧ SameJournal w w' ∧
      Succeeds (phrase words) ⟨ior :: s', mem, w'⟩ m' := by
  cases s with
  | nil => cases h
  | cons lo s =>
    let r := w.fileWords.reposition w.files lo hi fid
    have hrun : repositionFile ⟨fid :: hi :: lo :: s, mem, w⟩ =
      .done ⟨r.2 :: s, mem, { w with files := r.1 }⟩ := rfl
    refine ⟨lo, s, _, _, rfl, ?_, succeeds_phrase hrun h⟩
    exact ⟨rfl, rfl, rfl⟩

theorem succeeds_write {fid u addr : Cell}
    (h : Succeeds (phrase (writeFile :: words)) ⟨fid :: u :: addr :: s, mem, w⟩ m') :
    ∃ ior w', SameJournal w w' ∧ Succeeds (phrase words) ⟨ior :: s, mem, w'⟩ m' := by
  let r := w.fileWords.write w.files (mem.fetch addr u.toNat) fid
  have hrun : writeFile ⟨fid :: u :: addr :: s, mem, w⟩ =
    .done ⟨r.2 :: s, mem, { w with files := r.1 }⟩ := rfl
  refine ⟨_, _, ?_, succeeds_phrase hrun h⟩
  exact ⟨rfl, rfl, rfl⟩

end

theorem entryLen_run (x : Cell) (s : List Cell) (mem : Memory) (w : JournalWorld φ) :
    entryLen ⟨x :: s, mem, w⟩ = .done ⟨(x + .ofNat 64 44) :: s, mem, w⟩ := rfl

/-- The journal grows by a multiple of `2 ^ 32` bytes. -/
theorem appendEntry_grows {m m' : JournalMachine φ} (hw : m.world.blocks.TableReady)
    (h : Succeeds appendEntry m m') :
    ∃ grown : Cell, 2 ^ 32 ∣ grown.toNat ∧
      m'.world.journalFileSize = m.world.journalFileSize + grown := by
  obtain ⟨s, mem, w⟩ := m
  obtain ⟨w₀, hfinalize, hsame₀⟩ := finalizeEntry_run s mem w hw
  have hseek := succeeds_phrase (variable_fetch_run _ _ _ _) <|
    succeeds_phrase (variable_fetch_run _ _ _ _) <| succeeds_phrase hfinalize h
  obtain ⟨lo, s₁, ior₁, w₁, rfl, hsame₁, hchoice₁⟩ := succeeds_reposition hseek
  obtain ⟨x, s₂, rfl, hbuffer⟩ := succeeds_drop (succeeds_ifElse hchoice₁)
  have hwrite := succeeds_phrase (variable_fetch_run _ _ _ _) <|
    succeeds_phrase (fetchBytes_run _ _ _ _ _) <| succeeds_phrase (entryLen_run _ _ _ _) <|
    succeeds_phrase (entryBuffer_run _ _ _) <| succeeds_phrase (entryBuffer_run _ _ _) hbuffer
  obtain ⟨ior₂, w₂, hsame₂, hchoice₂⟩ := succeeds_write hwrite
  obtain ⟨y, s₃, rfl, hgrow⟩ := succeeds_drop (succeeds_ifElse hchoice₂)
  have hsame := (hsame₀.trans hsame₁).trans hsame₂
  have hdone := succeeds_phrase (variable_addTo_run _ _ _ _ _) <|
    succeeds_phrase (fetchBytes_run _ _ _ _ _) <| succeeds_phrase (entryLen_run _ _ _ _) <|
    succeeds_phrase (entryBuffer_run _ _ _) hgrow
  injection hdone with hmachine
  have hsize := congrArg (fun m => m.world.journalFileSize) hmachine
  dsimp only [journalFileSize, journalEntryCount] at hsize
  rw [hsame.entryBuffer, hsame.journalFileSize] at hsize
  exact ⟨_, finalized_dvd mem w.entryBuffer, hsize.symm⟩

/-! ### What is left of an entry -/

/-- Setting the payloads keeps the world. -/
theorem setPayload_run {word : JournalWord φ} (p : Option (Cell × Cell)) (m : JournalMachine φ)
    (hword : ∀ src len s mem w, ∃ mem', word ⟨len :: src :: s, mem, w⟩ = .done ⟨s, mem', w⟩) :
    ∃ mem', setPayload word p m = .done { m with mem := mem' } := by
  obtain ⟨s, mem, w⟩ := m
  cases p with
  | none => exact ⟨mem, rfl⟩
  | some q =>
    obtain ⟨mem', hrun⟩ := hword q.1 q.2 s mem w
    refine ⟨mem', ?_⟩
    simp only [setPayload, phrase_cons, push_run, andThen_done, hrun, phrase_nil]

/-- Whatever the parts, the journal grows by a multiple of `2 ^ 32` bytes. -/
theorem writeEntry_grows {e : EntryParts} {m m' : JournalMachine φ}
    (hw : m.world.blocks.TableReady) (h : Succeeds (writeEntry e) m m') :
    ∃ grown : Cell, 2 ^ 32 ∣ grown.toNat ∧
      m'.world.journalFileSize = m.world.journalFileSize + grown := by
  obtain ⟨s, mem, w⟩ := m
  obtain ⟨mem₀, w₀, hinit, hsame⟩ := initEntry_run s mem w (e.opType.setWidth 64) e.affected
  obtain ⟨mem₁, hforward⟩ := setPayload_run e.forward ⟨s, mem₀, w₀⟩
    fun src len s mem w => setForwardPayload_run s mem w src len
  obtain ⟨mem₂, hinverse⟩ := setPayload_run e.inverse ⟨s, mem₁, w₀⟩
    fun src len s mem w => setInversePayload_run s mem w src len
  obtain ⟨mem₃, hprovenance⟩ := setPayload_run e.provenance ⟨s, mem₂, w₀⟩
    fun src len s mem w => setProvenancePayload_run s mem w src len
  have happend := succeeds_phrase hprovenance <| succeeds_phrase hinverse <|
    succeeds_phrase hforward <| succeeds_phrase hinit <| succeeds_phrase (push_run _ _ _ _) <|
    succeeds_phrase (push_run _ _ _ _) h
  rw [Succeeds, phrase_cons, andThen_nil] at happend
  obtain ⟨grown, hdvd, hgrown⟩ := appendEntry_grows (hsame.ready hw) happend
  exact ⟨grown, hdvd, by rw [hgrown, hsame.journalFileSize]⟩

/-- No entry survives: the next one never starts at its end. -/
theorem entry_lost (m : JournalMachine φ) (hw : m.world.blocks.TableReady) (e : EntryParts)
    (hsize : e.length ≤ maxEntrySize) : ¬Survives e m := by
  rintro ⟨m₁, m₂, m₃, hwrite, _, _, _, hnext⟩
  obtain ⟨grown, hdvd, hgrown⟩ := writeEntry_grows hw hwrite
  have heq : grown = .ofNat 64 e.length :=
    (BitVec.add_right_inj m.world.journalFileSize).mp (hgrown.symm.trans hnext)
  have hmax : maxEntrySize = 65536 := rfl
  have hheader : 48 ≤ e.length := by
    simp only [EntryParts.length, entryHeaderSize]
    omega
  rw [heq, BitVec.toNat_ofNat] at hdvd
  omega

/-! ### One byte of payload -/

/-- A disk with one file: its bytes and the position. -/
structure Disk where
  bytes : Bytes
  position : ℕ

def diskWords : FileWords Disk where
  reposition d lo _ _ := ({ d with position := lo.toNat }, 0)
  write d bs _ :=
    ({ bytes := d.bytes.take d.position ++ bs ++ d.bytes.drop (d.position + bs.length)
       position := d.position + bs.length }, 0)
  read d n _ :=
    let bs := slice d.bytes d.position n
    ({ d with position := d.position + bs.length }, bs, 0)

def freshBlocks : World where
  blockBuffer := 0x100000
  crcAddr := 0
  crcTable := Crc.steps cellPoly 8
  currentSequence := 0
  clock _ := 0
  ticks := 0

theorem freshBlocks_ready : freshBlocks.TableReady := fun _ _ => rfl

/-- After `init-journal`, with four cells on the stack. -/
def freshJournal : JournalMachine Disk where
  stack := [0, 0, 0, 0]
  mem _ := 0
  world :=
    { blocks := freshBlocks, entryBuffer := 0x200000, journalFileId := 1, journalSequence := 0
      journalHead := 0, journalCheckpoint := 0, journalEntryCount := 0, journalFileSize := 4096
      files := ⟨[], 0⟩, fileWords := diskWords }

def oneByte : EntryParts where
  opType := 1
  affected := 7
  forward := some (0x300000, 1)
  inverse := none
  provenance := none

def endOf (o : Outcome (JournalWorld Disk)) : List Cell × Cell × Bytes :=
  (o.machine.stack, o.machine.world.journalFileSize, o.machine.world.files.bytes)

/-- `append-entry` leaves `true`, but nothing is written and the journal does not grow. -/
theorem oneByte_lost : endOf (writeEntry oneByte freshJournal) = ([flag true, 0], 4096, []) ∧
    oneByte.length = 49 ∧ ¬Survives oneByte freshJournal := by
  have hend : endOf (writeEntry oneByte freshJournal) = ([flag true, 0], 4096, []) := by
    decide +kernel
  have hlength : oneByte.length = 49 := by decide
  refine ⟨hend, hlength, ?_⟩
  rintro ⟨m₁, m₂, m₃, hwrite, _, _, _, hnext⟩
  rw [show writeEntry oneByte freshJournal = _ from hwrite] at hend
  have hsize : m₁.world.journalFileSize = 4096 := congrArg (fun r => r.2.1) hend
  rw [hsize, hlength] at hnext
  exact absurd hnext (by decide)

theorem entry_lost_oneByte : ¬Survives oneByte freshJournal :=
  entry_lost freshJournal freshBlocks_ready oneByte (by decide)

end NextgenDatabases.Lithoglyph.Forth
