import NextgenDatabases.Lithoglyph.ForthBlocks

/-!
# One block format, two implementations

Zig accepts what Forth builds, both check sums are bitwise CRC-32C, and a burst in the payload is
found. Forth accepts no block that Zig builds: `valid-checksum?` looks for the stored check under
its own argument, and `valid-type?` names five of the fourteen types.
-/
namespace NextgenDatabases.Lithoglyph

open Foundations
open Foundations.Forth hiding Word Machine
open Forth

/-! ### Zig reads what Forth builds -/

/-- `init-block-header` and `set-block-payload` for the `len` bytes at `src`. -/
def forthBuild (t : BlockType) (id : UInt64) (src len : Cell) : Word := phrase
  [push (t.toInt.toBitVec.setWidth 64), push id.toBitVec, initBlockHeader, push src, push len,
    setBlockPayload]

/-- All stores of `forthBuild`. -/
def buildWrites (t : BlockType) (id : UInt64) (created modified sequence : Cell) (data : Bytes) :
    List (ℕ × Bytes) :=
  headerWrites (t.toInt.toBitVec.setWidth 64) id.toBitVec created modified sequence ++
    payloadWrites data

theorem buildWrites_within (t : BlockType) (id : UInt64) (created modified sequence : Cell)
    {data : Bytes} (hdata : data.length ≤ payloadSize) :
    ∀ w ∈ buildWrites t id created modified sequence data, w.1 + w.2.length ≤ blockSize := by
  have hsize : payloadSize = 4032 := rfl
  have hblock : blockSize = 4096 := rfl
  simp only [buildWrites, headerWrites, payloadWrites, List.mem_append, List.mem_cons,
    List.not_mem_nil, or_false]
  rintro w hw
  rcases hw with (rfl | rfl | rfl | rfl | rfl | rfl | rfl | rfl | rfl | rfl | rfl | rfl) |
    (rfl | rfl | rfl) <;> simp only [length_toLe, length_zeros] <;> omega

/-- A word that runs to its end. -/
theorem forthBuild_run (t : BlockType) (id : UInt64) {w : World} (hw : w.TableReady)
    {src len : Cell} (s : List Cell) (mem : Memory) (hlen : len.toNat ≤ payloadSize)
    (hsrc : OutsideBuffer w src len.toNat) :
    ∃ w', forthBuild t id src len ⟨s, mem, w⟩ = .done ⟨s, mem.storeAll w.blockBuffer
      (buildWrites t id (w.clock w.ticks) (w.clock (w.ticks + 1)) w.currentSequence
        (mem.fetch src len.toNat)), w'⟩ := by
  have hwithin := @buildWrites_within t id (w.clock w.ticks) (w.clock (w.ticks + 1))
    w.currentSequence [] (Nat.zero_le _)
  have hheader : ∀ wr ∈ headerWrites (t.toInt.toBitVec.setWidth 64) id.toBitVec (w.clock w.ticks)
      (w.clock (w.ticks + 1)) w.currentSequence, wr.1 + wr.2.length ≤ blockSize :=
    fun wr hwr => hwithin wr (List.mem_append_left _ hwr)
  let w₁ : World := { w with ticks := w.ticks + 1 + 1 }
  have hready : w₁.TableReady := hw
  refine ⟨{ w₁ with crcAddr := w.blockBuffer + 64 }, ?_⟩
  have hset := setBlockPayload_run hready s (mem.storeAll w.blockBuffer (headerWrites
    (t.toInt.toBitVec.setWidth 64) id.toBitVec (w.clock w.ticks) (w.clock (w.ticks + 1))
    w.currentSequence)) hlen hsrc
  rw [fetch_storeAll_outside mem hsrc hheader] at hset
  simp only [forthBuild, phrase_cons, push_run, andThen_done, initBlockHeader_run, andThen_nil]
  rw [hset, buildWrites, storeAll_append]

/-- Zig accepts the block that Forth builds, with its type, its id and its payload. -/
theorem fromBytes_forthBuild (t : BlockType) (id : UInt64) (created modified sequence : Cell)
    {data : Bytes} (hdata : data.length ≤ payloadSize) (mem : Memory) (base : Cell) :
    ∃ block, Block.fromBytes
        (blockAt (mem.storeAll base (buildWrites t id created modified sequence data)) base)
        (length_blockAt _ _) = .ok block ∧
      block.header.blockType = t.toInt ∧ block.header.blockId = id ∧
        block.getPayload = data := by
  have hsize : payloadSize = 4032 := rfl
  obtain ⟨mem', hmem'⟩ : ∃ mem', mem.storeAll base
    (buildWrites t id created modified sequence data) = mem' := ⟨_, rfl⟩
  have hwithin := buildWrites_within t id created modified sequence hdata
  have hfield : ∀ {i o k : ℕ} {bs : Bytes},
      (buildWrites t id created modified sequence data)[i]? = some (o, bs) → bs.length = k →
      (∀ w ∈ (buildWrites t id created modified sequence data).drop (i + 1),
        o + k ≤ w.1 ∨ w.1 + w.2.length ≤ o) →
      o + k ≤ blockSize → slice (blockAt mem' base) o k = bs := by
    intro i o k bs hi hk hapart hfit
    rw [blockAt, ← fetch_slice mem' base hfit, ← hmem']
    exact fetch_storeAll_last mem base hi hk (by decide) hwithin hapart
  have hmagic : slice (blockAt mem' base) 0 4 = toLe 4 blockMagic.toNat :=
    hfield (i := 3) rfl (length_toLe _ _) (by simp [buildWrites, headerWrites, payloadWrites])
      (by decide)
  have hversion : slice (blockAt mem' base) 4 2 = toLe 2 blockVersion.toNat :=
    hfield (i := 4) rfl (length_toLe _ _) (by simp [buildWrites, headerWrites, payloadWrites])
      (by decide)
  have htype : slice (blockAt mem' base) 6 2 = toLe 2 (t.toInt.toBitVec.setWidth 64).toNat :=
    hfield (i := 2) rfl (length_toLe _ _) (by simp [buildWrites, headerWrites, payloadWrites])
      (by decide)
  have hid : slice (blockAt mem' base) 8 8 = toLe 8 id.toBitVec.toNat :=
    hfield (i := 1) rfl (length_toLe _ _) (by simp [buildWrites, headerWrites, payloadWrites])
      (by decide)
  have hlen : slice (blockAt mem' base) 40 4 = toLe 4 data.length :=
    hfield (i := 12) rfl (length_toLe _ _) (by simp [buildWrites, headerWrites, payloadWrites])
      (by decide)
  have hpayload : slice (blockAt mem' base) 64 data.length = data :=
    hfield (i := 13) rfl rfl (by simp [buildWrites, headerWrites, payloadWrites])
      (by rw [blockSize]; omega)
  have hchecksum : slice (blockAt mem' base) 44 4 = toLe 4 (castagnoli data).toNat :=
    hfield (i := 14) rfl (length_toLe _ _) (by simp [buildWrites, headerWrites, payloadWrites])
      (by decide)
  obtain ⟨block, hblock, hheader, hget⟩ := Block.fromBytes_of_fields (length_blockAt mem' base) hmagic
    hversion hlen hdata (by rw [hpayload, hchecksum])
  have hsmall : (t.toInt.toBitVec.setWidth 64).toNat = t.toInt.toNat := by
    rw [BitVec.toNat_setWidth]
    exact Nat.mod_eq_of_lt (lt_trans t.toInt.toNat_lt (by decide))
  simp only [hmem']
  refine ⟨block, hblock, ?_, ?_, by rw [hget, hpayload]⟩
  · rw [hheader]
    change UInt16.ofNat (ofLe (slice ((blockAt mem' base).take headerSize) 6 2)) = _
    rw [slice_take (by decide), htype, hsmall, ofLe_toLe_of_lt t.toInt.toNat_lt]
    exact UInt16.ofNat_toNat
  · rw [hheader]
    change UInt64.ofNat (ofLe (slice ((blockAt mem' base).take headerSize) 8 8)) = _
    rw [slice_take (by decide), hid, ofLe_toLe_of_lt id.toBitVec.isLt]
    exact UInt64.ofNat_toNat

/-! ### Forth looks at what Zig builds -/

/-- `Block.init`, then `setPayload`. -/
def zigBuild (t : BlockType) (id sequence created modified : UInt64) (data : Bytes) :
    Except BlockError Block :=
  (Block.init t id sequence created).setPayload data modified

theorem zigBuild_ok (t : BlockType) (id sequence created modified : UInt64) {data : Bytes}
    (hdata : data.length ≤ payloadSize) :
    ∃ block, zigBuild t id sequence created modified data = .ok block ∧
      block.validate = .ok () ∧ block.header.magic = blockMagic ∧
      block.header.blockType = t.toInt ∧ block.header.payloadLen = .ofNat data.length ∧
      block.header.checksum = crc32c (Block.padded data) (.ofNat data.length) ∧
      block.payload = Block.padded data := by
  have hset : zigBuild t id sequence created modified data = .ok _ := dif_neg (not_lt.mpr hdata)
  exact ⟨_, hset, Block.validate_setPayload rfl rfl hset, rfl, rfl, rfl, rfl, rfl⟩

/-- The types that `valid-type?` names. -/
def ForthKnows : BlockType → Prop
  | .free | .superblock | .document | .edge | .journalSegment => True
  | _ => False

theorem knownType_toInt (t : BlockType) :
    knownType (.ofNat 64 t.toInt.toNat) = true ↔ ForthKnows t := by
  cases t <;> simp [ForthKnows] <;> decide

/-- The fields of a Zig block in Forth's memory. -/
theorem fieldAt_header {mem : Memory} {addr : Cell} {block : Block} {off n x : ℕ}
    (h : blockAt mem addr = block.toBytes) (hfit : off + n ≤ headerSize)
    (hx : slice block.header.asBytes off n = toLe n x) (hlt : x < 256 ^ n) :
    fieldAt mem addr off n = .ofNat 64 x := by
  rw [fieldAt, h, Block.toBytes, slice_append_left (by rw [BlockHeader.length_asBytes]; exact hfit),
    hx, ofLe_toLe_of_lt hlt]

theorem take_padded (data : Bytes) : (Block.padded data).take data.length = data := by
  rw [Block.padded, List.take_left]

/-- Of a Zig block's header Forth takes exactly the types it names, and the checksum is the one
it computes. -/
theorem headerOk_zigBuild {t : BlockType} {id sequence created modified : UInt64} {data : Bytes}
    {block : Block} {mem : Memory} {addr : Cell} (hdata : data.length ≤ payloadSize)
    (hblock : zigBuild t id sequence created modified data = .ok block)
    (hmem : blockAt mem addr = block.toBytes) :
    (headerOk mem addr = true ↔ ForthKnows t) ∧ computedAt mem addr = fieldAt mem addr 44 4 := by
  have hsize : payloadSize = 4032 := rfl
  obtain ⟨block', hset, -, hmagic, htype, hlen, hsum, hpayload⟩ :=
    zigBuild_ok t id sequence created modified hdata
  rw [hset] at hblock
  cases hblock
  obtain ⟨hm, -, ht, -, -, -, -, hl, hc, -, -, -⟩ := block.header.slice_asBytes
  have hfieldMagic := fieldAt_header hmem (by decide) hm block.header.magic.toNat_lt
  have hfieldType := fieldAt_header hmem (by decide) ht block.header.blockType.toNat_lt
  have hfieldLen := fieldAt_header hmem (by decide) hl block.header.payloadLen.toNat_lt
  have hfieldSum := fieldAt_header hmem (by decide) hc block.header.checksum.toNat_lt
  have hlenNat : block.header.payloadLen.toNat = data.length := by
    rw [hlen, UInt32.toNat_ofNat_of_lt' (by rw [UInt32.size]; omega)]
  have hcell : (BitVec.ofNat 64 data.length).toNat = data.length := by
    rw [BitVec.toNat_ofNat, Nat.mod_eq_of_lt (by omega)]
  rw [hlenNat] at hfieldLen
  constructor
  · have hmagicOk : magicOk mem addr = true := by
      rw [magicOk, hfieldMagic, hmagic]
      rfl
    have hlengthOk : lengthOk mem addr = true := by
      have hbound : (4032 : Cell).toInt = 4032 := by decide
      rw [lengthOk, hfieldLen]
      apply BitVec.sle_iff_toInt_le.mpr
      rw [BitVec.toInt_eq_toNat_of_lt (by omega), hcell, hbound]
      omega
    rw [headerOk, hmagicOk, hlengthOk, Bool.true_and, Bool.and_true, typeOk, hfieldType, htype]
    exact knownType_toInt t
  · have hin : 64 + data.length ≤ blockSize := by
      rw [show blockSize = 4096 from rfl]
      omega
    have hslice : slice block.toBytes 64 data.length = data := by
      rw [Block.toBytes, slice_of_append (by simp [headerSize]), BlockHeader.length_asBytes,
        hpayload]
      exact take_padded data
    have hfetch : mem.fetch (addr + 64) data.length = data := by
      rw [show addr + (64 : Cell) = addr + .ofNat 64 64 from rfl, fetch_slice mem addr hin]
      change slice (blockAt mem addr) 64 data.length = data
      rw [hmem, hslice]
    rw [computedAt, hfieldLen, hcell, hfetch, hfieldSum, hsum, cellCheck, ← UInt32.toNat_toBitVec,
      crc32c_toBitVec, ← hlen, hlenNat, take_padded]
    exact (BitVec.ofNat_toNat _ _).symm

/-! ### Agreement -/

/-- What Forth builds is accepted by Zig as the same block. -/
def ZigAccepts (t : BlockType) (id : UInt64) (data : Bytes) : Prop :=
  ∀ (w : World) (mem : Memory) (src : Cell) (s : List Cell), w.TableReady →
    mem.fetch src data.length = data → OutsideBuffer w src data.length →
    ∃ mem' w' block, forthBuild t id src (.ofNat 64 data.length) ⟨s, mem, w⟩ = .done ⟨s, mem', w'⟩ ∧
      Block.fromBytes (blockAt mem' w.blockBuffer) (length_blockAt _ _) = .ok block ∧
      block.header.blockType = t.toInt ∧ block.header.blockId = id ∧ block.getPayload = data

/-- What Zig builds is accepted by `validate-block`. -/
def ForthAccepts (t : BlockType) (id : UInt64) (data : Bytes) : Prop :=
  ∀ sequence created modified block, zigBuild t id sequence created modified data = .ok block →
    ∀ (m : Machine) (addr : Cell), m.world.TableReady →
      blockAt m.mem addr = block.toBytes → Accepts m addr

/-- The same with the address on the stack twice. -/
def ForthAcceptsTwice (t : BlockType) (id : UInt64) (data : Bytes) : Prop :=
  ∀ sequence created modified block, zigBuild t id sequence created modified data = .ok block →
    ∀ (m : Machine) (addr : Cell), m.world.TableReady →
      blockAt m.mem addr = block.toBytes →
      ∃ m', validateBlock { m with stack := addr :: addr :: m.stack } = .done m' ∧
        m'.stack = flag true :: m.stack

/-- Both check sums are bitwise CRC-32C. -/
def ChecksAgree : Prop :=
  (∀ data : Bytes, data.length < 2 ^ 32 →
    (Lithoglyph.crc32c data (.ofNat data.length)).toBitVec = castagnoli data) ∧
  ∀ (w : World) (addr len : Cell) (s : List Cell) (mem : Memory), w.TableReady →
    ∃ w', Forth.crc32c ⟨len :: addr :: s, mem, w⟩ =
      .done ⟨(castagnoli (mem.fetch addr len.toNat)).setWidth 64 :: s, mem, w'⟩

/-- A burst of at most 32 bits in the payload in use makes both reject a block. -/
def BurstsFound : Prop :=
  ∀ (bytes bytes' : Bytes) (h : bytes.length = blockSize) (h' : bytes'.length = blockSize)
    (block : Block), Block.fromBytes bytes h = .ok block →
    bytes'.take headerSize = bytes.take headerSize →
    Crc.Burst 32 (bytes.drop headerSize) (bytes'.drop headerSize) →
    (bytes'.drop headerSize).take block.header.payloadLen.toNat ≠ block.getPayload →
    Block.fromBytes bytes' h' = .error .checksumMismatch ∧
      ∀ (m : Machine) (addr : Cell), m.world.TableReady → blockAt m.mem addr = bytes' →
        ¬Accepts m addr ∧ computedAt m.mem addr ≠ fieldAt m.mem addr 44 4

/-- Zig and Forth agree on the blocks of a type with an id and a payload. -/
structure FormatsAgree (t : BlockType) (id : UInt64) (data : Bytes) : Prop where
  zig : ZigAccepts t id data
  forth : ForthAccepts t id data
  checks : ChecksAgree
  bursts : BurstsFound

theorem zigAccepts (t : BlockType) (id : UInt64) {data : Bytes}
    (hdata : data.length ≤ payloadSize) : ZigAccepts t id data := by
  intro w mem src s hw hsrc hout
  have hsize : payloadSize = 4032 := rfl
  have hlen : (BitVec.ofNat 64 data.length).toNat = data.length := by
    rw [BitVec.toNat_ofNat, Nat.mod_eq_of_lt (by omega)]
  have hbuild := @forthBuild_run t id _ hw src (.ofNat 64 data.length) s mem
    (by rw [hlen]; exact hdata) (by rw [hlen]; exact hout)
  rw [hlen, hsrc] at hbuild
  obtain ⟨w', hrun⟩ := hbuild
  obtain ⟨block, hblock⟩ := fromBytes_forthBuild t id (w.clock w.ticks) (w.clock (w.ticks + 1))
    w.currentSequence hdata mem w.blockBuffer
  exact ⟨_, w', block, hrun, hblock⟩

theorem checksAgree : ChecksAgree := by
  constructor
  · intro data hdata
    rw [crc32c_toBitVec, UInt32.toNat_ofNat_of_lt' hdata, List.take_length]
  · intro w addr len s mem hw
    exact ⟨_, crc32c_run hw addr len s mem⟩

/-- A machine with the table of `init-blocks` and some bytes in its memory. -/
def someMachine (bytes : Bytes) : Machine where
  stack := []
  mem := Memory.store (fun _ => 0) 0 bytes
  world :=
    { blockBuffer := 0
      crcAddr := 0
      crcTable := Crc.steps cellPoly 8
      currentSequence := 0
      clock := fun _ => 0
      ticks := 0 }

theorem someMachine_ready (bytes : Bytes) : (someMachine bytes).world.TableReady :=
  fun _ _ => rfl

theorem blockAt_someMachine {bytes : Bytes} (h : bytes.length = blockSize) :
    blockAt (someMachine bytes).mem 0 = bytes :=
  fetch_store_same _ _ h (by decide)

theorem not_forthAccepts (t : BlockType) (id : UInt64) {data : Bytes}
    (hdata : data.length ≤ payloadSize) : ¬ForthAccepts t id data := by
  intro h
  obtain ⟨block, hblock, -⟩ := zigBuild_ok t id 0 0 0 hdata
  exact not_accepts 0 (someMachine_ready block.toBytes)
    (h 0 0 0 block hblock (someMachine block.toBytes) 0 (someMachine_ready _)
      (blockAt_someMachine block.length_toBytes))

theorem forthAcceptsTwice_iff (t : BlockType) (id : UInt64) {data : Bytes}
    (hdata : data.length ≤ payloadSize) : ForthAcceptsTwice t id data ↔ ForthKnows t := by
  constructor
  · intro h
    obtain ⟨block, hblock, -⟩ := zigBuild_ok t id 0 0 0 hdata
    have hmem := blockAt_someMachine block.length_toBytes
    obtain ⟨m', hrun, hstack⟩ := h 0 0 0 block hblock (someMachine block.toBytes) 0
      (someMachine_ready _) hmem
    obtain ⟨m'', hrun', hiff⟩ := validateBlock_twice (someMachine block.toBytes).mem 0 []
      (someMachine block.toBytes).world (someMachine_ready _)
    have hsame : m'' = m' := by
      injection hrun'.symm.trans hrun
    subst hsame
    exact (headerOk_zigBuild hdata hblock hmem).1.mp (hiff.mp hstack).1
  · intro hknown sequence created modified block hblock m addr hw hmem
    obtain ⟨m', hrun, hiff⟩ := validateBlock_twice m.mem addr m.stack m.world hw
    have hheader := headerOk_zigBuild hdata hblock hmem
    exact ⟨m', hrun, hiff.mpr ⟨hheader.1.mpr hknown, hheader.2⟩⟩

theorem burstsFound : BurstsFound := by
  intro bytes bytes' h h' block hok hheader hburst hne
  obtain ⟨hvalid, rfl⟩ := Block.eq_of_fromBytes hok
  obtain ⟨n, hn⟩ : ∃ n, (Block.ofBytes bytes h).header.payloadLen.toNat = n := ⟨_, rfl⟩
  have hfit : n ≤ payloadSize := hn ▸ Block.payloadLen_le hvalid
  have hsum := ((Block.validate_ok_iff _).mp hvalid).2
  refine ⟨(Block.fromBytes_burst hok hheader hburst).mpr hne, ?_⟩
  intro m addr hw hmem
  refine ⟨not_accepts addr hw, fun hsame => hne ?_⟩
  have hcell : ∀ {off : ℕ}, off + 4 ≤ headerSize → fieldAt m.mem addr off 4 =
      .ofNat 64 (UInt32.ofNat (ofLe (slice (bytes.take headerSize) off 4))).toNat := by
    intro off hoff
    have hlt := ofLe_lt (slice (bytes.take headerSize) off 4)
    rw [length_slice (by rw [List.length_take, h, headerSize, blockSize]; exact hoff)] at hlt
    rw [fieldAt, hmem, ← slice_take hoff, hheader, UInt32.toNat_ofNat_of_lt' hlt]
  have hlen : (fieldAt m.mem addr 40 4).toNat = n := by
    rw [hcell (by decide)]
    change (BitVec.ofNat 64 (Block.ofBytes bytes h).header.payloadLen.toNat).toNat = n
    rw [hn, BitVec.toNat_ofNat, Nat.mod_eq_of_lt (lt_of_le_of_lt hfit (by decide))]
  have hpayload : m.mem.fetch (addr + 64) n = (bytes'.drop headerSize).take n := by
    rw [show addr + (64 : Cell) = addr + .ofNat 64 64 from rfl,
      fetch_slice m.mem addr (n := blockSize) (by
        have hsize : payloadSize = 4032 := rfl
        rw [show blockSize = 4096 from rfl]
        omega)]
    change slice (blockAt m.mem addr) 64 n = _
    rw [hmem]
    rfl
  rw [computedAt, hlen, hpayload, hcell (by decide)] at hsame
  change _ = BitVec.ofNat 64 (Block.ofBytes bytes h).header.checksum.toNat at hsame
  have hcheck : castagnoli ((bytes'.drop headerSize).take n) =
      (Block.ofBytes bytes h).header.checksum.toBitVec := by
    have hlt := (Block.ofBytes bytes h).header.checksum.toNat_lt
    apply BitVec.eq_of_toNat_eq
    rw [← toNat_cellCheck, hsame, BitVec.toNat_ofNat, UInt32.toNat_toBitVec,
      Nat.mod_eq_of_lt (lt_trans hlt (by decide))]
  apply (Block.crc32c_eq_iff _ hburst).mp
  apply UInt32.toBitVec_inj.mp
  rw [crc32c_toBitVec, hn, hcheck, ← hsum]
  rfl

/-- For no type, id and payload do the two implementations agree: Forth accepts no block that Zig
builds. All the rest holds, and with its address given twice Forth accepts the five types it
names. -/
theorem formats_disagree (t : BlockType) (id : UInt64) (data : Bytes)
    (hdata : data.length ≤ payloadSize) :
    ¬FormatsAgree t id data ∧ ZigAccepts t id data ∧ ChecksAgree ∧ BurstsFound ∧
      (ForthAcceptsTwice t id data ↔ ForthKnows t) :=
  ⟨fun h => not_forthAccepts t id hdata h.forth, zigAccepts t id hdata, checksAgree, burstsFound,
    forthAcceptsTwice_iff t id hdata⟩

theorem formats_disagree_document :
    ¬FormatsAgree .document 1 [0x61, 0x62, 0x63] ∧ ZigAccepts .document 1 [0x61, 0x62, 0x63] ∧
      ChecksAgree ∧ BurstsFound ∧
      (ForthAcceptsTwice .document 1 [0x61, 0x62, 0x63] ↔ ForthKnows .document) :=
  formats_disagree .document 1 [0x61, 0x62, 0x63] (by decide)

/-- A document that Zig built, on top of an empty stack: the stack runs out. -/
theorem document_underflows :
    ∃ block, zigBuild .document 1 0 0 0 [0x61, 0x62, 0x63] = .ok block ∧
      ∃ m, validateBlock { someMachine block.toBytes with stack := [0] } = .thrown m := by
  have hdata : ([0x61, 0x62, 0x63] : Bytes).length ≤ payloadSize := by decide
  obtain ⟨block, hblock, -⟩ := zigBuild_ok .document 1 0 0 0 hdata
  have hmem := blockAt_someMachine block.length_toBytes
  have hheader := (headerOk_zigBuild hdata hblock hmem).1.mpr trivial
  have hrun := validateBlock_run (someMachine block.toBytes).mem 0 []
    (someMachine block.toBytes).world
  rw [if_pos hheader, validChecksum_underflow _ _ _ (someMachine_ready _)] at hrun
  exact ⟨block, hblock, _, hrun⟩

end NextgenDatabases.Lithoglyph
