import NextgenDatabases.Foundations.Forth
import NextgenDatabases.Lithoglyph.Blocks

/-!
# The block layer in Forth

The words of the Forth block layer, read off the source one after another.
-/
namespace NextgenDatabases.Lithoglyph.Forth

open Foundations
open Foundations.Forth hiding Word

/-- The dictionary entries and the clock that the words use. -/
structure World where
  blockBuffer : Cell
  crcAddr : Cell
  crcTable : Cell → Cell
  currentSequence : Cell
  clock : ℕ → Cell
  ticks : ℕ

abbrev Word := Foundations.Forth.Word World

abbrev Machine := Foundations.Forth.Machine World

/-! ### Header accessors -/

def blkMagic : Word := phrase []
def blockVersion : Word := phrase [push 4, add]
def blockType : Word := phrase [push 6, add]
def blockId : Word := phrase [push 8, add]
def blockSequence : Word := phrase [push 16, add]
def blockCreated : Word := phrase [push 24, add]
def blockModified : Word := phrase [push 32, add]
def blockPayloadLen : Word := phrase [push 40, add]
def blockChecksum : Word := phrase [push 44, add]
def blockPrev : Word := phrase [push 48, add]
def blockFlags : Word := phrase [push 56, add]
def blockReserved : Word := phrase [push 60, add]
def blockPayload : Word := phrase [push 64, add]

def blockBuffer : Word := fun m => push m.world.blockBuffer m

def clearBlock : Word := phrase [blockBuffer, push 4096, push 0, fill]

/-! ### CRC-32C -/

/-- `crc-addr !` -/
def crcAddrStore : Word := fun m =>
  match m.stack with
  | x :: stack => .done { m with stack, world := { m.world with crcAddr := x } }
  | _ => .thrown m

/-- `crc-addr @` -/
def crcAddrFetch : Word := fun m => push m.world.crcAddr m

/-- `crc32c-table i cells + !` -/
def tableStore (i : Cell) : Word := fun m =>
  match m.stack with
  | x :: stack =>
    let crcTable := fun j => if j = i then x else m.world.crcTable j
    .done { m with stack, world := { m.world with crcTable } }
  | _ => .thrown m

/-- `cells crc32c-table + @` -/
def tableFetch : Word := fun m =>
  match m.stack with
  | i :: stack => .done { m with stack := m.world.crcTable i :: stack }
  | _ => .thrown m

def crcBit : Word := phrase
  [dup, push 1, and,
    ifElse (phrase [push 1, rshift, push 0x82F63B78, xor]) (phrase [push 1, rshift])]

def tableEntry (i : Cell) : Word := phrase
  [push i, push 8, push 0, doLoop fun _ => crcBit, tableStore i]

def initCrc32cTable : Word := phrase [push 256, push 0, doLoop tableEntry]

def crcByte (i : Cell) : Word := phrase
  [crcAddrFetch, push i, add, fetchBytes 1, over', push 0xFF, and, xor, tableFetch, swap, push 8,
    rshift, xor]

def crc32c : Word := phrase
  [swap, crcAddrStore, push 0xFFFFFFFF, swap, push 0, qDo crcByte, push 0xFFFFFFFF, xor]

/-! ### Validation -/

def validMagic : Word := phrase [blkMagic, fetchBytes 4, push 0x4C474800, equals]

def validType : Word := phrase
  [blockType, fetchBytes 2, dup, push 0x0000, equals, swap, dup, push 0x0001, equals, swap,
    dup, push 0x0011, equals, swap, dup, push 0x0021, equals, swap, dup, push 0x0040, equals, swap,
    drop, or, or, or, or]

def validPayloadLen : Word := phrase [blockPayloadLen, fetchBytes 4, push 4032, atMost]

def validChecksum : Word := phrase
  [dup, blockPayload, swap, blockPayloadLen, fetchBytes 4, crc32c, swap, blockChecksum,
    fetchBytes 4, equals]

def validateBlock : Word := phrase
  [dup, validMagic, isZero, ifElse (phrase [drop, push (flag false)]) <| phrase
    [dup, validType, isZero, ifElse (phrase [drop, push (flag false)]) <| phrase
      [dup, validPayloadLen, isZero, ifElse (phrase [drop, push (flag false)]) validChecksum]]]

/-! ### Block creation -/

def nowMicroseconds : Word := fun m =>
  push (m.world.clock m.world.ticks) { m with world := { m.world with ticks := m.world.ticks + 1 } }

/-- `current-sequence @` -/
def currentSequence : Word := fun m => push m.world.currentSequence m

def initBlockHeader : Word := phrase
  [clearBlock,
    blockBuffer, blockId, storeBytes 8,
    blockBuffer, blockType, storeBytes 2,
    push 0x4C474800, blockBuffer, blkMagic, storeBytes 4,
    push 1, blockBuffer, blockVersion, storeBytes 2,
    nowMicroseconds, blockBuffer, blockCreated, storeBytes 8,
    nowMicroseconds, blockBuffer, blockModified, storeBytes 8,
    currentSequence, blockBuffer, blockSequence, storeBytes 8,
    push 0, blockBuffer, blockPrev, storeBytes 8,
    push 0, blockBuffer, blockFlags, storeBytes 4,
    push 0, blockBuffer, blockReserved, storeBytes 4,
    push 0, blockBuffer, blockPayloadLen, storeBytes 4]

def setBlockPayload : Word := phrase
  [dup, push 4032, greater, ifElse (phrase [drop, drop]) <| phrase
    [dup, blockBuffer, blockPayloadLen, storeBytes 4,
      blockBuffer, blockPayload, swap, move,
      blockBuffer, blockPayload, blockBuffer, blockPayloadLen, fetchBytes 4, crc32c,
      blockBuffer, blockChecksum, storeBytes 4]]

/-! ### What CRC-32C computes -/

/-- The reflected polynomial in a cell. -/
def cellPoly : Cell := crcPoly.toBitVec.setWidth 64

/-- The table after `init-crc32c-table`. -/
def World.TableReady (w : World) : Prop :=
  ∀ i < 256, w.crcTable (.ofNat 64 i) = Crc.steps cellPoly 8 (.ofNat 64 i)

theorem crcBit_run (crc : Cell) (s : List Cell) (mem : Memory) (w : World) :
    crcBit ⟨crc :: s, mem, w⟩ = .done ⟨Crc.step cellPoly crc :: s, mem, w⟩ := by
  have hbit : crc &&& 1 = (BitVec.ofBool (crc.getLsbD 0)).setWidth 64 :=
    BitVec.and_one_eq_setWidth_ofBool_getLsbD
  simp only [crcBit, phrase_cons, dup_run, andThen_done, push_run, and_run, ifElse_cell, hbit,
    Crc.step]
  cases crc.getLsbD 0 with
  | false => rfl
  | true => rfl

/-- The inner loop of `init-crc32c-table`. -/
theorem crcBits_run (crc : Cell) (s : List Cell) (mem : Memory) (w : World) (n : ℕ) (i : Cell) :
    rounds (fun _ => crcBit) n i ⟨crc :: s, mem, w⟩ =
      .done ⟨Crc.steps cellPoly n crc :: s, mem, w⟩ := by
  induction n generalizing crc i with
  | zero => rfl
  | succ n ih => rw [rounds, crcBit_run, andThen_done, ih, Crc.steps]

/-- The table is ready after `init-crc32c-table`, which leaves all else alone. -/
theorem initCrc32cTable_run (s : List Cell) (mem : Memory) (w : World) :
    ∃ crcTable, initCrc32cTable ⟨s, mem, w⟩ = .done ⟨s, mem, { w with crcTable }⟩ ∧
      World.TableReady { w with crcTable } := by
  let P := fun (k : ℕ) (m : Machine) => ∃ crcTable, m = ⟨s, mem, { w with crcTable }⟩ ∧
    ∀ i < k, crcTable (.ofNat 64 i) = Crc.steps cellPoly 8 (.ofNat 64 i)
  have hround : ∀ k < 256, ∀ m, P k m →
      ∃ m', tableEntry (0 + .ofNat 64 k) m = .done m' ∧ P (k + 1) m' := by
    rintro k hk m ⟨crcTable, rfl, htable⟩
    have height : ((8 : Cell) - 0).toNat = 8 := by decide
    simp only [tableEntry, phrase_cons, push_run, andThen_done,
      doLoop_run _ _ _ _ (show (8 : Cell) ≠ 0 by decide), height, crcBits_run, tableStore,
      phrase_nil]
    refine ⟨_, rfl, _, rfl, fun i hi => ?_⟩
    by_cases hik : i = k
    · subst hik
      simp
    · have hne : BitVec.ofNat 64 i ≠ 0 + BitVec.ofNat 64 k := by
        intro h
        have hval := congrArg BitVec.toNat h
        simp at hval
        omega
      rw [if_neg hne]
      exact htable i (by omega)
  have hstart : P 0 ⟨s, mem, w⟩ := ⟨w.crcTable, rfl, fun i hi => absurd hi (Nat.not_lt_zero i)⟩
  obtain ⟨m', hrun, crcTable, rfl, htable⟩ := rounds_done P hstart hround
  have hcount : ((256 : Cell) - 0).toNat = 256 := by decide
  refine ⟨crcTable, ?_, htable⟩
  rw [initCrc32cTable, phrase_cons, push_run, andThen_done, phrase_cons, push_run, andThen_done,
    phrase_cons, doLoop_run _ _ _ _ (by decide), hcount, hrun, andThen_done, phrase_nil]

/-- The bitwise check in a cell. -/
def cellCheck (data : Bytes) : Cell := (castagnoli data).setWidth 64

theorem ofNat_ofLe_single (b : UInt8) : BitVec.ofNat 64 (ofLe [b]) = b.toBitVec.setWidth 64 := by
  apply BitVec.eq_of_toNat_eq
  simp [ofLe]

/-- A round of `crc32c`. -/
theorem crcByte_run {w : World} (hw : w.TableReady) (crc : BitVec 32) (i : Cell) (s : List Cell)
    (mem : Memory) :
    crcByte i ⟨crc.setWidth 64 :: s, mem, w⟩ =
      .done ⟨(Crc.feedByte crcPoly.toBitVec crc (mem (w.crcAddr + i))).setWidth 64 :: s, mem, w⟩ := by
  let b := mem (w.crcAddr + i)
  have hfetch : mem.fetch (w.crcAddr + i) 1 = [b] := by simp [Memory.fetch, b]
  have hbyte : (b.toBitVec.setWidth 64).toNat < 256 := by
    rw [BitVec.toNat_setWidth]
    exact lt_of_le_of_lt (Nat.mod_le _ _) b.toBitVec.isLt
  have hhigh : (b.toBitVec.setWidth 64) >>> 8 = 0#64 := by
    apply BitVec.eq_of_toNat_eq
    rw [BitVec.toNat_ushiftRight, Nat.shiftRight_eq_div_pow, BitVec.toNat_ofNat]
    omega
  have hlow : b.toBitVec.setWidth 64 &&& 0xFF#64 = b.toBitVec.setWidth 64 := by
    apply BitVec.eq_of_toNat_eq
    rw [BitVec.toNat_and]
    exact Nat.and_two_pow_sub_one_of_lt_two_pow (n := 8) hbyte
  let x := crc.setWidth 64 ^^^ b.toBitVec.setWidth 64
  have hindex : (b.toBitVec.setWidth 64 ^^^ (crc.setWidth 64 &&& 0xFF#64)) = x &&& 0xFF#64 := by
    have hdistrib : x &&& 0xFF#64 =
        (crc.setWidth 64 &&& 0xFF#64) ^^^ (b.toBitVec.setWidth 64 &&& 0xFF#64) := by
      apply BitVec.eq_of_toNat_eq
      rw [BitVec.toNat_and, BitVec.toNat_xor, BitVec.toNat_xor, BitVec.toNat_and, BitVec.toNat_and,
        Nat.and_xor_distrib_right]
    rw [hdistrib, hlow, BitVec.xor_comm]
  have htable := @Crc.steps_table _ cellPoly _ 0xFF#64 (fun i hi => low_mask hi) x
  rw [BitVec.ushiftRight_xor_distrib, hhigh, BitVec.xor_zero] at htable
  have hfeed : (Crc.feedByte crcPoly.toBitVec crc b).setWidth 64 = Crc.steps cellPoly 8 x := by
    rw [Crc.feedByte, cellPoly, ← Crc.steps_setWidth _ (by decide), BitVec.setWidth_xor]
    simp [x]
  have hentry : w.crcTable (x &&& 0xFF#64) = Crc.steps cellPoly 8 (x &&& 0xFF#64) := by
    have hlt : (x &&& 0xFF#64).toNat < 256 := by
      rw [BitVec.toNat_and]
      exact lt_of_le_of_lt Nat.and_le_right (by decide)
    have hready := hw _ hlt
    rwa [BitVec.ofNat_toNat, BitVec.setWidth_eq] at hready
  have hstack : crcByte i ⟨crc.setWidth 64 :: s, mem, w⟩ = .done
      ⟨(w.crcTable (b.toBitVec.setWidth 64 ^^^ (crc.setWidth 64 &&& 0xFF#64)) ^^^
        (crc.setWidth 64 >>> 8)) :: s, mem, w⟩ := by
    simp [crcByte, crcAddrFetch, hfetch, ofNat_ofLe_single, tableFetch]
  rw [hstack, hindex, hentry, hfeed, htable, BitVec.xor_comm]

/-- The Forth check is the bitwise one, whatever lies under its two arguments. -/
theorem crc32c_run {w : World} (hw : w.TableReady) (addr len : Cell) (s : List Cell)
    (mem : Memory) :
    crc32c ⟨len :: addr :: s, mem, w⟩ =
      .done ⟨cellCheck (mem.fetch addr len.toNat) :: s, mem, { w with crcAddr := addr }⟩ := by
  let w' : World := { w with crcAddr := addr }
  have hready : w'.TableReady := hw
  let crc := fun k => (mem.fetch addr k).foldl (Crc.feedByte crcPoly.toBitVec) (BitVec.allOnes 32)
  have hround : ∀ k < len.toNat, ∀ m, m = ⟨(crc k).setWidth 64 :: s, mem, w'⟩ →
      ∃ m', crcByte (0 + .ofNat 64 k) m = .done m' ∧
        m' = ⟨(crc (k + 1)).setWidth 64 :: s, mem, w'⟩ := by
    rintro k hk m rfl
    refine ⟨_, crcByte_run hready (crc k) _ s mem, ?_⟩
    have hnext : mem.fetch addr (k + 1) = mem.fetch addr k ++ [mem (addr + .ofNat 64 k)] := by
      simp [Memory.fetch, List.range_succ]
    have hindex : (0 : Cell) + .ofNat 64 k = .ofNat 64 k := BitVec.zero_add _
    simp only [crc, hnext, List.foldl_append, List.foldl_cons, List.foldl_nil, hindex, w']
  obtain ⟨m', hrun, rfl⟩ := rounds_done
    (fun k m => m = (⟨(crc k).setWidth 64 :: s, mem, w'⟩ : Machine)) rfl hround
  have hones : (crc 0).setWidth 64 = (0xFFFFFFFF : Cell) := by
    simp only [crc, Memory.fetch, List.range_zero, List.map_nil, List.foldl_nil]
    decide
  have hcount : (len - 0).toNat = len.toNat := congrArg BitVec.toNat (BitVec.sub_zero len)
  have hcheck : cellCheck (mem.fetch addr len.toNat) =
      (crc len.toNat).setWidth 64 ^^^ (0xFFFFFFFF : Cell) := by
    rw [cellCheck, castagnoli, Crc.check, BitVec.setWidth_xor]
    rfl
  rw [hones] at hrun
  simp only [crc32c, phrase_cons, swap_run, andThen_done, crcAddrStore, push_run, qDo_run, hcount,
    hcheck]
  rw [hrun]
  rfl

/-! ### What validation looks at -/

/-- The block that starts at an address. -/
def blockAt (mem : Memory) (addr : Cell) : Bytes := mem.fetch addr blockSize

theorem length_blockAt (mem : Memory) (addr : Cell) : (blockAt mem addr).length = blockSize :=
  length_fetch _ _ _

/-- A field of the block that starts at an address. -/
def fieldAt (mem : Memory) (addr : Cell) (off n : ℕ) : Cell :=
  .ofNat 64 (ofLe (slice (blockAt mem addr) off n))

def magicOk (mem : Memory) (addr : Cell) : Bool := fieldAt mem addr 0 4 == 0x4C474800

/-- The types that `valid-type?` names. -/
def knownType (t : Cell) : Bool :=
  t == 0x0000 || (t == 0x0001 || (t == 0x0011 || (t == 0x0021 || t == 0x0040)))

def typeOk (mem : Memory) (addr : Cell) : Bool := knownType (fieldAt mem addr 6 2)

def lengthOk (mem : Memory) (addr : Cell) : Bool := (fieldAt mem addr 40 4).sle 4032

/-- Everything that comes before the checksum. -/
def headerOk (mem : Memory) (addr : Cell) : Bool :=
  magicOk mem addr && typeOk mem addr && lengthOk mem addr

/-- The check over the payload in use. -/
def computedAt (mem : Memory) (addr : Cell) : Cell :=
  cellCheck (mem.fetch (addr + 64) (fieldAt mem addr 40 4).toNat)

section

variable (mem : Memory) (addr : Cell) (s : List Cell) (w : World)

theorem fetch_fieldAt {off n : ℕ} (h : off + n ≤ blockSize) :
    BitVec.ofNat 64 (ofLe (mem.fetch (addr + .ofNat 64 off) n)) = fieldAt mem addr off n := by
  rw [fetch_slice mem addr h]
  rfl

theorem validMagic_run : validMagic ⟨addr :: s, mem, w⟩ =
    .done ⟨flag (magicOk mem addr) :: s, mem, w⟩ := by
  have hfield := @fetch_fieldAt mem addr 0 4 (by decide)
  have hzero : addr + BitVec.ofNat 64 0 = addr := BitVec.add_zero addr
  rw [hzero] at hfield
  simp only [validMagic, blkMagic, phrase_cons, phrase_nil, andThen_done, fetchBytes_run, push_run,
    equals_run, hfield, magicOk]

theorem validType_run : validType ⟨addr :: s, mem, w⟩ =
    .done ⟨flag (typeOk mem addr) :: s, mem, w⟩ := by
  have hfield := @fetch_fieldAt mem addr 6 2 (by decide)
  simp only [validType, blockType, phrase_cons, phrase_nil, andThen_done, fetchBytes_run, push_run,
    add_run, dup_run, swap_run, drop_run, or_run, equals_run, flag_or]
  rw [show addr + (6 : Cell) = addr + BitVec.ofNat 64 6 from rfl, hfield]
  rfl

theorem validPayloadLen_run : validPayloadLen ⟨addr :: s, mem, w⟩ =
    .done ⟨flag (lengthOk mem addr) :: s, mem, w⟩ := by
  have hfield := @fetch_fieldAt mem addr 40 4 (by decide)
  simp only [validPayloadLen, blockPayloadLen, phrase_cons, phrase_nil, andThen_done,
    fetchBytes_run, push_run, add_run, atMost_run]
  rw [show addr + (40 : Cell) = addr + BitVec.ofNat 64 40 from rfl, hfield, lengthOk]

/-- After `crc32c` the address is gone: the checksum is looked for at what lies under it. -/
theorem validChecksum_run (hw : w.TableReady) (under : Cell) :
    validChecksum ⟨addr :: under :: s, mem, w⟩ =
      .done ⟨flag (computedAt mem addr == fieldAt mem under 44 4) :: s, mem,
        { w with crcAddr := addr + 64 }⟩ := by
  have hlen := @fetch_fieldAt mem addr 40 4 (by decide)
  have hchecksum := @fetch_fieldAt mem under 44 4 (by decide)
  simp only [validChecksum, blockPayload, blockPayloadLen, blockChecksum, phrase_cons, phrase_nil,
    andThen_done, dup_run, push_run, add_run, swap_run, fetchBytes_run]
  rw [show addr + (40 : Cell) = addr + BitVec.ofNat 64 40 from rfl, hlen, crc32c_run hw]
  simp only [phrase_cons, phrase_nil, andThen_done, swap_run, push_run, add_run, fetchBytes_run,
    equals_run]
  rw [show under + (44 : Cell) = under + BitVec.ofNat 64 44 from rfl, hchecksum]
  rfl

theorem validChecksum_underflow (hw : w.TableReady) :
    validChecksum ⟨[addr], mem, w⟩ =
      .thrown ⟨[computedAt mem addr], mem, { w with crcAddr := addr + 64 }⟩ := by
  have hlen := @fetch_fieldAt mem addr 40 4 (by decide)
  simp only [validChecksum, blockPayload, blockPayloadLen, phrase_cons, phrase_nil, andThen_done,
    dup_run, push_run, add_run, swap_run, fetchBytes_run]
  rw [show addr + (40 : Cell) = addr + BitVec.ofNat 64 40 from rfl, hlen, crc32c_run hw]
  rfl

theorem validateBlock_run :
    validateBlock ⟨addr :: s, mem, w⟩ =
      if headerOk mem addr then validChecksum ⟨addr :: s, mem, w⟩
      else .done ⟨flag false :: s, mem, w⟩ := by
  have hnot : ∀ b : Bool, (flag b == 0) = !b := by decide
  simp only [validateBlock, phrase_cons, andThen_done, dup_run, validMagic_run,
    validType_run, validPayloadLen_run, isZero_run, hnot, ifElse_run, drop_run, push_run, headerOk,
    andThen_nil]
  by_cases hmagic : magicOk mem addr = true
  · by_cases htype : typeOk mem addr = true
    · by_cases hlength : lengthOk mem addr = true
      · simp [hmagic, htype, hlength]
      · simp [hmagic, htype, hlength]
    · simp [hmagic, htype]
  · simp [hmagic]

/-- `validate-block` as its stack comment has it: the flag takes the place of the address. -/
def Accepts (m : Machine) (addr : Cell) : Prop :=
  ∃ m', validateBlock { m with stack := addr :: m.stack } = .done m' ∧
    m'.stack = flag true :: m.stack

theorem not_accepts {m : Machine} (hw : m.world.TableReady) : ¬Accepts m addr := by
  rintro ⟨m', hrun, hstack⟩
  rw [validateBlock_run] at hrun
  split_ifs at hrun
  · cases hs : m.stack with
    | nil =>
      rw [hs, validChecksum_underflow _ _ _ hw] at hrun
      cases hrun
    | cons under s =>
      rw [hs, validChecksum_run _ _ _ _ hw] at hrun
      cases hrun
      have hlen := congrArg List.length hstack
      simp [hs] at hlen
  · cases hrun
    injection hstack with hflag
    exact absurd hflag (by decide)

/-- With the address on the stack twice the checksum is the block's own. -/
theorem validateBlock_twice (hw : w.TableReady) :
    ∃ m', validateBlock ⟨addr :: addr :: s, mem, w⟩ = .done m' ∧
      (m'.stack = flag true :: s ↔
        headerOk mem addr = true ∧ computedAt mem addr = fieldAt mem addr 44 4) := by
  rw [validateBlock_run]
  by_cases hheader : headerOk mem addr = true
  · rw [if_pos hheader, validChecksum_run _ _ _ _ hw]
    refine ⟨_, rfl, ?_⟩
    by_cases hcheck : computedAt mem addr = fieldAt mem addr 44 4
    · simp [hheader, hcheck]
    · simp [hheader, hcheck, flag]
  · rw [if_neg hheader]
    refine ⟨_, rfl, ?_⟩
    simp [hheader, flag]

end

/-! ### What block creation writes -/

/-- The part of memory that `init-block-header` and `set-block-payload` write to. -/
abbrev OutsideBuffer (w : World) (addr : Cell) (len : ℕ) : Prop :=
  Outside w.blockBuffer blockSize addr len

def zeros (n : ℕ) : Bytes := List.replicate n 0

@[simp] theorem length_zeros (n : ℕ) : (zeros n).length = n := List.length_replicate

/-- The stores of `init-block-header`, in order. -/
def headerWrites (t id created modified sequence : Cell) : List (ℕ × Bytes) :=
  [(0, zeros 4096), (8, toLe 8 id.toNat), (6, toLe 2 t.toNat), (0, toLe 4 0x4C474800),
    (4, toLe 2 1), (24, toLe 8 created.toNat), (32, toLe 8 modified.toNat),
    (16, toLe 8 sequence.toNat), (48, toLe 8 0), (56, toLe 4 0), (60, toLe 4 0), (40, toLe 4 0)]

/-- The stores of `set-block-payload`. -/
def payloadWrites (data : Bytes) : List (ℕ × Bytes) :=
  [(40, toLe 4 data.length), (64, data), (44, toLe 4 (castagnoli data).toNat)]

theorem initBlockHeader_run (id t : Cell) (s : List Cell) (mem : Memory) (w : World) :
    initBlockHeader ⟨id :: t :: s, mem, w⟩ =
      .done ⟨s, mem.storeAll w.blockBuffer
        (headerWrites t id (w.clock w.ticks) (w.clock (w.ticks + 1)) w.currentSequence),
        { w with ticks := w.ticks + 1 + 1 }⟩ := by
  have hbase : w.blockBuffer + .ofNat 64 0 = w.blockBuffer := BitVec.add_zero _
  simp only [initBlockHeader, clearBlock, blockBuffer, blockId, blockType, blkMagic, blockVersion,
    blockCreated, blockModified, blockSequence, blockPrev, blockFlags, blockReserved,
    blockPayloadLen, nowMicroseconds, currentSequence, phrase_cons, phrase_nil, andThen_done,
    push_run, add_run, storeBytes_run, fill_run]
  simp only [headerWrites, Memory.storeAll, List.foldl_cons, List.foldl_nil, hbase]
  rfl

theorem toNat_cellCheck (data : Bytes) : (cellCheck data).toNat = (castagnoli data).toNat := by
  have hlt := (castagnoli data).isLt
  rw [cellCheck, BitVec.toNat_setWidth]
  omega

theorem setBlockPayload_run {w : World} (hw : w.TableReady) {src len : Cell} (s : List Cell)
    (mem : Memory) (hlen : len.toNat ≤ payloadSize) (hsrc : OutsideBuffer w src len.toNat) :
    setBlockPayload ⟨len :: src :: s, mem, w⟩ =
      .done ⟨s, mem.storeAll w.blockBuffer (payloadWrites (mem.fetch src len.toNat)),
        { w with crcAddr := w.blockBuffer + 64 }⟩ := by
  have hsize : payloadSize = 4032 := rfl
  have hblock : blockSize = 4096 := rfl
  obtain ⟨data, hdataEq⟩ : ∃ data, mem.fetch src len.toNat = data := ⟨_, rfl⟩
  have hdata : data.length = len.toNat := by rw [← hdataEq, length_fetch]
  obtain ⟨mem₁, hmem₁⟩ :
      ∃ mem₁, mem.store (w.blockBuffer + .ofNat 64 40) (toLe 4 len.toNat) = mem₁ := ⟨_, rfl⟩
  obtain ⟨mem₂, hmem₂⟩ : ∃ mem₂, mem₁.store (w.blockBuffer + .ofNat 64 64) data = mem₂ := ⟨_, rfl⟩
  have hfits : (4032 : Cell).slt len = false := by
    rw [Bool.eq_false_iff]
    intro h
    have hlt := BitVec.slt_iff_toInt_lt.mp h
    rw [BitVec.toInt_eq_toNat_of_lt (x := len) (by omega)] at hlt
    exact absurd hlt (by simp; omega)
  have hmove : mem₁.fetch src len.toNat = data := by
    rw [← hmem₁, fetch_store_outside mem hsrc (by rw [length_toLe]; decide), hdataEq]
  have hlenAt : mem₂.fetch (w.blockBuffer + .ofNat 64 40) 4 = toLe 4 len.toNat := by
    rw [← hmem₂, fetch_store_apart _ _ (.inl (by decide)) (by decide) (by decide) (by omega),
      ← hmem₁, fetch_store_same _ _ (length_toLe 4 _) (by decide)]
  have hlenCell : BitVec.ofNat 64 (ofLe (toLe 4 len.toNat)) = len := by
    rw [ofLe_toLe_of_lt (by omega), BitVec.ofNat_toNat, BitVec.setWidth_eq]
  have hpayload : mem₂.fetch (w.blockBuffer + .ofNat 64 64) len.toNat = data := by
    rw [← hmem₂, fetch_store_same _ _ hdata (by omega)]
  have hstack : setBlockPayload ⟨len :: src :: s, mem, w⟩ =
      .done ⟨s, mem₂.store (w.blockBuffer + .ofNat 64 44) (toLe 4 (cellCheck data).toNat),
        { w with crcAddr := w.blockBuffer + 64 }⟩ := by
    simp only [setBlockPayload, blockBuffer, blockPayloadLen, blockPayload, blockChecksum,
      phrase_cons, phrase_nil, andThen_done, dup_run, push_run, greater_run, hfits, ifElse_run,
      Bool.false_eq_true, if_false, add_run, storeBytes_run, swap_run, move_run, fetchBytes_run]
    rw [show w.blockBuffer + (40 : Cell) = w.blockBuffer + .ofNat 64 40 from rfl,
      show w.blockBuffer + (64 : Cell) = w.blockBuffer + .ofNat 64 64 from rfl, hmem₁, hmove, hmem₂,
      hlenAt, hlenCell, crc32c_run hw, hpayload]
    rfl
  rw [hstack, toNat_cellCheck, hdataEq, payloadWrites, hdata]
  simp only [Memory.storeAll, List.foldl_cons, List.foldl_nil, hmem₁, hmem₂]

end NextgenDatabases.Lithoglyph.Forth
