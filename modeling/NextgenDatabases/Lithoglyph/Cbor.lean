import NextgenDatabases.Foundations.Bytes

/-!
# CBOR

The encoder and the decoder of the bridge, call by call, and trees of items over them. An
argument takes one, two, three, five or nine bytes.
-/
namespace NextgenDatabases.Lithoglyph.Cbor

open Foundations (Bytes toBe ofBe length_toBe ofBe_toBe_of_lt ofBe_lt)

inductive MajorType
  | unsigned | negative | bytes | text | array | map | tag | simple
  deriving DecidableEq

def MajorType.toByte : MajorType → UInt8
  | .unsigned => 0
  | .negative => 1
  | .bytes => 2
  | .text => 3
  | .array => 4
  | .map => 5
  | .tag => 6
  | .simple => 7

/-- The major type of three bits. -/
def MajorType.ofByte : UInt8 → MajorType
  | 0 => .unsigned
  | 1 => .negative
  | 2 => .bytes
  | 3 => .text
  | 4 => .array
  | 5 => .map
  | 6 => .tag
  | _ => .simple

/-! ### The encoder -/

structure Encoder where
  buffer : Bytes

namespace Encoder

def init : Encoder := ⟨[]⟩

def finish (self : Encoder) : Bytes := self.buffer

def appendSlice (self : Encoder) (bs : Bytes) : Encoder := ⟨self.buffer ++ bs⟩

def writeTypeArg (self : Encoder) (major : MajorType) (arg : UInt64) : Encoder :=
  let base := major.toByte <<< 5
  if arg < 24 then self.appendSlice [base ||| arg.toUInt8]
  else if arg ≤ 0xFF then (self.appendSlice [base ||| 24]).appendSlice [arg.toUInt8]
  else if arg ≤ 0xFFFF then (self.appendSlice [base ||| 25]).appendSlice (toBe 2 arg.toNat)
  else if arg ≤ 0xFFFFFFFF then (self.appendSlice [base ||| 26]).appendSlice (toBe 4 arg.toNat)
  else (self.appendSlice [base ||| 27]).appendSlice (toBe 8 arg.toNat)

def encodeUint (self : Encoder) (value : UInt64) : Encoder := self.writeTypeArg .unsigned value

def encodeNint (self : Encoder) (value : Int64) : Encoder :=
  self.writeTypeArg .negative (-1 - value).toUInt64

def encodeInt (self : Encoder) (value : Int64) : Encoder :=
  if 0 ≤ value then self.encodeUint value.toUInt64 else self.encodeNint value

def encodeBytes (self : Encoder) (data : Bytes) : Encoder :=
  (self.writeTypeArg .bytes (.ofNat data.length)).appendSlice data

def encodeText (self : Encoder) (text : Bytes) : Encoder :=
  (self.writeTypeArg .text (.ofNat text.length)).appendSlice text

def beginArray (self : Encoder) (len : ℕ) : Encoder := self.writeTypeArg .array (.ofNat len)

def beginMap (self : Encoder) (len : ℕ) : Encoder := self.writeTypeArg .map (.ofNat len)

def encodeTag (self : Encoder) (tag : UInt64) : Encoder := self.writeTypeArg .tag tag

def encodeNull (self : Encoder) : Encoder := self.appendSlice [0xF6]

def encodeBool (self : Encoder) (value : Bool) : Encoder :=
  self.appendSlice [if value then 0xF5 else 0xF4]

end Encoder

/-! ### The decoder -/

inductive DecodeError
  | unexpectedEof | invalidType | invalidValue | outOfMemory
  deriving DecidableEq

structure Decoder where
  data : Bytes
  pos : ℕ
  deriving DecidableEq

namespace Decoder

def init (data : Bytes) : Decoder := ⟨data, 0⟩

def readByte (self : Decoder) : Except DecodeError (UInt8 × Decoder) :=
  match self.data[self.pos]? with
  | none => .error .unexpectedEof
  | some b => .ok (b, { self with pos := self.pos + 1 })

def readBytes (self : Decoder) (n : ℕ) : Except DecodeError (Bytes × Decoder) :=
  if self.pos + n > self.data.length then .error .unexpectedEof
  else .ok ((self.data.drop self.pos).take n, { self with pos := self.pos + n })

/-- An argument of `w` bytes. -/
def readBig (self : Decoder) (w : ℕ) : Except DecodeError (UInt64 × Decoder) := do
  let (bytes, self) ← self.readBytes w
  return (.ofNat (ofBe bytes), self)

def readArg (self : Decoder) (additional : UInt8) : Except DecodeError (UInt64 × Decoder) :=
  if additional < 24 then .ok (additional.toUInt64, self)
  else
    match additional with
    | 24 => do
      let (b, self) ← self.readByte
      return (b.toUInt64, self)
    | 25 => self.readBig 2
    | 26 => self.readBig 4
    | 27 => self.readBig 8
    | _ => .error .invalidValue

def readTypeArg (self : Decoder) : Except DecodeError ((MajorType × UInt64) × Decoder) := do
  let (b, self) ← self.readByte
  let (arg, self) ← self.readArg (b &&& 31)
  return ((.ofByte (b >>> 5), arg), self)

/-- The argument of an item of the given major type. -/
def readMajor (self : Decoder) (major : MajorType) : Except DecodeError (UInt64 × Decoder) := do
  let (ta, self) ← self.readTypeArg
  if ta.1 ≠ major then throw .invalidType
  return (ta.2, self)

def decodeUint (self : Decoder) : Except DecodeError (UInt64 × Decoder) := self.readMajor .unsigned

def decodeInt (self : Decoder) : Except DecodeError (Int64 × Decoder) := do
  let (ta, self) ← self.readTypeArg
  match ta.1 with
  | .unsigned => return (ta.2.toInt64, self)
  | .negative => return (-1 - ta.2.toInt64, self)
  | _ => throw .invalidType

def decodeText (self : Decoder) : Except DecodeError (Bytes × Decoder) := do
  let (len, self) ← self.readMajor .text
  self.readBytes len.toNat

def decodeBytes (self : Decoder) : Except DecodeError (Bytes × Decoder) := do
  let (len, self) ← self.readMajor .bytes
  self.readBytes len.toNat

def decodeArrayLen (self : Decoder) : Except DecodeError (ℕ × Decoder) := do
  let (len, self) ← self.readMajor .array
  return (len.toNat, self)

def decodeMapLen (self : Decoder) : Except DecodeError (ℕ × Decoder) := do
  let (len, self) ← self.readMajor .map
  return (len.toNat, self)

def decodeTag (self : Decoder) : Except DecodeError (UInt64 × Decoder) := self.readMajor .tag

def decodeBool (self : Decoder) : Except DecodeError (Bool × Decoder) := do
  let (b, self) ← self.readByte
  match b with
  | 0xF4 => return (false, self)
  | 0xF5 => return (true, self)
  | _ => throw .invalidType

def isNull (self : Decoder) : Except DecodeError (Bool × Decoder) :=
  match self.data[self.pos]? with
  | none => .error .unexpectedEof
  | some b => .ok (if b = 0xF6 then (true, { self with pos := self.pos + 1 }) else (false, self))

/-- The loops of `skip`. -/
def times (step : Decoder → Option (Except DecodeError Decoder)) :
    ℕ → Decoder → Option (Except DecodeError Decoder)
  | 0, self => some (.ok self)
  | n + 1, self =>
    match step self with
    | some (.ok self) => times step n self
    | result => result

/-- The first argument bounds the depth of the recursion. -/
def skip : ℕ → Decoder → Option (Except DecodeError Decoder)
  | 0, _ => none
  | depth + 1, self =>
    match self.readTypeArg with
    | .error e => some (.error e)
    | .ok ((major, arg), self) =>
      match major with
      | .unsigned | .negative => some (.ok self)
      | .bytes | .text => some ((self.readBytes arg.toNat).map Prod.snd)
      | .array => times (skip depth) arg.toNat self
      | .map => times (times (skip depth) 2) arg.toNat self
      | .tag => skip depth self
      | .simple =>
        -- the last byte read, which is the head only for arguments below 24
        match (self.data[self.pos - 1]?).map (· &&& (31 : UInt8)) with
        | some 25 => some ((self.readBytes 2).map Prod.snd)
        | some 26 => some ((self.readBytes 4).map Prod.snd)
        | some 27 => some ((self.readBytes 8).map Prod.snd)
        | _ => some (.ok self)

theorem skip_simple {depth : ℕ} {self self' : Decoder} {arg : UInt64}
    (h : self.readTypeArg = .ok ((.simple, arg), self')) : skip (depth + 1) self =
      match (self'.data[self'.pos - 1]?).map (· &&& (31 : UInt8)) with
      | some 25 => some ((self'.readBytes 2).map Prod.snd)
      | some 26 => some ((self'.readBytes 4).map Prod.snd)
      | some 27 => some ((self'.readBytes 8).map Prod.snd)
      | _ => some (.ok self') := by
  rw [skip, h]

end Decoder

/-! ### Heads -/

/-- The bytes of a major type with its argument. -/
def head (major : MajorType) (arg : UInt64) : Bytes := (Encoder.init.writeTypeArg major arg).buffer

@[simp] theorem Encoder.writeTypeArg_buffer (self : Encoder) (major : MajorType) (arg : UInt64) :
    (self.writeTypeArg major arg).buffer = self.buffer ++ head major arg := by
  unfold head writeTypeArg
  split_ifs <;> simp [appendSlice, init]

@[simp] theorem Encoder.appendSlice_buffer (self : Encoder) (bs : Bytes) :
    (self.appendSlice bs).buffer = self.buffer ++ bs := rfl

/-- A decoder between two parts of its data. -/
abbrev between (pre rest : Bytes) : Decoder := ⟨pre ++ rest, pre.length⟩

theorem readByte_between (pre rest : Bytes) (b : UInt8) :
    (between pre (b :: rest)).readByte = .ok (b, between (pre ++ [b]) rest) := by
  simp [Decoder.readByte]

theorem readBytes_between (pre bs rest : Bytes) {n : ℕ} (hn : bs.length = n) :
    (between pre (bs ++ rest)).readBytes n = .ok (bs, between (pre ++ bs) rest) := by
  subst hn
  simp [Decoder.readBytes]

theorem readBig_between (pre rest : Bytes) {w : ℕ} {arg : UInt64} (h : arg.toNat < 256 ^ w) :
    (between pre (toBe w arg.toNat ++ rest)).readBig w =
      .ok (arg, between (pre ++ toBe w arg.toNat) rest) := by
  rw [Decoder.readBig, readBytes_between _ _ _ (length_toBe w _)]
  simp [ofBe_toBe_of_lt h, bind, Except.bind, pure, Except.pure]

/-- A major type and five more bits come apart again. -/
theorem ofByte_head (major : MajorType) {x : UInt8} (h : x < 32) :
    MajorType.ofByte ((major.toByte <<< 5 ||| x) >>> 5) = major ∧
      (major.toByte <<< 5 ||| x) &&& 31 = x := by
  have hall : ∀ n : Fin 32,
      MajorType.ofByte ((major.toByte <<< 5 ||| UInt8.ofNat n) >>> 5) = major ∧
        (major.toByte <<< 5 ||| UInt8.ofNat n) &&& 31 = UInt8.ofNat n := by
    cases major <;> decide
  have hx : UInt8.ofNat x.toNat = x := UInt8.ofNat_toNat
  have := hall ⟨x.toNat, h⟩
  rwa [hx] at this

/-- A head starts with its major type and is read by its five other bits. -/
theorem readTypeArg_cons (pre rest : Bytes) (major : MajorType) {x : UInt8} (h : x < 32) :
    (between pre ((major.toByte <<< 5 ||| x) :: rest)).readTypeArg =
      ((between (pre ++ [major.toByte <<< 5 ||| x]) rest).readArg x).map fun r =>
        ((major, r.1), r.2) := by
  rw [Decoder.readTypeArg, readByte_between]
  simp only [bind, Except.bind, (ofByte_head major h).1, (ofByte_head major h).2]
  cases (between (pre ++ [major.toByte <<< 5 ||| x]) rest).readArg x <;> rfl

theorem readArg_lt (self : Decoder) {x : UInt8} (h : x < 24) :
    self.readArg x = .ok (x.toUInt64, self) := if_pos h

theorem readArg_25 (self : Decoder) : self.readArg 25 = self.readBig 2 := rfl

theorem readArg_26 (self : Decoder) : self.readArg 26 = self.readBig 4 := rfl

theorem readArg_27 (self : Decoder) : self.readArg 27 = self.readBig 8 := rfl

theorem readArg_24 (pre rest : Bytes) (b : UInt8) :
    (between pre (b :: rest)).readArg 24 = .ok (b.toUInt64, between (pre ++ [b]) rest) := by
  have h : (between pre (b :: rest)).readArg 24 = (do
      let (b, self) ← (between pre (b :: rest)).readByte
      return (b.toUInt64, self)) := rfl
  rw [h, readByte_between]
  rfl

theorem toUInt64_toUInt8 {arg : UInt64} (h : arg.toNat < 256) : arg.toUInt8.toUInt64 = arg := by
  apply UInt64.toNat_inj.mp
  rw [UInt8.toNat_toUInt64, UInt64.toNat_toUInt8]
  omega

/-- The decoder reads each head back and stops behind it. -/
theorem readTypeArg_head (pre rest : Bytes) (major : MajorType) (arg : UInt64) :
    (between pre (head major arg ++ rest)).readTypeArg =
      .ok ((major, arg), between (pre ++ head major arg) rest) := by
  unfold head Encoder.writeTypeArg
  split_ifs with h24 h8 h16 h32
  all_goals
    simp only [UInt64.lt_iff_toNat_lt, UInt64.le_iff_toNat_le, UInt64.reduceToNat] at *
    simp only [Encoder.init, Encoder.appendSlice, List.nil_append, List.cons_append]
  · have hlow : arg.toUInt8 < 24 := by
      rw [UInt8.lt_iff_toNat_lt, UInt64.toNat_toUInt8]
      exact show arg.toNat % 256 < 24 by omega
    have hfive : arg.toUInt8 < 32 := UInt8.lt_trans hlow (by decide)
    rw [readTypeArg_cons _ _ _ hfive, readArg_lt _ hlow, toUInt64_toUInt8 (by omega)]
    rfl
  · rw [readTypeArg_cons _ _ _ (by decide), readArg_24, toUInt64_toUInt8 (by omega)]
    simp [Except.map]
  · rw [readTypeArg_cons _ _ _ (by decide), readArg_25, readBig_between _ _ (by omega)]
    simp [Except.map]
  · rw [readTypeArg_cons _ _ _ (by decide), readArg_26, readBig_between _ _ (by omega)]
    simp [Except.map]
  · have hlt := arg.toNat_lt
    rw [readTypeArg_cons _ _ _ (by decide), readArg_27, readBig_between _ _ (by omega)]
    simp [Except.map]

theorem length_head (major : MajorType) (arg : UInt64) :
    (head major arg).length = if arg < 24 then 1 else if arg ≤ 0xFF then 2
      else if arg ≤ 0xFFFF then 3 else if arg ≤ 0xFFFFFFFF then 5 else 9 := by
  unfold head Encoder.writeTypeArg
  split_ifs <;> simp [Encoder.init, Encoder.appendSlice]

theorem length_head_le {w : ℕ} (major : MajorType) (arg : UInt64)
    (h : w = 1 ∧ arg.toNat < 24 ∨ w = 2 ∧ arg.toNat < 256 ∨ w = 3 ∧ arg.toNat < 256 ^ 2 ∨
      w = 5 ∧ arg.toNat < 256 ^ 4 ∨ w = 9) : (head major arg).length ≤ w := by
  rw [length_head]
  simp only [UInt64.lt_iff_toNat_lt, UInt64.le_iff_toNat_le, UInt64.reduceToNat]
  split_ifs <;> omega

theorem readByte_ok {self self' : Decoder} {b : UInt8} (h : self.readByte = .ok (b, self')) :
    self'.pos = self.pos + 1 := by
  unfold Decoder.readByte at h
  split at h
  · cases h
  · cases h
    rfl

theorem readBig_ok {self self' : Decoder} {w : ℕ} {arg : UInt64}
    (h : self.readBig w = .ok (arg, self')) :
    self'.pos = self.pos + w ∧ arg.toNat < 256 ^ w := by
  unfold Decoder.readBig Decoder.readBytes at h
  split_ifs at h with hlen
  · cases h
  · cases h
    refine ⟨rfl, ?_⟩
    have hbound := ofBe_lt ((self.data.drop self.pos).take w)
    rw [List.length_take, List.length_drop, min_eq_left (by omega)] at hbound
    exact lt_of_le_of_lt (Nat.mod_le _ _) hbound

/-- An argument that was read has no shorter head. -/
theorem readArg_ok {self self' : Decoder} {x : UInt8} {arg : UInt64} (major : MajorType)
    (h : self.readArg x = .ok (arg, self')) :
    self.pos + (head major arg).length ≤ self'.pos + 1 := by
  unfold Decoder.readArg at h
  split_ifs at h with hx
  · cases h
    have hlt : x.toUInt64.toNat < 24 := by
      rw [UInt8.toNat_toUInt64]
      exact hx
    have hlen := length_head_le (w := 1) major _ (.inl ⟨rfl, hlt⟩)
    omega
  · split at h
    · cases hb : self.readByte with
      | error e =>
        rw [hb] at h
        cases h
      | ok r =>
        rw [hb] at h
        cases h
        have hpos := readByte_ok hb
        have hlt : r.1.toUInt64.toNat < 256 := by
          rw [UInt8.toNat_toUInt64]
          exact r.1.toNat_lt
        have hlen := length_head_le (w := 2) major _ (.inr (.inl ⟨rfl, hlt⟩))
        omega
    · obtain ⟨hpos, hlt⟩ := readBig_ok h
      have hlen := length_head_le (w := 3) major arg (by tauto)
      omega
    · obtain ⟨hpos, hlt⟩ := readBig_ok h
      have hlen := length_head_le (w := 5) major arg (by tauto)
      omega
    · obtain ⟨hpos, hlt⟩ := readBig_ok h
      have hlen := length_head_le (w := 9) major arg (by tauto)
      omega
    · cases h

/-- Whatever bytes the decoder reads as a major type and an argument, the encoder writes no
more. -/
theorem head_shortest {self self' : Decoder} {major : MajorType} {arg : UInt64}
    (h : self.readTypeArg = .ok ((major, arg), self')) :
    self.pos + (head major arg).length ≤ self'.pos := by
  unfold Decoder.readTypeArg at h
  cases hb : self.readByte with
  | error e =>
    rw [hb] at h
    cases h
  | ok r =>
    rw [hb] at h
    cases ha : r.2.readArg (r.1 &&& 31) with
    | error e =>
      simp only [bind, Except.bind, ha] at h
      cases h
    | ok r' =>
      simp only [bind, Except.bind, ha] at h
      cases h
      have hpos := readByte_ok hb
      have hlen := readArg_ok (.ofByte (r.1 >>> 5)) ha
      omega

end NextgenDatabases.Lithoglyph.Cbor
