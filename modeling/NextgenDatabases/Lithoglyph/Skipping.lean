import Mathlib
import NextgenDatabases.Lithoglyph.Items

/-!
# Skipping CBOR items

Trees with floating point numbers of all widths, and exactly when the decoder skips them. Numbers
are given by their bits, and casts round to the nearest number of the other format.
-/
namespace NextgenDatabases.Lithoglyph.Cbor

open Foundations (Bytes toBe length_toBe)

/-! ### Floating point numbers -/

/-- The bits of the exponent and of the fraction. -/
structure FloatFormat where
  expBits : ℕ
  fracBits : ℕ

namespace FloatFormat

def f16 : FloatFormat := ⟨5, 10⟩

def f32 : FloatFormat := ⟨8, 23⟩

def f64 : FloatFormat := ⟨11, 52⟩

variable (fmt : FloatFormat)

def sign (bits : ℕ) : ℕ := bits / 2 ^ (fmt.expBits + fmt.fracBits) % 2

def expField (bits : ℕ) : ℕ := bits / 2 ^ fmt.fracBits % 2 ^ fmt.expBits

def frac (bits : ℕ) : ℕ := bits % 2 ^ fmt.fracBits

/-- The exponent of infinities and of what is not a number. -/
def maxExp : ℕ := 2 ^ fmt.expBits - 1

def isNan (bits : ℕ) : Prop := fmt.expField bits = fmt.maxExp ∧ fmt.frac bits ≠ 0

instance (bits : ℕ) : Decidable (fmt.isNan bits) := inferInstanceAs (Decidable (_ ∧ _))

/-- The smallest number is two to this power. -/
def minQuantum : ℤ := 2 - 2 ^ (fmt.expBits - 1) - fmt.fracBits

/-- A finite number is its significand times two to its quantum. -/
def significand (bits : ℕ) : ℕ :=
  if fmt.expField bits = 0 then fmt.frac bits else 2 ^ fmt.fracBits + fmt.frac bits

def quantum (bits : ℕ) : ℤ := fmt.minQuantum + (max (fmt.expField bits) 1 - 1 : ℕ)

end FloatFormat

/-- Division by two to a power, to the nearest and the even one of two. -/
def roundShift (m k : ℕ) : ℕ :=
  if 2 * (m % 2 ^ k) < 2 ^ k then m / 2 ^ k
  else if 2 ^ k < 2 * (m % 2 ^ k) then m / 2 ^ k + 1
  else m / 2 ^ k + m / 2 ^ k % 2

/-- The bits of the number in another format, without the sign. -/
def castMagnitude (src dst : FloatFormat) (bits : ℕ) : ℕ :=
  if src.expField bits = src.maxExp then
    dst.maxExp * 2 ^ dst.fracBits + if src.frac bits = 0 then 0 else 2 ^ (dst.fracBits - 1)
  else
    let m := src.significand bits
    let q := src.quantum bits
    let q' := max dst.minQuantum (Nat.log2 m + q - dst.fracBits)
    let m' := if q' ≤ q then m * 2 ^ (q - q').toNat else roundShift m (q' - q).toNat
    if m = 0 then 0
    else min ((q' - dst.minQuantum).toNat * 2 ^ dst.fracBits + m') (dst.maxExp * 2 ^ dst.fracBits)

def floatCast (src dst : FloatFormat) (bits : ℕ) : ℕ :=
  src.sign bits * 2 ^ (dst.expBits + dst.fracBits) + castMagnitude src dst bits

/-- Equality of numbers: zeros are equal, and what is not a number equals nothing. -/
def floatEq (a b : ℕ) : Prop :=
  ¬ FloatFormat.f64.isNan a ∧ ¬ FloatFormat.f64.isNan b ∧
    (a = b ∨ a % 2 ^ 63 = 0 ∧ b % 2 ^ 63 = 0)

instance (a b : ℕ) : Decidable (floatEq a b) := inferInstanceAs (Decidable (_ ∧ _ ∧ _))

/-- The smallest format that holds the number. -/
def Encoder.encodeFloat (self : Encoder) (value : UInt64) : Encoder :=
  let half := floatCast .f64 .f16 value.toNat
  let single := floatCast .f64 .f32 value.toNat
  if floatEq (floatCast .f16 .f64 half) value.toNat then
    (self.appendSlice [0xF9]).appendSlice (toBe 2 half)
  else if floatEq (floatCast .f32 .f64 single) value.toNat then
    (self.appendSlice [0xFA]).appendSlice (toBe 4 single)
  else (self.appendSlice [0xFB]).appendSlice (toBe 8 value.toNat)

def floatBytes (value : UInt64) : Bytes := (Encoder.init.encodeFloat value).finish

/-- `1.5`, `-0.0`, the smallest half, `100000.0`, `1.1` and infinity. -/
example : [0x3FF8000000000000, 0x8000000000000000, 0x3E70000000000000, 0x40F86A0000000000,
      0x3FF199999999999A, 0x7FF0000000000000].map floatBytes =
    [[0xF9, 0x3E, 0x00], [0xF9, 0x80, 0x00], [0xF9, 0x00, 0x01], [0xFA, 0x47, 0xC3, 0x50, 0x00],
      [0xFB, 0x3F, 0xF1, 0x99, 0x99, 0x99, 0x99, 0x99, 0x9A], [0xF9, 0x7C, 0x00]] := by
  decide +kernel

/-! ### Trees with floating point numbers -/

inductive Tree
  | uint (value : UInt64)
  | nint (value : Int64)
  | int (value : Int64)
  | bytes (data : Bytes)
  | text (text : Bytes)
  | array (items : List Tree)
  | map (entries : List (Tree × Tree))
  | tag (tag : UInt64) (item : Tree)
  | bool (value : Bool)
  | null
  | float (value : UInt64)

mutual

def Encoder.encodeTree (self : Encoder) : Tree → Encoder
  | .uint value => self.encodeUint value
  | .nint value => self.encodeNint value
  | .int value => self.encodeInt value
  | .bytes data => self.encodeBytes data
  | .text text => self.encodeText text
  | .array items => (self.beginArray items.length).encodeTrees items
  | .map entries => (self.beginMap entries.length).encodeTreePairs entries
  | .tag tag item => (self.encodeTag tag).encodeTree item
  | .bool value => self.encodeBool value
  | .null => self.encodeNull
  | .float value => self.encodeFloat value

def Encoder.encodeTrees (self : Encoder) : List Tree → Encoder
  | [] => self
  | item :: items => (self.encodeTree item).encodeTrees items

def Encoder.encodeTreePairs (self : Encoder) : List (Tree × Tree) → Encoder
  | [] => self
  | (key, value) :: entries => ((self.encodeTree key).encodeTree value).encodeTreePairs entries

end

/-- The bytes of a tree. -/
def treeBytes (t : Tree) : Bytes := (Encoder.init.encodeTree t).finish

mutual

/-- Lengths are of type `usize`. -/
def Tree.Fits : Tree → Prop
  | .bytes data => data.length < 2 ^ 64
  | .text data => data.length < 2 ^ 64
  | .array items => items.length < 2 ^ 64 ∧ Tree.AllFit items
  | .map entries => entries.length < 2 ^ 64 ∧ Tree.PairsFit entries
  | .tag _ item => item.Fits
  | _ => True

def Tree.AllFit : List Tree → Prop
  | [] => True
  | item :: items => item.Fits ∧ Tree.AllFit items

def Tree.PairsFit : List (Tree × Tree) → Prop
  | [] => True
  | (key, value) :: entries => key.Fits ∧ value.Fits ∧ Tree.PairsFit entries

end

/-- The first tree is the second one or an item in it, at any depth. -/
inductive Within (t : Tree) : Tree → Prop
  | refl : Within t t
  | item {u : Tree} {items : List Tree} : u ∈ items → Within t u → Within t (.array items)
  | key {key value : Tree} {entries : List (Tree × Tree)} :
      (key, value) ∈ entries → Within t key → Within t (.map entries)
  | value {key value : Tree} {entries : List (Tree × Tree)} :
      (key, value) ∈ entries → Within t value → Within t (.map entries)
  | tagged {tag : UInt64} {u : Tree} : Within t u → Within t (.tag tag u)

/-- The decoder skips the item from wherever it stands, and stops behind it. -/
def ExactlySkipped (t : Tree) : Prop :=
  ∀ pre rest, ∃ depth, ∀ more, Decoder.skip (depth + more) (between pre (treeBytes t ++ rest)) =
    some (.ok (between (pre ++ treeBytes t) rest))

/-- The bytes that are skipped behind a number whose last byte is this one. -/
def leftover (b : UInt8) : ℕ :=
  if b &&& 31 = 25 then 2 else if b &&& 31 = 26 then 4 else if b &&& 31 = 27 then 8 else 0

/-- The last byte of the number does not look like the head of another one. -/
def Aligned (value : UInt64) : Prop := ∀ b ∈ (floatBytes value).getLast?, leftover b = 0

/-! ### What a tree is written as -/

theorem Encoder.encodeNint_adds (value : Int64) :
    Adds (fun self => self.encodeNint value) (head .negative (-1 - value).toUInt64) :=
  writeTypeArg_adds .negative _

theorem Encoder.encodeNumber_adds (lead : UInt8) (payload : Bytes) :
    Adds (fun self => (self.appendSlice [lead]).appendSlice payload) (lead :: payload) := by
  intro self
  rw [appendSlice_buffer, appendSlice_buffer, List.append_assoc, List.singleton_append]

/-- The head of a number and its bytes. -/
theorem encodeFloat_cases (value : UInt64) :
    ∃ (x : UInt8) (payload : Bytes), (x = 25 ∧ payload.length = 2 ∨
      x = 26 ∧ payload.length = 4 ∨ x = 27 ∧ payload.length = 8) ∧
      Encoder.Adds (fun self => self.encodeFloat value)
        ((MajorType.simple.toByte <<< 5 ||| x) :: payload) := by
  have h16 : MajorType.simple.toByte <<< 5 ||| 25 = 0xF9 := by decide
  have h32 : MajorType.simple.toByte <<< 5 ||| 26 = 0xFA := by decide
  have h64 : MajorType.simple.toByte <<< 5 ||| 27 = 0xFB := by decide
  unfold Encoder.encodeFloat
  dsimp only
  split_ifs
  · refine ⟨25, toBe 2 (floatCast .f64 .f16 value.toNat), .inl ⟨rfl, length_toBe 2 _⟩, ?_⟩
    rw [h16]
    exact Encoder.encodeNumber_adds _ _
  · refine ⟨26, toBe 4 (floatCast .f64 .f32 value.toNat), .inr (.inl ⟨rfl, length_toBe 4 _⟩), ?_⟩
    rw [h32]
    exact Encoder.encodeNumber_adds _ _
  · refine ⟨27, toBe 8 value.toNat, .inr (.inr ⟨rfl, length_toBe 8 _⟩), ?_⟩
    rw [h64]
    exact Encoder.encodeNumber_adds _ _

mutual

theorem Encoder.encodeTree_adds (t : Tree) :
    ∃ bs, Adds (fun self => self.encodeTree t) bs := by
  cases t with
  | uint value => exact ⟨_, writeTypeArg_adds .unsigned value⟩
  | nint value => exact ⟨_, encodeNint_adds value⟩
  | int value => exact ⟨_, encodeInt_adds value⟩
  | bytes data => exact ⟨_, encodeString_adds .bytes data⟩
  | text text => exact ⟨_, encodeString_adds .text text⟩
  | array items =>
    obtain ⟨bs, hbs⟩ := Encoder.encodeTrees_adds items
    exact ⟨_, (writeTypeArg_adds .array _).comp hbs⟩
  | map entries =>
    obtain ⟨bs, hbs⟩ := Encoder.encodeTreePairs_adds entries
    exact ⟨_, (writeTypeArg_adds .map _).comp hbs⟩
  | tag tag item =>
    obtain ⟨bs, hbs⟩ := Encoder.encodeTree_adds item
    exact ⟨_, (writeTypeArg_adds .tag tag).comp hbs⟩
  | bool value => exact ⟨_, encodeBool_adds value⟩
  | null => exact ⟨_, encodeNull_adds⟩
  | float value =>
    obtain ⟨x, payload, -, hbs⟩ := encodeFloat_cases value
    exact ⟨_, hbs⟩

theorem Encoder.encodeTrees_adds (items : List Tree) :
    ∃ bs, Adds (fun self => self.encodeTrees items) bs := by
  cases items with
  | nil => exact ⟨[], fun self => (List.append_nil _).symm⟩
  | cons item items =>
    obtain ⟨first, hfirst⟩ := Encoder.encodeTree_adds item
    obtain ⟨bs, hbs⟩ := Encoder.encodeTrees_adds items
    exact ⟨_, hfirst.comp hbs⟩

theorem Encoder.encodeTreePairs_adds (entries : List (Tree × Tree)) :
    ∃ bs, Adds (fun self => self.encodeTreePairs entries) bs := by
  cases entries with
  | nil => exact ⟨[], fun self => (List.append_nil _).symm⟩
  | cons entry entries =>
    obtain ⟨key, value⟩ := entry
    obtain ⟨first, hfirst⟩ := Encoder.encodeTree_adds key
    obtain ⟨second, hsecond⟩ := Encoder.encodeTree_adds value
    obtain ⟨bs, hbs⟩ := Encoder.encodeTreePairs_adds entries
    exact ⟨_, (hfirst.comp hsecond).comp hbs⟩

end

theorem Encoder.encodeTree_writes (t : Tree) :
    Adds (fun self => self.encodeTree t) (treeBytes t) := by
  obtain ⟨bs, hbs⟩ := encodeTree_adds t
  rwa [treeBytes, hbs.init_eq]

def treesBytes (items : List Tree) : Bytes := (Encoder.init.encodeTrees items).finish

def pairsBytes (entries : List (Tree × Tree)) : Bytes :=
  (Encoder.init.encodeTreePairs entries).finish

theorem Encoder.encodeTrees_writes (items : List Tree) :
    Adds (fun self => self.encodeTrees items) (treesBytes items) := by
  obtain ⟨bs, hbs⟩ := encodeTrees_adds items
  rwa [treesBytes, hbs.init_eq]

theorem Encoder.encodeTreePairs_writes (entries : List (Tree × Tree)) :
    Adds (fun self => self.encodeTreePairs entries) (pairsBytes entries) := by
  obtain ⟨bs, hbs⟩ := encodeTreePairs_adds entries
  rwa [pairsBytes, hbs.init_eq]

theorem treeBytes_uint (value : UInt64) : treeBytes (.uint value) = head .unsigned value :=
  (Encoder.writeTypeArg_adds .unsigned value).init_eq

theorem treeBytes_nint (value : Int64) :
    treeBytes (.nint value) = head .negative (-1 - value).toUInt64 :=
  (Encoder.encodeNint_adds value).init_eq

theorem treeBytes_int (value : Int64) : treeBytes (.int value) = intHead value :=
  (Encoder.encodeInt_adds value).init_eq

theorem treeBytes_bytes (data : Bytes) :
    treeBytes (.bytes data) = head .bytes (.ofNat data.length) ++ data :=
  (Encoder.encodeString_adds .bytes data).init_eq

theorem treeBytes_text (text : Bytes) :
    treeBytes (.text text) = head .text (.ofNat text.length) ++ text :=
  (Encoder.encodeString_adds .text text).init_eq

theorem treeBytes_bool (value : Bool) :
    treeBytes (.bool value) = head .simple (if value then 21 else 20) :=
  (Encoder.encodeBool_adds value).init_eq

theorem treeBytes_null : treeBytes .null = head .simple 22 := Encoder.encodeNull_adds.init_eq

theorem treeBytes_float (value : UInt64) : treeBytes (.float value) = floatBytes value := by
  rw [treeBytes, Encoder.encodeTree, floatBytes]

theorem treeBytes_array (items : List Tree) :
    treeBytes (.array items) = head .array (.ofNat items.length) ++ treesBytes items :=
  ((Encoder.writeTypeArg_adds .array _).comp (Encoder.encodeTrees_writes items)).init_eq

theorem treeBytes_map (entries : List (Tree × Tree)) :
    treeBytes (.map entries) = head .map (.ofNat entries.length) ++ pairsBytes entries :=
  ((Encoder.writeTypeArg_adds .map _).comp (Encoder.encodeTreePairs_writes entries)).init_eq

theorem treeBytes_tag (tag : UInt64) (item : Tree) :
    treeBytes (.tag tag item) = head .tag tag ++ treeBytes item :=
  ((Encoder.writeTypeArg_adds .tag tag).comp (Encoder.encodeTree_writes item)).init_eq

theorem treesBytes_cons (item : Tree) (items : List Tree) :
    treesBytes (item :: items) = treeBytes item ++ treesBytes items :=
  ((Encoder.encodeTree_writes item).comp (Encoder.encodeTrees_writes items)).init_eq

theorem pairsBytes_cons (key value : Tree) (entries : List (Tree × Tree)) :
    pairsBytes ((key, value) :: entries) =
      treeBytes key ++ treeBytes value ++ pairsBytes entries :=
  (((Encoder.encodeTree_writes key).comp (Encoder.encodeTree_writes value)).comp
    (Encoder.encodeTreePairs_writes entries)).init_eq

/-! ### What is skipped -/

theorem getElem?_last (pre bs rest : Bytes) (h : bs ≠ []) :
    (pre ++ bs ++ rest)[(pre ++ bs).length - 1]? = bs.getLast? := by
  have hlen := List.length_pos_iff.mpr h
  rw [List.getElem?_append_left (by rw [List.length_append]; omega), List.length_append,
    List.getElem?_append_right (by omega), List.getLast?_eq_getElem?]
  congr 1
  omega

/-- A number is skipped with as many bytes behind it as its last byte says. -/
theorem skip_float (depth : ℕ) (value : UInt64) (pre rest : Bytes) :
    ∃ b, (floatBytes value).getLast? = some b ∧
      Decoder.skip (depth + 1) (between pre (floatBytes value ++ rest)) =
        some (((between (pre ++ floatBytes value) rest).readBytes (leftover b)).map Prod.snd) := by
  obtain ⟨x, payload, hx, hadds⟩ := encodeFloat_cases value
  have hbytes : floatBytes value = (MajorType.simple.toByte <<< 5 ||| x) :: payload := hadds.init_eq
  have hne : floatBytes value ≠ [] := by
    rw [hbytes]
    exact List.cons_ne_nil _ _
  have hhead : ∃ arg, (between pre (floatBytes value ++ rest)).readTypeArg =
      .ok ((.simple, arg), between (pre ++ floatBytes value) rest) := by
    have hlt : x < 32 := by
      rcases hx with ⟨rfl, -⟩ | ⟨rfl, -⟩ | ⟨rfl, -⟩ <;> decide
    rw [hbytes, List.cons_append, readTypeArg_cons _ _ _ hlt]
    rcases hx with ⟨rfl, hlen⟩ | ⟨rfl, hlen⟩ | ⟨rfl, hlen⟩
    · rw [readArg_25, Decoder.readBig, readBytes_between _ _ _ hlen, List.append_assoc]
      exact ⟨_, rfl⟩
    · rw [readArg_26, Decoder.readBig, readBytes_between _ _ _ hlen, List.append_assoc]
      exact ⟨_, rfl⟩
    · rw [readArg_27, Decoder.readBig, readBytes_between _ _ _ hlen, List.append_assoc]
      exact ⟨_, rfl⟩
  obtain ⟨arg, hhead⟩ := hhead
  refine ⟨(floatBytes value).getLast hne, List.getLast?_eq_some_getLast hne, ?_⟩
  have hnone : (between (pre ++ floatBytes value) rest).readBytes 0 =
      .ok ([], between (pre ++ floatBytes value) rest) := by
    simp [Decoder.readBytes]
  rw [Decoder.skip, hhead]
  simp only [getElem?_last _ _ _ hne, List.getLast?_eq_some_getLast hne, Option.map_some, leftover]
  split
  · rename_i h
    rw [Option.some.inj h]
    rfl
  · rename_i h
    rw [Option.some.inj h]
    rfl
  · rename_i h
    rw [Option.some.inj h]
    rfl
  · rename_i h25 h26 h27
    rw [if_neg fun h => h25 (congrArg some h), if_neg fun h => h26 (congrArg some h),
      if_neg fun h => h27 (congrArg some h), hnone]
    rfl

theorem skip_aligned {depth : ℕ} {value : UInt64} (h : Aligned value) :
    Skips (Decoder.skip (depth + 1)) (floatBytes value) := by
  intro pre rest
  obtain ⟨b, hlast, hskip⟩ := skip_float depth value pre rest
  rw [hskip, h b hlast]
  simp [Decoder.readBytes, Except.map]

theorem readBytes_end (pre : Bytes) {n : ℕ} (hn : n ≠ 0) :
    (between pre []).readBytes n = .error .unexpectedEof := by
  have hover : pre.length + n > (pre ++ []).length := by
    rw [List.append_nil]
    omega
  rw [Decoder.readBytes, if_pos hover]

/-- At the end of the data a number that is not aligned cannot be skipped. -/
theorem aligned_of_skipped {value : UInt64} (h : ExactlySkipped (.float value)) : Aligned value := by
  intro b hb
  obtain ⟨depth, hdepth⟩ := h [] []
  obtain ⟨b', hlast, hskip⟩ := skip_float depth value [] []
  obtain rfl := Option.some.inj (hb.symm.trans hlast)
  have hexact := hdepth 1
  rw [treeBytes_float, hskip] at hexact
  by_contra hleft
  rw [readBytes_end _ hleft] at hexact
  cases hexact

mutual

theorem skip_tree (t : Tree) (hfits : t.Fits)
    (h : ∀ value, Within (.float value) t → Aligned value) :
    ∃ depth, ∀ more, Skips (Decoder.skip (depth + more)) (treeBytes t) := by
  cases t with
  | uint value =>
    refine ⟨1, fun more => ?_⟩
    rw [treeBytes_uint, Nat.add_comm]
    exact skip_number value (.inl rfl)
  | nint value =>
    refine ⟨1, fun more => ?_⟩
    rw [treeBytes_nint, Nat.add_comm]
    exact skip_number _ (.inr rfl)
  | int value =>
    refine ⟨1, fun more => ?_⟩
    rw [treeBytes_int, intHead, Nat.add_comm]
    split_ifs
    · exact skip_number _ (.inl rfl)
    · exact skip_number _ (.inr rfl)
  | bytes data =>
    rw [Tree.Fits] at hfits
    refine ⟨1, fun more => ?_⟩
    rw [treeBytes_bytes, Nat.add_comm]
    exact skip_string hfits (.inl rfl)
  | text text =>
    rw [Tree.Fits] at hfits
    refine ⟨1, fun more => ?_⟩
    rw [treeBytes_text, Nat.add_comm]
    exact skip_string hfits (.inr rfl)
  | array items =>
    rw [Tree.Fits] at hfits
    obtain ⟨depth, hitems⟩ := skip_trees items hfits.2 fun t ht value hvalue =>
      h value (.item ht hvalue)
    refine ⟨depth + 1, fun more pre rest => ?_⟩
    rw [treeBytes_array, Nat.add_right_comm, Decoder.skip, List.append_assoc, readTypeArg_head]
    simp only [toNat_ofNat_length hfits.1, hitems more _ rest, List.append_assoc]
  | map entries =>
    rw [Tree.Fits] at hfits
    obtain ⟨depth, hentries⟩ := skip_treePairs entries hfits.2 fun key val hentry value hvalue =>
      h value (hvalue.elim (.key hentry) (.value hentry))
    refine ⟨depth + 1, fun more pre rest => ?_⟩
    rw [treeBytes_map, Nat.add_right_comm, Decoder.skip, List.append_assoc, readTypeArg_head]
    simp only [toNat_ofNat_length hfits.1, hentries more _ rest, List.append_assoc]
  | tag tag item =>
    rw [Tree.Fits] at hfits
    obtain ⟨depth, hitem⟩ := skip_tree item hfits fun value hvalue => h value (.tagged hvalue)
    refine ⟨depth + 1, fun more pre rest => ?_⟩
    rw [treeBytes_tag, Nat.add_right_comm, Decoder.skip, List.append_assoc, readTypeArg_head]
    simp only [hitem more _ rest, List.append_assoc]
  | bool value =>
    refine ⟨1, fun more => ?_⟩
    rw [treeBytes_bool, Nat.add_comm]
    cases value with
    | false => exact skip_simple (.inl rfl)
    | true => exact skip_simple (.inr (.inl rfl))
  | null =>
    refine ⟨1, fun more => ?_⟩
    rw [treeBytes_null, Nat.add_comm]
    exact skip_simple (.inr (.inr rfl))
  | float value =>
    refine ⟨1, fun more => ?_⟩
    rw [treeBytes_float, Nat.add_comm]
    exact skip_aligned (h value .refl)

theorem skip_trees (items : List Tree) (hfits : Tree.AllFit items)
    (h : ∀ t ∈ items, ∀ value, Within (.float value) t → Aligned value) :
    ∃ depth, ∀ more,
      Skips (Decoder.times (Decoder.skip (depth + more)) items.length) (treesBytes items) := by
  cases items with
  | nil => exact ⟨0, fun more => Skips.nil _⟩
  | cons item items =>
    rw [Tree.AllFit] at hfits
    obtain ⟨hitem, hrest⟩ := List.forall_mem_cons.mp h
    obtain ⟨depth, hfirst⟩ := skip_tree item hfits.1 hitem
    obtain ⟨depth', hitems⟩ := skip_trees items hfits.2 hrest
    refine ⟨depth + depth', fun more => ?_⟩
    have hfirst := hfirst (depth' + more)
    have hitems := hitems (depth + more)
    rw [← Nat.add_assoc] at hfirst
    rw [← Nat.add_assoc, Nat.add_comm depth'] at hitems
    rw [treesBytes_cons, List.length_cons]
    exact hfirst.comp_times hitems

theorem skip_treePairs (entries : List (Tree × Tree)) (hfits : Tree.PairsFit entries)
    (h : ∀ key value, (key, value) ∈ entries → ∀ number,
      Within (.float number) key ∨ Within (.float number) value → Aligned number) :
    ∃ depth, ∀ more,
      Skips (Decoder.times (Decoder.times (Decoder.skip (depth + more)) 2) entries.length)
        (pairsBytes entries) := by
  cases entries with
  | nil => exact ⟨0, fun more => Skips.nil _⟩
  | cons entry entries =>
    obtain ⟨key, value⟩ := entry
    rw [Tree.PairsFit] at hfits
    have hhere := h key value List.mem_cons_self
    obtain ⟨depth, hkey⟩ := skip_tree key hfits.1 fun number hnumber => hhere number (.inl hnumber)
    obtain ⟨depth', hvalue⟩ := skip_tree value hfits.2.1 fun number hnumber =>
      hhere number (.inr hnumber)
    obtain ⟨depth'', hentries⟩ := skip_treePairs entries hfits.2.2 fun key value hentry =>
      h key value (List.mem_cons_of_mem _ hentry)
    refine ⟨depth + depth' + depth'', fun more => ?_⟩
    have hfirst := hkey (depth' + depth'' + more)
    have hsecond := hvalue (depth + depth'' + more)
    have hrest := hentries (depth + depth' + more)
    rw [show depth + (depth' + depth'' + more) = depth + depth' + depth'' + more by omega] at hfirst
    rw [show depth' + (depth + depth'' + more) = depth + depth' + depth'' + more by omega] at hsecond
    rw [show depth'' + (depth + depth' + more) = depth + depth' + depth'' + more by omega] at hrest
    rw [pairsBytes_cons, List.length_cons]
    have hentry := hfirst.comp_times (hsecond.comp_times (Skips.nil _))
    rw [List.append_nil] at hentry
    exact hentry.comp_times hrest

end

theorem Within.trans {t u v : Tree} (h : Within t u) (h' : Within u v) : Within t v := by
  induction h' with
  | refl => exact h
  | item hmem _ ih => exact .item hmem ih
  | key hmem _ ih => exact .key hmem ih
  | value hmem _ ih => exact .value hmem ih
  | tagged _ ih => exact .tagged ih

theorem Tree.AllFit.mem {items : List Tree} {t : Tree} (h : Tree.AllFit items) (ht : t ∈ items) :
    t.Fits := by
  induction items with
  | nil => cases ht
  | cons item items ih =>
    rw [Tree.AllFit] at h
    rcases List.mem_cons.mp ht with rfl | ht
    · exact h.1
    · exact ih h.2 ht

theorem Tree.PairsFit.mem {entries : List (Tree × Tree)} {key value : Tree}
    (h : Tree.PairsFit entries) (hentry : (key, value) ∈ entries) : key.Fits ∧ value.Fits := by
  induction entries with
  | nil => cases hentry
  | cons entry entries ih =>
    obtain ⟨key', value'⟩ := entry
    rw [Tree.PairsFit] at h
    rcases List.mem_cons.mp hentry with heq | hentry
    · cases heq
      exact ⟨h.1, h.2.1⟩
    · exact ih h.2.2 hentry

theorem Within.fits {t u : Tree} (h : Within t u) (hu : u.Fits) : t.Fits := by
  induction h with
  | refl => exact hu
  | item hmem _ ih =>
    rw [Tree.Fits] at hu
    exact ih (hu.2.mem hmem)
  | key hmem _ ih =>
    rw [Tree.Fits] at hu
    exact ih (hu.2.mem hmem).1
  | value hmem _ ih =>
    rw [Tree.Fits] at hu
    exact ih (hu.2.mem hmem).2
  | tagged _ ih =>
    rw [Tree.Fits] at hu
    exact ih hu

/-- All items of a tree are skipped exactly if no number in it ends like the head of another. -/
theorem skip_exact_iff (t : Tree) (ht : t.Fits) :
    (∀ u, Within u t → ExactlySkipped u) ↔ ∀ value, Within (.float value) t → Aligned value := by
  constructor
  · intro h value hvalue
    exact aligned_of_skipped (h _ hvalue)
  · intro h u hu pre rest
    obtain ⟨depth, hdepth⟩ := skip_tree u (hu.fits ht) fun value hvalue => h value (hvalue.trans hu)
    exact ⟨depth, fun more => hdepth more pre rest⟩

/-- `{"a": [1.5, null]}` -/
def sampleTree : Tree := .map [(.text [0x61], .array [.float 0x3FF8000000000000, .null])]

theorem skip_exact_iff_sample :
    (∀ u, Within u sampleTree → ExactlySkipped u) ↔
      ∀ value, Within (.float value) sampleTree → Aligned value :=
  skip_exact_iff sampleTree (by simp [sampleTree, Tree.Fits, Tree.AllFit, Tree.PairsFit])

/-- `1.0244140625`, whose last byte is `0x19`, and a null behind it. -/
theorem number_swallows_next :
    Decoder.skip 1 (between [] (treeBytes (.float 0x3FF0640000000000) ++ [0xF6, 0xF6, 0xF6])) =
      some (.ok (between (treeBytes (.float 0x3FF0640000000000) ++ [0xF6, 0xF6]) [0xF6])) ∧
      ¬ ExactlySkipped (.float 0x3FF0640000000000) := by
  have hbytes : treeBytes (.float 0x3FF0640000000000) = [0xF9, 0x3C, 0x19] := by decide +kernel
  refine ⟨?_, fun h => ?_⟩
  · rw [hbytes]
    decide
  · obtain ⟨depth, hdepth⟩ := h [] []
    have hskip : Decoder.skip (depth + 1) (between [] ([0xF9, 0x3C, 0x19] ++ [])) =
        some (.error .unexpectedEof) := by
      rw [Decoder.skip]
      rfl
    have hexact := hdepth 1
    rw [hbytes, hskip] at hexact
    cases hexact

end NextgenDatabases.Lithoglyph.Cbor
