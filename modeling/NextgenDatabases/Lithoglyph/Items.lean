import NextgenDatabases.Lithoglyph.Cbor

/-!
# Trees of CBOR items

Trees are written with the calls of the encoder and read with the matching calls of the
decoder. What is written is read back and nothing else is consumed, and no tree is written as
a proper beginning of another.
-/
namespace NextgenDatabases.Lithoglyph.Cbor

open Foundations (Bytes)

inductive Item
  | uint (value : UInt64)
  | int (value : Int64)
  | bytes (data : Bytes)
  | text (text : Bytes)
  | array (items : List Item)
  | map (entries : List (Item × Item))
  | tag (tag : UInt64) (item : Item)
  | bool (value : Bool)
  | null

/-- The calls that read a tree, in order. -/
inductive Shape
  | uint | int | bytes | text
  | array (items : List Shape)
  | map (entries : List (Shape × Shape))
  | tag (item : Shape)
  | bool | null

/-! ### Writing and reading -/

mutual

def Encoder.encodeItem (self : Encoder) : Item → Encoder
  | .uint value => self.encodeUint value
  | .int value => self.encodeInt value
  | .bytes data => self.encodeBytes data
  | .text text => self.encodeText text
  | .array items => (self.beginArray items.length).encodeItems items
  | .map entries => (self.beginMap entries.length).encodeEntries entries
  | .tag tag item => (self.encodeTag tag).encodeItem item
  | .bool value => self.encodeBool value
  | .null => self.encodeNull

def Encoder.encodeItems (self : Encoder) : List Item → Encoder
  | [] => self
  | item :: items => (self.encodeItem item).encodeItems items

def Encoder.encodeEntries (self : Encoder) : List (Item × Item) → Encoder
  | [] => self
  | (key, value) :: entries => ((self.encodeItem key).encodeItem value).encodeEntries entries

end

mutual

def Item.shape : Item → Shape
  | .uint _ => .uint
  | .int _ => .int
  | .bytes _ => .bytes
  | .text _ => .text
  | .array items => .array (Item.shapes items)
  | .map entries => .map (Item.entryShapes entries)
  | .tag _ item => .tag item.shape
  | .bool _ => .bool
  | .null => .null

def Item.shapes : List Item → List Shape
  | [] => []
  | item :: items => item.shape :: Item.shapes items

def Item.entryShapes : List (Item × Item) → List (Shape × Shape)
  | [] => []
  | (key, value) :: entries => (key.shape, value.shape) :: Item.entryShapes entries

end

mutual

/-- The reader fails where the length of an array or a map is not the expected one. -/
def Decoder.decodeItem (self : Decoder) : Shape → Except DecodeError (Item × Decoder)
  | .uint => do
    let (value, self) ← self.decodeUint
    return (.uint value, self)
  | .int => do
    let (value, self) ← self.decodeInt
    return (.int value, self)
  | .bytes => do
    let (data, self) ← self.decodeBytes
    return (.bytes data, self)
  | .text => do
    let (text, self) ← self.decodeText
    return (.text text, self)
  | .array shapes => do
    let (len, self) ← self.decodeArrayLen
    if len ≠ shapes.length then throw .invalidValue
    let (items, self) ← self.decodeItems shapes
    return (.array items, self)
  | .map shapes => do
    let (len, self) ← self.decodeMapLen
    if len ≠ shapes.length then throw .invalidValue
    let (entries, self) ← self.decodeEntries shapes
    return (.map entries, self)
  | .tag shape => do
    let (tag, self) ← self.decodeTag
    let (item, self) ← self.decodeItem shape
    return (.tag tag item, self)
  | .bool => do
    let (value, self) ← self.decodeBool
    return (.bool value, self)
  | .null => do
    let (null, self) ← self.isNull
    if null = false then throw .invalidType
    return (.null, self)

def Decoder.decodeItems (self : Decoder) : List Shape → Except DecodeError (List Item × Decoder)
  | [] => .ok ([], self)
  | shape :: shapes => do
    let (item, self) ← self.decodeItem shape
    let (items, self) ← self.decodeItems shapes
    return (item :: items, self)

def Decoder.decodeEntries (self : Decoder) :
    List (Shape × Shape) → Except DecodeError (List (Item × Item) × Decoder)
  | [] => .ok ([], self)
  | (key, value) :: shapes => do
    let (key, self) ← self.decodeItem key
    let (value, self) ← self.decodeItem value
    let (entries, self) ← self.decodeEntries shapes
    return ((key, value) :: entries, self)

end

mutual

/-- Lengths are of type `usize`. -/
def Item.Fits : Item → Prop
  | .bytes data => data.length < 2 ^ 64
  | .text data => data.length < 2 ^ 64
  | .array items => items.length < 2 ^ 64 ∧ Item.AllFit items
  | .map entries => entries.length < 2 ^ 64 ∧ Item.EntriesFit entries
  | .tag _ item => item.Fits
  | _ => True

def Item.AllFit : List Item → Prop
  | [] => True
  | item :: items => item.Fits ∧ Item.AllFit items

def Item.EntriesFit : List (Item × Item) → Prop
  | [] => True
  | (key, value) :: entries => key.Fits ∧ value.Fits ∧ Item.EntriesFit entries

end

/-- The bytes of a tree. -/
def encode (item : Item) : Bytes := (Encoder.init.encodeItem item).finish

def encodeAll (items : List Item) : Bytes := (Encoder.init.encodeItems items).finish

def encodePairs (entries : List (Item × Item)) : Bytes :=
  (Encoder.init.encodeEntries entries).finish

/-! ### What a tree is written as -/

/-- `f` writes `bs` behind what is there. -/
def Encoder.Adds (f : Encoder → Encoder) (bs : Bytes) : Prop :=
  ∀ self, (f self).buffer = self.buffer ++ bs

theorem Encoder.Adds.comp {f g : Encoder → Encoder} {bs bs' : Bytes} (hf : Adds f bs)
    (hg : Adds g bs') : Adds (fun self => g (f self)) (bs ++ bs') := by
  intro self
  rw [hg, hf, List.append_assoc]

theorem Encoder.Adds.init_eq {f : Encoder → Encoder} {bs : Bytes} (hf : Adds f bs) :
    (f init).finish = bs := by
  rw [finish, hf]
  exact List.nil_append bs

theorem Encoder.writeTypeArg_adds (major : MajorType) (arg : UInt64) :
    Adds (fun self => self.writeTypeArg major arg) (head major arg) :=
  fun self => writeTypeArg_buffer self major arg

/-- The head of a signed integer. -/
def intHead (value : Int64) : Bytes :=
  if 0 ≤ value then head .unsigned value.toUInt64 else head .negative (-1 - value).toUInt64

theorem Encoder.encodeInt_buffer (self : Encoder) (value : Int64) :
    (self.encodeInt value).buffer = self.buffer ++ intHead value := by
  unfold encodeInt intHead
  split_ifs
  · exact writeTypeArg_buffer self _ _
  · exact writeTypeArg_buffer self _ _

theorem Encoder.encodeInt_adds (value : Int64) :
    Adds (fun self => self.encodeInt value) (intHead value) :=
  fun self => encodeInt_buffer self value

theorem Encoder.encodeBool_adds (value : Bool) :
    Adds (fun self => self.encodeBool value) (head .simple (if value then 21 else 20)) := by
  intro self
  cases value <;> rfl

theorem Encoder.encodeNull_adds : Adds encodeNull (head .simple 22) := by
  intro self
  rfl

/-- What is written for a string. -/
theorem Encoder.encodeString_adds (major : MajorType) (data : Bytes) :
    Adds (fun self => (self.writeTypeArg major (.ofNat data.length)).appendSlice data)
      (head major (.ofNat data.length) ++ data) :=
  (writeTypeArg_adds major _).comp fun self => appendSlice_buffer self data

mutual

theorem Encoder.encodeItem_adds (item : Item) :
    ∃ bs, Adds (fun self => self.encodeItem item) bs := by
  cases item with
  | uint value => exact ⟨_, writeTypeArg_adds .unsigned value⟩
  | int value => exact ⟨_, encodeInt_adds value⟩
  | bytes data => exact ⟨_, encodeString_adds .bytes data⟩
  | text text => exact ⟨_, encodeString_adds .text text⟩
  | array items =>
    obtain ⟨bs, hbs⟩ := Encoder.encodeItems_adds items
    exact ⟨_, (writeTypeArg_adds .array _).comp hbs⟩
  | map entries =>
    obtain ⟨bs, hbs⟩ := Encoder.encodeEntries_adds entries
    exact ⟨_, (writeTypeArg_adds .map _).comp hbs⟩
  | tag tag item =>
    obtain ⟨bs, hbs⟩ := Encoder.encodeItem_adds item
    exact ⟨_, (writeTypeArg_adds .tag tag).comp hbs⟩
  | bool value => exact ⟨_, encodeBool_adds value⟩
  | null => exact ⟨_, encodeNull_adds⟩

theorem Encoder.encodeItems_adds (items : List Item) :
    ∃ bs, Adds (fun self => self.encodeItems items) bs := by
  cases items with
  | nil => exact ⟨[], fun self => (List.append_nil _).symm⟩
  | cons item items =>
    obtain ⟨first, hfirst⟩ := Encoder.encodeItem_adds item
    obtain ⟨bs, hbs⟩ := Encoder.encodeItems_adds items
    exact ⟨_, hfirst.comp hbs⟩

theorem Encoder.encodeEntries_adds (entries : List (Item × Item)) :
    ∃ bs, Adds (fun self => self.encodeEntries entries) bs := by
  cases entries with
  | nil => exact ⟨[], fun self => (List.append_nil _).symm⟩
  | cons entry entries =>
    obtain ⟨key, value⟩ := entry
    obtain ⟨first, hfirst⟩ := Encoder.encodeItem_adds key
    obtain ⟨second, hsecond⟩ := Encoder.encodeItem_adds value
    obtain ⟨bs, hbs⟩ := Encoder.encodeEntries_adds entries
    exact ⟨_, (hfirst.comp hsecond).comp hbs⟩

end

/-- A tree is written behind what is there. -/
theorem Encoder.encodeItem_writes (item : Item) :
    Adds (fun self => self.encodeItem item) (encode item) := by
  obtain ⟨bs, hbs⟩ := encodeItem_adds item
  rwa [encode, hbs.init_eq]

theorem Encoder.encodeItems_writes (items : List Item) :
    Adds (fun self => self.encodeItems items) (encodeAll items) := by
  obtain ⟨bs, hbs⟩ := encodeItems_adds items
  rwa [encodeAll, hbs.init_eq]

theorem Encoder.encodeEntries_writes (entries : List (Item × Item)) :
    Adds (fun self => self.encodeEntries entries) (encodePairs entries) := by
  obtain ⟨bs, hbs⟩ := encodeEntries_adds entries
  rwa [encodePairs, hbs.init_eq]

@[simp] theorem encode_uint (value : UInt64) : encode (.uint value) = head .unsigned value :=
  (Encoder.writeTypeArg_adds _ _).init_eq

@[simp] theorem encode_int (value : Int64) : encode (.int value) = intHead value :=
  (Encoder.encodeInt_adds value).init_eq

@[simp] theorem encode_bytes (data : Bytes) :
    encode (.bytes data) = head .bytes (.ofNat data.length) ++ data :=
  (Encoder.encodeString_adds .bytes data).init_eq

@[simp] theorem encode_text (text : Bytes) :
    encode (.text text) = head .text (.ofNat text.length) ++ text :=
  (Encoder.encodeString_adds .text text).init_eq

@[simp] theorem encode_array (items : List Item) :
    encode (.array items) = head .array (.ofNat items.length) ++ encodeAll items :=
  ((Encoder.writeTypeArg_adds .array _).comp (Encoder.encodeItems_writes items)).init_eq

@[simp] theorem encode_map (entries : List (Item × Item)) :
    encode (.map entries) = head .map (.ofNat entries.length) ++ encodePairs entries :=
  ((Encoder.writeTypeArg_adds .map _).comp (Encoder.encodeEntries_writes entries)).init_eq

@[simp] theorem encode_tag (tag : UInt64) (item : Item) :
    encode (.tag tag item) = head .tag tag ++ encode item :=
  ((Encoder.writeTypeArg_adds .tag tag).comp (Encoder.encodeItem_writes item)).init_eq

@[simp] theorem encode_bool (value : Bool) :
    encode (.bool value) = head .simple (if value then 21 else 20) :=
  (Encoder.encodeBool_adds value).init_eq

@[simp] theorem encode_null : encode .null = head .simple 22 := Encoder.encodeNull_adds.init_eq

@[simp] theorem encodeAll_nil : encodeAll [] = [] := rfl

@[simp] theorem encodeAll_cons (item : Item) (items : List Item) :
    encodeAll (item :: items) = encode item ++ encodeAll items :=
  ((Encoder.encodeItem_writes item).comp (Encoder.encodeItems_writes items)).init_eq

@[simp] theorem encodePairs_nil : encodePairs [] = [] := rfl

@[simp] theorem encodePairs_cons (key value : Item) (entries : List (Item × Item)) :
    encodePairs ((key, value) :: entries) = encode key ++ encode value ++ encodePairs entries :=
  (((Encoder.encodeItem_writes key).comp (Encoder.encodeItem_writes value)).comp
    (Encoder.encodeEntries_writes entries)).init_eq

/-! ### Reading a tree back -/

section

variable (pre rest : Bytes)

theorem readMajor_head (major : MajorType) (arg : UInt64) :
    (between pre (head major arg ++ rest)).readMajor major =
      .ok (arg, between (pre ++ head major arg) rest) := by
  simp [Decoder.readMajor, readTypeArg_head, bind, Except.bind, pure, Except.pure]

theorem toNat_ofNat_length {α : Type} {xs : List α} (h : xs.length < 2 ^ 64) :
    (UInt64.ofNat xs.length).toNat = xs.length :=
  UInt64.toNat_ofNat_of_lt h

/-- A string and its head. -/
theorem readString_between {major : MajorType} {data : Bytes} (h : data.length < 2 ^ 64) :
    (do
      let (len, self) ← (between pre (head major (.ofNat data.length) ++ data ++ rest)).readMajor
        major
      self.readBytes len.toNat) =
      .ok (data, between (pre ++ (head major (.ofNat data.length) ++ data)) rest) := by
  rw [List.append_assoc, readMajor_head]
  simp only [bind, Except.bind]
  rw [readBytes_between _ _ _ (toNat_ofNat_length h).symm, List.append_assoc]

theorem decodeInt_between (value : Int64) :
    (between pre (intHead value ++ rest)).decodeInt =
      .ok (value, between (pre ++ intHead value) rest) := by
  unfold intHead Decoder.decodeInt
  split_ifs
  · simp [readTypeArg_head, bind, Except.bind, pure, Except.pure]
  · have hback : -1 - (-1 - value) = value := by grind
    simp [readTypeArg_head, bind, Except.bind, pure, Except.pure, hback]

theorem decodeBool_between (value : Bool) :
    (between pre (head .simple (if value then 21 else 20) ++ rest)).decodeBool =
      .ok (value, between (pre ++ head .simple (if value then 21 else 20)) rest) := by
  have hbyte : head .simple (if value then 21 else 20) = [if value then 0xF5 else 0xF4] := by
    cases value <;> decide
  rw [hbyte, List.singleton_append, Decoder.decodeBool, readByte_between]
  cases value <;> rfl

theorem isNull_between :
    (between pre (head .simple 22 ++ rest)).isNull =
      .ok (true, between (pre ++ head .simple 22) rest) := by
  have hbyte : head .simple 22 = [0xF6] := by decide
  simp [hbyte, Decoder.isNull]

end

theorem length_shapes (items : List Item) : (Item.shapes items).length = items.length := by
  induction items with
  | nil => rfl
  | cons item items ih => simp [Item.shapes, ih]

theorem length_entryShapes (entries : List (Item × Item)) :
    (Item.entryShapes entries).length = entries.length := by
  induction entries with
  | nil => rfl
  | cons entry entries ih => simp [Item.entryShapes, ih]

mutual

/-- The matching calls return the tree and stop behind its bytes. -/
theorem decodeItem_between (pre rest : Bytes) (item : Item) (h : item.Fits) :
    (between pre (encode item ++ rest)).decodeItem item.shape =
      .ok (item, between (pre ++ encode item) rest) := by
  cases item with
  | uint value =>
    rw [encode_uint, Item.shape, Decoder.decodeItem, Decoder.decodeUint, readMajor_head]
    rfl
  | int value =>
    rw [encode_int, Item.shape, Decoder.decodeItem, decodeInt_between]
    rfl
  | bytes data =>
    rw [Item.Fits] at h
    rw [encode_bytes, Item.shape, Decoder.decodeItem, Decoder.decodeBytes,
      readString_between pre rest h]
    rfl
  | text text =>
    rw [Item.Fits] at h
    rw [encode_text, Item.shape, Decoder.decodeItem, Decoder.decodeText,
      readString_between pre rest h]
    rfl
  | array items =>
    rw [Item.Fits] at h
    have hitems := decodeItems_between (pre ++ head .array (.ofNat items.length)) rest items h.2
    rw [encode_array, Item.shape, Decoder.decodeItem, Decoder.decodeArrayLen, List.append_assoc,
      readMajor_head, ← List.append_assoc]
    simp [bind, Except.bind, pure, Except.pure, toNat_ofNat_length h.1, length_shapes, hitems]
  | map entries =>
    rw [Item.Fits] at h
    have hentries := decodeEntries_between (pre ++ head .map (.ofNat entries.length)) rest entries
      h.2
    rw [encode_map, Item.shape, Decoder.decodeItem, Decoder.decodeMapLen, List.append_assoc,
      readMajor_head, ← List.append_assoc]
    simp [bind, Except.bind, pure, Except.pure, toNat_ofNat_length h.1, length_entryShapes,
      hentries]
  | tag tag item =>
    rw [Item.Fits] at h
    have hitem := decodeItem_between (pre ++ head .tag tag) rest item h
    rw [encode_tag, Item.shape, Decoder.decodeItem, Decoder.decodeTag, List.append_assoc,
      readMajor_head, ← List.append_assoc]
    simp [bind, Except.bind, pure, Except.pure, hitem]
  | bool value =>
    rw [encode_bool, Item.shape, Decoder.decodeItem, decodeBool_between]
    rfl
  | null =>
    rw [encode_null, Item.shape, Decoder.decodeItem, isNull_between]
    rfl

theorem decodeItems_between (pre rest : Bytes) (items : List Item) (h : Item.AllFit items) :
    (between pre (encodeAll items ++ rest)).decodeItems (Item.shapes items) =
      .ok (items, between (pre ++ encodeAll items) rest) := by
  cases items with
  | nil => simp [Item.shapes, Decoder.decodeItems]
  | cons item items =>
    rw [Item.AllFit] at h
    have hitem := decodeItem_between pre (encodeAll items ++ rest) item h.1
    have hitems := decodeItems_between (pre ++ encode item) rest items h.2
    rw [encodeAll_cons, Item.shapes, Decoder.decodeItems, List.append_assoc, hitem]
    simp [bind, Except.bind, pure, Except.pure, hitems]

theorem decodeEntries_between (pre rest : Bytes) (entries : List (Item × Item))
    (h : Item.EntriesFit entries) :
    (between pre (encodePairs entries ++ rest)).decodeEntries (Item.entryShapes entries) =
      .ok (entries, between (pre ++ encodePairs entries) rest) := by
  cases entries with
  | nil => simp [Item.entryShapes, Decoder.decodeEntries]
  | cons entry entries =>
    obtain ⟨key, value⟩ := entry
    rw [Item.EntriesFit] at h
    have hkey := decodeItem_between pre (encode value ++ (encodePairs entries ++ rest)) key h.1
    have hvalue := decodeItem_between (pre ++ encode key) (encodePairs entries ++ rest) value h.2.1
    have hentries := decodeEntries_between (pre ++ encode key ++ encode value) rest entries h.2.2
    rw [encodePairs_cons, Item.entryShapes, Decoder.decodeEntries, List.append_assoc,
      List.append_assoc, hkey]
    simp only [bind, Except.bind, hvalue, hentries, pure, Except.pure]
    rw [List.append_assoc pre, List.append_assoc pre]

end

/-! ### Prefix code -/

/-- `step` goes over `bs`, whatever stands around it. -/
def Skips (step : Decoder → Option (Except DecodeError Decoder)) (bs : Bytes) : Prop :=
  ∀ pre rest, step (between pre (bs ++ rest)) = some (.ok (between (pre ++ bs) rest))

theorem Skips.comp_times {step : Decoder → Option (Except DecodeError Decoder)} {n : ℕ}
    {first bs : Bytes} (hfirst : Skips step first) (hbs : Skips (Decoder.times step n) bs) :
    Skips (Decoder.times step (n + 1)) (first ++ bs) := by
  intro pre rest
  have hrest := hbs (pre ++ first) rest
  rw [Decoder.times, List.append_assoc, hfirst, ← List.append_assoc]
  exact hrest

theorem Skips.nil (step : Decoder → Option (Except DecodeError Decoder)) :
    Skips (Decoder.times step 0) [] := by
  intro pre rest
  simp [Decoder.times]

/-- A number is skipped with its head. -/
theorem skip_number {depth : ℕ} {major : MajorType} (arg : UInt64)
    (h : major = .unsigned ∨ major = .negative) :
    Skips (Decoder.skip (depth + 1)) (head major arg) := by
  intro pre rest
  rw [Decoder.skip, readTypeArg_head]
  obtain rfl | rfl := h <;> rfl

theorem skip_string {depth : ℕ} {major : MajorType} {data : Bytes} (hlen : data.length < 2 ^ 64)
    (h : major = .bytes ∨ major = .text) :
    Skips (Decoder.skip (depth + 1)) (head major (.ofNat data.length) ++ data) := by
  intro pre rest
  have hdata := readBytes_between (pre ++ head major (.ofNat data.length)) data rest
    (toNat_ofNat_length hlen).symm
  rw [Decoder.skip, List.append_assoc, readTypeArg_head]
  obtain rfl | rfl := h <;> simp only [hdata, Except.map, List.append_assoc]

theorem last_byte (pre rest : Bytes) (b : UInt8) :
    (pre ++ [b] ++ rest)[(pre ++ [b]).length - 1]? = some b := by
  simp

theorem skip_simple {depth : ℕ} {value : UInt64} (h : value = 20 ∨ value = 21 ∨ value = 22) :
    Skips (Decoder.skip (depth + 1)) (head .simple value) := by
  intro pre rest
  have hbyte : head .simple value = [0xE0 ||| value.toUInt8] := by
    obtain rfl | rfl | rfl := h <;> decide
  rw [Decoder.skip, readTypeArg_head, hbyte]
  simp only [last_byte]
  obtain rfl | rfl | rfl := h <;> rfl

mutual

/-- The decoder skips a tree without being told its shape. -/
theorem skip_item (item : Item) (h : item.Fits) :
    ∃ depth, ∀ more, Skips (Decoder.skip (depth + more)) (encode item) := by
  cases item with
  | uint value =>
    refine ⟨1, fun more => ?_⟩
    rw [encode_uint, Nat.add_comm]
    exact skip_number value (.inl rfl)
  | int value =>
    refine ⟨1, fun more => ?_⟩
    rw [encode_int, intHead, Nat.add_comm]
    split_ifs
    · exact skip_number _ (.inl rfl)
    · exact skip_number _ (.inr rfl)
  | bytes data =>
    rw [Item.Fits] at h
    refine ⟨1, fun more => ?_⟩
    rw [encode_bytes, Nat.add_comm]
    exact skip_string h (.inl rfl)
  | text text =>
    rw [Item.Fits] at h
    refine ⟨1, fun more => ?_⟩
    rw [encode_text, Nat.add_comm]
    exact skip_string h (.inr rfl)
  | array items =>
    rw [Item.Fits] at h
    obtain ⟨depth, hitems⟩ := skip_items items h.2
    refine ⟨depth + 1, fun more pre rest => ?_⟩
    rw [encode_array, Nat.add_right_comm, Decoder.skip, List.append_assoc, readTypeArg_head]
    simp only [toNat_ofNat_length h.1, hitems more _ rest, List.append_assoc]
  | map entries =>
    rw [Item.Fits] at h
    obtain ⟨depth, hentries⟩ := skip_entries entries h.2
    refine ⟨depth + 1, fun more pre rest => ?_⟩
    rw [encode_map, Nat.add_right_comm, Decoder.skip, List.append_assoc, readTypeArg_head]
    simp only [toNat_ofNat_length h.1, hentries more _ rest, List.append_assoc]
  | tag tag item =>
    rw [Item.Fits] at h
    obtain ⟨depth, hitem⟩ := skip_item item h
    refine ⟨depth + 1, fun more pre rest => ?_⟩
    rw [encode_tag, Nat.add_right_comm, Decoder.skip, List.append_assoc, readTypeArg_head]
    simp only [hitem more _ rest, List.append_assoc]
  | bool value =>
    refine ⟨1, fun more => ?_⟩
    rw [encode_bool, Nat.add_comm]
    cases value with
    | false => exact skip_simple (.inl rfl)
    | true => exact skip_simple (.inr (.inl rfl))
  | null =>
    refine ⟨1, fun more => ?_⟩
    rw [encode_null, Nat.add_comm]
    exact skip_simple (.inr (.inr rfl))

theorem skip_items (items : List Item) (h : Item.AllFit items) :
    ∃ depth, ∀ more,
      Skips (Decoder.times (Decoder.skip (depth + more)) items.length) (encodeAll items) := by
  cases items with
  | nil => exact ⟨0, fun more => Skips.nil _⟩
  | cons item items =>
    rw [Item.AllFit] at h
    obtain ⟨depth, hitem⟩ := skip_item item h.1
    obtain ⟨depth', hitems⟩ := skip_items items h.2
    refine ⟨depth + depth', fun more => ?_⟩
    have hfirst := hitem (depth' + more)
    have hrest := hitems (depth + more)
    rw [← Nat.add_assoc] at hfirst
    rw [← Nat.add_assoc, Nat.add_comm depth'] at hrest
    rw [encodeAll_cons, List.length_cons]
    exact hfirst.comp_times hrest

theorem skip_entries (entries : List (Item × Item)) (h : Item.EntriesFit entries) :
    ∃ depth, ∀ more,
      Skips (Decoder.times (Decoder.times (Decoder.skip (depth + more)) 2) entries.length)
        (encodePairs entries) := by
  cases entries with
  | nil => exact ⟨0, fun more => Skips.nil _⟩
  | cons entry entries =>
    obtain ⟨key, value⟩ := entry
    rw [Item.EntriesFit] at h
    obtain ⟨depth, hkey⟩ := skip_item key h.1
    obtain ⟨depth', hvalue⟩ := skip_item value h.2.1
    obtain ⟨depth'', hentries⟩ := skip_entries entries h.2.2
    refine ⟨depth + depth' + depth'', fun more => ?_⟩
    have hfirst := hkey (depth' + depth'' + more)
    have hsecond := hvalue (depth + depth'' + more)
    have hrest := hentries (depth + depth' + more)
    rw [show depth + (depth' + depth'' + more) = depth + depth' + depth'' + more by omega] at hfirst
    rw [show depth' + (depth + depth'' + more) = depth + depth' + depth'' + more by omega] at hsecond
    rw [show depth'' + (depth + depth' + more) = depth + depth' + depth'' + more by omega] at hrest
    rw [encodePairs_cons, List.length_cons]
    have hentry := hfirst.comp_times (hsecond.comp_times (Skips.nil _))
    rw [List.append_nil] at hentry
    exact hentry.comp_times hrest

end

/-- What follows two encodings that start the same bytes is the same. -/
theorem encode_append_inj {t u : Item} {rest rest' : Bytes} (ht : t.Fits) (hu : u.Fits)
    (h : encode t ++ rest = encode u ++ rest') : encode t = encode u := by
  obtain ⟨depth, hskip⟩ := skip_item t ht
  obtain ⟨depth', hskip'⟩ := skip_item u hu
  have hread := hskip depth' [] rest
  have hread' := hskip' depth [] rest'
  rw [h, Nat.add_comm, hread'] at hread
  injection hread with hread
  injection hread with hread
  have hlen : (encode u).length = (encode t).length := congrArg Decoder.pos hread
  exact (List.append_inj h hlen.symm).1

/-- CBOR decoding undoes encoding: the matching calls read every tree back from wherever it
stands and stop behind it, no tree is written as a proper beginning of another, and no head of
an argument could be shorter. -/
theorem decode_undoes_encode (t : Item) (ht : t.Fits) :
    (∀ pre rest, (between pre (encode t ++ rest)).decodeItem t.shape =
      .ok (t, between (pre ++ encode t) rest)) ∧
    (∀ u : Item, u.Fits → encode t <+: encode u → encode t = encode u) ∧
    ∀ (enc : Encoder) (major : MajorType) (arg : UInt64) (self self' : Decoder),
      self.readTypeArg = .ok ((major, arg), self') →
        (enc.writeTypeArg major arg).buffer.length + self.pos ≤ enc.buffer.length + self'.pos := by
  refine ⟨fun pre rest => decodeItem_between pre rest t ht, ?_, ?_⟩
  · intro u hu hbegin
    obtain ⟨rest, hrest⟩ := hbegin
    apply @encode_append_inj _ _ rest [] ht hu
    rw [List.append_nil]
    exact hrest
  · intro enc major arg self self' hread
    have hshort := head_shortest hread
    rw [Encoder.writeTypeArg_buffer, List.length_append]
    omega

/-- `{"a": [-1, true]}` -/
def sampleItem : Item := .map [(.text [0x61], .array [.int (-1), .bool true])]

theorem sampleItem_fits : sampleItem.Fits := by
  simp [sampleItem, Item.Fits, Item.EntriesFit, Item.AllFit]

theorem decode_undoes_encode_sample :
    (∀ pre rest, (between pre (encode sampleItem ++ rest)).decodeItem sampleItem.shape =
      .ok (sampleItem, between (pre ++ encode sampleItem) rest)) ∧
    (∀ u : Item, u.Fits → encode sampleItem <+: encode u → encode sampleItem = encode u) ∧
    ∀ (enc : Encoder) (major : MajorType) (arg : UInt64) (self self' : Decoder),
      self.readTypeArg = .ok ((major, arg), self') →
        (enc.writeTypeArg major arg).buffer.length + self.pos ≤ enc.buffer.length + self'.pos :=
  decode_undoes_encode sampleItem sampleItem_fits

end NextgenDatabases.Lithoglyph.Cbor
