import Mathlib
import NextgenDatabases.Foundations.Stateful
import NextgenDatabases.Lithoglyph.Cbor

/-!
# The CBOR decoder with its checks

The calls of the decoder on one byte string, from a position that they change even where they
fail, with every addition and every slice checked. For exactly which byte strings no sequence of
calls fails a check or returns a wrapped integer.
-/
namespace NextgenDatabases.Lithoglyph.Cbor

open Foundations (Bytes ofBe ofBe_lt)
open Stateful

/-- A call returns an error, or it ends at a check of the language. -/
inductive Stop
  | error (e : DecodeError)
  | overflow
  | outOfRange
  /-- The bound on the depth of the recursion is reached. -/
  | exhausted
  deriving DecidableEq

/-- The position changes. -/
abbrev Checked (α : Type) := EStateM Stop ℕ α

namespace Checked

/-! ### Operations of the language -/

def addUsize (a b : ℕ) : Checked ℕ := if a + b < 2 ^ 64 then return a + b else throw .overflow

def subUsize (a b : ℕ) : Checked ℕ := if b ≤ a then return a - b else throw .overflow

def subInt (a b : Int64) : Checked Int64 :=
  if -2 ^ 63 ≤ a.toInt - b.toInt ∧ a.toInt - b.toInt < 2 ^ 63 then return a - b
  else throw .overflow

def index (data : Bytes) (i : ℕ) : Checked UInt8 :=
  match data[i]? with
  | some b => return b
  | none => throw .outOfRange

/-- `data[a .. b]` -/
def slice (data : Bytes) (a b : ℕ) : Checked Bytes :=
  if a ≤ b ∧ b ≤ data.length then return (data.drop a).take (b - a) else throw .outOfRange

/-! ### The decoder -/

variable (data : Bytes)

def readByte : Checked UInt8 := do
  let pos ← get
  if pos ≥ data.length then throw (.error .unexpectedEof)
  else
    let b ← index data pos
    set (← addUsize pos 1)
    return b

def readBytes (n : ℕ) : Checked Bytes := do
  let pos ← get
  let stop ← addUsize pos n
  if stop > data.length then throw (.error .unexpectedEof)
  else
    let slice ← slice data pos stop
    set stop
    return slice

/-- An argument of `w` bytes. -/
def readBig (w : ℕ) : Checked UInt64 := do
  let bytes ← readBytes data w
  return .ofNat (ofBe bytes)

def readArg (additional : UInt8) : Checked UInt64 :=
  if additional < 24 then return additional.toUInt64
  else
    match additional with
    | 24 => do
      let b ← readByte data
      return b.toUInt64
    | 25 => readBig data 2
    | 26 => readBig data 4
    | 27 => readBig data 8
    | _ => throw (.error .invalidValue)

def readTypeArg : Checked (MajorType × UInt64) := do
  let b ← readByte data
  let arg ← readArg data (b &&& 31)
  return (.ofByte (b >>> 5), arg)

/-- The argument of an item of the given major type. -/
def readMajor (major : MajorType) : Checked UInt64 := do
  let ta ← readTypeArg data
  if ta.1 ≠ major then throw (.error .invalidType) else return ta.2

def decodeUint : Checked UInt64 := readMajor data .unsigned

def decodeInt : Checked Int64 := do
  let ta ← readTypeArg data
  match ta.1 with
  | .unsigned => return ta.2.toInt64
  | .negative => subInt (-1) ta.2.toInt64
  | _ => throw (.error .invalidType)

def decodeString (major : MajorType) : Checked Bytes := do
  let len ← readMajor data major
  readBytes data len.toNat

def decodeText : Checked Bytes := decodeString data .text

def decodeBytes : Checked Bytes := decodeString data .bytes

def decodeArrayLen : Checked UInt64 := readMajor data .array

def decodeMapLen : Checked UInt64 := readMajor data .map

def decodeTag : Checked UInt64 := readMajor data .tag

def decodeBool : Checked Bool := do
  let b ← readByte data
  if b = 0xF4 then return false
  else if b = 0xF5 then return true
  else throw (.error .invalidType)

def isNull : Checked Bool := do
  let pos ← get
  if pos ≥ data.length then throw (.error .unexpectedEof)
  else
    let b ← index data pos
    if b = 0xF6 then
      set (← addUsize pos 1)
      return true
    else return false

/-- What `skip` reads behind an item of simple type. -/
def skipSimple : Checked Unit := do
  let pos ← get
  let last ← subUsize pos 1
  let b ← index data last
  match b &&& 31 with
  | 25 => discard (readBytes data 2)
  | 26 => discard (readBytes data 4)
  | 27 => discard (readBytes data 8)
  | _ => return ()

/-- The first argument bounds the depth of the recursion. -/
def skip : ℕ → Checked Unit
  | 0 => throw .exhausted
  | depth + 1 => do
    let ta ← readTypeArg data
    match ta.1 with
    | .unsigned | .negative => return ()
    | .bytes | .text => discard (readBytes data ta.2.toNat)
    | .array => times (skip depth) ta.2.toNat
    | .map => times (times (skip depth) 2) ta.2.toNat
    | .tag => skip depth
    | .simple => skipSimple data

end Checked

/-! ### Sequences of calls -/

inductive Call
  | readTypeArg | decodeUint | decodeInt | decodeText | decodeBytes | decodeArrayLen
  | decodeMapLen | decodeTag | decodeBool | isNull | skip

/-- The call without what it returns. No recursion is deeper than the bytes are many. -/
def Call.perform (data : Bytes) : Call → Checked Unit
  | .readTypeArg => discard (Checked.readTypeArg data)
  | .decodeUint => discard (Checked.decodeUint data)
  | .decodeInt => discard (Checked.decodeInt data)
  | .decodeText => discard (Checked.decodeText data)
  | .decodeBytes => discard (Checked.decodeBytes data)
  | .decodeArrayLen => discard (Checked.decodeArrayLen data)
  | .decodeMapLen => discard (Checked.decodeMapLen data)
  | .decodeTag => discard (Checked.decodeTag data)
  | .decodeBool => discard (Checked.decodeBool data)
  | .isNull => discard (Checked.isNull data)
  | .skip => Checked.skip data (data.length + 1)

/-- The positions after sequences of calls, some of which may have returned an error. -/
inductive Reached (data : Bytes) : ℕ → Prop
  | init : Reached data 0
  | ok {pos pos' : ℕ} {call : Call} : Reached data pos →
      (call.perform data).run pos = .ok () pos' → Reached data pos'
  | error {pos pos' : ℕ} {call : Call} {e : DecodeError} : Reached data pos →
      (call.perform data).run pos = .error (.error e) pos' → Reached data pos'

/-- The bytes of the argument behind a head. -/
def width (b : UInt8) : Option ℕ :=
  if b &&& 31 < 24 then some 0
  else if b &&& 31 = 24 then some 1
  else if b &&& 31 = 25 then some 2
  else if b &&& 31 = 26 then some 4
  else if b &&& 31 = 27 then some 8
  else none

/-- At the first position stands a whole head of the given type and argument, up to the second
position. -/
structure HeadAt (data : Bytes) (p : ℕ) (major : MajorType) (arg p' : ℕ) : Prop where
  whole : p' ≤ data.length
  bytes : ∃ b w, data[p]? = some b ∧ width b = some w ∧ p' = p + 1 + w ∧
    major = .ofByte (b >>> 5) ∧
    arg = if w = 0 then (b &&& 31).toNat else ofBe ((data.drop (p + 1)).take w)

/-- The integer at a position. -/
def IntAt (data : Bytes) (p : ℕ) (value : ℤ) : Prop :=
  ∃ arg p', HeadAt data p .unsigned arg p' ∧ value = arg ∨
    HeadAt data p .negative arg p' ∧ value = -1 - arg

/-- A call ends, with or without an error, at a position between the old one and the end of the
data. -/
structure SafeAt (data : Bytes) (pos : ℕ) : Prop where
  call : ∀ call : Call, Stays (fun s => ∃ e, s = .error e) data.length (call.perform data) pos
  integer : ∀ value pos', (Checked.decodeInt data).run pos = .ok value pos' →
    IntAt data pos value.toInt
  /-- More depth changes nothing. -/
  skip : ∀ more, (Checked.skip data (data.length + 1 + more)).run pos =
    (Checked.skip data (data.length + 1)).run pos

def Safe (data : Bytes) : Prop := ∀ pos, Reached data pos → SafeAt data pos

/-- No head announces what cannot be counted: its own bytes and the strings end below `2 ^ 64`,
and integers have arguments below `2 ^ 63`. -/
structure Tame (data : Bytes) : Prop where
  head : ∀ p b w, data[p]? = some b → width b = some w → 1 < w → p + 1 + w < 2 ^ 64
  string : ∀ p major arg p', HeadAt data p major arg p' → major = .bytes ∨ major = .text →
    p' + arg < 2 ^ 64
  integer : ∀ p major arg p', HeadAt data p major arg p' →
    major = .unsigned ∨ major = .negative → arg < 2 ^ 63

/-! ### Reading bytes -/

namespace Checked

variable {data : Bytes} {pos n : ℕ}

theorem run_addUsize {a b : ℕ} (h : a + b < 2 ^ 64) : (addUsize a b).run pos = .ok (a + b) pos := by
  rw [addUsize, if_pos h]
  rfl

theorem run_addUsize_error {a b : ℕ} (h : 2 ^ 64 ≤ a + b) :
    (addUsize a b).run pos = .error .overflow pos := by
  rw [addUsize, if_neg (not_lt.mpr h)]
  rfl

theorem run_index {i : ℕ} {b : UInt8} (h : data[i]? = some b) :
    (index data i).run pos = .ok b pos := by
  rw [index, h]
  rfl

theorem run_get_bind {α : Type} {f : ℕ → Checked α} : (get >>= f).run pos = (f pos).run pos := rfl

theorem run_set_bind {α : Type} {f : PUnit → Checked α} :
    (set n >>= f).run pos = (f ()).run n := rfl

theorem lt_length {b : UInt8} (h : data[pos]? = some b) : pos < data.length :=
  (List.getElem?_eq_some_iff.mp h).1

theorem run_readByte (hlen : data.length < 2 ^ 64) {b : UInt8} (h : data[pos]? = some b) :
    (readByte data).run pos = .ok b (pos + 1) := by
  have hpos := lt_length h
  rw [readByte, run_get_bind, if_neg (by omega), run_bind_ok (run_index h),
    run_bind_ok (run_addUsize (by omega)), run_set_bind]
  rfl

theorem run_readByte_end (h : data.length ≤ pos) :
    (readByte data).run pos = .error (.error .unexpectedEof) pos := by
  rw [readByte, run_get_bind, if_pos h]
  rfl

theorem run_readBytes (hsum : pos + n < 2 ^ 64) (h : pos + n ≤ data.length) :
    (readBytes data n).run pos = .ok ((data.drop pos).take n) (pos + n) := by
  have hslice : (slice data pos (pos + n)).run pos = .ok ((data.drop pos).take n) pos := by
    rw [slice, if_pos ⟨Nat.le_add_right _ _, h⟩, Nat.add_sub_cancel_left]
    rfl
  rw [readBytes, run_get_bind, run_bind_ok (run_addUsize hsum), if_neg (by omega),
    run_bind_ok hslice, run_set_bind]
  rfl

theorem run_readBytes_end (h : data.length < pos + n) (hsum : pos + n < 2 ^ 64) :
    (readBytes data n).run pos = .error (.error .unexpectedEof) pos := by
  rw [readBytes, run_get_bind, run_bind_ok (run_addUsize hsum), if_pos h]
  rfl

theorem run_readBytes_overflow (h : 2 ^ 64 ≤ pos + n) :
    (readBytes data n).run pos = .error .overflow pos := by
  rw [readBytes, run_get_bind, run_bind_error (run_addUsize_error h)]

/-! ### Reading heads -/

theorem width_cases {b : UInt8} {w : ℕ} (h : width b = some w) :
    w = 0 ∧ b &&& 31 < 24 ∨ w = 1 ∧ b &&& 31 = 24 ∨ w = 2 ∧ b &&& 31 = 25 ∨
      w = 4 ∧ b &&& 31 = 26 ∨ w = 8 ∧ b &&& 31 = 27 := by
  unfold width at h
  split_ifs at h with h0 h1 h2 h4 h8
  all_goals
    obtain rfl := Option.some.inj h
    simp [*]

/-- The argument behind a head. -/
def argument (data : Bytes) (b : UInt8) (w p : ℕ) : ℕ :=
  if w = 0 then (b &&& 31).toNat else ofBe ((data.drop p).take w)

theorem run_readBig (hlen : data.length < 2 ^ 64) (h : pos + n ≤ data.length) :
    (readBig data n).run pos = .ok (.ofNat (ofBe ((data.drop pos).take n))) (pos + n) := by
  rw [readBig, run_bind_ok (run_readBytes (h.trans_lt hlen) h)]
  rfl

theorem readArg_eq {b : UInt8} {w : ℕ} (hw : width b = some w) :
    readArg data (b &&& 31) =
      if w = 0 then pure (b &&& 31).toUInt64
      else if w = 1 then (do
        let b ← readByte data
        return b.toUInt64)
      else readBig data w := by
  unfold readArg
  rcases width_cases hw with ⟨rfl, hb⟩ | ⟨rfl, hb⟩ | ⟨rfl, hb⟩ | ⟨rfl, hb⟩ | ⟨rfl, hb⟩
  · rw [if_pos hb, if_pos rfl]
  all_goals
    rw [hb]
    rfl

theorem readArg_invalid {b : UInt8} (hw : width b = none) :
    readArg data (b &&& 31) = throw (.error .invalidValue) := by
  unfold width at hw
  split_ifs at hw with h0 h1 h2 h4 h8
  unfold readArg
  rw [if_neg h0]
  split
  · exact absurd ‹_› h1
  · exact absurd ‹_› h2
  · exact absurd ‹_› h4
  · exact absurd ‹_› h8
  · rfl

theorem run_readArg (hlen : data.length < 2 ^ 64) {b : UInt8} {w : ℕ} (hw : width b = some w)
    (h : pos + w ≤ data.length) :
    (readArg data (b &&& 31)).run pos = .ok (.ofNat (argument data b w pos)) (pos + w) := by
  rw [readArg_eq hw, argument]
  split_ifs with h0 h1
  · subst h0
    rw [UInt64.ofNat_uInt8ToNat]
    rfl
  · subst h1
    have hpos : pos < data.length := by omega
    have hbyte : (data.drop pos).take 1 = [data[pos]] := by
      rw [List.drop_eq_getElem_cons hpos, List.take_succ_cons, List.take_zero]
    rw [run_bind_ok (run_readByte hlen (List.getElem?_eq_getElem hpos)), hbyte]
    change _ = EStateM.Result.ok (UInt64.ofNat ((data[pos]).toNat)) (pos + 1)
    rw [UInt64.ofNat_uInt8ToNat]
    rfl
  · exact run_readBig hlen h

theorem run_readArg_end {b : UInt8} {w : ℕ} (hw : width b = some w) (h : data.length < pos + w)
    (hpos : pos ≤ data.length) (hsum : 1 < w → pos + w < 2 ^ 64) :
    (readArg data (b &&& 31)).run pos = .error (.error .unexpectedEof) pos := by
  rw [readArg_eq hw]
  split_ifs with h0 h1
  · omega
  · rw [run_bind_error (run_readByte_end (by omega))]
  · have hw' := width_cases hw
    rw [readBig, run_bind_error (run_readBytes_end h (hsum (by omega)))]

theorem run_readArg_overflow {b : UInt8} {w : ℕ} (hw : width b = some w) (h1 : 1 < w)
    (h : 2 ^ 64 ≤ pos + w) : (readArg data (b &&& 31)).run pos = .error .overflow pos := by
  rw [readArg_eq hw, if_neg (by omega), if_neg (by omega), readBig,
    run_bind_error (run_readBytes_overflow h)]

/-- A whole head is read, up to its end. -/
theorem run_readTypeArg (hlen : data.length < 2 ^ 64) {p' arg : ℕ} {major : MajorType}
    (h : HeadAt data pos major arg p') :
    (readTypeArg data).run pos = .ok (major, .ofNat arg) p' := by
  obtain ⟨hwhole, b, w, hb, hw, rfl, rfl, rfl⟩ := h
  rw [readTypeArg, run_bind_ok (run_readByte hlen hb), run_bind_ok (run_readArg hlen hw hwhole)]
  rfl

/-- What is read where the sums are not too large. -/
theorem readTypeArg_cases (hlen : data.length < 2 ^ 64)
    (hsum : ∀ b w, data[pos]? = some b → width b = some w → 1 < w → pos + 1 + w < 2 ^ 64)
    (hpos : pos ≤ data.length) :
    (∃ major arg p', HeadAt data pos major arg p') ∨
      ∃ e p', (readTypeArg data).run pos = .error (.error e) p' ∧ pos ≤ p' ∧ p' ≤ data.length := by
  cases hb : data[pos]? with
  | none =>
    have hend := List.getElem?_eq_none_iff.mp hb
    exact .inr ⟨_, pos, by rw [readTypeArg, run_bind_error (run_readByte_end hend)], le_rfl, hpos⟩
  | some b =>
    have hlt := lt_length hb
    cases hw : width b with
    | none =>
      refine .inr ⟨.invalidValue, pos + 1, ?_, Nat.le_succ pos, hlt⟩
      rw [readTypeArg, run_bind_ok (run_readByte hlen hb), readArg_invalid hw]
      rfl
    | some w =>
      by_cases hwhole : pos + 1 + w ≤ data.length
      · exact .inl ⟨_, _, pos + 1 + w, hwhole, b, w, hb, hw, rfl, rfl, rfl⟩
      · refine .inr ⟨.unexpectedEof, pos + 1, ?_, Nat.le_succ pos, hlt⟩
        rw [readTypeArg, run_bind_ok (run_readByte hlen hb),
          run_bind_error (run_readArg_end hw (by omega) hlt (hsum b w hb hw))]

end Checked

theorem HeadAt.lt_length {data : Bytes} {p arg p' : ℕ} {major : MajorType}
    (h : HeadAt data p major arg p') : p < p' := by
  obtain ⟨-, b, w, -, -, rfl, -⟩ := h
  omega

theorem HeadAt.arg_lt {data : Bytes} {p arg p' : ℕ} {major : MajorType}
    (h : HeadAt data p major arg p') : arg < 2 ^ 64 := by
  obtain ⟨-, b, w, -, hw, rfl, -, rfl⟩ := h
  have hw' := Checked.width_cases hw
  split_ifs with h0
  · have hb := (b &&& 31).toNat_lt
    omega
  · have hbound := ofBe_lt ((data.drop (p + 1)).take w)
    have hlen : ((data.drop (p + 1)).take w).length ≤ 8 := by
      rw [List.length_take]
      omega
    calc ofBe ((data.drop (p + 1)).take w)
        < 256 ^ ((data.drop (p + 1)).take w).length := hbound
      _ ≤ 256 ^ 8 := Nat.pow_le_pow_right (by norm_num) hlen
      _ = 2 ^ 64 := by norm_num

theorem HeadAt.unique {data : Bytes} {p arg arg' p' p'' : ℕ} {major major' : MajorType}
    (h : HeadAt data p major arg p') (h' : HeadAt data p major' arg' p'') :
    major = major' ∧ arg = arg' ∧ p' = p'' := by
  obtain ⟨-, b, w, hb, hw, rfl, rfl, rfl⟩ := h
  obtain ⟨-, b', w', hb', hw', rfl, rfl, rfl⟩ := h'
  obtain rfl := Option.some.inj (hb.symm.trans hb')
  obtain rfl := Option.some.inj (hw.symm.trans hw')
  exact ⟨rfl, rfl, rfl⟩

/-! ### Calls on data that is tame -/

namespace Tame

open Checked

variable {data : Bytes} {pos n : ℕ}

/-- The reasons that the source admits. -/
abbrev IsError (s : Stop) : Prop := ∃ e, s = .error e

theorem throws {α : Type} (e : DecodeError) (hpos : pos ≤ data.length) :
    Stays IsError data.length (throw (.error e) : Checked α) pos :=
  .of_error rfl ⟨e, rfl⟩ le_rfl hpos

theorem returns {α : Type} (a : α) (hpos : pos ≤ data.length) :
    Stays IsError data.length (pure a : Checked α) pos := .of_ok rfl le_rfl hpos

theorem readByte (hlen : data.length < 2 ^ 64) (hpos : pos ≤ data.length) :
    Stays IsError data.length (Checked.readByte data) pos := by
  cases hb : data[pos]? with
  | none =>
    exact .of_error (run_readByte_end (List.getElem?_eq_none_iff.mp hb)) ⟨_, rfl⟩ le_rfl hpos
  | some b => exact .of_ok (run_readByte hlen hb) (Nat.le_succ pos) (Checked.lt_length hb)

theorem readBytes (hpos : pos ≤ data.length) (hsum : pos + n < 2 ^ 64) :
    Stays IsError data.length (Checked.readBytes data n) pos := by
  by_cases h : pos + n ≤ data.length
  · exact .of_ok (run_readBytes hsum h) (Nat.le_add_right _ _) h
  · exact .of_error (run_readBytes_end (by omega) hsum) ⟨_, rfl⟩ le_rfl hpos

theorem run_subInt (x : Int64) : (subInt (-1) x).run pos = .ok (-1 - x) pos := by
  have hlow := x.le_toInt
  have hhigh := x.toInt_lt
  have hone : (-1 : Int64).toInt = -1 := by decide
  have hrange : -2 ^ 63 ≤ (-1 : Int64).toInt - x.toInt ∧ (-1 : Int64).toInt - x.toInt < 2 ^ 63 := by
    rw [hone]
    constructor <;> omega
  rw [subInt, if_pos hrange]
  rfl

section

variable (h : Tame data) (hlen : data.length < 2 ^ 64) (hpos : pos ≤ data.length)

include h hlen hpos

theorem readTypeArg : Stays IsError data.length (Checked.readTypeArg data) pos := by
  rcases readTypeArg_cases hlen (h.head pos) hpos with ⟨major, arg, p', hhead⟩ | ⟨e, p', hrun, hle⟩
  · exact .of_ok (run_readTypeArg hlen hhead) hhead.lt_length.le hhead.whole
  · exact .of_error hrun ⟨e, rfl⟩ hle.1 hle.2

/-- What was read is a head. -/
theorem readTypeArg_ok {ta : MajorType × UInt64} {p' : ℕ}
    (hrun : (Checked.readTypeArg data).run pos = .ok ta p') :
    HeadAt data pos ta.1 ta.2.toNat p' := by
  rcases readTypeArg_cases hlen (h.head pos) hpos with ⟨major, arg, p'', hhead⟩ | ⟨e, p'', hrun', -⟩
  · rw [run_readTypeArg hlen hhead] at hrun
    cases hrun
    have harg : (UInt64.ofNat arg).toNat = arg := UInt64.toNat_ofNat_of_lt hhead.arg_lt
    dsimp only
    rwa [harg]
  · rw [hrun] at hrun'
    cases hrun'

theorem readMajor (major : MajorType) :
    Stays IsError data.length (Checked.readMajor data major) pos := by
  refine (h.readTypeArg hlen hpos).bind fun ta p' hrun => ?_
  have hle := (h.readTypeArg_ok hlen hpos hrun).whole
  split_ifs
  · exact throws _ hle
  · exact returns _ hle

theorem readMajor_ok {major : MajorType} {arg : UInt64} {p' : ℕ}
    (hrun : (Checked.readMajor data major).run pos = .ok arg p') :
    HeadAt data pos major arg.toNat p' := by
  unfold Checked.readMajor at hrun
  cases hta : (Checked.readTypeArg data).run pos with
  | error e p'' =>
    rw [run_bind_error hta] at hrun
    cases hrun
  | ok ta p'' =>
    rw [run_bind_ok hta] at hrun
    have hhead := h.readTypeArg_ok hlen hpos hta
    split_ifs at hrun with hmajor
    · cases hrun
    · cases hrun
      rwa [not_not.mp hmajor] at hhead

theorem decodeString {major : MajorType} (hmajor : major = .bytes ∨ major = .text) :
    Stays IsError data.length (Checked.decodeString data major) pos := by
  refine (h.readMajor hlen hpos major).bind fun len p' hrun => ?_
  have hhead := h.readMajor_ok hlen hpos hrun
  exact readBytes hhead.whole (h.string _ _ _ _ hhead hmajor)

theorem decodeInt : Stays IsError data.length (Checked.decodeInt data) pos := by
  refine (h.readTypeArg hlen hpos).bind fun ta p' hrun => ?_
  have hle := (h.readTypeArg_ok hlen hpos hrun).whole
  cases ta.1 with
  | unsigned => exact returns _ hle
  | negative => exact .of_ok (run_subInt _) le_rfl hle
  | _ => exact throws _ hle

omit h in
theorem decodeBool : Stays IsError data.length (Checked.decodeBool data) pos := by
  refine (readByte hlen hpos).bind fun b p' hrun => ?_
  have hle := ((readByte hlen hpos).ok hrun).2
  split_ifs
  · exact returns _ hle
  · exact returns _ hle
  · exact throws _ hle

omit h in
theorem isNull : Stays IsError data.length (Checked.isNull data) pos := by
  cases hb : data[pos]? with
  | none =>
    have hend := List.getElem?_eq_none_iff.mp hb
    have hrun : (Checked.isNull data).run pos = .error (.error .unexpectedEof) pos := by
      rw [Checked.isNull, run_get_bind, if_pos hend]
      rfl
    exact .of_error hrun ⟨_, rfl⟩ le_rfl hpos
  | some b =>
    have hlt := Checked.lt_length hb
    by_cases hnull : b = 0xF6
    · have hrun : (Checked.isNull data).run pos = .ok true (pos + 1) := by
        rw [Checked.isNull, run_get_bind, if_neg (by omega), run_bind_ok (run_index hb),
          if_pos hnull, run_bind_ok (run_addUsize (by omega))]
        rfl
      exact .of_ok hrun (Nat.le_succ pos) hlt
    · have hrun : (Checked.isNull data).run pos = .ok false pos := by
        rw [Checked.isNull, run_get_bind, if_neg (by omega), run_bind_ok (run_index hb),
          if_neg hnull]
        rfl
      exact .of_ok hrun le_rfl hpos

end

/-- The last byte read is looked at, and may announce two, four or eight bytes more. -/
theorem skipSimple (h : Tame data) {p' arg : ℕ} {major : MajorType}
    (hhead : HeadAt data pos major arg p') :
    Stays IsError data.length (Checked.skipSimple data) p' := by
  have hpos := hhead.lt_length
  have hwhole := hhead.whole
  have hlast : p' - 1 < data.length := by omega
  have hb := List.getElem?_eq_getElem hlast
  have hsum (w : ℕ) (hw : width data[p' - 1] = some w) (h1 : 1 < w) : p' + w < 2 ^ 64 := by
    have hhead' := h.head _ _ _ hb hw h1
    omega
  have hsub : (subUsize p' 1).run p' = .ok (p' - 1) p' := by
    rw [subUsize, if_pos (by omega)]
    rfl
  have hrun : (Checked.skipSimple data).run p' = (match data[p' - 1] &&& 31 with
      | 25 => discard (Checked.readBytes data 2)
      | 26 => discard (Checked.readBytes data 4)
      | 27 => discard (Checked.readBytes data 8)
      | _ => return ()).run p' := by
    rw [Checked.skipSimple, run_get_bind, run_bind_ok hsub, run_bind_ok (run_index hb)]
  refine .congr ?_ hrun
  split
  · exact (readBytes hwhole (hsum 2 (by simp [width, *]) (by decide))).discard
  · exact (readBytes hwhole (hsum 4 (by simp [width, *]) (by decide))).discard
  · exact (readBytes hwhole (hsum 8 (by simp [width, *]) (by decide))).discard
  · exact returns () hwhole

/-- Each item in an item stands behind its head, so the depth is bounded by the bytes left. -/
theorem skip (h : Tame data) (hlen : data.length < 2 ^ 64) (depth : ℕ)
    (hdepth : data.length < depth + pos) (hpos : pos ≤ data.length) :
    Stays IsError data.length (Checked.skip data depth) pos := by
  induction depth generalizing pos with
  | zero => omega
  | succ depth ih =>
    refine (h.readTypeArg hlen hpos).bind fun ta p' hrun => ?_
    have hhead := h.readTypeArg_ok hlen hpos hrun
    have hle := hhead.whole
    have hlt := hhead.lt_length
    have hbody (q : ℕ) (hq : p' ≤ q) (hq' : q ≤ data.length) :
        Stays IsError data.length (Checked.skip data depth) q := ih (by omega) hq'
    have hstring (hmajor : ta.1 = .bytes ∨ ta.1 = .text) :
        Stays IsError data.length (discard (Checked.readBytes data ta.2.toNat)) p' :=
      (readBytes hle (h.string _ _ _ _ hhead hmajor)).discard
    cases hmajor : ta.1 with
    | unsigned => exact returns () hle
    | negative => exact returns () hle
    | bytes => exact hstring (.inl hmajor)
    | text => exact hstring (.inr hmajor)
    | array => exact .times _ hbody hle
    | map =>
      refine .times _ (fun q hq hq' => ?_) hle
      exact .times 2 (fun r hr => hbody r (hq.trans hr)) hq'
    | tag => exact hbody p' le_rfl hle
    | simple => exact h.skipSimple hhead

end Tame

/-! ### Exactly the safe data -/

theorem toInt_toInt64 {arg : ℕ} (h : arg < 2 ^ 63) : (UInt64.ofNat arg).toInt64.toInt = arg := by
  have hnat : (UInt64.ofNat arg).toBitVec.toNat = arg :=
    UInt64.toNat_ofNat_of_lt (h.trans (by norm_num))
  change (UInt64.ofNat arg).toBitVec.toInt = arg
  rw [BitVec.toInt_eq_toNat_of_lt (by omega), hnat]

theorem toInt_neg_sub (x : Int64) : (-1 - x).toInt = -1 - x.toInt := by
  have hlow := x.le_toInt
  have hhigh := x.toInt_lt
  have hone : (-1 : Int64).toInt = -1 := by decide
  rw [Int64.toInt_sub, hone]
  exact Int.bmod_eq_of_le (by omega) (by omega)

theorem run_decodeString_overflow {data : Bytes} (hlen : data.length < 2 ^ 64) {pos arg p' : ℕ}
    {major : MajorType} (h : HeadAt data pos major arg p') (hsum : 2 ^ 64 ≤ p' + arg) :
    (Checked.decodeString data major).run pos = .error .overflow p' := by
  have harg : (UInt64.ofNat arg).toNat = arg := UInt64.toNat_ofNat_of_lt h.arg_lt
  have hmajor : (Checked.readMajor data major).run pos = .ok (.ofNat arg) p' := by
    rw [Checked.readMajor, run_bind_ok (Checked.run_readTypeArg hlen h), if_neg (not_not.mpr rfl)]
    rfl
  rw [Checked.decodeString, run_bind_ok hmajor, harg, Checked.run_readBytes_overflow hsum]

theorem run_decodeInt_unsigned {data : Bytes} (hlen : data.length < 2 ^ 64) {pos arg p' : ℕ}
    (h : HeadAt data pos .unsigned arg p') :
    (Checked.decodeInt data).run pos = .ok (UInt64.ofNat arg).toInt64 p' := by
  rw [Checked.decodeInt, run_bind_ok (Checked.run_readTypeArg hlen h)]
  rfl

theorem run_decodeInt_negative {data : Bytes} (hlen : data.length < 2 ^ 64) {pos arg p' : ℕ}
    (h : HeadAt data pos .negative arg p') :
    (Checked.decodeInt data).run pos = .ok (-1 - (UInt64.ofNat arg).toInt64) p' := by
  rw [Checked.decodeInt, run_bind_ok (Checked.run_readTypeArg hlen h)]
  exact Tame.run_subInt _

/-- What `decodeInt` returns for a head. -/
theorem run_decodeInt {data : Bytes} (hlen : data.length < 2 ^ 64) {pos arg p' : ℕ}
    {major : MajorType} (h : HeadAt data pos major arg p') {value : Int64} {pos' : ℕ}
    (hrun : (Checked.decodeInt data).run pos = .ok value pos') :
    major = .unsigned ∧ value = (UInt64.ofNat arg).toInt64 ∨
      major = .negative ∧ value = -1 - (UInt64.ofNat arg).toInt64 := by
  cases major with
  | unsigned =>
    rw [run_decodeInt_unsigned hlen h] at hrun
    injection hrun with hvalue
    exact .inl ⟨rfl, hvalue.symm⟩
  | negative =>
    rw [run_decodeInt_negative hlen h] at hrun
    injection hrun with hvalue
    exact .inr ⟨rfl, hvalue.symm⟩
  | _ =>
    unfold Checked.decodeInt at hrun
    rw [run_bind_ok (Checked.run_readTypeArg hlen h)] at hrun
    cases hrun

theorem Tame.intAt {data : Bytes} (h : Tame data) (hlen : data.length < 2 ^ 64) {pos pos' : ℕ}
    (hpos : pos ≤ data.length) {value : Int64}
    (hrun : (Checked.decodeInt data).run pos = .ok value pos') : IntAt data pos value.toInt := by
  cases hta : (Checked.readTypeArg data).run pos with
  | error e p' =>
    unfold Checked.decodeInt at hrun
    rw [run_bind_error hta] at hrun
    cases hrun
  | ok ta p' =>
    have hhead := h.readTypeArg_ok hlen hpos hta
    rcases run_decodeInt hlen hhead hrun with ⟨hmajor, rfl⟩ | ⟨hmajor, rfl⟩
    · have hlt := h.integer _ _ _ _ hhead (.inl hmajor)
      rw [hmajor] at hhead
      exact ⟨_, p', .inl ⟨hhead, toInt_toInt64 hlt⟩⟩
    · have hlt := h.integer _ _ _ _ hhead (.inr hmajor)
      rw [hmajor] at hhead
      refine ⟨_, p', .inr ⟨hhead, ?_⟩⟩
      rw [toInt_neg_sub, toInt_toInt64 hlt]

/-- A recursion that does not run out of depth does the same with more. -/
theorem skip_approximates (data : Bytes) (depth : ℕ) :
    Approximates .exhausted (Checked.skip data depth) (Checked.skip data (depth + 1)) := by
  induction depth with
  | zero => exact fun pos => .inl ⟨pos, rfl⟩
  | succ depth ih =>
    rw [Checked.skip, Checked.skip]
    refine (Approximates.refl _).bind fun ta => ?_
    cases ta.1 with
    | array => exact ih.times _
    | map => exact (ih.times 2).times _
    | tag => exact ih
    | _ => exact .refl _

theorem skip_approximates_add (data : Bytes) (depth more : ℕ) :
    Approximates .exhausted (Checked.skip data depth) (Checked.skip data (depth + more)) := by
  induction more with
  | zero => exact .refl _
  | succ more ih => exact ih.trans (skip_approximates data (depth + more))

theorem Tame.safeAt {data : Bytes} (h : Tame data) (hlen : data.length < 2 ^ 64) {pos : ℕ}
    (hpos : pos ≤ data.length) : SafeAt data pos where
  call call := by
    cases call with
    | readTypeArg => exact (h.readTypeArg hlen hpos).discard
    | decodeUint => exact (h.readMajor hlen hpos .unsigned).discard
    | decodeInt => exact (h.decodeInt hlen hpos).discard
    | decodeText => exact (h.decodeString hlen hpos (.inr rfl)).discard
    | decodeBytes => exact (h.decodeString hlen hpos (.inl rfl)).discard
    | decodeArrayLen => exact (h.readMajor hlen hpos .array).discard
    | decodeMapLen => exact (h.readMajor hlen hpos .map).discard
    | decodeTag => exact (h.readMajor hlen hpos .tag).discard
    | decodeBool => exact (Tame.decodeBool hlen hpos).discard
    | isNull => exact (Tame.isNull hlen hpos).discard
    | skip => exact h.skip hlen (data.length + 1) (by omega) hpos
  integer _ _ hrun := h.intAt hlen hpos hrun
  skip more := by
    have hskip := h.skip hlen (data.length + 1) (by omega) hpos
    rcases skip_approximates_add data (data.length + 1) more pos with ⟨p', hexhausted⟩ | heq
    · obtain ⟨⟨e, he⟩, -⟩ := hskip.error hexhausted
      cases he
    · exact heq

theorem Reached.le_length {data : Bytes} (h : Tame data) (hlen : data.length < 2 ^ 64) {pos : ℕ}
    (hreached : Reached data pos) : pos ≤ data.length := by
  induction hreached with
  | init => exact Nat.zero_le _
  | ok _ hrun ih => exact (((h.safeAt hlen ih).call _).ok hrun).2
  | error _ hrun ih => exact (((h.safeAt hlen ih).call _).error hrun).2.2

/-- `decodeBool` moves to the next byte, whatever it returns. -/
theorem Reached.all {data : Bytes} (hlen : data.length < 2 ^ 64) {pos : ℕ}
    (hpos : pos ≤ data.length) : Reached data pos := by
  induction pos with
  | zero => exact .init
  | succ pos ih =>
    have hbyte := List.getElem?_eq_getElem (show pos < data.length from hpos)
    have hread := Checked.run_readByte hlen hbyte
    have hreached := ih (Nat.le_of_succ_le hpos)
    by_cases hfalse : data[pos] = 0xF4
    · have hrun : (Checked.decodeBool data).run pos = .ok false (pos + 1) := by
        rw [Checked.decodeBool, run_bind_ok hread, if_pos hfalse]
        rfl
      exact @Reached.ok _ _ _ .decodeBool hreached (run_discard_ok hrun)
    · by_cases htrue : data[pos] = 0xF5
      · have hrun : (Checked.decodeBool data).run pos = .ok true (pos + 1) := by
          rw [Checked.decodeBool, run_bind_ok hread, if_neg hfalse, if_pos htrue]
          rfl
        exact @Reached.ok _ _ _ .decodeBool hreached (run_discard_ok hrun)
      · have hrun : (Checked.decodeBool data).run pos = .error (.error .invalidType) (pos + 1) := by
          rw [Checked.decodeBool, run_bind_ok hread, if_neg hfalse, if_neg htrue]
          rfl
        exact @Reached.error _ _ _ .decodeBool _ hreached (run_discard_error hrun)

/-- A call that ends at a check is not safe. -/
theorem SafeAt.no_overflow {data : Bytes} {pos pos' : ℕ} (h : SafeAt data pos) (call : Call)
    (hrun : (call.perform data).run pos = .error .overflow pos') : False := by
  obtain ⟨⟨e, he⟩, -⟩ := (h.call call).error hrun
  cases he

theorem Safe.tame {data : Bytes} (h : Safe data) (hlen : data.length < 2 ^ 64) : Tame data where
  head p b w hb hw h1 := by
    by_contra hsum
    have hsafe := h p (.all hlen (Checked.lt_length hb).le)
    have hrun : (Checked.readTypeArg data).run p = .error .overflow (p + 1) := by
      rw [Checked.readTypeArg, run_bind_ok (Checked.run_readByte hlen hb),
        run_bind_error (Checked.run_readArg_overflow hw h1 (not_lt.mp hsum))]
    exact hsafe.no_overflow .readTypeArg (run_discard_error hrun)
  string p major arg p' hhead hmajor := by
    by_contra hsum
    have hsafe := h p (.all hlen (hhead.lt_length.le.trans hhead.whole))
    have hrun := run_decodeString_overflow hlen hhead (not_lt.mp hsum)
    rcases hmajor with rfl | rfl
    · exact hsafe.no_overflow .decodeBytes (run_discard_error hrun)
    · exact hsafe.no_overflow .decodeText (run_discard_error hrun)
  integer p major arg p' hhead hmajor := by
    by_contra hlarge
    have hsafe := h p (.all hlen (hhead.lt_length.le.trans hhead.whole))
    obtain ⟨value, hrun⟩ : ∃ value, (Checked.decodeInt data).run p = .ok value p' := by
      rcases hmajor with rfl | rfl
      · exact ⟨_, run_decodeInt_unsigned hlen hhead⟩
      · exact ⟨_, run_decodeInt_negative hlen hhead⟩
    have hlow := value.le_toInt
    have hhigh := value.toInt_lt
    obtain ⟨arg', p'', ⟨hhead', hvalue⟩ | ⟨hhead', hvalue⟩⟩ := hsafe.integer value p' hrun
    all_goals
      obtain ⟨-, rfl, -⟩ := hhead.unique hhead'
      omega

/-- Every sequence of calls is safe exactly for the data that is tame. -/
theorem safe_iff_tame {data : Bytes} (hlen : data.length < 2 ^ 64) : Safe data ↔ Tame data :=
  ⟨fun h => h.tame hlen, fun h _ hreached => h.safeAt hlen (hreached.le_length h hlen)⟩

/-- A text of three letters. -/
theorem safe_iff_tame_text : Safe [0x63, 0x61, 0x62, 0x63] ↔ Tame [0x63, 0x61, 0x62, 0x63] :=
  safe_iff_tame (by decide)

/-- A string of `2 ^ 64 - 1` bytes is announced, and `2 ^ 64 - 1` is read as minus one. -/
theorem announced_overflow :
    (Checked.decodeBytes (0x5B :: List.replicate 8 0xFF)).run 0 = .error .overflow 9 ∧
      (Checked.decodeInt (0x1B :: List.replicate 8 0xFF)).run 0 = .ok (-1) 9 ∧
      ¬ Safe (0x5B :: List.replicate 8 0xFF) ∧ ¬ Safe (0x1B :: List.replicate 8 0xFF) := by
  have hbytesHead : HeadAt (0x5B :: List.replicate 8 0xFF) 0 .bytes (2 ^ 64 - 1) 9 :=
    ⟨by decide, 0x5B, 8, rfl, by decide, rfl, by decide, by decide⟩
  have hintHead : HeadAt (0x1B :: List.replicate 8 0xFF) 0 .unsigned (2 ^ 64 - 1) 9 :=
    ⟨by decide, 0x1B, 8, rfl, by decide, rfl, by decide, by decide⟩
  have hbytes := run_decodeString_overflow (by decide) hbytesHead (by norm_num)
  have hint := run_decodeInt_unsigned (by decide) hintHead
  rw [show (UInt64.ofNat (2 ^ 64 - 1)).toInt64 = -1 by decide] at hint
  refine ⟨hbytes, hint, fun h => ?_, fun h => ?_⟩
  · exact (h 0 .init).no_overflow .decodeBytes (run_discard_error hbytes)
  · obtain ⟨arg, p', ⟨-, hvalue⟩ | ⟨⟨-, b, w, hb, -, -, hmajor, -⟩, -⟩⟩ := (h 0 .init).integer _ _ hint
    · have hone : (-1 : Int64).toInt = -1 := by decide
      omega
    · cases hb
      exact absurd hmajor (by decide)

end NextgenDatabases.Lithoglyph.Cbor
