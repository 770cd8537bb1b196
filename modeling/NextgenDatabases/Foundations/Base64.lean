import NextgenDatabases.Foundations.Bytes
import Mathlib.Tactic.IntervalCases

/-!
# Base64

Three bytes are four digits of six bits. One or two bytes at the end are two or three digits, and
no padding follows them. In the alphabet that is safe in a URL the last two digits are others.
-/
namespace NextgenDatabases.Foundations.Base64

/-- The digits of the standard alphabet. -/
def alphabet : Bytes :=
  "ABCDEFGHIJKLMNOPQRSTUVWXYZabcdefghijklmnopqrstuvwxyz0123456789+/".toList.map
    fun c => .ofNat c.toNat

def plus : UInt8 := 0x2b
def slash : UInt8 := 0x2f
def hyphen : UInt8 := 0x2d
def underscore : UInt8 := 0x5f

def urlSafe (c : UInt8) : UInt8 :=
  if c = plus then hyphen else if c = slash then underscore else c

def digit (value : UInt8) : UInt8 := urlSafe (alphabet.getD value.toNat 0)

/-- What holds of the digits of the first `n` values, checked for each. -/
theorem forall_lt {n : ℕ} {P : UInt8 → Prop} (h : ∀ i < n, P (.ofNat i)) {value : UInt8}
    (hlt : value.toNat < n) : P value := by
  have hvalue := h value.toNat hlt
  rwa [UInt8.ofNat_toNat] at hvalue

/-! ### Groups of six bits -/

/-- The first six bits. -/
def first (a : UInt8) : UInt8 := a >>> 2

/-- The last two bits of one byte and the first four of the next. -/
def second (a b : UInt8) : UInt8 := (a &&& 0x03) <<< 4 ||| b >>> 4

/-- The last four bits of one byte and the first two of the next. -/
def third (b c : UInt8) : UInt8 := (b &&& 0x0f) <<< 2 ||| c >>> 6

/-- The last six bits. -/
def fourth (c : UInt8) : UInt8 := c &&& 0x3f

variable (a b c : UInt8)

theorem eq_of_bits {x y : UInt8} (h : ∀ i < 8, x.toBitVec.getLsbD i = y.toBitVec.getLsbD i) :
    x = y :=
  UInt8.toBitVec_inj.mp (BitVec.eq_of_getLsbD_eq h)

theorem joins_first : first a <<< 2 ||| second a b >>> 4 = a :=
  eq_of_bits fun i hi => by interval_cases i <;> simp [first, second]

theorem joins_second : second a b <<< 4 ||| third b c >>> 2 = b :=
  eq_of_bits fun i hi => by interval_cases i <;> simp [second, third]

theorem joins_third : third b c <<< 6 ||| fourth c = c :=
  eq_of_bits fun i hi => by interval_cases i <;> simp [third, fourth]

theorem fourth_lt : (fourth c).toNat < 64 := by
  rw [fourth, UInt8.toNat_and]
  exact Nat.lt_of_le_of_lt Nat.and_le_right (by decide)

theorem first_lt : (first a).toNat < 64 := by
  have h : fourth (first a) = first a :=
    eq_of_bits fun i hi => by interval_cases i <;> simp [first, fourth]
  exact h ▸ fourth_lt (first a)

theorem second_lt : (second a b).toNat < 64 := by
  have h : fourth (second a b) = second a b :=
    eq_of_bits fun i hi => by interval_cases i <;> simp [second, fourth]
  exact h ▸ fourth_lt (second a b)

theorem third_lt : (third b c).toNat < 64 := by
  have h : fourth (third b c) = third b c :=
    eq_of_bits fun i hi => by interval_cases i <;> simp [third, fourth]
  exact h ▸ fourth_lt (third b c)

/-! ### Texts -/

def encode : Bytes → Bytes
  | [] => []
  | [a] => [digit (first a), digit (second a 0)]
  | [a, b] => [digit (first a), digit (second a b), digit (third b 0)]
  | a :: b :: c :: rest =>
    digit (first a) :: digit (second a b) :: digit (third b c) :: digit (fourth c) :: encode rest

/-- A text is made of digits. -/
theorem forall_encode {P : UInt8 → Prop} (h : ∀ value : UInt8, value.toNat < 64 → P (digit value))
    (data : Bytes) : ∀ c ∈ encode data, P c := by
  fun_induction encode data with
  | case1 => simp
  | case2 a => simpa using ⟨h _ (first_lt a), h _ (second_lt a 0)⟩
  | case3 a b => simpa using ⟨h _ (first_lt a), h _ (second_lt a b), h _ (third_lt b 0)⟩
  | case4 a b c rest ih =>
    simpa using ⟨h _ (first_lt a), h _ (second_lt a b), h _ (third_lt b c), h _ (fourth_lt c), ih⟩

theorem length_encode (data : Bytes) :
    (encode data).length = data.length / 3 * 4 +
      if data.length % 3 = 0 then 0 else data.length % 3 + 1 := by
  fun_induction encode data with
  | case1 | case2 | case3 => simp
  | case4 a b c rest ih =>
    simp only [List.length_cons, ih, Nat.add_assoc, Nat.reduceAdd, Nat.add_mod_right]
    omega

end NextgenDatabases.Foundations.Base64
