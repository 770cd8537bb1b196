import Mathlib.Algebra.Order.Ring.Nat
import Mathlib.Tactic.Ring

/-!
# Byte strings

Integers as byte strings: an unsigned integer of `w` bytes, least or most significant byte
first, and a signed one of eight bytes in two's complement. Slices, and digests with their hexadecimal
form.
-/
namespace NextgenDatabases.Foundations

abbrev Bytes := List UInt8

/-- The `w` low bytes of `n`, least significant first. -/
def toLe : ℕ → ℕ → Bytes
  | 0, _ => []
  | w + 1, n => UInt8.ofNat n :: toLe w (n / 256)

/-- The number a little-endian byte string stands for. -/
def ofLe : Bytes → ℕ
  | [] => 0
  | b :: bs => b.toNat + 256 * ofLe bs

@[simp] theorem length_toLe (w n : ℕ) : (toLe w n).length = w := by
  induction w generalizing n with
  | zero => rfl
  | succ w ih => simp [toLe, ih]

theorem ofLe_toLe (w n : ℕ) : ofLe (toLe w n) = n % 256 ^ w := by
  induction w generalizing n with
  | zero => simp [toLe, ofLe, Nat.mod_one]
  | succ w ih =>
    have hb : (UInt8.ofNat n).toNat = n % 256 := UInt8.toNat_ofNat'
    rw [toLe, ofLe, ih, hb, pow_succ', Nat.mod_mul]

theorem ofLe_toLe_of_lt {w n : ℕ} (h : n < 256 ^ w) : ofLe (toLe w n) = n := by
  rw [ofLe_toLe, Nat.mod_eq_of_lt h]

/-- The `w` low bytes of `n`, most significant first. -/
def toBe (w n : ℕ) : Bytes := (toLe w n).reverse

/-- The number a big-endian byte string stands for. -/
def ofBe (bs : Bytes) : ℕ := ofLe bs.reverse

@[simp] theorem length_toBe (w n : ℕ) : (toBe w n).length = w := by
  rw [toBe, List.length_reverse, length_toLe]

theorem ofBe_toBe_of_lt {w n : ℕ} (h : n < 256 ^ w) : ofBe (toBe w n) = n := by
  rw [ofBe, toBe, List.reverse_reverse, ofLe_toLe_of_lt h]

theorem ofLe_append (bs cs : Bytes) : ofLe (bs ++ cs) = ofLe bs + 256 ^ bs.length * ofLe cs := by
  induction bs with
  | nil => simp [ofLe]
  | cons b bs ih =>
    rw [List.cons_append, ofLe, ofLe, ih, List.length_cons, pow_succ]
    ring

theorem ofLe_lt (bs : Bytes) : ofLe bs < 256 ^ bs.length := by
  induction bs with
  | nil => simp [ofLe]
  | cons b bs ih =>
    have hb := b.toNat_lt
    rw [ofLe, List.length_cons, pow_succ]
    omega

theorem ofBe_lt (bs : Bytes) : ofBe bs < 256 ^ bs.length := by
  rw [ofBe, ← List.length_reverse]
  exact ofLe_lt _

/-- The bytes are those of the number they stand for. -/
theorem toLe_ofLe (bs : Bytes) : toLe bs.length (ofLe bs) = bs := by
  induction bs with
  | nil => rfl
  | cons b bs ih =>
    have hb := b.toNat_lt
    have hbyte : UInt8.ofNat (b.toNat + 256 * ofLe bs) = b := by
      rw [← UInt8.toNat_inj, UInt8.toNat_ofNat']
      omega
    have hrest : (b.toNat + 256 * ofLe bs) / 256 = ofLe bs := by omega
    rw [List.length_cons, ofLe, toLe, hbyte, hrest, ih]

theorem toLe_ofLe_of_length {w : ℕ} {bs : Bytes} (h : bs.length = w) : toLe w (ofLe bs) = bs := by
  rw [← h, toLe_ofLe]

/-- Eight bytes of a signed integer, two's complement. -/
def toLeSigned (z : ℤ) : Bytes := toLe 8 (z % 2 ^ 64).toNat

/-- The signed integer that eight bytes stand for. -/
def ofLeSigned (bs : Bytes) : ℤ :=
  if ofLe bs < 2 ^ 63 then ofLe bs else ofLe bs - 2 ^ 64

@[simp] theorem length_toLeSigned (z : ℤ) : (toLeSigned z).length = 8 := length_toLe 8 _

theorem ofLeSigned_toLeSigned {z : ℤ} (hlo : -2 ^ 63 ≤ z) (hhi : z < 2 ^ 63) :
    ofLeSigned (toLeSigned z) = z := by
  have hval : ofLe (toLeSigned z) = (z % 2 ^ 64).toNat := ofLe_toLe_of_lt (by omega)
  rw [ofLeSigned, hval]
  split <;> omega

theorem toLeSigned_ofLeSigned {bs : Bytes} (h : bs.length = 8) :
    toLeSigned (ofLeSigned bs) = bs := by
  have hlt := ofLe_lt bs
  rw [h] at hlt
  have hval : (ofLeSigned bs % 2 ^ 64).toNat = ofLe bs := by
    rw [ofLeSigned]
    split <;> omega
  rw [toLeSigned, hval, toLe_ofLe_of_length h]

/-! ### Slices -/

/-- The `len` bytes from `off` on, as `data[off..off + len]`. -/
def slice (data : Bytes) (off len : ℕ) : Bytes := (data.drop off).take len

theorem length_slice {data : Bytes} {off len : ℕ} (h : off + len ≤ data.length) :
    (slice data off len).length = len := by
  rw [slice, List.length_take, List.length_drop]
  omega

/-- A slice past the end of the first part is a slice of the rest. -/
theorem slice_of_append {a b : Bytes} {off len : ℕ} (ha : a.length ≤ off) :
    slice (a ++ b) off len = slice b (off - a.length) len := by
  rw [slice, slice, List.drop_append, List.drop_of_length_le ha, List.nil_append]

/-- A slice of the first part. -/
theorem slice_append_left {a b : Bytes} {off len : ℕ} (ha : off + len ≤ a.length) :
    slice (a ++ b) off len = slice a off len := by
  rw [slice, slice, List.drop_append_of_le_length (by omega), List.take_append_of_le_length]
  rw [List.length_drop]
  omega

theorem slice_head {a b : Bytes} {off len : ℕ} (h0 : off = 0) (ha : a.length = len) :
    slice (a ++ b) off len = a := by
  rw [slice, h0, List.drop_zero, ← ha, List.take_left]

theorem slice_whole {a : Bytes} {off len : ℕ} (h0 : off = 0) (ha : a.length = len) :
    slice a off len = a := by
  rw [slice, h0, List.drop_zero, ← ha, List.take_length]

/-- A slice of what is taken. -/
theorem slice_take {a : Bytes} {off len n : ℕ} (h : off + len ≤ n) :
    slice (a.take n) off len = slice a off len := by
  rw [slice, slice, List.drop_take, List.take_take, min_eq_left (by omega)]

/-! ### Digests -/

/-- A digest of 256 bits. -/
abbrev Digest := Vector UInt8 32

/-- Two lower-case hexadecimal digits for each byte. -/
def toHex (digest : Digest) : String :=
  String.ofList (digest.toList.flatMap fun b =>
    [Nat.digitChar (b.toNat / 16), Nat.digitChar (b.toNat % 16)])

theorem hexDigits_injective : ∀ a < 16, ∀ b < 16, Nat.digitChar a = Nat.digitChar b → a = b := by
  decide

theorem hex_injective {bs cs : Bytes} (h : (bs.flatMap fun b =>
    [Nat.digitChar (b.toNat / 16), Nat.digitChar (b.toNat % 16)]) =
    cs.flatMap fun b => [Nat.digitChar (b.toNat / 16), Nat.digitChar (b.toNat % 16)]) :
    bs = cs := by
  induction bs generalizing cs with
  | nil =>
    cases cs with
    | nil => rfl
    | cons c cs => cases h
  | cons b bs ih =>
    cases cs with
    | nil => cases h
    | cons c cs =>
      simp only [List.flatMap_cons, List.cons_append, List.nil_append, List.cons.injEq] at h
      obtain ⟨hhigh, hlow, hrest⟩ := h
      have hb := b.toNat_lt
      have hc := c.toNat_lt
      have hhigh := hexDigits_injective _ (by omega) _ (by omega) hhigh
      have hlow := hexDigits_injective _ (by omega) _ (by omega) hlow
      have hbyte : b = c := UInt8.toNat_inj.mp (by omega)
      rw [hbyte, ih hrest]

theorem toHex_injective : Function.Injective toHex := by
  intro d d' h
  have hbytes := hex_injective (String.ofList_injective h)
  exact Vector.toList_inj.mp hbytes

end NextgenDatabases.Foundations
