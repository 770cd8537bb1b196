import NextgenDatabases.Foundations.Bytes

/-!
# Cyclic redundancy checks

Reflected checks of any width, bit by bit. A step is linear, so that several steps are a shift
and a table lookup, and so that a changed message is told from the original by the bits that
changed.
-/
namespace NextgenDatabases.Foundations.Crc

variable {w : ℕ} (poly : BitVec w)

/-- The register moves down one place and takes the polynomial when a one falls out. -/
def step (crc : BitVec w) : BitVec w :=
  if crc.getLsbD 0 then (crc >>> 1) ^^^ poly else crc >>> 1

def steps : ℕ → BitVec w → BitVec w
  | 0, crc => crc
  | n + 1, crc => steps n (step poly crc)

/-- One bit of the message, then all of them. -/
def feedBit (crc : BitVec w) (b : Bool) : BitVec w := step poly (crc ^^^ (BitVec.ofBool b).setWidth w)

def feed (crc : BitVec w) (bits : List Bool) : BitVec w := bits.foldl (feedBit poly) crc

/-! ### Linearity -/

theorem step_xor (a b : BitVec w) : step poly (a ^^^ b) = step poly a ^^^ step poly b := by
  unfold step
  rw [BitVec.getLsbD_xor, BitVec.ushiftRight_xor_distrib]
  cases a.getLsbD 0 <;> cases b.getLsbD 0
  · rfl
  · exact BitVec.xor_assoc _ _ _
  · simp only [Bool.xor_false, if_true, Bool.false_eq_true, if_false]
    ac_rfl
  · simp only [Bool.xor_self, if_true, Bool.false_eq_true, if_false]
    rw [BitVec.xor_assoc (a >>> 1), ← BitVec.xor_assoc poly, BitVec.xor_comm poly,
      BitVec.xor_assoc (b >>> 1), BitVec.xor_self, BitVec.xor_zero]

theorem steps_xor (n : ℕ) (a b : BitVec w) :
    steps poly n (a ^^^ b) = steps poly n a ^^^ steps poly n b := by
  induction n generalizing a b with
  | zero => rfl
  | succ n ih => rw [steps, step_xor, ih, steps, steps]

@[simp] theorem step_zero : step poly 0#w = 0#w := by simp [step]

@[simp] theorem steps_zero (n : ℕ) : steps poly n 0#w = 0#w := by
  induction n with
  | zero => rfl
  | succ n ih => rw [steps, step_zero, ih]

theorem steps_add (n m : ℕ) (crc : BitVec w) :
    steps poly (n + m) crc = steps poly m (steps poly n crc) := by
  induction n generalizing crc with
  | zero => rw [Nat.zero_add, steps]
  | succ n ih => rw [Nat.succ_add, steps, ih, steps]

/-- A wider register does the same. -/
theorem step_setWidth {w' : ℕ} (h : w ≤ w') (crc : BitVec w) :
    step (poly.setWidth w') (crc.setWidth w') = (step poly crc).setWidth w' := by
  have hlow : (crc.setWidth w').getLsbD 0 = crc.getLsbD 0 := by
    rw [BitVec.getLsbD_setWidth]
    by_cases hw : 0 < w'
    · simp [hw]
    · simp [BitVec.getLsbD_of_ge crc 0 (by omega)]
  unfold step
  rw [hlow]
  split_ifs
  · rw [BitVec.setWidth_xor, BitVec.setWidth_ushiftRight h]
  · rw [BitVec.setWidth_ushiftRight h]

theorem steps_setWidth {w' : ℕ} (h : w ≤ w') (n : ℕ) (crc : BitVec w) :
    steps (poly.setWidth w') n (crc.setWidth w') = (steps poly n crc).setWidth w' := by
  induction n generalizing crc with
  | zero => rfl
  | succ n ih => rw [steps, step_setWidth poly h, ih, steps]

/-! ### Tables -/

/-- A register whose low bits are clear only moves down. -/
theorem steps_high {n : ℕ} {crc : BitVec w} (h : ∀ i < n, crc.getLsbD i = false) :
    steps poly n crc = crc >>> n := by
  induction n generalizing crc with
  | zero => rw [steps, BitVec.ushiftRight_zero]
  | succ n ih =>
    have hlow : crc.getLsbD 0 = false := h 0 (by omega)
    have hstep : step poly crc = crc >>> 1 := by simp [step, hlow]
    have hshift : ∀ i < n, (crc >>> 1).getLsbD i = false := by
      intro i hi
      rw [BitVec.getLsbD_ushiftRight]
      exact h (1 + i) (by omega)
    rw [steps, hstep, ih hshift, ← BitVec.shiftRight_add, Nat.add_comm]

/-- The low bits of a register, and the rest of it. -/
theorem low_xor_high (mask crc : BitVec w) : (crc &&& mask) ^^^ (crc &&& ~~~mask) = crc := by
  apply BitVec.eq_of_getLsbD_eq
  intro i hi
  rw [BitVec.getLsbD_xor, BitVec.getLsbD_and, BitVec.getLsbD_and, BitVec.getLsbD_not]
  cases crc.getLsbD i <;> cases mask.getLsbD i <;> simp [hi]

/-- Several steps are a shift and those of the low bits, which a table can hold. -/
theorem steps_table {n : ℕ} {mask : BitVec w}
    (hmask : ∀ i < w, mask.getLsbD i = decide (i < n)) (crc : BitVec w) :
    steps poly n crc = (crc >>> n) ^^^ steps poly n (crc &&& mask) := by
  have hhigh : ∀ i < n, (crc &&& ~~~mask).getLsbD i = false := by
    intro i hi
    rw [BitVec.getLsbD_and, BitVec.getLsbD_not]
    by_cases hw : i < w
    · simp [hmask i hw, hi]
    · simp [hw]
  have hshift : (crc &&& ~~~mask) >>> n = crc >>> n := by
    apply BitVec.eq_of_getLsbD_eq
    intro i hi
    rw [BitVec.getLsbD_ushiftRight, BitVec.getLsbD_ushiftRight, BitVec.getLsbD_and,
      BitVec.getLsbD_not]
    by_cases hw : n + i < w
    · rw [hmask _ hw]
      simp [hw]
    · simp [BitVec.getLsbD_of_ge crc (n + i) (by omega)]
  conv_lhs => rw [← low_xor_high mask crc]
  rw [steps_xor, steps_high poly hhigh, hshift, BitVec.xor_comm]

/-! ### Several bits at once -/

/-- The register that holds the given bits, the first one lowest. -/
def ofBits (w : ℕ) : List Bool → BitVec w
  | [] => 0#w
  | b :: bits => (BitVec.ofBool b).setWidth w ^^^ (ofBits w bits <<< 1)

theorem getLsbD_ofBits {i : ℕ} (bits : List Bool) (h : i < w) :
    (ofBits w bits).getLsbD i = bits[i]?.getD false := by
  induction bits generalizing i with
  | nil => simp [ofBits]
  | cons b bits ih =>
    rw [ofBits, BitVec.getLsbD_xor, BitVec.getLsbD_shiftLeft]
    cases i with
    | zero => simp [h]
    | succ i =>
      rw [Nat.add_sub_cancel, ih (by omega)]
      simp [h]

theorem ofBits_inj {bits bits' : List Bool} (hlen : bits.length = bits'.length)
    (hw : bits.length ≤ w) (h : ofBits w bits = ofBits w bits') : bits = bits' := by
  apply List.ext_getElem hlen
  intro i hi hi'
  have hbit := congrArg (fun crc => crc.getLsbD i) h
  simp only [getLsbD_ofBits _ (lt_of_lt_of_le hi hw)] at hbit
  rwa [List.getElem?_eq_getElem hi, List.getElem?_eq_getElem hi'] at hbit

/-- A register whose top bit is clear is what the register twice as large steps to. -/
theorem step_shiftLeft {crc : BitVec w} (h : crc.getLsbD (w - 1) = false) :
    step poly (crc <<< 1) = crc := by
  have hlow : (crc <<< 1).getLsbD 0 = false := by simp
  rw [step, hlow, if_neg Bool.false_ne_true]
  apply BitVec.eq_of_getLsbD_eq
  intro i hi
  rw [BitVec.getLsbD_ushiftRight, BitVec.getLsbD_shiftLeft]
  by_cases hw : 1 + i < w
  · simp [hw]
  · rw [show i = w - 1 by omega, h]
    simp [h]

/-- Bits that fit in the register can be taken in before it moves. -/
theorem feed_eq_steps (crc : BitVec w) {bits : List Bool} (h : bits.length ≤ w) :
    feed poly crc bits = steps poly bits.length (crc ^^^ ofBits w bits) := by
  induction bits generalizing crc with
  | nil => simp [feed, ofBits, steps]
  | cons b bits ih =>
    rw [List.length_cons] at h
    have htop : (ofBits w bits).getLsbD (w - 1) = false := by
      rw [getLsbD_ofBits _ (by omega), List.getElem?_eq_none (by omega), Option.getD_none]
    have hfeed : feed poly crc (b :: bits) = feed poly (feedBit poly crc b) bits := rfl
    rw [hfeed, ih _ (by omega), List.length_cons, steps, ofBits, ← BitVec.xor_assoc, step_xor,
      step_shiftLeft poly htop, feedBit]

theorem feed_append (crc : BitVec w) (bits bits' : List Bool) :
    feed poly crc (bits ++ bits') = feed poly (feed poly crc bits) bits' := List.foldl_append

/-! ### Changed messages -/

section

variable {poly} (hpoly : poly.msb = true)
include hpoly

/-- With the top bit of the polynomial set no step loses anything. -/
theorem step_eq_zero {crc : BitVec w} (h : step poly crc = 0#w) : crc = 0#w := by
  have hw : 0 < w := by
    by_contra hw
    rw [BitVec.msb_eq_getLsbD_last, BitVec.getLsbD_of_ge _ _ (by omega)] at hpoly
    exact absurd hpoly (by decide)
  have hbit : ∀ i, (step poly crc).getLsbD i = false := by
    intro i
    rw [h, BitVec.getLsbD_zero]
  cases hlow : crc.getLsbD 0 with
  | true =>
    have htop := hbit (w - 1)
    rw [step, hlow, if_pos rfl, BitVec.getLsbD_xor, BitVec.getLsbD_ushiftRight,
      BitVec.getLsbD_of_ge _ _ (by omega), ← BitVec.msb_eq_getLsbD_last, hpoly] at htop
    exact absurd htop (by decide)
  | false =>
    apply BitVec.eq_of_getLsbD_eq
    intro i hi
    rw [BitVec.getLsbD_zero]
    cases i with
    | zero => exact hlow
    | succ i =>
      have hnext := hbit i
      rwa [step, hlow, if_neg Bool.false_ne_true, BitVec.getLsbD_ushiftRight, Nat.add_comm]
        at hnext

theorem step_injective : Function.Injective (step poly) := by
  intro a b h
  have hzero : step poly (a ^^^ b) = 0#w := by rw [step_xor, h, BitVec.xor_self]
  exact BitVec.xor_eq_zero_iff.mp (step_eq_zero hpoly hzero)

theorem steps_injective (n : ℕ) : Function.Injective (steps poly n) := by
  induction n with
  | zero => exact fun a b h => h
  | succ n ih => exact fun a b h => step_injective hpoly (ih h)

theorem feed_injective (bits : List Bool) :
    Function.Injective fun crc => feed poly crc bits := by
  induction bits with
  | nil => exact fun a b h => h
  | cons b bits ih =>
    intro crc crc' h
    exact (BitVec.xor_left_inj _).mp (step_injective hpoly (ih h))

/-- A message that differs from another in as many consecutive bits as the register holds, or
fewer, has another check. -/
theorem feed_ne_of_burst (crc : BitVec w) {bits bits' : List Bool} (i : ℕ)
    (hlen : bits.length = bits'.length) (hbefore : bits.take i = bits'.take i)
    (hafter : bits.drop (i + w) = bits'.drop (i + w)) (hne : bits ≠ bits') :
    feed poly crc bits ≠ feed poly crc bits' := by
  intro heq
  have hsplit : ∀ bs : List Bool, bs = bs.take i ++ ((bs.drop i).take w ++ bs.drop (i + w)) := by
    intro bs
    rw [← List.drop_drop, List.take_append_drop, List.take_append_drop]
  have hwindow : ((bits.drop i).take w).length = ((bits'.drop i).take w).length := by
    simp [hlen]
  have hfit : ((bits.drop i).take w).length ≤ w := by
    rw [List.length_take]
    exact min_le_left _ _
  rw [hsplit bits, hsplit bits', ← hbefore, ← hafter, feed_append, feed_append, feed_append,
    feed_append] at heq
  have hmiddle := feed_injective hpoly _ heq
  have hfit' : ((bits'.drop i).take w).length ≤ w := by omega
  rw [feed_eq_steps _ _ hfit, feed_eq_steps _ _ hfit', hwindow] at hmiddle
  have hbits := (BitVec.xor_right_inj _).mp (steps_injective hpoly _ hmiddle)
  apply hne
  rw [hsplit bits, hsplit bits', ← hbefore, ← hafter, ofBits_inj hwindow hfit hbits]

end

/-! ### Bytes -/

/-- A byte as its bits, the lowest first. -/
def bitsOf (b : UInt8) : List Bool := (List.range 8).map b.toBitVec.getLsbD

def toBits (data : Bytes) : List Bool := data.flatMap bitsOf

def feedByte (crc : BitVec w) (b : UInt8) : BitVec w :=
  steps poly 8 (crc ^^^ b.toBitVec.setWidth w)

/-- The check of a byte string with all ones before and after. -/
def check (data : Bytes) : BitVec w := data.foldl (feedByte poly) (BitVec.allOnes w) ^^^ .allOnes w

theorem ofBits_bitsOf (w : ℕ) (b : UInt8) :
    ofBits w (bitsOf b) = b.toBitVec.setWidth w := by
  apply BitVec.eq_of_getLsbD_eq
  intro i hi
  rw [getLsbD_ofBits _ hi, BitVec.getLsbD_setWidth, bitsOf, List.getElem?_map]
  by_cases hi8 : i < 8
  · simp [hi8, hi]
  · simp [hi8, BitVec.getLsbD_of_ge b.toBitVec i (by omega)]

theorem feed_toBits (hw : 8 ≤ w) (crc : BitVec w) (data : Bytes) :
    feed poly crc (toBits data) = data.foldl (feedByte poly) crc := by
  induction data generalizing crc with
  | nil => rfl
  | cons b data ih =>
    have hlen : (bitsOf b).length = 8 := by simp [bitsOf]
    have hbyte : feed poly crc (bitsOf b) = feedByte poly crc b := by
      rw [feed_eq_steps _ _ (by omega), hlen, ofBits_bitsOf, feedByte]
    rw [toBits, List.flatMap_cons, feed_append, hbyte, List.foldl_cons]
    exact ih _

theorem length_toBits (data : Bytes) : (toBits data).length = 8 * data.length := by
  induction data with
  | nil => rfl
  | cons b data ih =>
    have hlen : (bitsOf b).length = 8 := by simp [bitsOf]
    rw [toBits, List.flatMap_cons, List.length_append, hlen, List.length_cons]
    change 8 + (toBits data).length = _
    omega

theorem bitsOf_injective : Function.Injective bitsOf := by
  intro a b h
  apply UInt8.toBitVec_inj.mp
  have hall := ofBits_bitsOf 8 a
  rw [h, ofBits_bitsOf, BitVec.setWidth_eq, BitVec.setWidth_eq] at hall
  exact hall.symm

theorem toBits_injective {data data' : Bytes} (hlen : data.length = data'.length)
    (h : toBits data = toBits data') : data = data' := by
  induction data generalizing data' with
  | nil => exact (List.length_eq_zero_iff.mp hlen.symm).symm
  | cons b data ih =>
    cases data' with
    | nil => simp at hlen
    | cons b' data' =>
      rw [toBits, toBits, List.flatMap_cons, List.flatMap_cons] at h
      have hparts := List.append_inj h (by simp [bitsOf])
      rw [bitsOf_injective hparts.1, ih (by simpa using hlen) hparts.2]

theorem toBits_take (data : Bytes) (n : ℕ) : toBits (data.take n) = (toBits data).take (8 * n) := by
  induction data generalizing n with
  | nil => simp [toBits]
  | cons b data ih =>
    cases n with
    | zero => simp [toBits]
    | succ n =>
      have hlen : (bitsOf b).length = 8 := by simp [bitsOf]
      rw [List.take_succ_cons, toBits, List.flatMap_cons, toBits, List.flatMap_cons,
        List.take_append, hlen, List.take_of_length_le (l := bitsOf b) (by omega),
        show 8 * (n + 1) - 8 = 8 * n by omega]
      exact congrArg _ (ih n)

/-- At most as many consecutive bits as the register holds were changed. -/
def Burst (w : ℕ) (data data' : Bytes) : Prop :=
  data.length = data'.length ∧ ∃ i, (toBits data).take i = (toBits data').take i ∧
    (toBits data).drop (i + w) = (toBits data').drop (i + w)

theorem Burst.take {w : ℕ} {data data' : Bytes} (h : Burst w data data') (n : ℕ) :
    Burst w (data.take n) (data'.take n) := by
  obtain ⟨hlen, i, hbefore, hafter⟩ := h
  refine ⟨by rw [List.length_take, List.length_take, hlen], i, ?_, ?_⟩
  · rw [toBits_take, toBits_take, List.take_take, List.take_take, min_comm, ← List.take_take,
      hbefore, List.take_take]
  · rw [toBits_take, toBits_take, List.drop_take, List.drop_take, hafter]

theorem check_ne_of_burst {poly : BitVec w} (hpoly : poly.msb = true) (hw : 8 ≤ w)
    {data data' : Bytes} (h : Burst w data data') (hne : data ≠ data') :
    check poly data ≠ check poly data' := by
  obtain ⟨hlen, i, hbefore, hafter⟩ := h
  intro heq
  have hfeed := (BitVec.xor_left_inj _).mp heq
  rw [← feed_toBits poly hw, ← feed_toBits poly hw] at hfeed
  have hbits : (toBits data).length = (toBits data').length := by
    rw [length_toBits, length_toBits, hlen]
  exact feed_ne_of_burst hpoly _ i hbits hbefore hafter
    (fun h => hne (toBits_injective hlen h)) hfeed

end NextgenDatabases.Foundations.Crc
