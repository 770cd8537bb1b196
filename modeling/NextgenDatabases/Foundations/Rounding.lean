import Mathlib

/-!
# Rounding to the nearest binary fraction

Rounding of a rational number to an integer, ties to the even one, and to a number of
significant binary digits, with the distance to the number that is rounded.
-/
namespace NextgenDatabases.Rounding

/-- The nearest integer, the even one of two. -/
def roundEven (x : ℚ) : ℤ :=
  if x - ⌊x⌋ < 1 / 2 then ⌊x⌋
  else if 1 / 2 < x - ⌊x⌋ then ⌊x⌋ + 1
  else if ⌊x⌋ % 2 = 0 then ⌊x⌋ else ⌊x⌋ + 1

theorem abs_roundEven_sub (x : ℚ) : |(roundEven x : ℚ) - x| ≤ 1 / 2 := by
  have hfloor := Int.floor_le x
  have hceil := Int.lt_floor_add_one x
  rw [abs_le]
  unfold roundEven
  split_ifs with hlow hhigh heven
  all_goals push_cast; constructor <;> linarith

/-- The number rounded to `digits + 1` significant binary digits, for any exponent. -/
def roundTo (digits : ℕ) (x : ℚ) : ℚ :=
  let scale : ℚ := 2 ^ ((digits : ℤ) - Int.log 2 x)
  roundEven (x * scale) / scale

theorem abs_roundTo_sub {digits : ℕ} {x : ℚ} (hpos : 0 < x) (hone : x ≤ 1) :
    |roundTo digits x - x| ≤ 1 / 2 / 2 ^ digits := by
  have hlog : Int.log 2 x ≤ 0 := by
    have hmono := Int.log_mono_right (b := 2) hpos hone
    rwa [Int.log_one_right] at hmono
  have hscale : (2 : ℚ) ^ digits ≤ 2 ^ ((digits : ℤ) - Int.log 2 x) := by
    rw [← zpow_natCast]
    exact zpow_le_zpow_right₀ one_le_two (by omega)
  have hpow : (0 : ℚ) < 2 ^ digits := by positivity
  have hround := abs_roundEven_sub (x * 2 ^ ((digits : ℤ) - Int.log 2 x))
  unfold roundTo
  generalize (2 : ℚ) ^ ((digits : ℤ) - Int.log 2 x) = scale at hscale hround
  have hscalePos : 0 < scale := hpow.trans_le hscale
  calc |(roundEven (x * scale) : ℚ) / scale - x|
      = |(roundEven (x * scale) : ℚ) - x * scale| / scale := by
        rw [div_sub' hscalePos.ne', abs_div, abs_of_pos hscalePos, mul_comm scale x]
    _ ≤ 1 / 2 / scale := by gcongr
    _ ≤ 1 / 2 / 2 ^ digits := by gcongr

/-- The nearest double of a number between zero and one. -/
def toDouble (x : ℚ) : ℚ := if x = 0 then 0 else roundTo 52 x

/-- Different fractions of a denominator below `2 ^ 52` have different doubles. -/
theorem toDouble_injOn {n i j : ℕ} (hn : n < 2 ^ 52) (hi : i ≤ n) (hj : j ≤ n)
    (h : toDouble (i / n) = toDouble (j / n)) : i = j := by
  rcases Nat.eq_zero_or_pos n with rfl | hpos
  · omega
  have hnear {k : ℕ} (hk : k ≤ n) : |toDouble (k / n) - k / n| ≤ 1 / 2 / 2 ^ 52 := by
    unfold toDouble
    split_ifs with hzero
    · rw [hzero, sub_zero, abs_zero]
      positivity
    · have hfraction : (0 : ℚ) ≤ k / n := by positivity
      exact abs_roundTo_sub (lt_of_le_of_ne hfraction (Ne.symm hzero))
        (div_le_one_of_le₀ (by exact_mod_cast hk) (by positivity))
  have hcast : (n : ℚ) < 2 ^ 52 := by exact_mod_cast hn
  have hposCast : (0 : ℚ) < n := by exact_mod_cast hpos
  have hclose : |((i : ℚ) - j) / n| ≤ 1 / 2 ^ 52 := by
    have hleft := hnear hi
    have hright := hnear hj
    rw [h] at hleft
    rw [abs_le] at hleft hright ⊢
    rw [sub_div]
    constructor <;> linarith
  have hsmall : |((i : ℤ) - j : ℤ)| < 1 := by
    have hdiff : |(i : ℚ) - j| < 1 := by
      rw [abs_div, abs_of_pos hposCast, div_le_iff₀ hposCast] at hclose
      calc |(i : ℚ) - j| ≤ 1 / 2 ^ 52 * n := hclose
        _ < 1 / 2 ^ 52 * 2 ^ 52 := by gcongr
        _ = 1 := by norm_num
    exact_mod_cast hdiff
  have hzero := Int.abs_lt_one_iff.mp hsmall
  omega

end NextgenDatabases.Rounding
