import Mathlib.Data.Int.Log
import Mathlib.Data.Rat.Floor
import Mathlib.Tactic.Positivity

/-!
# Rounding to single precision

The nearest number with a mantissa of 24 bits, ties to even, for nonnegative rationals and without
bounds on the exponent. An arithmetic operation in single precision is the exact operation followed
by `roundSingle`, as long as the result is neither too large nor too small.

* `roundSingle_mono` : rounding is monotone.
* `le_roundSingle` : the relative error is at most `2⁻²⁴`.
* `roundSingle_eq` : the value, once the exponent is known.
-/

namespace AndroidSystem

variable {x y : ℚ}

/-! ## Rounding to an integer -/

/-- The nearest integer, ties to even. -/
def roundEven (x : ℚ) : ℤ :=
  if x - ⌊x⌋ < 1 / 2 then ⌊x⌋
  else if 1 / 2 < x - ⌊x⌋ then ⌊x⌋ + 1
  else if ⌊x⌋ % 2 = 0 then ⌊x⌋ else ⌊x⌋ + 1

theorem roundEven_cases (x : ℚ) : roundEven x = ⌊x⌋ ∧ x - ⌊x⌋ ≤ 1 / 2 ∨
    roundEven x = ⌊x⌋ + 1 ∧ 1 / 2 ≤ x - ⌊x⌋ := by
  unfold roundEven
  split_ifs with h1 h2 h3
  · exact .inl ⟨rfl, h1.le⟩
  · exact .inr ⟨rfl, h2.le⟩
  · exact .inl ⟨rfl, not_lt.1 h2⟩
  · exact .inr ⟨rfl, not_lt.1 h1⟩

theorem le_roundEven (x : ℚ) : x - 1 / 2 ≤ roundEven x := by
  have hfloor := Int.lt_floor_add_one x
  obtain ⟨h, hr⟩ | ⟨h, -⟩ := roundEven_cases x
  · rw [h]
    linarith
  · rw [h, Int.cast_add]
    linarith

theorem roundEven_mono (h : x ≤ y) : roundEven x ≤ roundEven y := by
  have hfloor : ⌊x⌋ ≤ ⌊y⌋ := Int.floor_mono h
  rcases hfloor.lt_or_eq with hlt | heq
  · obtain ⟨hx, -⟩ | ⟨hx, -⟩ := roundEven_cases x <;>
      obtain ⟨hy, -⟩ | ⟨hy, -⟩ := roundEven_cases y <;> omega
  · unfold roundEven
    rw [heq]
    split_ifs <;> first | omega | linarith

@[simp] theorem roundEven_intCast (n : ℤ) : roundEven n = n := by
  simp [roundEven]

/-- An integer with a remainder below one half, or one half where the integer is even. -/
theorem roundEven_eq {n : ℤ} (hle : (n : ℚ) ≤ x) (hlt : x < n + 1 / 2 ∨ x = n + 1 / 2 ∧ n % 2 = 0) :
    roundEven x = n := by
  have hfloor : ⌊x⌋ = n := by
    rw [Int.floor_eq_iff]
    rcases hlt with h | ⟨h, -⟩ <;> constructor <;> linarith
  unfold roundEven
  rw [hfloor]
  rcases hlt with h | ⟨h, heven⟩
  · rw [if_pos (by linarith)]
  · rw [if_neg (by linarith), if_neg (by linarith), if_pos heven]

/-! ## Rounding to 24 bits -/

/-- The distance between two neighbours. -/
def lastPlace (x : ℚ) : ℚ := 2 ^ (Int.log 2 x - 23)

/-- The nearest number with 24 bits. -/
def roundSingle (x : ℚ) : ℚ := roundEven (x / lastPlace x) * lastPlace x

theorem lastPlace_pos (x : ℚ) : 0 < lastPlace x := zpow_pos two_pos _

theorem lastPlace_mul (x : ℚ) : lastPlace x * 2 ^ 23 = 2 ^ Int.log 2 x := by
  rw [lastPlace, ← zpow_natCast (2 : ℚ) 23, ← zpow_add₀ two_ne_zero]
  congr 1
  omega

/-- A positive number has 24 digits before the last place. -/
theorem le_div_lastPlace (hx : 0 < x) : 2 ^ 23 ≤ x / lastPlace x ∧ x / lastPlace x < 2 ^ 24 := by
  have hpos := lastPlace_pos x
  have hmul := lastPlace_mul x
  have hle := Int.zpow_log_le_self (b := 2) (by decide) hx
  have hlt := Int.lt_zpow_succ_log_self (b := 2) (by decide) x
  rw [zpow_add_one₀ (by norm_num)] at hlt
  push_cast at hle hlt
  rw [le_div_iff₀ hpos, div_lt_iff₀ hpos]
  constructor <;> linarith

theorem roundSingle_zero : roundSingle 0 = 0 := by
  simp [roundSingle, roundEven]

theorem le_roundSingle (hx : 0 ≤ x) : x * (1 - 1 / 2 ^ 24) ≤ roundSingle x := by
  rcases hx.eq_or_lt with rfl | hx
  · simp [roundSingle_zero]
  · have hpos := lastPlace_pos x
    obtain ⟨hle, -⟩ := le_div_lastPlace hx
    have hround := le_roundEven (x / lastPlace x)
    calc x * (1 - 1 / 2 ^ 24)
        = x / lastPlace x * (1 - 1 / 2 ^ 24) * lastPlace x := by
          rw [mul_right_comm, div_mul_cancel₀ x hpos.ne']
      _ ≤ roundSingle x := mul_le_mul_of_nonneg_right (by linarith) hpos.le

theorem roundSingle_pos (hx : 0 < x) : 0 < roundSingle x :=
  lt_of_lt_of_le (mul_pos hx (by norm_num)) (le_roundSingle hx.le)

theorem roundSingle_nonneg (hx : 0 ≤ x) : 0 ≤ roundSingle x :=
  le_trans (mul_nonneg hx (by norm_num)) (le_roundSingle hx)

theorem roundSingle_bounds (hx : 0 < x) :
    2 ^ Int.log 2 x ≤ roundSingle x ∧ roundSingle x ≤ 2 ^ (Int.log 2 x + 1) := by
  have hpos := lastPlace_pos x
  obtain ⟨hle, hlt⟩ := le_div_lastPlace hx
  have hlow : ((2 ^ 23 : ℤ) : ℚ) ≤ roundEven (x / lastPlace x) := by
    rw [Int.cast_le, ← roundEven_intCast (2 ^ 23)]
    exact roundEven_mono (by push_cast; exact hle)
  have hhigh : (roundEven (x / lastPlace x) : ℚ) ≤ (2 ^ 24 : ℤ) := by
    rw [Int.cast_le, ← roundEven_intCast (2 ^ 24)]
    exact roundEven_mono (by push_cast; exact hlt.le)
  rw [zpow_add_one₀ two_ne_zero, ← lastPlace_mul]
  constructor
  · rw [mul_comm]
    exact mul_le_mul_of_nonneg_right hlow hpos.le
  · calc _ ≤ 2 ^ 24 * lastPlace x := mul_le_mul_of_nonneg_right hhigh hpos.le
      _ = lastPlace x * 2 ^ 23 * 2 := by ring

theorem roundSingle_mono (hx : 0 ≤ x) (h : x ≤ y) : roundSingle x ≤ roundSingle y := by
  rcases hx.eq_or_lt with rfl | hx
  · rw [roundSingle_zero]
    exact roundSingle_nonneg h
  · have hy : 0 < y := hx.trans_le h
    have hlog : Int.log 2 x ≤ Int.log 2 y := Int.log_mono_right hx h
    rcases hlog.lt_or_eq with hlt | heq
    · calc roundSingle x ≤ 2 ^ (Int.log 2 x + 1) := (roundSingle_bounds hx).2
        _ ≤ 2 ^ Int.log 2 y := zpow_le_zpow_right₀ one_le_two hlt
        _ ≤ roundSingle y := (roundSingle_bounds hy).1
    · have hplace : lastPlace x = lastPlace y := by rw [lastPlace, lastPlace, heq]
      unfold roundSingle
      rw [hplace]
      apply mul_le_mul_of_nonneg_right _ (lastPlace_pos y).le
      rw [Int.cast_le]
      exact roundEven_mono (div_le_div_of_nonneg_right h (lastPlace_pos y).le)

theorem roundSingle_eq (e : ℤ) (hle : 2 ^ (e + 23) ≤ x) (hlt : x < 2 ^ (e + 24)) :
    roundSingle x = roundEven (x / 2 ^ e) * 2 ^ e := by
  have hx : 0 < x := lt_of_lt_of_le (zpow_pos two_pos _) hle
  have hlog : Int.log 2 x = e + 23 := by
    apply le_antisymm
    · rw [← Int.lt_add_one_iff, ← Int.lt_zpow_iff_log_lt (by decide) hx]
      rw [add_assoc]
      exact_mod_cast hlt
    · rw [← Int.zpow_le_iff_le_log (by decide) hx]
      exact_mod_cast hle
  rw [roundSingle, lastPlace, hlog, add_sub_cancel_right]

end AndroidSystem
