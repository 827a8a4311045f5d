import AndroidSystem.Lib.Machine
import Mathlib.Data.Nat.Bitwise

/-!
# LinearTransform

A rational scale between two 64-bit time lines. `scale_u64_to_u64` divides a 96-bit product in
two steps of 64 bits, and `linear_transform_s64_to_s64` keeps the sign apart, rounds down and adds
the second basis. Two results that fit into 64 bits are refused: the least integer when the second
basis is not negative, and everything that the least integer as second basis pulls back into range.
-/

namespace AndroidSystem.Utils

/-- `val * n / d`, or `none` if that has more than 64 bits. -/
def scaleU64ToU64 (val n d : Nat) (roundUpNotDown : Bool) : Option Nat :=
  let tmp2 := u64 ((val >>> 32) * n)
  let tmp1 := u64 ((val &&& (2 ^ 32 - 1)) * n)
  let tmp2 := u64 (tmp2 + (tmp1 >>> 32))
  if d ≤ tmp2 >>> 32 then none
  else
    let r := u32 (tmp2 % d)
    let tmp2 := tmp2 / d
    let tmp1 := (tmp1 &&& (2 ^ 32 - 1)) ||| u64 (r <<< 32)
    let r := u32 (tmp1 % d)
    let tmp1 := tmp1 / d
    let res := u64 (tmp2 <<< 32) ||| tmp1
    if r ≠ 0 ∧ roundUpNotDown then
      if u64 (res + 1) = 0 then none else some (u64 (res + 1))
    else some res

/-- `ABS` of an `int32_t`. The least one has no absolute value and stays as it is. -/
def abs32 (x : Int) : Int := if x < 0 then i32 (-x) else x

/-- `ABS` of an `int64_t`. -/
def abs64 (x : Int) : Int := if x < 0 then i64 (-x) else x

/-- The second half of `linear_transform_s64_to_s64`: the scaled difference and the second basis. -/
def addBasis (scaled : Nat) (isNeg : Bool) (basis2 : Int) : Option Int :=
  let signed := if isNeg then u64OfInt (-scaled) else scaled
  let res := u64 (signed + u64OfInt basis2)
  if scaled &&& 2 ^ 63 ≠ 0 then
    if isNeg ∧ basis2 < 0 then none
    else if ¬isNeg ∧ 0 ≤ basis2 then none
    else if abs64 basis2 ≤ (scaled &&& (2 ^ 63 - 1) : Nat) then none
    else some (i64 res)
  else if (signed ^^^ u64OfInt basis2 ^^^ 2 ^ 63) &&& (signed ^^^ res) &&& 2 ^ 63 ≠ 0 then none
  else some (i64 res)

def linearTransformS64ToS64 (val basis1 N : Int) (D : Nat) (invertFrac : Bool) (basis2 : Int) :
    Option Int :=
  let absVal := if val < basis1 then u64OfInt (basis1 - val) else u64OfInt (val - basis1)
  let isNeg := if N < 0 then !decide (val < basis1) else decide (val < basis1)
  let absN := u32OfInt (abs32 N)
  (scaleU64ToU64 absVal (if invertFrac then D else absN)
    (if invertFrac then absN else D) isNeg).bind fun scaled => addBasis scaled isNeg basis2

structure LinearTransform where
  aZero : Int64
  bZero : Int64
  aToBNumer : Int32
  aToBDenom : UInt32

open LinearTransform

namespace LinearTransform

def doForwardTransform (t : LinearTransform) (aIn : Int64) : Option Int :=
  if t.aToBDenom = 0 then none
  else linearTransformS64ToS64 aIn.toInt t.aZero.toInt t.aToBNumer.toInt t.aToBDenom.toNat false
    t.bZero.toInt

def doReverseTransform (t : LinearTransform) (bIn : Int64) : Option Int :=
  if t.aToBNumer = 0 then none
  else linearTransformS64ToS64 bIn.toInt t.bZero.toInt t.aToBNumer.toInt t.aToBDenom.toNat true
    t.aZero.toInt

end LinearTransform

/-! ## Scaling -/

section

variable {val n d low : Nat}

/-- The quotient of a high and a low digit, base `2 ^ 32`. -/
theorem div_digits (hd : 0 < d) (high low : Nat) :
    (2 ^ 32 * high + low) / d = 2 ^ 32 * (high / d) + (2 ^ 32 * (high % d) + low) / d ∧
      (2 ^ 32 * high + low) % d = (2 ^ 32 * (high % d) + low) % d := by
  have hsplit : 2 ^ 32 * high + low = 2 ^ 32 * (high % d) + low + d * (2 ^ 32 * (high / d)) := by
    conv_lhs => rw [← Nat.mod_add_div high d]
    ring
  rw [hsplit, Nat.add_mul_div_left _ _ hd, Nat.add_mul_mod_self_left, add_comm]
  exact ⟨rfl, rfl⟩

theorem or_digits (h : low < 2 ^ 32) (high : Nat) :
    (high <<< 32) ||| low = 2 ^ 32 * high + low := by
  rw [Nat.shiftLeft_eq, mul_comm, Nat.two_pow_add_eq_or_of_lt h]

theorem scaleU64ToU64_eq (hval : val < 2 ^ 64) (hn : n < 2 ^ 32) (hd0 : 0 < d) (hd : d < 2 ^ 32)
    (roundUp : Bool) :
    scaleU64ToU64 val n d roundUp =
      if (if roundUp then divRoundUp (val * n) d else val * n / d) < 2 ^ 64
        then some (if roundUp then divRoundUp (val * n) d else val * n / d) else none := by
  have hdigit (x : Nat) (hx : x < 2 ^ 32) : x * n ≤ (2 ^ 32 - 1) * (2 ^ 32 - 1) :=
    Nat.mul_le_mul (by omega) (by omega)
  have hlow := hdigit (val % 2 ^ 32) (by omega)
  have hhigh := hdigit (val / 2 ^ 32) (by omega)
  have hsplit : val * n = 2 ^ 32 * (val / 2 ^ 32 * n) + val % 2 ^ 32 * n := by
    conv_lhs => rw [← Nat.div_add_mod val (2 ^ 32)]
    ring
  -- the two digits of the product
  generalize hm : val * n = m at hsplit ⊢
  have hm32 : u64 (u64 (val / 2 ^ 32 * n) + u64 (val % 2 ^ 32 * n) / 2 ^ 32) = m / 2 ^ 32 := by
    unfold u64; omega
  have hm0 : u64 (val % 2 ^ 32 * n) % 2 ^ 32 = m % 2 ^ 32 := by
    unfold u64; omega
  have hdiv := div_digits hd0 (m / 2 ^ 32) (m % 2 ^ 32)
  rw [Nat.div_add_mod] at hdiv
  have hr : m / 2 ^ 32 % d < d := Nat.mod_lt _ hd0
  have hover : d ≤ m / 2 ^ 32 / 2 ^ 32 ↔ ¬m / d < 2 ^ 64 := by
    rw [not_lt, Nat.le_div_iff_mul_le hd0]
    omega
  have hr32 : u32 (m / 2 ^ 32 % d) = m / 2 ^ 32 % d := u32_of_lt (by omega)
  have hshift : u64 ((m / 2 ^ 32 % d) <<< 32) = (m / 2 ^ 32 % d) <<< 32 :=
    u64_of_lt (by rw [Nat.shiftLeft_eq]; omega)
  have hmod : u32 (m % d) = m % d := u32_of_lt ((Nat.mod_lt _ hd0).trans hd)
  simp only [scaleU64ToU64, Nat.shiftRight_eq_div_pow, Nat.and_two_pow_sub_one_eq_mod, hm32, hm0]
  by_cases h : m / d < 2 ^ 64
  · have hq : m / 2 ^ 32 / d < 2 ^ 32 := by
      rw [Nat.div_div_eq_div_mul, mul_comm, ← Nat.div_div_eq_div_mul]
      omega
    have hq' : (2 ^ 32 * (m / 2 ^ 32 % d) + m % 2 ^ 32) / d < 2 ^ 32 := by
      rw [Nat.div_lt_iff_lt_mul hd0]
      omega
    have hhigh32 : u64 ((m / 2 ^ 32 / d) <<< 32) = (m / 2 ^ 32 / d) <<< 32 :=
      u64_of_lt (by rw [Nat.shiftLeft_eq]; omega)
    rw [if_neg fun hle => hover.1 hle h, hr32, hshift, Nat.or_comm,
      or_digits (Nat.mod_lt _ (by norm_num)), hhigh32, or_digits hq', ← hdiv.1, ← hdiv.2, hmod,
      divRoundUp_eq_ite hd0]
    cases roundUp with
    | false => simpa using h
    | true =>
      by_cases hzero : m % d = 0
      · simpa [hzero] using h
      · by_cases hlast : m / d + 1 = 2 ^ 64
        · simp [hzero, hlast, u64]
        · have hlt : m / d + 1 < 2 ^ 64 := by omega
          have hsmall : m / d < 18446744073709551615 := by omega
          simpa [hzero, u64_of_lt hlt] using hsmall
  · have hge : ¬(if roundUp then divRoundUp m d else m / d) < 2 ^ 64 := by
      rw [divRoundUp_eq_ite hd0]
      split_ifs <;> omega
    rw [if_pos (hover.2 h), if_neg hge]

end

/-! ## The sign and the second basis -/

section

variable {scaled : Nat} {isNeg : Bool} {x z : Int} {d : Nat}

def InInt64 (x : Int) : Prop := -2 ^ 63 ≤ x ∧ x < 2 ^ 63

instance (x : Int) : Decidable (InInt64 x) := inferInstanceAs (Decidable (_ ∧ _))

/-- The sums that the code refuses although they fit. -/
def Refused (q z : Int) : Prop :=
  (0 ≤ z ∧ q + z = -2 ^ 63) ∨ (z = -2 ^ 63 ∧ 2 ^ 63 ≤ q ∧ q < 2 ^ 64)

instance (q z : Int) : Decidable (Refused q z) := inferInstanceAs (Decidable (_ ∨ _))

theorem and_sign (n : Nat) : n &&& 2 ^ 63 ≠ 0 ↔ n.testBit 63 = true := by
  rw [Nat.and_two_pow]
  cases n.testBit 63 <;> simp

theorem testBit_sign {n : Nat} (h : n < 2 ^ 64) : n.testBit 63 = decide (2 ^ 63 ≤ n) := by
  rw [Nat.testBit_eq_decide_div_mod_eq]
  simp
  omega

/-- The test on the signs of two summands and of their sum. -/
theorem overflow_iff {a b c : Nat} (ha : a < 2 ^ 64) (hb : b < 2 ^ 64) (hc : c < 2 ^ 64) :
    (a ^^^ b ^^^ 2 ^ 63) &&& (a ^^^ c) &&& 2 ^ 63 ≠ 0 ↔
      (2 ^ 63 ≤ a ↔ 2 ^ 63 ≤ b) ∧ ¬(2 ^ 63 ≤ a ↔ 2 ^ 63 ≤ c) := by
  simp only [and_sign, Nat.testBit_and, Nat.testBit_xor, testBit_sign ha, testBit_sign hb,
    testBit_sign hc, ← decide_eq_decide]
  generalize decide (2 ^ 63 ≤ a) = x
  generalize decide (2 ^ 63 ≤ b) = y
  generalize decide (2 ^ 63 ≤ c) = z
  cases x <;> cases y <;> cases z <;> decide

theorem u64OfInt_lt (x : Int) : u64OfInt x < 2 ^ 64 := by
  unfold u64OfInt; omega

/-- The addition is right but for what is refused. -/
theorem addBasis_eq (hscaled : scaled < 2 ^ 64) (hz : InInt64 z) {q : Int}
    (hq : q = if isNeg then -(scaled : Int) else scaled) :
    addBasis scaled isNeg z = if InInt64 (q + z) ∧ ¬Refused q z then some (q + z) else none := by
  obtain ⟨hz0, hz1⟩ := hz
  -- the unsigned sum is the sum up to multiples of `2 ^ 64`
  obtain ⟨signed, hsigned⟩ :
    ∃ signed, (if isNeg then u64OfInt (-scaled) else scaled) = signed := ⟨_, rfl⟩
  have hsigned' : (signed : Int) = q % 2 ^ 64 := by
    rw [← hsigned, hq, u64OfInt]
    split_ifs <;> omega
  have hbasis : (u64OfInt z : Int) = z % 2 ^ 64 := by
    rw [u64OfInt]; omega
  have hres : (u64 (signed + u64OfInt z) : Int) = (q + z) % 2 ^ 64 := by
    rw [u64]; omega
  have hi64 : InInt64 (q + z) → i64 (u64 (signed + u64OfInt z)) = q + z := by
    intro h
    rw [i64]
    obtain ⟨h0, h1⟩ := h
    split_ifs <;> omega
  have hsum : u64 (signed + u64OfInt z) < 2 ^ 64 := Nat.mod_lt _ (by norm_num)
  rw [addBasis, hsigned]
  simp only [overflow_iff (show signed < 2 ^ 64 by omega) (u64OfInt_lt z) hsum, and_sign,
    testBit_sign hscaled, Nat.and_two_pow_sub_one_eq_mod, decide_eq_true_eq]
  have habs : abs64 z = if z < 0 ∧ z ≠ -2 ^ 63 then -z else z := by
    rw [abs64, i64]
    split_ifs <;> omega
  by_cases hin : InInt64 (q + z) ∧ ¬Refused q z
  on_goal 1 => rw [if_pos hin, hi64 hin.1]
  on_goal 2 => rw [if_neg hin]
  all_goals
    rw [InInt64, Refused] at hin
    cases isNeg <;>
      simp only [Bool.false_eq_true, not_false_eq_true, not_true_eq_false, true_and, false_and,
        if_false, if_true] at hq ⊢ <;>
      split_ifs <;> first | rfl | omega

/-- Rounding down, with the sign kept apart. -/
theorem fdiv_signed (m : Nat) (hd : 0 < d) :
    (if isNeg then -(m : Int) else m).fdiv d =
      if isNeg then -(divRoundUp m d : Int) else (m / d : Nat) := by
  rw [Int.fdiv_eq_ediv_of_nonneg _ (Int.natCast_nonneg d)]
  cases isNeg with
  | false => simp
  | true =>
    have hge : (m : Int) ≤ divRoundUp m d * d := mod_cast divRoundUp_mul_ge hd m
    have hlt : (divRoundUp m d * d : Int) < m + d := mod_cast divRoundUp_mul_lt hd m
    simp
    rw [Int.ediv_eq_iff_of_pos (by omega)]
    constructor <;> linarith

theorem scale_addBasis (m : Nat) {absVal n : Nat} (hm : absVal * n = m) (habs : absVal < 2 ^ 64)
    (hn : n < 2 ^ 32) (hd0 : 0 < d) (hd : d < 2 ^ 32) (hz : InInt64 z) {q : Int}
    (hq : q = (if isNeg then -(m : Int) else m).fdiv d) :
    ((scaleU64ToU64 absVal n d isNeg).bind fun scaled => addBasis scaled isNeg z) =
      if InInt64 (q + z) ∧ ¬Refused q z then some (q + z) else none := by
  rw [fdiv_signed m hd0] at hq
  rw [scaleU64ToU64_eq habs hn hd0 hd, hm]
  obtain ⟨scaled, hscaled⟩ :
    ∃ scaled, (if isNeg then divRoundUp m d else m / d) = scaled := ⟨_, rfl⟩
  have hq' : q = if isNeg then -(scaled : Int) else scaled := by
    rw [hq, ← hscaled]
    split_ifs <;> rfl
  rw [hscaled]
  by_cases hfits : scaled < 2 ^ 64
  · rw [if_pos hfits, Option.bind_some, addBasis_eq hfits hz hq']
  · -- the second basis is too small to bring back what has 65 bits
    have hout : ¬InInt64 (q + z) := by
      rw [InInt64] at hz ⊢
      split_ifs at hq' <;> omega
    rw [if_neg hfits, if_neg fun hin => hout hin.1]
    rfl

end

/-! ## The transforms -/

/-- A difference scaled and rounded down, and the other zero added, if that is an `int64_t`. -/
def exactTransform (delta numer denom zero : Int) : Option Int :=
  if InInt64 ((delta * numer).fdiv denom + zero) then some ((delta * numer).fdiv denom + zero)
  else none

section

variable {val basis1 N z : Int} {D : Nat}

theorem refused_iff {q : Int} :
    ((if InInt64 (q + z) ∧ ¬Refused q z then some (q + z) else none) =
      if InInt64 (q + z) then some (q + z) else none) ↔ ¬Refused q z := by
  by_cases hr : Refused q z
  · have hin : InInt64 (q + z) := by
      rw [InInt64]
      rcases hr with hr | hr <;> omega
    simp [hr, hin]
  · simp [hr]

theorem linearTransformS64ToS64_eq (hval : InInt64 val) (hbasis : InInt64 basis1)
    (hN : -2 ^ 31 ≤ N ∧ N < 2 ^ 31) (hD : D < 2 ^ 32) (hz : InInt64 z) (invertFrac : Bool)
    (hdenom : if invertFrac then N ≠ 0 else D ≠ 0) {q : Int}
    (hq : q = if invertFrac then ((val - basis1) * D).fdiv N else ((val - basis1) * N).fdiv D) :
    linearTransformS64ToS64 val basis1 N D invertFrac z =
      if InInt64 (q + z) ∧ ¬Refused q z then some (q + z) else none := by
  obtain ⟨hval0, hval1⟩ := hval
  obtain ⟨hbasis0, hbasis1⟩ := hbasis
  have habsN : u32OfInt (abs32 N) = N.natAbs := by
    rw [u32OfInt, abs32, i32]
    split_ifs <;> omega
  have habsVal : (if val < basis1 then u64OfInt (basis1 - val) else u64OfInt (val - basis1)) =
      (val - basis1).natAbs := by
    simp only [u64OfInt]
    split_ifs <;> omega
  have hdelta : (val - basis1).natAbs < 2 ^ 64 := by omega
  have habs (x : Int) : |x| = if x < 0 then -x else x := by
    split_ifs with h
    · exact abs_of_neg h
    · exact abs_of_nonneg (not_lt.1 h)
  have hpos : 0 < if invertFrac then N.natAbs else D := by
    split_ifs at hdenom ⊢ <;> omega
  rw [linearTransformS64ToS64, habsVal, habsN]
  refine scale_addBasis _ rfl hdelta (by split_ifs <;> omega) hpos (by split_ifs <;> omega) hz ?_
  rw [hq]
  cases invertFrac with
  | false =>
    simp only [Bool.false_eq_true, if_false]
    push_cast
    rw [habs, habs]
    congr 1
    by_cases hneg : val < basis1 <;> by_cases hN0 : N < 0 <;> simp [hneg, hN0] <;> ring
  | true =>
    simp only [if_true]
    push_cast
    rw [habs, habs]
    by_cases hN0 : N < 0
    · rw [if_pos hN0, if_pos hN0, ← Int.neg_fdiv_neg ((val - basis1) * D) N]
      congr 1
      by_cases hneg : val < basis1 <;> simp [hneg]
      ring
    · rw [if_neg hN0, if_neg hN0]
      congr 1
      by_cases hneg : val < basis1 <;> simp [hneg]
      ring

/-- Both transforms are exact but for the refused sums. -/
theorem transforms_exact_iff (t : LinearTransform) (x : Int64) :
    (t.aToBDenom ≠ 0 →
      (t.doForwardTransform x =
          exactTransform (x.toInt - t.aZero.toInt) t.aToBNumer.toInt t.aToBDenom.toNat
            t.bZero.toInt ↔
        ¬Refused (((x.toInt - t.aZero.toInt) * t.aToBNumer.toInt).fdiv t.aToBDenom.toNat)
          t.bZero.toInt)) ∧
      (t.aToBNumer ≠ 0 →
        (t.doReverseTransform x =
            exactTransform (x.toInt - t.bZero.toInt) t.aToBDenom.toNat t.aToBNumer.toInt
              t.aZero.toInt ↔
          ¬Refused (((x.toInt - t.bZero.toInt) * t.aToBDenom.toNat).fdiv t.aToBNumer.toInt)
            t.aZero.toInt)) := by
  have hrange : ∀ y : Int64, InInt64 y.toInt := fun y => ⟨y.le_toInt, y.toInt_lt⟩
  have hN : -2 ^ 31 ≤ t.aToBNumer.toInt ∧ t.aToBNumer.toInt < 2 ^ 31 :=
    ⟨t.aToBNumer.le_toInt, t.aToBNumer.toInt_lt⟩
  have hD : t.aToBDenom.toNat < 2 ^ 32 := t.aToBDenom.toNat_lt
  constructor
  · intro hdenom
    rw [doForwardTransform, if_neg hdenom,
      linearTransformS64ToS64_eq (hrange x) (hrange _) hN hD (hrange _) false
        (by simpa [← UInt32.toNat_inj] using hdenom) rfl]
    exact refused_iff
  · intro hnumer
    rw [doReverseTransform, if_neg hnumer,
      linearTransformS64ToS64_eq (hrange x) (hrange _) hN hD (hrange _) true
        (by simpa [← Int32.toInt_inj] using hnumer) rfl]
    exact refused_iff

/-- The identity refuses the least integer. -/
theorem identity_refuses_least :
    doForwardTransform ⟨0, 0, 1, 1⟩ Int64.minValue = none ∧
      exactTransform (Int64.minValue.toInt - 0) 1 1 0 = some (-2 ^ 63) := by
  decide

/-- A rate of one half, with rounding down. -/
theorem transforms_exact_half :
    doForwardTransform ⟨10, 100, 1, 2⟩ 7 = some 98 ∧
      (doForwardTransform ⟨10, 100, 1, 2⟩ 7 = exactTransform (-3) 1 2 100 ↔
        ¬Refused (-2) 100) :=
  ⟨by decide, (transforms_exact_iff ⟨10, 100, 1, 2⟩ 7).1 (by decide)⟩

end

end AndroidSystem.Utils
