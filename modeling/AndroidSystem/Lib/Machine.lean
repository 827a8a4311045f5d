import Mathlib.Tactic.Ring
import Mathlib.Tactic.Linarith

/-!
# Machine integers and block arithmetic

Fixed-width C integers are kept as `Nat` and `Int`, and every conversion that can lose bits is
written out: `u32` and `u32OfInt` reduce modulo `2 ^ 32`, `i32` and `i64` are the
two's-complement reading of a value. The second half is arithmetic of blocks: rounding a length
up or down to a multiple of a block size.
-/

namespace AndroidSystem

variable {y n : Nat} {x : Int}

/-! ## Conversions -/

/-- Truncation to 16 bits. -/
def u16 (n : Nat) : Nat := n % 2 ^ 16

/-- Truncation to `unsigned int`. -/
def u32 (n : Nat) : Nat := n % 2 ^ 32

/-- Truncation to 64 bits. -/
def u64 (n : Nat) : Nat := n % 2 ^ 64

/-- Conversion of a signed value to `unsigned int`. -/
def u32OfInt (x : Int) : Nat := (x % 2 ^ 32).toNat

/-- Conversion of a signed value to `size_t`. -/
def u64OfInt (x : Int) : Nat := (x % 2 ^ 64).toNat

/-- Conversion to `int`. -/
def i32 (x : Int) : Int :=
  if (x % 2 ^ 32).toNat < 2 ^ 31 then x % 2 ^ 32 else x % 2 ^ 32 - 2 ^ 32

/-- Conversion to `int64_t`. -/
def i64 (x : Int) : Int :=
  if (x % 2 ^ 64).toNat < 2 ^ 63 then x % 2 ^ 64 else x % 2 ^ 64 - 2 ^ 64

theorem u16_of_lt (h : n < 2 ^ 16) : u16 n = n := by
  unfold u16; omega

theorem u64_of_lt (h : n < 2 ^ 64) : u64 n = n := by
  unfold u64; omega

theorem u32_lt (n : Nat) : u32 n < 2 ^ 32 := by
  unfold u32; omega

theorem u32_of_lt (h : n < 2 ^ 32) : u32 n = n := by
  unfold u32; omega

theorem u32OfInt_lt (x : Int) : u32OfInt x < 2 ^ 32 := by
  unfold u32OfInt; omega

theorem u32OfInt_of_range (h0 : 0 ≤ x) (h : x < 2 ^ 32) : (u32OfInt x : Int) = x := by
  unfold u32OfInt; omega

theorem u32OfInt_sub {k : Nat} (h : k ≤ n) (hn : n < 2 ^ 32) :
    u32OfInt ((n : Int) - (k : Int)) = n - k := by
  have := u32OfInt_of_range (x := (n : Int) - k) (by omega) (by omega)
  omega

theorem i32_of_lt (h0 : 0 ≤ x) (h : x < 2 ^ 31) : i32 x = x := by
  unfold i32; split_ifs <;> omega

theorem i32_neg_of_ge (h0 : 2 ^ 31 ≤ x) (h : x < 2 ^ 32) : i32 x = x - 2 ^ 32 := by
  unfold i32; split_ifs <;> omega

theorem i64_of_lt (h0 : 0 ≤ x) (h : x < 2 ^ 63) : i64 x = x := by
  unfold i64; split_ifs <;> omega

/-! ## Rounding to blocks -/

/-- How many blocks of `y` bytes hold `x` bytes. -/
def divRoundUp (x y : Nat) : Nat := (x + y - 1) / y

/-- `x` rounded down to a multiple of `y`. -/
def alignDown (x y : Nat) : Nat := y * (x / y)

section

variable (hy : 0 < y)
include hy

theorem divRoundUp_mul_ge (x : Nat) : x ≤ divRoundUp x y * y := by
  unfold divRoundUp
  have h1 := Nat.div_add_mod (x + y - 1) y
  have h2 := Nat.mod_lt (x + y - 1) hy
  have h3 := mul_comm y ((x + y - 1) / y)
  omega

theorem divRoundUp_mul_lt (x : Nat) : divRoundUp x y * y < x + y := by
  unfold divRoundUp
  have h1 := Nat.div_mul_le_self (x + y - 1) y
  omega

theorem divRoundUp_le_iff (x k : Nat) : divRoundUp x y ≤ k ↔ x ≤ k * y := by
  constructor
  · intro h
    calc x ≤ divRoundUp x y * y := divRoundUp_mul_ge hy x
      _ ≤ k * y := Nat.mul_le_mul_right y h
  · by_contra hlt
    have h1 := divRoundUp_mul_lt hy x
    have h2 : (k + 1) * y ≤ divRoundUp x y * y := Nat.mul_le_mul_right y (by omega)
    have h3 : (k + 1) * y = k * y + y := by ring
    omega

theorem lt_divRoundUp_iff (x k : Nat) : k < divRoundUp x y ↔ k * y < x := by
  have h := divRoundUp_le_iff hy x k
  omega

theorem divRoundUp_pos {x : Nat} (hx : 0 < x) : 0 < divRoundUp x y :=
  (lt_divRoundUp_iff hy x 0).2 (by omega)

theorem divRoundUp_mul_self (k : Nat) : divRoundUp (k * y) y = k := by
  apply le_antisymm
  · exact (divRoundUp_le_iff hy _ _).2 le_rfl
  · by_contra h
    have h1 := divRoundUp_mul_ge hy (k * y)
    have h2 : divRoundUp (k * y) y * y < k * y := mul_lt_mul_of_pos_right (by omega) hy
    omega

theorem divRoundUp_add_mul (x k : Nat) : divRoundUp (k * y + x) y = k + divRoundUp x y := by
  unfold divRoundUp
  rw [show k * y + x + y - 1 = (x + y - 1) + k * y by omega, Nat.add_mul_div_right _ _ hy, add_comm]

theorem divRoundUp_eq_ite (x : Nat) :
    divRoundUp x y = x / y + if x % y = 0 then 0 else 1 := by
  have hlt := Nat.mod_lt x hy
  conv_lhs => rw [← Nat.div_add_mod' x y, divRoundUp_add_mul hy]
  congr 1
  split_ifs with h
  · exact Nat.div_eq_of_lt (by omega)
  · exact Nat.div_eq_of_lt_le (by omega) (by omega)

theorem alignDown_eq_zero_iff (x : Nat) : alignDown x y = 0 ↔ x < y := by
  unfold alignDown
  rw [mul_eq_zero]
  constructor
  · rintro (h | h)
    · omega
    · exact (Nat.div_eq_zero_iff_lt hy).1 h
  · intro h
    exact Or.inr (Nat.div_eq_of_lt h)

end

end AndroidSystem
