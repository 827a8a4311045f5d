import Mathlib.Data.Nat.Size
import Mathlib.Tactic.Ring

/-!
# Rounding up to a power of two

A number is rounded up to a power of two by copying its highest bit into all lower places: each step
`y ||| y >>> m` doubles how far the bits have been copied (`Smeared.double`). When they have been
copied all the way, the result is one less than a power of two (`Smeared.eq`).
-/

namespace AndroidSystem

/-- The bits of `y` are those of `x`, each copied to the `m` places from its own down. -/
def Smeared (x y m : Nat) : Prop := ∀ j, y.testBit j = true ↔ ∃ k < m, x.testBit (j + k) = true

section

variable {x y m : Nat}

theorem Smeared.one (x : Nat) : Smeared x x 1 := by
  intro j
  constructor
  · intro h
    exact ⟨0, one_pos, h⟩
  · rintro ⟨k, hk, h⟩
    obtain rfl : k = 0 := by omega
    exact h

theorem Smeared.double (h : Smeared x y m) : Smeared x (y ||| y >>> m) (m + m) := by
  intro j
  rw [Nat.testBit_or, Bool.or_eq_true, Nat.testBit_shiftRight, h, h]
  constructor
  · rintro (⟨k, hk, hbit⟩ | ⟨k, hk, hbit⟩)
    · exact ⟨k, by omega, hbit⟩
    · refine ⟨m + k, by omega, ?_⟩
      rwa [show j + (m + k) = m + j + k by omega]
  · rintro ⟨k, hk, hbit⟩
    by_cases hkm : k < m
    · exact .inl ⟨k, hkm, hbit⟩
    · refine .inr ⟨k - m, by omega, ?_⟩
      rwa [show m + j + (k - m) = j + k by omega]

/-- All places below the highest bit are set. -/
theorem Smeared.eq (h : Smeared x y m) (hx : x < 2 ^ m) : y = 2 ^ x.size - 1 := by
  apply Nat.eq_of_testBit_eq
  intro j
  rw [Nat.testBit_two_pow_sub_one, Bool.eq_iff_iff, decide_eq_true_iff, h, Nat.lt_size]
  constructor
  · rintro ⟨k, -, hbit⟩
    exact le_trans (Nat.pow_le_pow_right two_pos (Nat.le_add_right j k))
      (Nat.ge_two_pow_of_testBit hbit)
  · intro hle
    obtain ⟨i, hij, hbit⟩ := Nat.exists_ge_and_testBit_of_ge_two_pow hle
    have him : i < m :=
      (Nat.pow_lt_pow_iff_right one_lt_two).1
        (lt_of_le_of_lt (Nat.ge_two_pow_of_testBit hbit) hx)
    refine ⟨i - j, by omega, ?_⟩
    rwa [Nat.add_sub_cancel' hij]

end

end AndroidSystem
