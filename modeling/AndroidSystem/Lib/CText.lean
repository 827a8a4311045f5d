import Mathlib.Data.Nat.Digits.Lemmas

/-!
# Text in C buffers

A buffer is the list of its bytes, and an access outside of it fails. What is written through a pointer
is compared with what a reader sees by the bytes up to the pointer, `take`. Also the numbers that
`printf` writes.
-/

namespace AndroidSystem.CText

open List

/-! ## Writing -/

/-- Write bytes at a place. -/
def writeAt (buf : List UInt8) (pos : Nat) (bytes : List UInt8) : Option (List UInt8) :=
  if pos + bytes.length ≤ buf.length then some (buf.take pos ++ bytes ++ buf.drop (pos + bytes.length))
  else none

section

variable {buf bytes : List UInt8} {pos : Nat}

theorem length_splice (hfit : pos + bytes.length ≤ buf.length) :
    (buf.take pos ++ bytes ++ buf.drop (pos + bytes.length)).length = buf.length := by
  rw [length_append, length_append, length_take, length_drop]
  omega

/-- What is in a buffer that was written to. -/
structure Wrote (buf : List UInt8) (pos : Nat) (bytes buf' : List UInt8) : Prop where
  length_eq : buf'.length = buf.length
  take_eq : buf'.take (pos + bytes.length) = buf.take pos ++ bytes
  drop_eq : buf'.drop (pos + bytes.length) = buf.drop (pos + bytes.length)

theorem writeAt_eq (buf : List UInt8) (pos : Nat) (bytes : List UInt8)
    (hfit : pos + bytes.length ≤ buf.length) :
    ∃ buf', writeAt buf pos bytes = some buf' ∧ Wrote buf pos bytes buf' := by
  refine ⟨_, if_pos hfit, length_splice hfit, ?_, ?_⟩
  · have hlength : (buf.take pos ++ bytes).length = pos + bytes.length := by
      rw [length_append, length_take]
      omega
    rw [← hlength, take_left]
  · have hlength : (buf.take pos ++ bytes).length = pos + bytes.length := by
      rw [length_append, length_take]
      omega
    exact drop_left' hlength

section

variable {buf' : List UInt8} (h : Wrote buf pos bytes buf') (hpos : pos ≤ buf.length)
include h hpos

theorem Wrote.take_pos : buf'.take pos = buf.take pos := by
  have htake := congrArg (take pos) h.take_eq
  rwa [take_take, min_eq_left (Nat.le_add_right _ _), take_left' (length_take_of_le hpos)] at htake

theorem Wrote.getElem? {k : Nat} (hk : k < bytes.length) : buf'[pos + k]? = bytes[k]? := by
  have hget : (buf'.take (pos + bytes.length))[pos + k]? = (buf.take pos ++ bytes)[pos + k]? := by
    rw [h.take_eq]
  have hlength := length_take_of_le hpos
  rwa [getElem?_take_of_lt (by omega), getElem?_append_right (by omega), hlength,
    Nat.add_sub_cancel_left] at hget

end

end

/-! ## Numbers -/

/-- The decimal digits of a number, as characters. -/
def decimalNat (n : Nat) : List UInt8 :=
  if n = 0 then [48] else (Nat.digits 10 n).reverse.map fun d => UInt8.ofNat (48 + d)

/-- `%d`: a minus sign for a negative number, and the digits. -/
def decimal (x : Int) : List UInt8 := (if x < 0 then [45] else []) ++ decimalNat x.natAbs

theorem decimalNat_ne_nil (n : Nat) : decimalNat n ≠ [] := by
  rw [decimalNat]
  split_ifs with hn
  · exact cons_ne_nil _ _
  · simpa using Nat.digits_ne_nil_iff_ne_zero.2 hn

theorem decimal_ne_nil (x : Int) : decimal x ≠ [] :=
  append_ne_nil_of_right_ne_nil _ (decimalNat_ne_nil _)

theorem length_decimalNat_le {n k : Nat} (hk : 0 < k) (hn : n < 10 ^ k) :
    (decimalNat n).length ≤ k := by
  rw [decimalNat]
  split_ifs
  · exact hk
  · rw [length_map, length_reverse]
    exact (Nat.digits_length_le_iff (by norm_num) n).2 hn

theorem length_decimal_le {x : Int} {k : Nat} (hk : 0 < k) (hx : x.natAbs < 10 ^ k) :
    (decimal x).length ≤ k + 1 := by
  have hdigits := length_decimalNat_le hk hx
  rw [decimal, length_append]
  split_ifs
  · rw [length_singleton]
    omega
  · rw [length_nil]
    omega

end AndroidSystem.CText
