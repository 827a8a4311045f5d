import Mathlib.Tactic.Ring

/-!
# Little-endian words and C buffers

`le w n` is the `w`-byte little-endian word of `n`, `unle` reads a word back, and the two are
inverse modulo `256 ^ w`. A C buffer is read through a pointer, so it is a function from offsets
to bytes; `Buf.bytes` is the list of its first bytes.
-/

namespace AndroidSystem

open List

/-! ## Words -/

/-- The low `w` bytes of `n`, least significant first. -/
def le : Nat → Nat → List UInt8
  | 0, _ => []
  | w + 1, n => UInt8.ofNat n :: le w (n / 256)

/-- The number a little-endian byte string stands for. -/
def unle : List UInt8 → Nat
  | [] => 0
  | b :: l => b.toNat + 256 * unle l

@[simp] theorem length_le (w n : Nat) : (le w n).length = w := by
  induction w generalizing n with
  | zero => rfl
  | succ w ih => simp [le, ih]

theorem unle_le (w n : Nat) : unle (le w n) = n % 256 ^ w := by
  induction w generalizing n with
  | zero => simp [le, unle, Nat.mod_one]
  | succ w ih =>
    have hb : (UInt8.ofNat n).toNat = n % 256 := UInt8.toNat_ofNat'
    rw [le, unle, ih, hb, pow_succ, mul_comm (256 ^ w) 256, Nat.mod_mul]

theorem unle_lt (l : List UInt8) : unle l < 256 ^ l.length := by
  induction l with
  | nil => simp [unle]
  | cons b l ih =>
    have hb := b.toNat_lt
    simp only [unle, length_cons]
    omega

theorem le_unle (l : List UInt8) : le l.length (unle l) = l := by
  induction l with
  | nil => rfl
  | cons b l ih =>
    have hb := b.toNat_lt
    have h1 : (b.toNat + 256 * unle l) / 256 = unle l := by omega
    have h2 : UInt8.ofNat (b.toNat + 256 * unle l) = b := by
      apply UInt8.toNat_inj.1
      rw [UInt8.toNat_ofNat']
      omega
    simp only [unle, length_cons, le, h1, h2, ih]

/-- The number a big-endian byte string stands for. -/
def unbe : List UInt8 → Nat
  | [] => 0
  | b :: l => b.toNat * 256 ^ l.length + unbe l

theorem unbe_append (l m : List UInt8) : unbe (l ++ m) = unbe l * 256 ^ m.length + unbe m := by
  induction l with
  | nil => simp [unbe]
  | cons b l ih =>
    rw [cons_append, unbe, unbe, ih, length_append]
    ring

@[simp] theorem unbe_replicate_zero (n : Nat) : unbe (replicate n 0) = 0 := by
  induction n with
  | zero => rfl
  | succ n ih => simp [replicate_succ, unbe, ih]

/-! ## Buffers -/

/-- What a pointer points at: the byte at each offset. -/
abbrev Buf := Nat → UInt8

namespace Buf

/-- The first `n` bytes of a buffer. -/
def bytes (p : Buf) (n : Nat) : List UInt8 := (List.range n).map p

/-- A byte string as a buffer; the bytes past its end are never read. -/
def ofList (l : List UInt8) : Buf := fun i => l.getD i 0

theorem bytes_congr {p q : Buf} {n : Nat} (h : ∀ i < n, p i = q i) : p.bytes n = q.bytes n := by
  apply map_congr_left
  intro i hi
  exact h i (mem_range.1 hi)

end Buf

end AndroidSystem
