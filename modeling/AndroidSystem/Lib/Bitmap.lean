import AndroidSystem.Lib.LittleEndian
import Mathlib.Data.List.Count

/-!
# Bitmaps in byte buffers

Bit `b` of a buffer is bit `b % 8` of its byte `b / 8`. Each operation on the bytes is described
by what it does to every bit: one bit set, one bit cleared, the eight bits of a byte set at once.
-/

namespace AndroidSystem.Buf

/-! ## Bits -/

/-- The byte with bit `b % 8` set. -/
def mask (b : Nat) : UInt8 := 1 <<< UInt8.ofNat (b % 8)

section

variable (m : Buf)

/-- Bit `b` of a bitmap. -/
def bit (b : Nat) : Bool := (m (b / 8)).toBitVec.getLsbD (b % 8)

/-- The buffer with another byte at `i`. -/
def put (i : Nat) (v : UInt8) : Buf := fun j => if j = i then v else m j

/-- Bit `b` set. -/
def setBit (b : Nat) : Buf := m.put (b / 8) (m (b / 8) ||| mask b)

/-- Bit `b` cleared. -/
def clearBit (b : Nat) : Buf := m.put (b / 8) (m (b / 8) &&& ~~~mask b)

/-- All bits of the byte of bit `b` set. -/
def setByte (b : Nat) : Buf := m.put (b / 8) 0xff

theorem getLsbD_mask (b : Nat) {k : Nat} (hk : k < 8) :
    (mask b).toBitVec.getLsbD k = decide (k = b % 8) := by
  have hb : b % 8 < 8 := Nat.mod_lt _ (by decide)
  unfold mask
  generalize b % 8 = j at *
  revert hk k
  revert j
  decide

theorem bit_put (i b : Nat) (v : UInt8) :
    (m.put i v).bit b = if b / 8 = i then v.toBitVec.getLsbD (b % 8) else m.bit b := by
  unfold bit put
  split_ifs <;> rfl

theorem bit_ext_iff (b c : Nat) : c / 8 = b / 8 ∧ c % 8 = b % 8 ↔ c = b := by
  omega

@[simp] theorem bit_zero (b : Nat) : bit (fun _ => 0) b = false := by
  simp [bit]

@[simp] theorem bit_setBit (b c : Nat) : (m.setBit b).bit c = (m.bit c || decide (c = b)) := by
  rw [setBit, bit_put]
  split_ifs with h
  · have hc : (c % 8 = b % 8) = (c = b) := propext ⟨fun h' => (bit_ext_iff b c).1 ⟨h, h'⟩,
      fun h' => h' ▸ rfl⟩
    rw [UInt8.toBitVec_or, BitVec.getLsbD_or, getLsbD_mask b (Nat.mod_lt _ (by decide)), ← h]
    simp only [hc, bit]
  · have hc : c ≠ b := fun hcb => h (hcb ▸ rfl)
    simp [hc]

@[simp] theorem bit_clearBit (b c : Nat) : (m.clearBit b).bit c = (m.bit c && decide (c ≠ b)) := by
  rw [clearBit, bit_put]
  split_ifs with h
  · have hc : (c % 8 = b % 8) = (c = b) := propext ⟨fun h' => (bit_ext_iff b c).1 ⟨h, h'⟩,
      fun h' => h' ▸ rfl⟩
    have hlt : c % 8 < 8 := Nat.mod_lt _ (by decide)
    rw [UInt8.toBitVec_and, BitVec.getLsbD_and, UInt8.toBitVec_not, BitVec.getLsbD_not,
      getLsbD_mask b hlt, ← h]
    simp [hc, hlt, bit]
  · have hc : c ≠ b := fun hcb => h (hcb ▸ rfl)
    simp [hc]

theorem bit_setByte (b c : Nat) : (m.setByte b).bit c = (m.bit c || decide (c / 8 = b / 8)) := by
  rw [setByte, bit_put]
  split_ifs with h
  · have hones : ∀ k < 8, (0xff : UInt8).toBitVec.getLsbD k = true := by decide
    rw [hones _ (Nat.mod_lt _ (by decide))]
    simp [h]
  · simp [h]

theorem byte_eq_zero_iff (i : Nat) : m i = 0 ↔ ∀ b, b / 8 = i → m.bit b = false := by
  constructor
  · intro h b hb
    simp [bit, hb, h]
  · intro h
    apply UInt8.toBitVec_inj.1
    apply BitVec.eq_of_getLsbD_eq
    intro k hk
    have hb := h (8 * i + k) (by omega)
    rw [bit, show (8 * i + k) / 8 = i by omega, show (8 * i + k) % 8 = k by omega] at hb
    simpa using hb

theorem and_mask_eq_zero_iff (b : Nat) : m (b / 8) &&& mask b = 0 ↔ m.bit b = false := by
  have hb : b % 8 < 8 := Nat.mod_lt _ (by decide)
  rw [← UInt8.toBitVec_inj, UInt8.toBitVec_and]
  constructor
  · intro h
    have hbit := congrArg (fun v => v.getLsbD (b % 8)) h
    simpa [getLsbD_mask b hb, bit] using hbit
  · intro h
    apply BitVec.eq_of_getLsbD_eq
    intro k hk
    rw [BitVec.getLsbD_and, getLsbD_mask b hk]
    by_cases hkb : k = b % 8
    · subst hkb
      simpa [bit] using h
    · simp [hkb]

end

/-! ## Runs of bits -/

/-- The bits clear below `n` are those from `start` to `start + k`. -/
def ClearRun (m : Buf) (n start k : Nat) : Prop :=
  start + k ≤ n ∧ ∀ b < n, m.bit b = false ↔ start ≤ b ∧ b < start + k

/-- The number of bits clear below `n`. -/
def clearCount (m : Buf) (n : Nat) : Nat := (List.range n).countP fun b => !m.bit b

theorem ClearRun.clearCount_eq {m : Buf} {n start k : Nat} (h : m.ClearRun n start k) :
    m.clearCount n = k := by
  obtain ⟨hle, hclear⟩ := h
  have hcount : ∀ j ≤ n, m.clearCount j = min j (start + k) - start := by
    intro j
    induction j with
    | zero =>
      simp [clearCount]
    | succ j ih =>
      intro hj
      have hj' := hclear j (by omega)
      have hstep : m.clearCount (j + 1) = m.clearCount j + if m.bit j = false then 1 else 0 := by
        simp [clearCount, List.range_succ, List.countP_append, List.countP_cons]
      rw [hstep]
      split_ifs with hbit
      · have := hj'.1 hbit
        omega
      · have : ¬(start ≤ j ∧ j < start + k) := fun hc => hbit (hj'.2 hc)
        omega
  rw [hcount n le_rfl]
  omega

end AndroidSystem.Buf
