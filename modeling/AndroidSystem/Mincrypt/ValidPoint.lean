import AndroidSystem.Mincrypt.Modmul
import Mathlib.Data.Int.ModEq

/-!
# The check that a point is on the curve

`p256_is_valid_point` compares `y ^ 2`, which is fully reduced, with `x ^ 3 - 3 x + b`. The last sum of
the latter is brought below `2 ^ 256` but not below `p`. So a point of the curve is refused exactly if
`y ^ 2 mod p` is less than `2 ^ 256 - p`.
-/

namespace AndroidSystem.Mincrypt

/-- The point `(x, y)` satisfies the equation of the curve. -/
def OnCurve (x y : Nat) : Prop :=
  (y : Int) ^ 2 ≡ x ^ 3 - 3 * x + secp256r1B.val [ZMOD secp256r1P.val]

/-- Both coordinates are reduced and not zero, and the point is on the curve. -/
def ValidPoint (x y : Nat) : Prop :=
  0 < x ∧ x < secp256r1P.val ∧ 0 < y ∧ y < secp256r1P.val ∧ OnCurve x y

instance (x y : Nat) : Decidable (OnCurve x y) :=
  inferInstanceAs (Decidable (_ ≡ _ [ZMOD _]))

instance (x y : Nat) : Decidable (ValidPoint x y) :=
  inferInstanceAs (Decidable (_ ∧ _))

section

variable {MOD x y : P256Int}

section

variable (hx : x.val < MOD.val) (hy : y.val ≤ MOD.val)
include hx hy

theorem val_subMod : ((subMod MOD x y).val : Int) = ((x.val : Int) - y.val) % MOD.val := by
  obtain ⟨hret, hval⟩ | ⟨hret, hval⟩ := p256Sub_cases x y
  · rw [subMod, hret, if_neg (by simp), Int.emod_eq_of_lt (by omega) (by omega)]
    omega
  · have hneg : (x.val : Int) - y.val < 0 := by
      have := (p256Sub x y).2.val_lt
      omega
    have hwrap : ((x.val : Int) - y.val) % MOD.val = x.val - y.val + MOD.val := by
      rw [← Int.add_emod_right, Int.emod_eq_of_lt (by omega) (by omega)]
    rw [subMod, hret, if_pos (by decide)]
    obtain ⟨-, hadd⟩ | ⟨-, hadd⟩ := p256Add_cases (p256Sub x y).2 MOD
    · have := (p256Add (p256Sub x y).2 MOD).2.val_lt
      omega
    · omega

theorem subMod_modEq : ((subMod MOD x y).val : Int) ≡ x.val - y.val [ZMOD MOD.val] :=
  val_subMod hx hy ▸ Int.mod_modEq _ _

theorem subMod_lt : (subMod MOD x y).val < MOD.val := by
  have h := val_subMod hx hy
  have hlt : ((x.val : Int) - y.val) % MOD.val < MOD.val := Int.emod_lt_of_pos _ (by omega)
  omega

end

end

theorem b_large : 2 ^ 256 - secp256r1P.val < secp256r1B.val := by decide +kernel

theorem b_lt : secp256r1B.val < secp256r1P.val := by decide +kernel

/-- What the comparison at the end comes to. -/
theorem sum_eq_iff {u : P256Int} (hu : u.val < secp256r1P.val) {s : Nat}
    (hs : s < secp256r1P.val) :
    s = (if (p256Add u secp256r1B).1 ≠ 0 then (p256Sub (p256Add u secp256r1B).2 secp256r1P).2
        else (p256Add u secp256r1B).2).val ↔
      (s : Int) ≡ u.val + secp256r1B.val [ZMOD secp256r1P.val] ∧ 2 ^ 256 - secp256r1P.val ≤ s := by
  have hb := b_large
  have hb' := b_lt
  have hp := secp256r1P.val_lt
  -- the sum is one of two numbers with the residue `s`
  have hmod : ((s : Int) ≡ u.val + secp256r1B.val [ZMOD secp256r1P.val]) ↔
      u.val + secp256r1B.val = s ∨ u.val + secp256r1B.val = s + secp256r1P.val := by
    constructor
    · intro h
      obtain ⟨k, hk⟩ := h.dvd
      obtain hk0 | hk0 | hk0 : k ≤ -1 ∨ k = 0 ∨ k = 1 ∨ 2 ≤ k := by omega
      · have := mul_le_mul_of_nonneg_left hk0 (Int.natCast_nonneg secp256r1P.val)
        omega
      · subst hk0
        omega
      · obtain rfl | hk2 := hk0
        · omega
        · have := mul_le_mul_of_nonneg_left hk2 (Int.natCast_nonneg secp256r1P.val)
          omega
    · rintro (h | h)
      · rw [← Nat.cast_add, h]
      · rw [← Nat.cast_add, h]
        exact (Int.add_modEq_right).symm
  rw [hmod]
  obtain ⟨hret, hval⟩ | ⟨hret, hval⟩ := p256Add_cases u secp256r1B
  · have hlt := (p256Add u secp256r1B).2.val_lt
    rw [hret, if_neg (by simp)]
    omega
  · rw [hret, if_pos (by decide)]
    obtain ⟨-, hsub⟩ | ⟨-, hsub⟩ := p256Sub_cases (p256Add u secp256r1B).2 secp256r1P
    · omega
    · omega

theorem p256IsValidPoint_eq (x y : P256Int) :
    p256IsValidPoint x y = some (decide (ValidPoint x.val y.val ∧
      2 ^ 256 - secp256r1P.val ≤ y.val ^ 2 % secp256r1P.val)) := by
  by_cases hrange : p256Cmp secp256r1P x ≤ 0 ∨ p256Cmp secp256r1P y ≤ 0 ∨ p256IsZero x ∨
      p256IsZero y
  · rw [p256IsValidPoint, if_pos hrange]
    congr 1
    rw [eq_comm, decide_eq_false_iff_not]
    rintro ⟨⟨hx0, hx, hy0, hy, -⟩, -⟩
    rw [p256Cmp_le_zero_iff, p256Cmp_le_zero_iff, p256IsZero_iff, p256IsZero_iff] at hrange
    omega
  · obtain ⟨y2, hy2, hy2val⟩ := p256Modmul_eq full_secp256r1P y 0 y
    obtain ⟨x2, hx2, hx2val⟩ := p256Modmul_eq full_secp256r1P x 0 x
    obtain ⟨x3, hx3, hx3val⟩ := p256Modmul_eq full_secp256r1P x 0 x2
    rw [p256IsValidPoint, if_neg hrange]
    rw [p256Cmp_le_zero_iff, p256Cmp_le_zero_iff, p256IsZero_iff, p256IsZero_iff] at hrange
    simp only [hy2, hx2, hx3, Option.bind_eq_bind, Option.bind_some]
    have hx : x.val < secp256r1P.val := by omega
    have hpos : 0 < secp256r1P.val := by omega
    have h3lt : x3.val < secp256r1P.val := by
      rw [hx3val]
      exact Nat.mod_lt _ hpos
    -- the three differences keep the value reduced
    have hd1 := subMod_modEq h3lt hx.le
    have hlt1 := subMod_lt h3lt hx.le
    have hd2 := subMod_modEq hlt1 hx.le
    have hlt2 := subMod_lt hlt1 hx.le
    have hd3 := subMod_modEq hlt2 hx.le
    have hlt3 := subMod_lt hlt2 hx.le
    generalize subMod secp256r1P x3 x = d1 at *
    generalize subMod secp256r1P d1 x = d2 at *
    generalize subMod secp256r1P d2 x = d3 at *
    have hy2lt : y2.val < secp256r1P.val := by
      rw [hy2val]
      exact Nat.mod_lt _ hpos
    have hcube : (d3.val : Int) ≡ x.val ^ 3 - 3 * x.val [ZMOD secp256r1P.val] := by
      have h2 : (x2.val : Int) ≡ x.val ^ 2 [ZMOD secp256r1P.val] := by
        rw [hx2val]
        push_cast
        exact (Int.mod_modEq _ _).trans (by ring_nf; rfl)
      have h3 : (x3.val : Int) ≡ x.val * x2.val [ZMOD secp256r1P.val] := by
        rw [hx3val]
        push_cast
        exact (Int.mod_modEq _ _).trans (by ring_nf; rfl)
      calc (d3.val : Int) ≡ d2.val - x.val [ZMOD secp256r1P.val] := hd3
        _ ≡ d1.val - x.val - x.val [ZMOD secp256r1P.val] := hd2.sub_right _
        _ ≡ x3.val - x.val - x.val - x.val [ZMOD secp256r1P.val] := (hd1.sub_right _).sub_right _
        _ ≡ x.val * x.val ^ 2 - x.val - x.val - x.val [ZMOD secp256r1P.val] :=
          (((h3.trans (h2.mul_left _)).sub_right _).sub_right _).sub_right _
        _ = x.val ^ 3 - 3 * x.val := by ring
    have hsquare : y2.val = y.val ^ 2 % secp256r1P.val := by
      rw [hy2val]
      congr 1
      simp
      ring
    congr 1
    have hcurve : ((y.val ^ 2 % secp256r1P.val : Nat) : Int) ≡ d3.val + secp256r1B.val
        [ZMOD secp256r1P.val] ↔ OnCurve x.val y.val := by
      have hleft : ((y.val ^ 2 % secp256r1P.val : Nat) : Int) ≡ y.val ^ 2 [ZMOD secp256r1P.val] := by
        push_cast
        exact Int.mod_modEq _ _
      have hright := hcube.add_right (secp256r1B.val : Int)
      exact ⟨fun h => (hleft.symm.trans h).trans hright, fun h => (hleft.trans h).trans hright.symm⟩
    rw [decide_eq_decide, p256Cmp_eq_zero_iff, sum_eq_iff hlt3 hy2lt, hsquare, hcurve]
    constructor
    · intro h
      exact ⟨⟨by omega, hx, by omega, by omega, h.1⟩, h.2⟩
    · intro h
      exact ⟨h.1.2.2.2.2, h.2⟩

/-- A point is accepted as it should be unless it is a point of the curve and `y ^ 2 mod p` is among
the few numbers that have a second representative below `2 ^ 256`. -/
theorem p256IsValidPoint_accepts_iff (x y : P256Int) :
    (p256IsValidPoint x y = some true ↔ ValidPoint x.val y.val) ↔
      (ValidPoint x.val y.val → 2 ^ 256 - secp256r1P.val ≤ y.val ^ 2 % secp256r1P.val) := by
  rw [p256IsValidPoint_eq, Option.some_inj, decide_eq_true_iff]
  constructor
  · intro h hvalid
    exact (h.2 hvalid).2
  · intro h
    exact ⟨fun hboth => hboth.1, fun hvalid => ⟨hvalid, h hvalid⟩⟩

/-- A point of the curve with `y = 5` is refused. -/
theorem p256IsValidPoint_refuses :
    ∃ x y : P256Int, ValidPoint x.val y.val ∧ p256IsValidPoint x y = some false :=
  ⟨⟨[0xde8de1d7, 0xb176f692, 0x841022ca, 0x4cffaf35, 0xeb345f84, 0x0a92738c, 0x46cd60d8,
      0xd7325d76], rfl⟩,
    ⟨[5, 0, 0, 0, 0, 0, 0, 0], rfl⟩, by decide +kernel, by decide +kernel⟩

end AndroidSystem.Mincrypt
