import AndroidSystem.Mincrypt.ValidPoint

/-!
# The modular inverse

The loop of `p256_modinv_vartime` keeps `R * a ≡ U` and `S * a ≡ V` modulo `MOD` and the greatest
common divisor of `U` and `V` (`Inverting`). Each round halves one of `U` and `V`, or makes one of two
odd numbers smaller and even (`Progress`), so at most 1026 rounds are made for numbers of 256 bits.
-/

namespace AndroidSystem.Mincrypt

section

variable {MOD a x : P256Int} {s s' : ModinvState}

/-- What holds before every round. -/
structure Inverting (MOD a : P256Int) (s : ModinvState) : Prop where
  R_lt : s.R.val < MOD.val
  S_lt : s.S.val < MOD.val
  R_mul : (s.R.val : Int) * a.val ≡ s.U.val [ZMOD MOD.val]
  S_mul : (s.S.val : Int) * a.val ≡ s.V.val [ZMOD MOD.val]
  coprime : Nat.Coprime s.U.val s.V.val
  U_pos : 0 < s.U.val
  V_pos : 0 < s.V.val

/-- What a round that does not end the loop does to `U` and `V`. -/
def Progress (s s' : ModinvState) : Prop :=
  2 * s'.U.val = s.U.val ∧ s'.V.val = s.V.val ∨
  s'.U.val = s.U.val ∧ 2 * s'.V.val = s.V.val ∨
  s.U.val % 2 = 1 ∧ s.V.val % 2 = 1 ∧ s'.U.val ≤ s.U.val ∧ s'.V.val ≤ s.V.val ∧
    (s'.U.val % 2 = 0 ∨ s'.V.val % 2 = 0)

/-! ## One round -/

theorem val_shr1 (hx : x.val % 2 = 0) : 2 * (p256Shr1 x 0).val = x.val := by
  have h := val_p256Shr1 (Nat.zero_le 1) x
  have h' : 2 * (p256Shr1 x 0).val + x.val % 2 = x.val + 0 * 2 ^ 256 := h
  omega

/-- Half of a residue: no bit is lost, also if the sum with the modulus has 257 bits. -/
theorem val_halve (hodd : MOD.val % 2 = 1) (x : P256Int) :
    2 * (halve MOD x).val = if x.val % 2 = 0 then x.val else x.val + MOD.val := by
  by_cases hx : x.val % 2 = 0
  · rw [halve, if_pos (p256IsEven_iff.2 hx), if_pos hx, val_shr1 hx]
  · rw [halve, if_neg (by rwa [p256IsEven_iff]), if_neg hx]
    obtain ⟨hret, hval⟩ | ⟨hret, hval⟩ := p256Add_cases x MOD
    · have h : 2 * (p256Shr1 (p256Add x MOD).2 (0 : Nat)).val + _ = _ :=
        val_p256Shr1 (Nat.zero_le 1) (p256Add x MOD).2
      change 2 * (p256Shr1 (p256Add x MOD).2 (p256Add x MOD).1).val = _
      rw [hret]
      change 2 * (p256Shr1 (p256Add x MOD).2 (0 : Nat)).val = _
      omega
    · have h : 2 * (p256Shr1 (p256Add x MOD).2 (1 : Nat)).val + _ = _ :=
        val_p256Shr1 le_rfl (p256Add x MOD).2
      change 2 * (p256Shr1 (p256Add x MOD).2 (p256Add x MOD).1).val = _
      rw [hret]
      change 2 * (p256Shr1 (p256Add x MOD).2 (1 : Nat)).val = _
      omega

theorem halve_lt (hodd : MOD.val % 2 = 1) (hx : x.val < MOD.val) : (halve MOD x).val < MOD.val := by
  have h := val_halve hodd x
  split_ifs at h <;> omega

/-- If `x * a` is congruent to an even number, half of `x` times `a` is congruent to its half. -/
theorem halve_mul (hodd : MOD.val % 2 = 1) {u : Nat}
    (h : (x.val : Int) * a.val ≡ (2 * u : Nat) [ZMOD MOD.val]) :
    ((halve MOD x).val : Int) * a.val ≡ u [ZMOD MOD.val] := by
  have hdouble : (2 : Int) * (halve MOD x).val ≡ x.val [ZMOD MOD.val] := by
    have hval := val_halve hodd x
    split_ifs at hval
    · rw [show (2 : Int) * (halve MOD x).val = x.val by omega]
    · rw [show (2 : Int) * (halve MOD x).val = x.val + MOD.val by omega]
      exact Int.add_modEq_right
  have htwice : (2 : Int) * ((halve MOD x).val * a.val) ≡ 2 * u [ZMOD MOD.val] := by
    rw [← mul_assoc]
    exact (hdouble.mul_right _).trans h
  have hgcd : Int.gcd MOD.val 2 = 1 := by
    show Nat.gcd MOD.val 2 = 1
    rw [Nat.gcd_comm, Nat.gcd_rec, hodd]
    rfl
  have hcancel := Int.ModEq.cancel_left_div_gcd (by omega) htwice
  rwa [hgcd, Nat.cast_one, Int.ediv_one] at hcancel

theorem subMod_mul {y : P256Int} {u v : Nat} (hx : x.val < MOD.val) (hy : y.val < MOD.val)
    (hu : (x.val : Int) * a.val ≡ u [ZMOD MOD.val]) (hv : (y.val : Int) * a.val ≡ v [ZMOD MOD.val]) :
    ((subMod MOD x y).val : Int) * a.val ≡ u - v [ZMOD MOD.val] := by
  calc ((subMod MOD x y).val : Int) * a.val ≡ (x.val - y.val) * a.val [ZMOD MOD.val] :=
        (subMod_modEq hx hy.le).mul_right _
    _ = x.val * a.val - y.val * a.val := by ring
    _ ≡ u - v [ZMOD MOD.val] := hu.sub hv

/-- A round either ends the loop with `U = 1` and `R` as it was, or goes on with smaller numbers. -/
theorem modinvStep_spec (hodd : MOD.val % 2 = 1) (h : Inverting MOD a s) :
    ((modinvStep MOD s).2 = true ∧ (modinvStep MOD s).1.R = s.R ∧ s.U.val = 1) ∨
      ((modinvStep MOD s).2 = false ∧ Inverting MOD a (modinvStep MOD s).1 ∧
        Progress s (modinvStep MOD s).1) := by
  by_cases hU : s.U.val % 2 = 0
  · have hhalf := val_shr1 hU
    have hpos := h.U_pos
    rw [modinvStep, if_pos (p256IsEven_iff.2 hU)]
    refine .inr ⟨rfl, ⟨halve_lt hodd h.R_lt, h.S_lt, ?_, h.S_mul, ?_, ?_, h.V_pos⟩,
      .inl ⟨hhalf, rfl⟩⟩
    · apply halve_mul hodd
      rw [hhalf]
      exact h.R_mul
    · exact Nat.Coprime.coprime_dvd_left ⟨2, by rw [← hhalf, mul_comm]⟩ h.coprime
    · show 0 < (p256Shr1 s.U 0).val
      omega
  by_cases hV : s.V.val % 2 = 0
  · have hhalf := val_shr1 hV
    have hpos := h.V_pos
    rw [modinvStep, if_neg (by rwa [p256IsEven_iff]), if_pos (p256IsEven_iff.2 hV)]
    refine .inr ⟨rfl, ⟨h.R_lt, halve_lt hodd h.S_lt, h.R_mul, ?_, ?_, h.U_pos, ?_⟩,
      .inr (.inl ⟨rfl, hhalf⟩)⟩
    · apply halve_mul hodd
      rw [hhalf]
      exact h.S_mul
    · exact Nat.Coprime.coprime_dvd_right ⟨2, by rw [← hhalf, mul_comm]⟩ h.coprime
    · show 0 < (p256Shr1 s.V 0).val
      omega
  rw [modinvStep, if_neg (by rwa [p256IsEven_iff]), if_neg (by rwa [p256IsEven_iff])]
  obtain ⟨hret, hval⟩ | ⟨hret, hval⟩ := p256Sub_cases s.V s.U
  · rw [if_pos hret]
    by_cases hzero : (p256Sub s.V s.U).2.val = 0
    · -- `U` and `V` are equal, and nothing but 1 divides both
      refine .inl ⟨p256IsZero_iff.2 hzero, rfl, ?_⟩
      have hgcd := h.coprime
      rw [show s.V.val = s.U.val by omega] at hgcd
      exact (Nat.coprime_self _).1 hgcd
    · refine .inr ⟨?_, ⟨h.R_lt, subMod_lt h.S_lt h.R_lt.le, h.R_mul, ?_, ?_, h.U_pos, ?_⟩,
        .inr (.inr ⟨by omega, by omega, le_rfl, ?_, ?_⟩)⟩
      · rw [← Bool.not_eq_true, p256IsZero_iff]
        exact hzero
      · have hmul := subMod_mul h.S_lt h.R_lt h.S_mul h.R_mul
        rwa [show (s.V.val : Int) - s.U.val = (p256Sub s.V s.U).2.val by omega] at hmul
      · show Nat.Coprime s.U.val (p256Sub s.V s.U).2.val
        rw [show (p256Sub s.V s.U).2.val = s.V.val - s.U.val by omega]
        exact (Nat.coprime_sub_self_right (by omega)).2 h.coprime
      · show 0 < (p256Sub s.V s.U).2.val
        omega
      · show (p256Sub s.V s.U).2.val ≤ s.V.val
        omega
      · show s.U.val % 2 = 0 ∨ (p256Sub s.V s.U).2.val % 2 = 0
        omega
  · have hlt := (p256Sub s.V s.U).2.val_lt
    obtain ⟨-, hval'⟩ | ⟨-, hval'⟩ := p256Sub_cases s.U s.V
    · rw [if_neg (by rw [hret]; decide)]
      refine .inr ⟨rfl, ⟨subMod_lt h.R_lt h.S_lt.le, h.S_lt, ?_, h.S_mul, ?_, ?_, h.V_pos⟩,
        .inr (.inr ⟨by omega, by omega, ?_, le_rfl, ?_⟩)⟩
      · have hmul := subMod_mul h.R_lt h.S_lt h.R_mul h.S_mul
        rwa [show (s.U.val : Int) - s.V.val = (p256Sub s.U s.V).2.val by omega] at hmul
      · rw [show (p256Sub s.U s.V).2.val = s.U.val - s.V.val by omega]
        exact (Nat.coprime_sub_self_left (by omega)).2 h.coprime
      · show 0 < (p256Sub s.U s.V).2.val
        omega
      · show (p256Sub s.U s.V).2.val ≤ s.U.val
        omega
      · show (p256Sub s.U s.V).2.val % 2 = 0 ∨ s.V.val % 2 = 0
        omega
    · have := (p256Sub s.U s.V).2.val_lt
      omega

/-! ## The loop -/

/-- Twice the number of bits, and one more if the next round subtracts. -/
def rounds (s : ModinvState) (u v : Nat) : Nat :=
  2 * (u + v) + if s.U.val % 2 = 1 ∧ s.V.val % 2 = 1 then 1 else 0

theorem Progress.rounds_lt (h : Progress s s') (hU : 0 < s'.U.val) (hV : 0 < s'.V.val) {u v : Nat}
    (hu : s.U.val < 2 ^ u) (hv : s.V.val < 2 ^ v) :
    ∃ u' v', s'.U.val < 2 ^ u' ∧ s'.V.val < 2 ^ v' ∧ rounds s' u' v' < rounds s u v := by
  unfold rounds
  obtain ⟨h2, heq⟩ | ⟨heq, h2⟩ | ⟨hUodd, hVodd, hUle, hVle, heven⟩ := h
  · obtain ⟨u, rfl⟩ : ∃ k, u = k + 1 := by
      refine ⟨u - 1, ?_⟩
      have : u ≠ 0 := by rintro rfl; omega
      omega
    refine ⟨u, v, by omega, by omega, ?_⟩
    split_ifs <;> omega
  · obtain ⟨v, rfl⟩ : ∃ k, v = k + 1 := by
      refine ⟨v - 1, ?_⟩
      have : v ≠ 0 := by rintro rfl; omega
      omega
    refine ⟨u, v, by omega, by omega, ?_⟩
    split_ifs <;> omega
  · refine ⟨u, v, by omega, by omega, ?_⟩
    rw [if_neg (by omega), if_pos ⟨hUodd, hVodd⟩]
    omega

theorem modinvLoop_spec (hodd : MOD.val % 2 = 1) (fuel : Nat) (h : Inverting MOD a s) {u v : Nat}
    (hu : s.U.val < 2 ^ u) (hv : s.V.val < 2 ^ v) (hfuel : rounds s u v < fuel) :
    ∃ t, modinvLoop MOD fuel s = some t ∧ t.R.val < MOD.val ∧
      (t.R.val : Int) * a.val ≡ 1 [ZMOD MOD.val] := by
  induction fuel generalizing s u v with
  | zero => omega
  | succ fuel ih =>
    obtain ⟨hdone, hR, hone⟩ | ⟨hgo, hnext, hprogress⟩ := modinvStep_spec hodd h
    · refine ⟨(modinvStep MOD s).1, ?_, hR ▸ h.R_lt, ?_⟩
      · rw [modinvLoop]
        simp only [hdone, if_true]
      · have hmul := h.R_mul
        rw [hone] at hmul
        rw [hR]
        exact_mod_cast hmul
    · obtain ⟨u', v', hu', hv', hlt⟩ := hprogress.rounds_lt hnext.U_pos hnext.V_pos hu hv
      obtain ⟨t, hrun, ht⟩ := ih hnext hu' hv' (by omega)
      refine ⟨t, ?_, ht⟩
      rw [modinvLoop]
      simp only [hgo]
      exact hrun

theorem modinvLoop_mono {fuel fuel' : Nat} {t : ModinvState} (hle : fuel ≤ fuel')
    (h : modinvLoop MOD fuel s = some t) : modinvLoop MOD fuel' s = some t := by
  induction fuel generalizing s fuel' with
  | zero => cases h
  | succ fuel ih =>
    obtain ⟨fuel', rfl⟩ : ∃ k, fuel' = k + 1 := ⟨fuel' - 1, by omega⟩
    rw [modinvLoop] at h ⊢
    split_ifs at h ⊢ with hdone
    · exact h
    · exact ih (by omega) h

end

/-- The loop is left after at most 1026 rounds, with the inverse in `R`. -/
theorem p256ModinvVartime_inverts (MOD a : P256Int) (hodd : MOD.val % 2 = 1)
    (htop : 2 ^ 255 ≤ MOD.val) (hcoprime : Nat.Coprime a.val MOD.val) :
    ∃ b, (∀ fuel, 1026 ≤ fuel → p256ModinvVartime fuel MOD a = some b) ∧ b.val < MOD.val ∧
      a.val * b.val ≡ 1 [MOD MOD.val] := by
  have hstart : Inverting MOD a ⟨p256Zero, p256One, MOD, a⟩ := by
    have hzero : p256Zero.val = 0 := rfl
    have hone : p256One.val = 1 := rfl
    refine ⟨?_, ?_, ?_, ?_, hcoprime.symm, ?_, ?_⟩
    · show p256Zero.val < MOD.val
      omega
    · show p256One.val < MOD.val
      omega
    · rw [hzero]
      simpa using (Int.modEq_zero_iff_dvd.2 (dvd_refl (MOD.val : Int))).symm
    · rw [hone]
      simp
    · show 0 < MOD.val
      omega
    · refine pos_of_ne_zero fun h0 => ?_
      rw [h0, Nat.coprime_zero_left] at hcoprime
      omega
  have hrounds : rounds ⟨p256Zero, p256One, MOD, a⟩ 256 256 < 1026 := by
    unfold rounds
    split_ifs <;> omega
  obtain ⟨t, hrun, hlt, hmul⟩ := modinvLoop_spec hodd 1026 hstart MOD.val_lt a.val_lt hrounds
  have hval : (p256Mod MOD t.R).val = t.R.val := by
    rw [val_p256Mod, if_pos hlt]
  refine ⟨p256Mod MOD t.R, ?_, ?_, ?_⟩
  · intro fuel hfuel
    rw [p256ModinvVartime, modinvLoop_mono hfuel hrun]
    rfl
  · rwa [hval]
  · rw [hval, ← Int.natCast_modEq_iff, mul_comm]
    exact hmul

/-- The inverse of `2 ^ 256 - 1`, which is larger than the modulus. -/
theorem p256ModinvVartime_large :
    ∃ b, p256ModinvVartime 1026 secp256r1N ⟨[-1, -1, -1, -1, -1, -1, -1, -1], rfl⟩ = some b ∧
      (2 ^ 256 - 1) * b.val ≡ 1 [MOD secp256r1N.val] := by
  obtain ⟨b, hrun, -, hmul⟩ := p256ModinvVartime_inverts secp256r1N
    ⟨[-1, -1, -1, -1, -1, -1, -1, -1], rfl⟩ (by decide +kernel) (by decide +kernel)
    (by decide +kernel)
  exact ⟨b, hrun 1026 le_rfl, hmul⟩

end AndroidSystem.Mincrypt
