import AndroidSystem.Mincrypt.P256Value

/-!
# The modular product

`p256_modmul` first adds the products of `a` with every digit of `b` into `tmp` (`mulLoop_spec`). It
then takes off the top digit of `tmp` again and again. The multiple of the modulus it subtracts is
the top digit itself, which is right up to one because the highest digit of the modulus is all ones:
what is left is below `2 ^ 257`, and one more subtraction brings it below `2 ^ 256`
(`reduceStep_spec`). The asserts say just that.
-/

namespace AndroidSystem.Mincrypt

open List Words Function Option

section

variable {MOD a b : P256Int} {lo w hi v : List UInt32} {top : UInt32} {i k : Nat}

/-! ## A window of eight digits -/

theorem exists_window {L : List UInt32} (hL : L.length = i + 8) :
    ∃ l w : List UInt32, l.length = i ∧ w.length = 8 ∧ L = l ++ w := by
  refine ⟨L.take i, L.drop i, ?_, ?_, (take_append_drop _ L).symm⟩
  · rw [length_take]
    omega
  · rw [length_drop]
    omega

theorem window_append (hlo : lo.length = i) (hw : w.length = 8) :
    window (lo ++ w ++ hi) i = w := by
  subst hlo
  rw [window, append_assoc, drop_left, ← hw, take_left]

theorem setWindow_append (hlo : lo.length = i) (hw : w.length = 8) :
    setWindow (lo ++ w ++ hi) i v = lo ++ v ++ hi := by
  subst hlo
  rw [setWindow, append_assoc lo w hi, take_left, ← hw, ← length_append,
    ← append_assoc, drop_left]

/-! ## Adding up the products -/

/-- One round: the top digit is stored and the product with one digit is added at its place. -/
theorem mulStep_spec (d : UInt32) (hlo : lo.length = i + 7) :
    ∃ lo' : List UInt32, ∃ top' : UInt32, lo'.length = i + 8 ∧
      (∀ tmp, tmp = (lo ++ replicate (k + 1) 0).set (i + 7) top →
        setWindow tmp i (mulAdd a d 0 (window tmp i)).2 = lo' ++ replicate k 0 ∧
          (mulAdd a d 0 (window tmp i)).1 = top') ∧
      value lo' + 2 ^ (32 * (i + 8)) * top'.toNat =
        value lo + 2 ^ (32 * (i + 7)) * top.toNat + 2 ^ (32 * i) * (d.toNat * a.val) := by
  -- the digits below the window stay as they are
  obtain ⟨l, w, hl, hw, hsplit⟩ := exists_window (L := lo ++ [top])
    (by rw [length_append, hlo, length_singleton])
  have hset : (lo ++ replicate (k + 1) 0).set (i + 7) top = l ++ w ++ replicate k 0 := by
    rw [← hsplit, ← hlo, replicate_succ]
    simp
  have hvalue := value_mulAdd (a := a) hw d
  have hstored : value lo + 2 ^ (32 * (i + 7)) * top.toNat = value l + 2 ^ (32 * i) * value w := by
    rw [← hl, ← value_append, ← hsplit, value_append, hl, hlo]
    simp [value_cons]
  refine ⟨l ++ (mulAdd a d 0 w).2, (mulAdd a d 0 w).1, ?_, ?_, ?_⟩
  · rw [length_append, hl, length_mulAdd hw]
  · intro tmp htmp
    rw [htmp, hset, window_append hl hw, setWindow_append hl hw]
    exact ⟨rfl, rfl⟩
  · rw [hstored, value_append, hl]
    linear_combination 2 ^ (32 * i) * hvalue

theorem mulLoop_spec (bs : List UInt32) (hlo : lo.length = i + 7) (hk : bs.length ≤ k)
    (h0 : i = 0 → top = 0) :
    ∃ lo' : List UInt32, ∃ top' : UInt32, lo'.length = i + bs.length + 7 ∧
      mulLoop a bs i (lo ++ replicate k 0) top =
        (lo' ++ replicate (k - bs.length) 0, top') ∧
      value lo' + 2 ^ (32 * (i + bs.length + 7)) * top'.toNat =
        value lo + 2 ^ (32 * (i + 7)) * top.toNat + 2 ^ (32 * i) * (a.val * value bs) := by
  induction bs generalizing i k lo top with
  | nil => exact ⟨lo, top, hlo, rfl, by simp⟩
  | cons d bs ih =>
    obtain ⟨k, rfl⟩ : ∃ m, k = m + 1 := ⟨k - 1, by simp at hk; omega⟩
    obtain ⟨lo1, top1, hlo1, hstep, hvalue1⟩ := mulStep_spec (k := k) d hlo
    obtain ⟨lo2, top2, hlo2, hrun, hvalue2⟩ :=
      ih (i := i + 1) (hlo1.trans (by omega)) (by simpa using hk) (by simp)
    -- at the first digit nothing is stored, and the digit in that place is the zero of `top`
    have hstored : (if i ≠ 0 then (lo ++ replicate (k + 1) 0).set (i + 7) top
        else lo ++ replicate (k + 1) 0) =
        (lo ++ replicate (k + 1) 0).set (i + 7) top := by
      by_cases hi : i = 0
      · rw [h0 hi, ← hlo]
        simp
      · rw [if_pos hi]
    obtain ⟨htmp, htop⟩ := hstep _ hstored
    have hlen : i + 1 + bs.length = i + (d :: bs).length := by
      rw [length_cons]
      omega
    rw [hlen] at hlo2 hvalue2
    refine ⟨lo2, top2, hlo2, ?_, ?_⟩
    · rw [mulLoop, htmp, htop, hrun, length_cons, Nat.add_sub_add_right]
    · rw [hvalue2, hvalue1, value_cons]
      ring

/-! ## Taking off the top digit -/

/-- The highest digit of the modulus is all ones. -/
def Full (MOD : P256Int) : Prop := 2 ^ 256 ≤ MOD.val + 2 ^ 224

/-- What a multiple of the modulus misses. -/
theorem Full.gap (hMOD : Full MOD) (n : Nat) :
    ∃ gap ≤ n * 2 ^ 224, gap + n * MOD.val = 2 ^ 256 * n := by
  have hlt := MOD.val_lt
  unfold Full at hMOD
  refine ⟨n * (2 ^ 256 - MOD.val), Nat.mul_le_mul_left _ (by omega), ?_⟩
  rw [← mul_add, Nat.sub_add_cancel hlt.le, mul_comm]

theorem eq_zero_or_one {t : UInt32} (ht : t.toNat ≤ 1) : t = 0 ∨ t = 1 := by
  rw [← UInt32.toNat_inj, ← UInt32.toNat_inj]
  show t.toNat = 0 ∨ t.toNat = 1
  omega

theorem subTop_spec (hMOD : Full MOD) (hw : w.length = 8) (top : UInt32) :
    ∃ t : UInt32, ∃ r : List UInt32, r.length = 8 ∧
      subTop (mulAdd MOD top 0 (replicate 8 0)).1 (mulAdd MOD top 0 (replicate 8 0)).2
        top w = some (t, r) ∧
      t.toNat ≤ 1 ∧
      value r + 2 ^ 256 * t.toNat + top.toNat * MOD.val = value w + 2 ^ 256 * top.toNat := by
  have hlen : (mulAdd MOD top 0 (replicate 8 0)).2.length = 8 := length_mulAdd (by simp) top
  have hreducer := value_mulAdd (a := MOD) (c := replicate 8 0) (by simp) top
  rw [value_replicate_zero] at hreducer
  generalize mulAdd MOD top 0 (replicate 8 0) = reducer at *
  generalize hr : carryLoop sddigit 0 (w.zipWith (fun c a => (c.toNat : Int) - a.toNat) reducer.2) = r
  obtain ⟨d, hd, hborrow, hrlen, hvalue⟩ := sub_digits hw hlen hr
  have hrlt := value_lt_eight hrlen
  have hwlt := value_lt_eight hw
  -- `top * MOD` misses `top * 2 ^ 256` by less than `2 ^ 256`
  have htop := top.toNat_lt
  obtain ⟨gap, hgap, hdist⟩ := hMOD.gap top.toNat
  obtain ⟨t, ht, htborrow⟩ : ∃ t : Nat, t ≤ 1 ∧
      r.2 + (top.toNat : Int) - (reducer.1.toNat : Int) = (t : Int) := by
    refine ⟨(r.2 + (top.toNat : Int) - (reducer.1.toNat : Int)).toNat, ?_, ?_⟩ <;> omega
  have htNat : (UInt32.ofInt t).toNat = t := by
    have := toNat_ofInt t
    omega
  refine ⟨UInt32.ofInt t, r.1, hrlen, ?_, by omega, by omega⟩
  have hcast : sddigit t = t := i64_of_lt (by omega) (by omega)
  have hshift : (t : Int) >>> (32 : Nat) = 0 := by
    rw [Int.shiftRight_eq_div_pow]
    omega
  rw [subTop, hr]
  simp only [htborrow, hcast, hshift, if_true]

theorem mask_eq {t : UInt32} (ht : t.toNat ≤ 1) (m : UInt32) :
    (m &&& ~~~(t - 1)).toNat = t.toNat * m.toNat := by
  obtain rfl | rfl := eq_zero_or_one ht
  · exact mask_zero m
  · exact mask_ones m

/-- One round takes a multiple of the modulus off a window and the digit above it, and leaves
nothing above the window. No assert fails. -/
theorem reduceStep_spec (hMOD : Full MOD) (hlo : lo.length = i) (hw : w.length = 8)
    (top : UInt32) :
    ∃ w' : List UInt32, w'.length = 8 ∧
      reduceStep MOD i (lo ++ w ++ hi) top = some (lo ++ w' ++ hi, w'.getD 7 0) ∧
      ∃ q, value w' + q * MOD.val = value w + 2 ^ 256 * top.toNat := by
  obtain ⟨t, r, hr, hsub, ht, hvalue⟩ := subTop_spec hMOD hw top
  obtain ⟨d, hd, htop, hrest⟩ := value_subM ht (mask_eq ht) hr
  have hs : (subM MOD t r (~~~(t - 1))).2.length = 8 := length_subM hr
  have hslt := value_lt_eight hs
  generalize hsM : subM MOD t r (~~~(t - 1)) = s at *
  have hwlt := value_lt_eight hw
  have htop' := top.toNat_lt
  obtain ⟨gap, hgap, hdist⟩ := hMOD.gap (top.toNat + 1)
  rw [Nat.succ_mul] at hdist
  -- the second subtraction borrows exactly what is on top
  have htd : d = t.toNat := by
    obtain h0 | h1 : t.toNat = 0 ∨ t.toNat = 1 := by omega
    · rw [h0] at hrest hvalue ⊢
      omega
    · rw [h1] at hrest hvalue ⊢
      omega
  have hzero : s.1 = 0 := by
    rw [htop, htd]
    obtain rfl | rfl := eq_zero_or_one ht
    · rfl
    · rfl
  refine ⟨s.2, hs, ?_, top.toNat + t.toNat, ?_⟩
  · have hle : t ≤ 1 := UInt32.le_iff_toNat_le.2 ht
    have hfetch : (lo ++ s.2 ++ hi).getD (i + 7) 0 = s.2.getD 7 0 := by
      rw [append_assoc, getD_append_right _ _ _ _ (by omega),
        getD_append _ _ _ _ (by omega)]
      congr 1
      omega
    rw [reduceStep]
    simp only [window_append hlo hw, hsub, bind_eq_bind, bind_some,
      setWindow_append hlo hw, window_append hlo hr, setWindow_append hlo hr, hle, if_true, hsM,
      hzero, hfetch]
  · rw [add_mul]
    omega

/-- All rounds together: what is left in the lowest window is congruent to the whole number. -/
theorem reduceLoop_spec (hMOD : Full MOD) {L : List UInt32} (hL : L.length = i + 8) (top : UInt32) :
    ∃ w hi' : List UInt32, w.length = 8 ∧ reduceLoop MOD i (L ++ hi) top = some (w ++ hi') ∧
      ∃ q, value w + q * MOD.val = value L + 2 ^ (32 * (i + 8)) * top.toNat := by
  induction i generalizing L hi top with
  | zero =>
    obtain ⟨w, hw, hstep, q, hvalue⟩ :=
      reduceStep_spec hMOD (show ([] : List UInt32).length = 0 from rfl) (hL.trans (zero_add 8)) top
    rw [nil_append] at hstep
    refine ⟨w, hi, hw, ?_, q, by simpa using hvalue⟩
    rw [reduceLoop, hstep]
    rfl
  | succ i ih =>
    obtain ⟨l, w, hl, hw, rfl⟩ := exists_window hL
    obtain ⟨w', hw', hstep, q, hvalue⟩ := reduceStep_spec hMOD hl hw top
    -- the digit that is fetched is the highest of the window
    obtain ⟨v, t, rfl⟩ : ∃ v t, w' = v ++ [t] :=
      ⟨w'.dropLast, w'.getLast (by rintro rfl; simp at hw'), (dropLast_concat_getLast _).symm⟩
    have hv : v.length = 7 := by simpa using hw'
    have hfetch : (v ++ [t]).getD 7 0 = t := by
      rw [getD_append_right _ _ _ _ (by omega), hv]
      rfl
    have hlv : (l ++ v).length = i + 8 := by
      rw [length_append, hl, hv]
    obtain ⟨wf, hif, hwf, hrun, q', hvalue'⟩ := @ih (t :: hi) (l ++ v) hlv t
    refine ⟨wf, hif, hwf, ?_, q' + 2 ^ (32 * (i + 1)) * q, ?_⟩
    · rw [reduceLoop, hstep]
      simp only [hfetch]
      rw [← hrun]
      simp
    · have hlast : value (v ++ [t]) = value v + 2 ^ (32 * 7) * t.toNat := by
        simp [value_append, value_cons, hv]
      rw [value_append, hl] at hvalue' ⊢
      rw [hlast] at hvalue
      have hpow' : (2 : Nat) ^ (32 * (i + 1 + 8)) = 2 ^ (32 * (i + 1)) * 2 ^ 256 := by
        rw [← pow_add]
        congr 1
      rw [hpow']
      linear_combination hvalue' + 2 ^ (32 * (i + 1)) * hvalue

/-! ## The last subtraction -/

theorem value_condSub (hw : w.length = 8) :
    (addM MOD 0 (subM MOD 0 w (-1)).2 (subM MOD 0 w (-1)).1).2.length = 8 ∧
      value (addM MOD 0 (subM MOD 0 w (-1)).2 (subM MOD 0 w (-1)).1).2 =
        if value w < MOD.val then value w else value w - MOD.val := by
  obtain ⟨d, hd, hmask, hsub⟩ := value_subM le_rfl mask_ones hw
  have hs : (subM MOD 0 w (-1)).2.length = 8 := length_subM hw
  have hslt := value_lt_eight hs
  have hwlt := value_lt_eight hw
  generalize subM MOD 0 w (-1) = s at *
  have hand (m : UInt32) : (m &&& s.1).toNat = d * m.toNat := by
    rw [hmask]
    obtain rfl | rfl : d = 0 ∨ d = 1 := by omega
    · exact mask_zero m
    · exact mask_ones m
  obtain ⟨hlen, e, hadd⟩ := value_addM hd hand hs
  have hlt := value_lt_eight hlen
  refine ⟨hlen, ?_⟩
  obtain rfl | rfl : d = 0 ∨ d = 1 := by omega
  · rw [if_neg (by omega)]
    omega
  · rw [if_pos (by omega)]
    omega

theorem val_p256Mod (x : P256Int) :
    (p256Mod MOD x).val = if x.val < MOD.val then x.val else x.val - MOD.val := by
  obtain ⟨hlen, hvalue⟩ := value_condSub x.length_a
  rw [p256Mod, P256Int.val_ofDigits hlen, hvalue]
  rfl

/-! ## The product -/

theorem p256Modmul_eq (hMOD : Full MOD) (a : P256Int) (topB : UInt32) (b : P256Int) :
    ∃ c, p256Modmul MOD a topB b = some c ∧
      c.val = a.val * (topB.toNat * 2 ^ 256 + b.val) % MOD.val := by
  obtain ⟨lo, top, hlo, hmul, hvalue⟩ := mulLoop_spec (i := 0) (k := 10)
    b.a (length_replicate (a := 0)) (by simp [b.length_a]) (fun _ => rfl)
  rw [b.length_a] at hlo hmul hvalue
  obtain ⟨lo', top', hlo', hstep, hvalue'⟩ :=
    mulStep_spec (k := 1) topB hlo
  obtain ⟨htmp, htop⟩ := hstep _ rfl
  obtain ⟨w, hi, hw, hreduce, q, hq⟩ := reduceLoop_spec hMOD hlo' top'
  obtain ⟨hlen, hlast⟩ := value_condSub hw
  have hwindow : window (w ++ hi) 0 = w := window_append (show ([] : List UInt32).length = 0 from rfl) hw
  refine ⟨.ofDigits (addM MOD 0 (subM MOD 0 w (-1)).2 (subM MOD 0 w (-1)).1).2, ?_, ?_⟩
  · rw [p256Modmul, show replicate 17 (0 : UInt32) = replicate 7 0 ++ replicate 10 0 from rfl, hmul]
    rw [htmp, htop, hreduce]
    simp only [bind_eq_bind, bind_some, hwindow]
  · have hwlt := value_lt_eight hw
    have hsum : value w + q * MOD.val = a.val * (topB.toNat * 2 ^ 256 + b.val) := by
      rw [hq, hvalue', hvalue]
      simp only [P256Int.val]
      norm_num
      ring
    rw [P256Int.val_ofDigits hlen, hlast, ← hsum, Nat.add_mul_mod_self_right]
    unfold Full at hMOD
    split_ifs with hlt
    · rw [Nat.mod_eq_of_lt hlt]
    · rw [Nat.mod_eq_sub_mod (by omega), Nat.mod_eq_of_lt (by omega)]

theorem full_secp256r1P : Full secp256r1P := by
  unfold Full
  decide +kernel

theorem full_secp256r1N : Full secp256r1N := by
  unfold Full
  decide +kernel

end

/-- The product of two numbers in memory. They are read digit by digit while a local array is
filled, and `c` is written when the result is complete. -/
def p256ModmulAt (mem : Nat → P256Int) (MOD : P256Int) (a : Nat) (topB : UInt32) (b c : Nat) :
    Option (Nat → P256Int) :=
  (p256Modmul MOD (mem a) topB (mem b)).map (update mem c)

/-- The product modulo the field prime or the group order is stored in `c`, wherever `c` is: the
asserts hold, the result is fully reduced and nothing else is changed. -/
theorem p256ModmulAt_reduces (mem : Nat → P256Int) {MOD : P256Int}
    (hMOD : MOD = secp256r1P ∨ MOD = secp256r1N) (a : Nat) (topB : UInt32) (b c : Nat) :
    ∃ mem', p256ModmulAt mem MOD a topB b c = some mem' ∧
      (mem' c).val = (mem a).val * (topB.toNat * 2 ^ 256 + (mem b).val) % MOD.val ∧
      (mem' c).val < MOD.val ∧
      ∀ q, q ≠ c → mem' q = mem q := by
  have hfull : Full MOD := by
    obtain rfl | rfl := hMOD
    · exact full_secp256r1P
    · exact full_secp256r1N
  obtain ⟨r, hrun, hval⟩ := p256Modmul_eq hfull (mem a) topB (mem b)
  have hpos : 0 < MOD.val := by
    unfold Full at hfull
    omega
  refine ⟨update mem c r, ?_, ?_, ?_, ?_⟩
  · rw [p256ModmulAt, hrun]
    rfl
  · rw [update_self, hval]
  · rw [update_self, hval]
    exact Nat.mod_lt _ hpos
  · intro q hq
    rw [update_of_ne hq]

/-- Squaring `p - 1` in place. -/
theorem p256ModmulAt_square :
    ∃ mem', p256ModmulAt (fun _ => ⟨[-2, -1, -1, 0, 0, 0, 1, -1], rfl⟩) secp256r1P 0 0 0 0 =
        some mem' ∧ (mem' 0).val = 1 := by
  obtain ⟨mem', hrun, hval, -, -⟩ := p256ModmulAt_reduces
    (fun _ => ⟨[-2, -1, -1, 0, 0, 0, 1, -1], rfl⟩) (.inl rfl) 0 0 0 0
  exact ⟨mem', hrun, hval.trans (by decide +kernel)⟩

end AndroidSystem.Mincrypt
