import AndroidSystem.Mincrypt.P256

/-!
# 256-bit integers as numbers

What each routine on eight digits does to the number the digits stand for. The modular routines are
proved from these statements and never look at digits again, except for the product, which moves a
window of eight digits over a longer number.
-/

namespace AndroidSystem.Mincrypt

open List Words P256Int

section

variable {MOD a b x y : P256Int} {c : List UInt32} {top mask : UInt32}

theorem value_lt_eight (hc : c.length = 8) : value c < 2 ^ 256 := by
  have hlt := value_lt c
  rwa [hc] at hlt

theorem P256Int.val_lt (x : P256Int) : x.val < 2 ^ 256 := value_lt_eight x.length_a

theorem P256Int.a_ofDigits (h : c.length = 8) : (ofDigits c).a = c := by
  apply ext_getElem
  · simp [ofDigits, h]
  · intro i hi hi'
    simp [ofDigits, hi']

theorem P256Int.val_ofDigits (h : c.length = 8) : (ofDigits c).val = value c := by
  rw [val, a_ofDigits h]

/-! ## Running sums -/

theorem length_mulAdd (hc : c.length = 8) (d : UInt32) : (mulAdd a d top c).2.length = 8 := by
  simp [mulAdd, hc, a.length_a]

/-- The sum leaves at most one digit on top. -/
theorem value_mulAdd (hc : c.length = 8) (d : UInt32) :
    value (mulAdd a d 0 c).2 + 2 ^ 256 * (mulAdd a d 0 c).1.toNat = value c + d.toNat * a.val := by
  obtain ⟨k, hk, hcarry, hvalue⟩ := carryLoop_add
    (f := fun c a => (c.toNat : Int) + a.toNat * d.toNat)
    (by intro w v; ring) d.toNat_lt (hc.trans a.length_a.symm)
  have htop : (mulAdd a d 0 c).1.toNat = k := by
    show (0 + UInt32.ofInt (carryLoop ddigit 0 _).2).toNat = k
    rw [UInt32.zero_add, show (carryLoop ddigit 0 _).2 = (k : Int) from hcarry]
    have := toNat_ofInt k
    omega
  rw [htop]
  rw [hc] at hvalue
  exact hvalue

theorem length_subM : c.length = 8 → (subM MOD top c mask).2.length = 8 := by
  intro hc
  simp [subM, hc, MOD.length_a]

section

variable {k : Nat} (hk : k ≤ 1) (hmask : ∀ m : UInt32, (m &&& mask).toNat = k * m.toNat)
  (hc : c.length = 8)
include hk hmask hc

/-- A difference by the modulus or by nothing, as the mask says; `d` is what is borrowed. -/
theorem value_subM :
    ∃ d : Nat, d ≤ 1 ∧ (subM MOD top c mask).1 = top + UInt32.ofInt (-d) ∧
      value (subM MOD top c mask).2 + k * MOD.val = value c + 2 ^ 256 * d := by
  obtain ⟨d, hd, hborrow, hvalue⟩ := carryLoop_sub
    (f := fun c m => (c.toNat : Int) - (m &&& mask).toNat)
    (by intro w v; rw [hmask]; push_cast; rfl) hk (hc.trans MOD.length_a.symm)
  refine ⟨d, hd, ?_, ?_⟩
  · show top + UInt32.ofInt (carryLoop sddigit 0 _).2 = _
    rw [show (carryLoop sddigit 0 _).2 = -(d : Int) from hborrow]
  · rw [hc] at hvalue
    exact hvalue

/-- A sum with the modulus or with nothing, as the mask says; `d` is what is carried. -/
theorem value_addM :
    (addM MOD top c mask).2.length = 8 ∧
      ∃ d : Nat, value (addM MOD top c mask).2 + 2 ^ 256 * d = value c + k * MOD.val := by
  obtain ⟨d, hd, -, hvalue⟩ := carryLoop_add
    (f := fun c m => (c.toNat : Int) + (m &&& mask).toNat)
    (by intro w v; rw [hmask]; push_cast; rfl) (by omega) (hc.trans MOD.length_a.symm)
  refine ⟨by simp [addM, hc, MOD.length_a], d, ?_⟩
  rw [hc] at hvalue
  exact hvalue

end

theorem mask_zero (m : UInt32) : (m &&& 0).toNat = 0 * m.toNat := by simp

theorem mask_ones (m : UInt32) : (m &&& -1).toNat = 1 * m.toNat := by simp

/-! ## Sums and differences -/

theorem sub_digits {w v : List UInt32} (hw : w.length = 8) (hv : v.length = 8)
    {r : List UInt32 × Int}
    (hr : carryLoop sddigit 0 (w.zipWith (fun a b => (a.toNat : Int) - b.toNat) v) = r) :
    ∃ d : Nat, d ≤ 1 ∧ r.2 = -(d : Int) ∧ r.1.length = 8 ∧
      value r.1 + value v = value w + 2 ^ 256 * d := by
  obtain ⟨d, hd, hborrow, hvalue⟩ := carryLoop_sub
    (f := fun a b => (a.toNat : Int) - b.toNat)
    (by intro w v; push_cast; ring) le_rfl (hw.trans hv.symm)
  rw [hw, one_mul] at hvalue
  subst hr
  exact ⟨d, hd, hborrow, by simp [hw, hv], hvalue⟩

theorem p256Sub_cases (a b : P256Int) :
    (p256Sub a b).1 = 0 ∧ (p256Sub a b).2.val + b.val = a.val ∨
      (p256Sub a b).1 = -1 ∧ (p256Sub a b).2.val + b.val = a.val + 2 ^ 256 := by
  obtain ⟨d, hd, hborrow, hlen, hvalue⟩ := sub_digits a.length_a b.length_a rfl
  have hval : (p256Sub a b).2.val + b.val = a.val + 2 ^ 256 * d := by
    rw [p256Sub, val_ofDigits hlen]
    exact hvalue
  have hret : (p256Sub a b).1 = i32 (-d) := by
    show i32 (carryLoop sddigit 0 _).2 = _
    rw [hborrow]
  obtain rfl | rfl : d = 0 ∨ d = 1 := by omega
  · exact .inl ⟨hret, by omega⟩
  · exact .inr ⟨hret, by omega⟩

theorem p256Add_cases (a b : P256Int) :
    (p256Add a b).1 = 0 ∧ (p256Add a b).2.val = a.val + b.val ∨
      (p256Add a b).1 = 1 ∧ (p256Add a b).2.val + 2 ^ 256 = a.val + b.val := by
  obtain ⟨d, hd, hcarry, hvalue⟩ := carryLoop_add
    (f := fun a b => (a.toNat : Int) + b.toNat) (k := 1)
    (by intro w v; push_cast; ring) (by omega) (a.length_a.trans b.length_a.symm)
  have hlen : (carryLoop ddigit 0
      (a.a.zipWith (fun a b => (a.toNat : Int) + b.toNat) b.a)).1.length = 8 := by
    simp [a.length_a, b.length_a]
  have hval : (p256Add a b).2.val + 2 ^ 256 * d = a.val + b.val := by
    rw [a.length_a, one_mul] at hvalue
    rw [p256Add, val_ofDigits hlen]
    exact hvalue
  have hret : (p256Add a b).1 = i32 d := by
    show i32 (carryLoop ddigit 0 _).2 = _
    rw [show (carryLoop ddigit 0 _).2 = (d : Int) from hcarry]
  have ha := a.val_lt
  have hb := b.val_lt
  obtain rfl | rfl : d = 0 ∨ d = 1 := by omega
  · exact .inl ⟨hret, by omega⟩
  · exact .inr ⟨hret, by omega⟩

/-! ## Comparison -/

theorem notzero_foldl (l : List UInt32) {z : UInt32} (hz : z = 0 ∨ z = 1) :
    l.foldl (fun notzero digit => notzero ||| if digit ≠ 0 then 1 else 0) z =
      if z = 0 ∧ value l = 0 then 0 else 1 := by
  induction l generalizing z with
  | nil => obtain rfl | rfl := hz <;> simp
  | cons d l ih =>
    have hvalue : value (d :: l) = 0 ↔ d = 0 ∧ value l = 0 := by
      simp [value_eq_zero_iff]
    rw [foldl_cons]
    simp only [hvalue]
    by_cases hd : d = 0
    · rw [ih (by simpa [hd] using hz)]
      simp [hd]
    · rw [ih (by obtain rfl | rfl := hz <;> simp [hd])]
      obtain rfl | rfl := hz <;> simp [hd]

theorem p256Cmp_eq (a b : P256Int) :
    p256Cmp a b = if a.val < b.val then -1 else if a.val = b.val then 0 else 1 := by
  generalize hr : carryLoop sddigit 0 (a.a.zipWith (fun a b => (a.toNat : Int) - b.toNat) b.a) = r
  obtain ⟨d, hd, hborrow, hlen, hvalue⟩ := sub_digits a.length_a b.length_a hr
  have hlt := value_lt_eight hlen
  change value r.1 + b.val = a.val + 2 ^ 256 * d at hvalue
  have hcmp : p256Cmp a b =
      i32 (UInt32.ofInt (-d) ||| if (0 : UInt32) = 0 ∧ value r.1 = 0 then 0 else 1).toNat := by
    rw [← notzero_foldl r.1 (.inl rfl), ← hborrow, ← hr]
    rfl
  rw [hcmp]
  obtain rfl | rfl : d = 0 ∨ d = 1 := by omega
  · rw [if_neg (show ¬ a.val < b.val by omega)]
    by_cases hzero : value r.1 = 0
    · rw [if_pos ⟨rfl, hzero⟩, if_pos (by omega)]
      rfl
    · rw [if_neg fun h => hzero h.2, if_neg (by omega)]
      rfl
  · rw [if_pos (show a.val < b.val by omega)]
    split_ifs <;> rfl

theorem p256Cmp_le_zero_iff : p256Cmp a b ≤ 0 ↔ a.val ≤ b.val := by
  rw [p256Cmp_eq]
  split_ifs <;> omega

theorem p256Cmp_eq_zero_iff : p256Cmp a b = 0 ↔ a.val = b.val := by
  rw [p256Cmp_eq]
  split_ifs with hlt heq
  · exact iff_of_false (by decide) hlt.ne
  · exact iff_of_true rfl heq
  · exact iff_of_false (by decide) heq

/-! ## Bits -/

theorem foldl_or_eq_zero_iff (l : List UInt32) (z : UInt32) :
    l.foldl (· ||| ·) z = 0 ↔ z = 0 ∧ value l = 0 := by
  induction l generalizing z with
  | nil => simp
  | cons d l ih =>
    rw [foldl_cons, ih]
    simp [value_eq_zero_iff, and_assoc]

theorem p256IsZero_iff : p256IsZero a = true ↔ a.val = 0 := by
  unfold p256IsZero val
  rw [decide_eq_true_iff, foldl_or_eq_zero_iff]
  simp

theorem p256IsEven_iff : p256IsEven a = true ↔ a.val % 2 = 0 := by
  obtain ⟨d, l, hd⟩ := exists_cons_of_length_eq_add_one a.length_a
  have hand : (d &&& 1 = 1) ↔ d.toNat % 2 = 1 := by
    rw [← UInt32.toNat_inj]
    show d.toNat &&& 1 = 1 ↔ _
    rw [Nat.and_one_is_mod]
  unfold p256IsEven val
  rw [hd, value_cons, getD_cons_zero]
  simp only [Bool.not_eq_true', decide_eq_false_iff_not, hand]
  omega

/-- The low bit of one word above the upper 31 bits of another. -/
theorem toNat_shr1 (d e : UInt32) :
    (d >>> 1 ||| e <<< 31).toNat = d.toNat / 2 + e.toNat % 2 * 2 ^ 31 := by
  have hd := d.toNat_lt
  have hshl : (e <<< 31).toNat = 2 ^ 31 * (e.toNat % 2) := by
    show e.toNat <<< 31 % 2 ^ 32 = _
    omega
  have hshr : (d >>> 1).toNat = d.toNat / 2 := by
    show d.toNat >>> 1 = _
    rw [Nat.shiftRight_eq_div_pow]
  rw [UInt32.toNat_or, hshl, hshr, Nat.or_comm, ← Nat.two_pow_add_eq_or_of_lt (by omega)]
  omega

@[simp] theorem length_shr1Loop (highbit : UInt32) (l : List UInt32) :
    (shr1Loop highbit l).length = l.length := by
  fun_induction shr1Loop highbit l with
  | case1 => rfl
  | case2 => rfl
  | case3 d e l ih => simp [ih]

theorem value_shr1Loop (highbit : UInt32) (l : List UInt32) (h : l ≠ []) :
    2 * value (shr1Loop highbit l) + value l % 2 =
      value l + highbit.toNat % 2 * 2 ^ (32 * l.length) := by
  fun_induction shr1Loop highbit l with
  | case1 => contradiction
  | case2 d =>
    simp only [value_cons, value_nil, toNat_shr1, length_singleton]
    omega
  | case3 d e l ih =>
    have hrest := ih (cons_ne_nil e l)
    have hlow : value (e :: l) % 2 = e.toNat % 2 := by
      rw [value_cons]
      omega
    rw [value_cons, value_cons d, toNat_shr1, length_cons, mul_add 32, pow_add]
    generalize 2 ^ (32 * (e :: l).length) = m at *
    have hmul : highbit.toNat % 2 * (m * 2 ^ (32 * 1)) = 2 ^ 32 * (highbit.toNat % 2 * m) := by ring
    omega

theorem val_p256Shr1 {h : Nat} (hh : h ≤ 1) (x : P256Int) :
    2 * (p256Shr1 x h).val + x.val % 2 = x.val + h * 2 ^ 256 := by
  have hne : x.a ≠ [] := by
    intro hnil
    have := x.length_a
    simp [hnil] at this
  have hvalue := value_shr1Loop (UInt32.ofInt h) x.a hne
  have hbit := toNat_ofInt h
  rw [x.length_a, show (UInt32.ofInt h).toNat = h by omega,
    Nat.mod_eq_of_lt (show h < 2 by omega)] at hvalue
  rw [p256Shr1, val_ofDigits (by simp [x.length_a])]
  exact hvalue

end

end AndroidSystem.Mincrypt
