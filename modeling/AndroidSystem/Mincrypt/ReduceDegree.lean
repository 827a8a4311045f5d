import AndroidSystem.Mincrypt.FelemCarry
import Mathlib.Algebra.BigOperators.Intervals
import Mathlib.Algebra.BigOperators.Ring.Finset

/-!
# Montgomery reduction of a product

`felem_reduce_degree` divides by `2 ^ 257`: it adds multiples of `p` until the lowest nine words are
zero, and takes the words above them. Here are its words, and what they stand for.
-/

namespace AndroidSystem.Mincrypt

open List MixedRadix Arith Function Finset

variable {even : Bool} {c p2 p1 x t e : Int} {n j i : Nat} {w : Nat → Int} {A : Arith}
  {ts : List Int}

/-! ## Words of 64 bits -/

/-- Every `u64` is in its range. -/
def InU64 (x : Int) : Prop := 0 ≤ x ∧ x < 2 ^ 64

theorem next_bits (hx : InU64 x) :
    loWord x / 2 ^ (57 - limbWidth even) +
        hiWord x * 2 ^ (limbWidth even - 25) % 2 ^ limbWidth even =
      x / 2 ^ (57 - limbWidth even) % 2 ^ limbWidth even := by
  obtain ⟨h0, h1⟩ := hx
  cases even
  · show x % 2 ^ 32 / 2 ^ 29 + x / 2 ^ 32 % 2 ^ 32 * 2 ^ 3 % 2 ^ 28 = x / 2 ^ 29 % 2 ^ 28
    omega
  · show x % 2 ^ 32 / 2 ^ 28 + x / 2 ^ 32 % 2 ^ 32 * 2 ^ 4 % 2 ^ 29 = x / 2 ^ 28 % 2 ^ 29
    omega

theorem top_bits (hx : InU64 x) : hiWord x / 2 ^ 25 = x / 2 ^ 57 := by
  obtain ⟨h0, h1⟩ := hx
  rw [hiWord]
  omega

theorem last_bits (hx : InU64 x) : loWord x / 2 ^ 29 + hiWord x * 2 ^ 3 = x / 2 ^ 29 := by
  obtain ⟨h0, h1⟩ := hx
  rw [loWord, hiWord]
  omega

theorem loWord_nonneg (x : Int) : 0 ≤ loWord x := Int.emod_nonneg x (by norm_num)

theorem hiWord_nonneg (x : Int) : 0 ≤ hiWord x := Int.emod_nonneg _ (by norm_num)

/-- A mask after a shift leaves only bits of the word. -/
theorem shlMask_eq (hA : A.IsMachine) (x : Int) (k : Nat) {m : Nat} (hm : m ≤ 32) :
    A.shlMask x k m = exact.shlMask x k m := by
  rw [shlMask, hA.wrap_eq]
  exact Int.emod_emod_of_dvd _ (pow_dvd_pow 2 hm)

theorem loWord_mod : loWord x % 2 ^ limbWidth even = x % 2 ^ limbWidth even := by
  cases even <;> exact Int.emod_emod_of_dvd x (by norm_num [limbWidth])

/-- One word, as a sum of the parts of three words and the carry. -/
def spreadSum (even : Bool) (p2 p1 t c : Int) : Int :=
  p2 / 2 ^ 57 + p1 / 2 ^ (57 - limbWidth even) % 2 ^ limbWidth even + t % 2 ^ limbWidth even + c

theorem spreadLoop_exact (h2 : InU64 p2) (h1 : InU64 p1) :
    spreadLoop exact (limbWidths even (n + 1)) p2 p1 c (t :: ts) =
      spreadSum even p2 p1 t c % 2 ^ limbWidth even ::
        spreadLoop exact (limbWidths (!even) n) p1 t
          (spreadSum even p2 p1 t c / 2 ^ limbWidth even) ts := by
  have hsum : hiWord p2 / 2 ^ 25 + loWord p1 / 2 ^ (57 - limbWidth even) +
      hiWord p1 * 2 ^ (limbWidth even - 25) % 2 ^ limbWidth even + loWord t % 2 ^ limbWidth even + c =
      spreadSum even p2 p1 t c := by
    rw [spreadSum, top_bits h2, loWord_mod, ← next_bits h1]
    ring
  simp only [limbWidths, spreadLoop, exact, shlMask, id_eq, hsum]

/-- What the words stand for, with the bits that the two words before have in these places. The parity
is such that the last word is at an odd place. -/
theorem value_spreadLoop {even : Bool} {n : Nat} {p2 p1 c : Int} {ts : List Int}
    (hlen : ts.length = n) (hparity : even = decide (n % 2 = 1)) (h2 : InU64 p2) (h1 : InU64 p1)
    (hts : ∀ t ∈ ts, InU64 t) :
    value (limbWidths even (n + 1)) (spreadLoop exact (limbWidths even n) p2 p1 c ts) =
      value (limbWidths even n) ts + c + p2 / 2 ^ 57 + p1 / 2 ^ (57 - limbWidth even) := by
  induction n generalizing even p2 p1 c ts with
  | zero =>
    obtain rfl := eq_nil_of_length_eq_zero hlen
    obtain rfl : even = false := hparity
    simp only [limbWidths, spreadLoop]
    rw [top_bits h2]
    have hlast := last_bits h1
    show p2 / 2 ^ 57 + loWord p1 / 2 ^ 29 + hiWord p1 * 2 ^ 3 + c + 2 ^ 28 * 0 =
      0 + c + p2 / 2 ^ 57 + p1 / 2 ^ 29
    linarith
  | succ n ih =>
    cases ts with
    | nil => simp at hlen
    | cons t ts =>
      have ht := hts t mem_cons_self
      have hrest := @ih (!even) p1 t (spreadSum even p2 p1 t c / 2 ^ limbWidth even) ts
        (by simpa using hlen) (by rw [hparity]; grind) h1 ht
        fun u hu => hts u (mem_cons_of_mem t hu)
      rw [spreadLoop_exact h2 h1, limbWidths, value, hrest, limbWidths, value]
      have hs := Int.emod_add_mul_ediv (spreadSum even p2 p1 t c) (2 ^ limbWidth even)
      have ht' := Int.emod_add_mul_ediv t (2 ^ limbWidth even)
      have hp := Int.emod_add_mul_ediv (p1 / 2 ^ (57 - limbWidth even)) (2 ^ limbWidth even)
      have hwidth : 57 - limbWidth (!even) = limbWidth even := by cases even <;> rfl
      have hdiv : p1 / 2 ^ (57 - limbWidth even) / 2 ^ limbWidth even = p1 / 2 ^ 57 := by
        rw [Int.ediv_ediv_of_nonneg (by positivity)]
        cases even <;> rfl
      rw [hwidth]
      rw [hdiv] at hp
      rw [spreadSum] at hs ⊢
      linear_combination hs + ht' + hp

theorem spreadSum_bounds {even : Bool} {p2 p1 t c : Int} (h2 : InU64 p2) (hc0 : 0 ≤ c) (hc : c < 8) :
    0 ≤ spreadSum even p2 p1 t c ∧ spreadSum even p2 p1 t c < 2 ^ 31 := by
  obtain ⟨h20, h21⟩ := h2
  cases even
  · show 0 ≤ p2 / 2 ^ 57 + p1 / 2 ^ 29 % 2 ^ 28 + t % 2 ^ 28 + c ∧
      p2 / 2 ^ 57 + p1 / 2 ^ 29 % 2 ^ 28 + t % 2 ^ 28 + c < 2 ^ 31
    omega
  · show 0 ≤ p2 / 2 ^ 57 + p1 / 2 ^ 28 % 2 ^ 29 + t % 2 ^ 29 + c ∧
      p2 / 2 ^ 57 + p1 / 2 ^ 28 % 2 ^ 29 + t % 2 ^ 29 + c < 2 ^ 31
    omega

/-- No sum on the way is larger than the whole one. -/
theorem w32_sums (hA : A.IsMachine) {a b d : Int} (ha : 0 ≤ a) (hb : 0 ≤ b) (hd : 0 ≤ d)
    (he : 0 ≤ e) (hc : 0 ≤ c) (h : a + b + d + e + c < 2 ^ 31) :
    A.w32 (A.w32 (A.w32 (A.w32 (a + b) + d) + e) + c) = a + b + d + e + c := by
  simp (disch := omega) only [hA.w32_eq]

theorem spreadLoop_machine (hA : A.IsMachine) (h2 : InU64 p2) (h1 : InU64 p1) (hc0 : 0 ≤ c)
    (hc : c < 8) :
    spreadLoop A (limbWidths even (n + 1)) p2 p1 c (t :: ts) =
      spreadSum even p2 p1 t c % 2 ^ limbWidth even ::
        spreadLoop A (limbWidths (!even) n) p1 t
          (spreadSum even p2 p1 t c / 2 ^ limbWidth even) ts := by
  obtain ⟨-, hbound⟩ := @spreadSum_bounds even p2 p1 t c h2 hc0 hc
  have hwidth : limbWidth even ≤ 32 := by cases even <;> decide
  have hsum : hiWord p2 / 2 ^ 25 + loWord p1 / 2 ^ (57 - limbWidth even) +
      exact.shlMask (hiWord p1) (limbWidth even - 25) (limbWidth even) +
      loWord t % 2 ^ limbWidth even + c = spreadSum even p2 p1 t c := by
    rw [spreadSum, top_bits h2, loWord_mod, ← next_bits h1]
    show _ + _ + hiWord p1 * _ % _ + _ + c = _
    ring
  have hhi : 0 ≤ hiWord p2 / 2 ^ 25 := Int.ediv_nonneg (hiWord_nonneg p2) (by positivity)
  have hlo : 0 ≤ loWord p1 / 2 ^ (57 - limbWidth even) :=
    Int.ediv_nonneg (loWord_nonneg p1) (by positivity)
  have hshift : 0 ≤ exact.shlMask (hiWord p1) (limbWidth even - 25) (limbWidth even) :=
    Int.emod_nonneg _ (by positivity)
  have hlow : 0 ≤ loWord t % 2 ^ limbWidth even := Int.emod_nonneg _ (by positivity)
  have hwords := w32_sums hA hhi hlo hshift hlow hc0 (hsum.trans_lt hbound)
  simp only [limbWidths, spreadLoop, shlMask_eq hA _ _ hwidth, hwords, hsum]

/-- The words have their widths, and the last one is what is left of a product. -/
theorem spreadLoop_bounds {even : Bool} {n : Nat} {p2 p1 c : Int} {ts : List Int}
    (hlen : ts.length = n) (h2 : InU64 p2) (h1 : InU64 p1) (hts : ∀ t ∈ ts, InU64 t)
    (hlast : ∀ t ∈ (p1 :: ts).getLast?, t < 7 * 2 ^ 58) (hc0 : 0 ≤ c) (hc : c < 8) :
    (∀ A : Arith, A.IsMachine → spreadLoop A (limbWidths even n) p2 p1 c ts =
        spreadLoop exact (limbWidths even n) p2 p1 c ts) ∧
      ∃ ws last, spreadLoop exact (limbWidths even n) p2 p1 c ts = ws ++ [last] ∧
        InWidths 0 (limbWidths even n) ws ∧ 0 ≤ last ∧ last < 7 * 2 ^ 29 + 2 ^ 8 := by
  induction n generalizing even p2 p1 c ts with
  | zero =>
    obtain rfl := eq_nil_of_length_eq_zero hlen
    have hp1 := hlast p1 rfl
    obtain ⟨h20, h21⟩ := h2
    obtain ⟨h10, h11⟩ := h1
    refine ⟨?_, [], _, rfl, List.Forall₂.nil, ?_⟩
    · intro A hA
      simp (disch := omega) only [limbWidths, spreadLoop, exact, shl, id_eq, loWord, hiWord, hA.w32_eq]
    · simp only [exact, shl, id_eq, loWord, hiWord]
      omega
  | succ n ih =>
    cases ts with
    | nil => simp at hlen
    | cons t ts =>
      have ht := hts t mem_cons_self
      obtain ⟨hs0, hs1⟩ := @spreadSum_bounds even p2 p1 t c h2 hc0 hc
      have hpos : (0 : Int) < 2 ^ limbWidth even := by positivity
      have hcarry : spreadSum even p2 p1 t c / 2 ^ limbWidth even < 8 := by
        cases even
        · show _ / 2 ^ 28 < (8 : Int)
          omega
        · show _ / 2 ^ 29 < (8 : Int)
          omega
      obtain ⟨hmachine, ws, last, heq, hfits, hlast0, hlast1⟩ :=
        @ih (!even) p1 t (spreadSum even p2 p1 t c / 2 ^ limbWidth even) ts (by simpa using hlen) h1 ht
          (fun u hu => hts u (mem_cons_of_mem t hu)) hlast (Int.ediv_nonneg hs0 hpos.le) hcarry
      rw [spreadLoop_exact h2 h1]
      refine ⟨fun A hA => by rw [spreadLoop_machine hA h2 h1 hc0 hc, hmachine A hA],
        spreadSum even p2 p1 t c % 2 ^ limbWidth even :: ws, last, by rw [heq]; rfl, ?_,
        hlast0, hlast1⟩
      exact .cons ⟨Int.emod_nonneg _ hpos.ne', Int.emod_lt_of_pos _ hpos⟩ hfits

/-! ## The value of the words -/

/-- The first bit of word `j`. -/
def startBit (j : Nat) : Nat := 57 * (j / 2) + 29 * (j % 2)

/-- What the 18 words stand for. -/
def wordsValue (w : Nat → Int) : Int := ∑ j ∈ Finset.range 18, w j * 2 ^ startBit j

/-- The first bit of the `j`th digit after one of the given parity. -/
def offsetBit (even : Bool) (j : Nat) : Nat := if even then startBit j else startBit (j + 1) - 29

theorem offsetBit_succ (even : Bool) (j : Nat) :
    offsetBit even (j + 1) = limbWidth even + offsetBit (!even) j := by
  cases even <;> simp only [offsetBit, limbWidth, startBit, Bool.not_false, Bool.not_true, if_true,
    Bool.false_eq_true, if_false] <;> omega

theorem value_limbWidths {ds : List Int} (h : ds.length = n) :
    value (limbWidths even n) ds = ∑ j ∈ range n, ds.getD j 0 * 2 ^ offsetBit even j := by
  induction n generalizing even ds with
  | zero => rfl
  | succ n ih =>
    cases ds with
    | nil => simp at h
    | cons d ds =>
      rw [limbWidths, value, ih (by simpa using h), Finset.sum_range_succ', mul_sum, add_comm]
      have hzero : offsetBit even 0 = 0 := by cases even <;> rfl
      refine congrArg₂ _ (sum_congr rfl ?_) (by rw [hzero, pow_zero, mul_one]; rfl)
      intro j _
      rw [offsetBit_succ, pow_add, mul_left_comm]
      rfl

theorem wordsValue_update {v : Int} (hj : j < 18) :
    wordsValue (update w j v) = wordsValue w + (v - w j) * 2 ^ startBit j := by
  have hmem : j ∈ Finset.range 18 := Finset.mem_range.2 hj
  rw [wordsValue, wordsValue, ← add_sum_erase _ _ hmem, ← add_sum_erase _ _ hmem,
    update_self]
  have hrest : ∑ x ∈ (Finset.range 18).erase j, update w j v x * 2 ^ startBit x =
      ∑ x ∈ (Finset.range 18).erase j, w x * 2 ^ startBit x := by
    refine sum_congr rfl ?_
    intro x hx
    rw [update_of_ne (ne_of_mem_erase hx)]
  rw [hrest]
  ring

theorem wordsValue_addAt (hj : j < 18) :
    wordsValue (exact.addAt w j e) = wordsValue w + e * 2 ^ startBit j := by
  rw [addAt, wordsValue_update hj]
  simp [exact]

theorem startBit_add (hi : i % 2 = 0) (k : Nat) : startBit (i + k) = startBit i + startBit k := by
  rw [startBit, startBit, startBit]
  omega

/-- A shifted word, cut at its width, with what is above the cut. -/
theorem shifted_split (x : Int) (k m n : Nat) (hn : m = k + n) :
    x * 2 ^ k % 2 ^ m + 2 ^ m * (x / 2 ^ n) = x * 2 ^ k := by
  have hpow : (2 : Int) ^ m = 2 ^ k * 2 ^ n := by rw [hn, pow_add]
  have hdiv : x * 2 ^ k / 2 ^ m = x / 2 ^ n := by
    rw [hpow, mul_comm x, Int.mul_ediv_mul_of_pos _ _ (by positivity)]
  rw [← hdiv]
  exact Int.emod_add_mul_ediv _ _

theorem addAt_of_ne {l : Nat} (h : l ≠ j) : A.addAt w j e l = w l :=
  update_of_ne h _ _

theorem two_pow_startBit_nine : (2 : Int) ^ startBit 9 = 2 ^ 228 * 2 ^ 29 := (pow_add 2 228 29)

theorem two_pow_startBit_ten : (2 : Int) ^ startBit 10 = 2 ^ 228 * 2 ^ 57 := (pow_add 2 228 57)

theorem wordsValue_eliminateTop (hi : i % 2 = 0) (hi8 : i ≤ 8) :
    wordsValue (eliminateTop exact i w) = wordsValue w + w i % 2 ^ 29 * fieldP * 2 ^ startBit i := by
  have hx : exact.addAt w (i + 1) (w i / 2 ^ 29) i = w i := addAt_of_ne (by omega)
  have hy := Int.emod_add_mul_ediv (w i) (2 ^ 29)
  simp only [eliminateTop]
  repeat rw [wordsValue_addAt (by omega)]
  rw [wordsValue_update (by omega), wordsValue_addAt (by omega), hx]
  generalize w i = y at hy
  generalize y % 2 ^ 29 = x at hy
  generalize y / 2 ^ 29 = z at hy
  have h10 := shifted_split x 10 28 18 rfl
  have h21 := shifted_split x 21 29 8 rfl
  have h24 := shifted_split x 24 28 4 rfl
  have h28 := shifted_split x 28 29 1 rfl
  rw [pow_one] at h28
  simp only [startBit_add hi, pow_add, two_pow_startBit_nine, exact, shlMask, id_eq, masked, fieldP]
  generalize (2 : Int) ^ startBit i = place
  simp only [startBit]
  split_ifs with hzero
  · simp only [hzero] at hy ⊢
    linear_combination place * hy
  · linear_combination place *
      (hy + 2 ^ 86 * h10 + 2 ^ 171 * h21 - 2 ^ 200 * h24 + 2 ^ 228 * h28)

theorem wordsValue_eliminateBottom (hi : i % 2 = 0) (hi6 : i ≤ 6) :
    wordsValue (eliminateBottom exact i w) =
      wordsValue w + w (i + 1) % 2 ^ 28 * fieldP * 2 ^ startBit (i + 1) := by
  have hx : exact.addAt w (i + 2) (w (i + 1) / 2 ^ 28) (i + 1) = w (i + 1) := addAt_of_ne (by omega)
  have hy := Int.emod_add_mul_ediv (w (i + 1)) (2 ^ 28)
  simp only [eliminateBottom]
  repeat rw [wordsValue_addAt (by omega)]
  rw [wordsValue_update (by omega), wordsValue_addAt (by omega), hx]
  generalize w (i + 1) = y at hy
  generalize y % 2 ^ 28 = x at hy
  generalize y / 2 ^ 28 = z at hy
  have h11 := shifted_split x 11 29 18 rfl
  have h21 := shifted_split x 21 28 7 rfl
  have h25 := shifted_split x 25 29 4 rfl
  simp only [startBit_add hi, pow_add, two_pow_startBit_nine, two_pow_startBit_ten, exact, shlMask, id_eq,
    masked, fieldP]
  generalize (2 : Int) ^ startBit i = place
  simp only [startBit]
  split_ifs with hzero
  · simp only [hzero] at hy ⊢
    linear_combination 2 ^ 29 * place * hy
  · linear_combination place *
      (2 ^ 29 * hy + 2 ^ 114 * h11 + 2 ^ 200 * h21 - 2 ^ 228 * h25)

end AndroidSystem.Mincrypt
