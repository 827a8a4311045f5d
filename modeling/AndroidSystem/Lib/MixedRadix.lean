import Mathlib.Data.Int.ModEq
import Mathlib.Data.List.Forall2
import Mathlib.Tactic.Linarith
import Mathlib.Tactic.LinearCombination
import Mathlib.Tactic.Ring

/-!
# Numbers in digits of several widths

A number is given by digits from the lowest to the highest, where the digit at each place has a
number of bits of its own. Digits may be larger than their width or negative; a chain of carries
brings them back to it. `wrap` is what a machine word does to a sum, and `Safe` says that it does
nothing along the chain.
-/

namespace AndroidSystem.MixedRadix

open List

/-- The number that the digits `ds` with the widths `ws` stand for. -/
def value : List Nat → List Int → Int
  | w :: ws, d :: ds => d + 2 ^ w * value ws ds
  | _, _ => 0

/-- Every digit has its width, and `k` bits more. -/
def InWidths (k : Nat) (ws : List Nat) (ds : List Int) : Prop :=
  List.Forall₂ (fun w d => 0 ≤ d ∧ d < 2 ^ (w + k)) ws ds

/-- The carries go from each digit to the next one. The second result is what is left over. -/
def carryChain (wrap : Int → Int) : List Nat → Int → List Int → List Int × Int
  | w :: ws, c, d :: ds =>
    let s := wrap (d + c)
    let rest := carryChain wrap ws (s / 2 ^ w) ds
    (s % 2 ^ w :: rest.1, rest.2)
  | _, c, _ => ([], c)

/-- All digits are multiplied by `2 ^ k` on the way, as far as their width goes, and what is above it
is added to the carry. `shift` is what a machine word does to the product. -/
def scaleChain (shift wrap : Int → Int) (k : Nat) : List Nat → Int → List Int → List Int × Int
  | w :: ws, c, d :: ds =>
    let nextCarry := d / 2 ^ (w - k)
    let s := wrap (shift (d * 2 ^ k) % 2 ^ w + c)
    let rest := scaleChain shift wrap k ws (wrap (nextCarry + s / 2 ^ w)) ds
    (s % 2 ^ w :: rest.1, rest.2)
  | _, c, _ => ([], c)

/-- All sums along the chain are in a word of `B` values. -/
def Safe (B : Int) : List Nat → Int → List Int → Prop
  | w :: ws, c, d :: ds => (0 ≤ d + c ∧ d + c < B) ∧ Safe B ws ((d + c) / 2 ^ w) ds
  | _, _, _ => True

variable {ws : List Nat} {ds ds' : List Int} {c B m : Int} {k : Nat}

/-! ## Numbers -/

theorem value_zipWith_add (hds : ws.length = ds.length) (hds' : ws.length = ds'.length) :
    value ws (ds.zipWith (· + ·) ds') = value ws ds + value ws ds' := by
  induction ws generalizing ds ds' with
  | nil => rfl
  | cons w ws ih =>
    cases ds with
    | nil => simp at hds
    | cons d ds =>
      cases ds' with
      | nil => simp at hds'
      | cons d' ds' =>
        simp only [zipWith_cons_cons, value,
          ih (by simpa using hds) (by simpa using hds')]
        ring

theorem value_map_mul (ws : List Nat) (ds : List Int) (a : Int) :
    value ws (ds.map (· * a)) = value ws ds * a := by
  induction ws generalizing ds with
  | nil => simp [value]
  | cons w ws ih =>
    cases ds with
    | nil => simp [value]
    | cons d ds =>
      simp only [map_cons, value, ih]
      ring

theorem InWidths.getD (h : InWidths k ws ds) (j : Nat) :
    0 ≤ ds.getD j 0 ∧ ds.getD j 0 < 2 ^ (ws.getD j 0 + k) := by
  induction h generalizing j with
  | nil => simp
  | cons hd _ ih =>
    cases j with
    | zero => exact hd
    | succ j => exact ih j

/-! ## Exact chains -/

theorem value_carryChain (h : ws.length = ds.length) :
    value ws (carryChain id ws c ds).1 + 2 ^ ws.sum * (carryChain id ws c ds).2 =
      value ws ds + c := by
  induction ws generalizing c ds with
  | nil =>
    simp [carryChain, value]
  | cons w ws ih =>
    cases ds with
    | nil => simp at h
    | cons d ds =>
      have hrest := ih (c := (d + c) / 2 ^ w) (by simpa using h)
      have hsplit := Int.emod_add_mul_ediv (d + c) (2 ^ w)
      simp only [carryChain, id_eq, value, sum_cons]
      linear_combination (2 ^ w) * hrest + hsplit

theorem carryChain_concat {w : Nat} {d : Int} (h : ws.length = ds.length) :
    (carryChain id (ws ++ [w]) c (ds ++ [d])).2 = (d + (carryChain id ws c ds).2) / 2 ^ w := by
  induction ws generalizing c ds with
  | nil =>
    obtain rfl := eq_nil_of_length_eq_zero h.symm
    rfl
  | cons w' ws ih =>
    cases ds with
    | nil => simp at h
    | cons d' ds => exact ih (by simpa using h)

theorem inWidths_carryChain (h : ws.length = ds.length) :
    InWidths 0 ws (carryChain id ws c ds).1 := by
  induction ws generalizing c ds with
  | nil => exact List.Forall₂.nil
  | cons w ws ih =>
    cases ds with
    | nil => simp at h
    | cons d ds =>
      have hpos : (0 : Int) < 2 ^ w := by positivity
      exact .cons ⟨Int.emod_nonneg _ hpos.ne', Int.emod_lt_of_pos _ hpos⟩
        (ih (by simpa using h))

/-- Scaling on the way is the same as scaling first. -/
theorem scaleChain_id (hws : ∀ w ∈ ws, k ≤ w) :
    scaleChain id id k ws c ds = carryChain id ws c (ds.map (· * 2 ^ k)) := by
  induction ws generalizing c ds with
  | nil => rfl
  | cons w ws ih =>
    cases ds with
    | nil => rfl
    | cons d ds =>
      have hpow : (2 : Int) ^ w = 2 ^ k * 2 ^ (w - k) := by
        rw [← pow_add, Nat.add_sub_cancel' (hws w mem_cons_self)]
      have hnext : d * 2 ^ k / 2 ^ w = d / 2 ^ (w - k) := by
        rw [hpow, mul_comm d, Int.mul_ediv_mul_of_pos _ _ (by positivity)]
      have hlow : (d * 2 ^ k % 2 ^ w + c) % 2 ^ w = (d * 2 ^ k + c) % 2 ^ w := by
        rw [Int.emod_add_emod]
      have hhigh : d / 2 ^ (w - k) + (d * 2 ^ k % 2 ^ w + c) / 2 ^ w = (d * 2 ^ k + c) / 2 ^ w := by
        have hsplit := Int.emod_add_mul_ediv (d * 2 ^ k) (2 ^ w)
        have hsum : d * 2 ^ k + c = d * 2 ^ k % 2 ^ w + c + 2 ^ w * (d * 2 ^ k / 2 ^ w) := by
          linear_combination -hsplit
        rw [hsum, Int.add_mul_ediv_left _ _ (by positivity), hnext, add_comm]
      simp only [scaleChain, id_eq, map_cons, carryChain, hlow, hhigh]
      rw [ih fun w' hw' => hws w' (mem_cons_of_mem w hw')]

/-! ## Carries that stay small -/

theorem ediv_le {s : Int} {w : Nat} (h : s < 2 ^ w * (m + 1)) : s / 2 ^ w ≤ m :=
  Int.lt_add_one_iff.1 (Int.ediv_lt_of_lt_mul (by positivity) (by linarith))

/-- If no digit is more than about `m + 1` times its base, no carry is more than `m`. -/
theorem carryChain_le
    (h : List.Forall₂ (fun w d => 0 ≤ d ∧ d + m < 2 ^ w * (m + 1)) ws ds) (hc0 : 0 ≤ c) (hcm : c ≤ m) :
    0 ≤ (carryChain id ws c ds).2 ∧ (carryChain id ws c ds).2 ≤ m := by
  induction h generalizing c with
  | nil => exact ⟨hc0, hcm⟩
  | @cons w d ws ds hd _ ih =>
    have hpos : (0 : Int) < 2 ^ w := by positivity
    refine ih (Int.ediv_nonneg (add_nonneg hd.1 hc0) hpos.le) ?_
    exact ediv_le (by linarith [hd.2] : d + c < 2 ^ w * (m + 1))

theorem safe_of_le
    (h : List.Forall₂ (fun w d => (0 ≤ d ∧ d + m < 2 ^ w * (m + 1)) ∧ d + m < B) ws ds)
    (hc0 : 0 ≤ c) (hcm : c ≤ m) : Safe B ws c ds := by
  induction h generalizing c with
  | nil => trivial
  | @cons w d ws ds hd _ ih =>
    have hpos : (0 : Int) < 2 ^ w := by positivity
    obtain ⟨⟨hd0, hdm⟩, hdB⟩ := hd
    refine ⟨⟨add_nonneg hd0 hc0, by linarith⟩, ih (Int.ediv_nonneg (add_nonneg hd0 hc0) hpos.le) ?_⟩
    exact ediv_le (by linarith)

/-- The last carry of a safe chain is what is above the last width in a word. -/
theorem Safe.carry {w : Nat} (h : Safe B (ws ++ [w]) c ds) (hlen : ws.length + 1 = ds.length) :
    0 ≤ (carryChain id (ws ++ [w]) c ds).2 ∧ (carryChain id (ws ++ [w]) c ds).2 * 2 ^ w < B := by
  induction ws generalizing c ds with
  | nil =>
    cases ds with
    | nil => simp at hlen
    | cons d ds =>
      obtain ⟨⟨h0, hB⟩, -⟩ := h
      have hpos : (0 : Int) < 2 ^ w := by positivity
      exact ⟨Int.ediv_nonneg h0 hpos.le, (Int.ediv_mul_le _ hpos.ne').trans_lt hB⟩
  | cons w' ws ih =>
    cases ds with
    | nil => simp at hlen
    | cons d ds => exact ih h.2 (by simpa using hlen)

/-! ## Chains of machine words -/

/-- A chain of words gives what the exact chain gives, and its digits need to be known only up to
multiples of the size of a word. -/
theorem carryChain_wrap (hds : List.Forall₂ (fun d' d => d' ≡ d [ZMOD B]) ds' ds)
    (h : Safe B ws c ds) : carryChain (· % B) ws c ds' = carryChain id ws c ds := by
  induction hds generalizing ws c with
  | nil => cases ws <;> rfl
  | @cons d' d ds' ds hd _ ih =>
    cases ws with
    | nil => rfl
    | cons w ws =>
      obtain ⟨⟨h0, hB⟩, hrest⟩ := h
      have hsum : (d' + c) % B = d + c := by
        rw [(hd.add_right c : _ % B = _ % B), Int.emod_eq_of_lt h0 hB]
      simp only [carryChain, hsum, id_eq, ih hrest]

/-- A chain of words that hold the sums along it. -/
theorem carryChain_of_safe {wrap : Int → Int} (hwrap : ∀ x, 0 ≤ x → x < B → wrap x = x)
    (h : Safe B ws c ds) : carryChain wrap ws c ds = carryChain id ws c ds := by
  induction ws generalizing c ds with
  | nil => rfl
  | cons w ws ih =>
    cases ds with
    | nil => rfl
    | cons d ds =>
      obtain ⟨⟨h0, hB⟩, hrest⟩ := h
      simp only [carryChain, hwrap _ h0 hB, id_eq, ih hrest]

theorem scaleChain_wrap {B : Int} {wrap : Int → Int} (hwrap : ∀ x, 0 ≤ x → x < B → wrap x = x)
    (hB : ∀ w ∈ ws, (2 : Int) ^ w ∣ B)
    (h : List.Forall₂ (fun w d => (0 ≤ d ∧ d * 2 ^ k + m < 2 ^ w * (m + 1)) ∧ 2 ^ w + m < B ∧ k ≤ w)
      ws ds) (hc0 : 0 ≤ c) (hcm : c ≤ m) :
    scaleChain (· % B) wrap k ws c ds = scaleChain id id k ws c ds := by
  induction h generalizing c with
  | nil => rfl
  | @cons w d ws ds hd _ ih =>
    have hpos : (0 : Int) < 2 ^ w := by positivity
    obtain ⟨⟨hd0, hdm⟩, hlarge, hk⟩ := hd
    have hlow0 := Int.emod_nonneg (d * 2 ^ k) hpos.ne'
    have hlow1 := Int.emod_lt_of_pos (d * 2 ^ k) hpos
    have hmod : d * 2 ^ k % B % 2 ^ w = d * 2 ^ k % 2 ^ w :=
      Int.emod_emod_of_dvd _ (hB w mem_cons_self)
    have hsum : wrap (d * 2 ^ k % 2 ^ w + c) = d * 2 ^ k % 2 ^ w + c :=
      hwrap _ (by linarith) (by linarith)
    -- the carry is that of the whole scaled digit
    have hone := @scaleChain_id [w] [d] c k (by simpa using hk)
    have hcarry : d / 2 ^ (w - k) + (d * 2 ^ k % 2 ^ w + c) / 2 ^ w = (d * 2 ^ k + c) / 2 ^ w := by
      simpa [scaleChain, carryChain] using congrArg Prod.snd hone
    have hscaled : 0 ≤ d * 2 ^ k := by positivity
    have hnext0 : 0 ≤ (d * 2 ^ k + c) / 2 ^ w := Int.ediv_nonneg (by linarith) hpos.le
    have hnext1 : (d * 2 ^ k + c) / 2 ^ w ≤ m := ediv_le (by linarith)
    have hnext : wrap ((d * 2 ^ k + c) / 2 ^ w) = (d * 2 ^ k + c) / 2 ^ w :=
      hwrap _ hnext0 (by linarith)
    simp only [scaleChain, id_eq, hmod, hsum, hcarry, hnext]
    rw [ih (fun w' hw' => hB w' (mem_cons_of_mem w hw')) hnext0 hnext1]

end AndroidSystem.MixedRadix
