import AndroidSystem.Lib.Words
import Mathlib.Data.Nat.ModEq

/-!
# RSA exponentiation

`modpow` computes `a ^ exponent mod n` with Montgomery products. A product is built up word by word
(`montMulAdd_spec`): the sum has one bit more than the modulus, and when that bit is set the modulus is
subtracted, which is enough because the sum is below `2 ^ 2048 + n`. So between steps numbers are below
`2 ^ 2048` and not below `n`, and one subtraction at the end reduces the result.

The model works for any number of words. The two running sums of the word loop are held in variables
of 64 bits, `u64`, and never reach that limit (`montLoop_exact`).
-/

namespace AndroidSystem.Mincrypt

open List Words

/-! ## The source -/

/-- `RSAPublicKey`. The arrays are the words that `len` covers. -/
structure RsaPublicKey where
  n0inv : UInt32
  n : List UInt32
  rr : List UInt32
  exponent : Int
  length_rr : rr.length = n.length

namespace RsaPublicKey

/-- `a[] -= mod`. -/
def subM (key : RsaPublicKey) (a : List UInt32) : List UInt32 :=
  (carryLoop i64 0 (a.zipWith (fun a n => a.toNat - n.toNat) key.n)).1

/-- The comparison of `geM`, from the highest word down. -/
def geLoop : List UInt32 → List UInt32 → Bool
  | a :: as, n :: ns => if a < n then false else if a > n then true else geLoop as ns
  | _, _ => true

/-- `a[] >= mod`. -/
def geM (key : RsaPublicKey) (a : List UInt32) : Bool := geLoop a.reverse key.n.reverse

/-- The loop of `montMulAdd` over the words from the second on: the words it stores, and the two
running sums. -/
def montLoop (wrap : Nat → Nat) (a d0 : UInt32) :
    Nat → Nat → List UInt32 → List UInt32 → List UInt32 → List UInt32 × Nat × Nat
  | A, B, b :: bs, c :: cs, n :: ns =>
    let A := wrap (A / 2 ^ 32 + a.toNat * b.toNat + c.toNat)
    let B := wrap (B / 2 ^ 32 + d0.toNat * n.toNat + A % 2 ^ 32)
    let r := montLoop wrap a d0 A B bs cs ns
    (UInt32.ofNat B :: r.1, r.2)
  | A, B, _, _, _ => ([], A, B)

/-- `c[] += a * b[] / R % mod`, with sums in variables that keep `wrap` of them. -/
def montMulAddWith (wrap : Nat → Nat) (key : RsaPublicKey) (c : List UInt32) (a : UInt32)
    (b : List UInt32) : List UInt32 :=
  let A := wrap (a.toNat * (b.getD 0 0).toNat + (c.getD 0 0).toNat)
  let d0 := UInt32.ofNat A * key.n0inv
  let B := wrap (d0.toNat * (key.n.getD 0 0).toNat + A % 2 ^ 32)
  let r := montLoop wrap a d0 A B b.tail c.tail key.n.tail
  let A := wrap (r.2.1 / 2 ^ 32 + r.2.2 / 2 ^ 32)
  let c := r.1 ++ [UInt32.ofNat A]
  if A / 2 ^ 32 ≠ 0 then key.subM c else c

/-- Montgomery `c[] += a * b[] / R % mod`. -/
def montMulAdd (key : RsaPublicKey) (c : List UInt32) (a : UInt32) (b : List UInt32) :
    List UInt32 := montMulAddWith u64 key c a b

def montMulLoop (key : RsaPublicKey) (b : List UInt32) : List UInt32 → List UInt32 → List UInt32
  | [], c => c
  | a :: as, c => montMulLoop key b as (key.montMulAdd c a b)

section

variable (key : RsaPublicKey)

/-- Montgomery `c[] = a[] * b[] / R % mod`. -/
def montMul (a b : List UInt32) : List UInt32 :=
  montMulLoop key b a (List.replicate key.n.length 0)

/-- Two squarings, as the loop for the exponent 65537 does them. -/
def squareTwice (aR : List UInt32) : List UInt32 :=
  let aaR := key.montMul aR aR
  key.montMul aaR aaR

/-- The power before the last subtraction; no other exponent is supported. -/
def power (a : List UInt32) : Option (List UInt32) :=
  if key.exponent = 65537 then
    let aR := key.montMul a key.rr
    let aR := (List.range 8).foldl (fun aR _ => key.squareTwice aR) aR
    some (key.montMul aR a)
  else if key.exponent = 3 then
    let aR := key.montMul a key.rr
    let aaR := key.montMul aR aR
    some (key.montMul aaR a)
  else none

/-- In-place public exponentiation of a big-endian byte array. -/
def modpow (inout : List UInt8) : Option (List UInt8) := do
  let len := key.n.length
  let a := (List.range len).map fun i => beWord inout (4 * (len - 1 - i))
  let aaa ← key.power a
  let aaa := if key.geM aaa then key.subM aaa else aaa
  some (aaa.reverse.flatMap beBytes)

end

/-! ## Words -/

section

variable {key : RsaPublicKey} {a d0 : UInt32} {bs cs ns ws vs : List UInt32} {A B : Nat}

theorem mul_toNat_le (a b : UInt32) : a.toNat * b.toNat ≤ (2 ^ 32 - 1) * (2 ^ 32 - 1) :=
  Nat.mul_le_mul (Nat.le_pred_of_lt a.toNat_lt) (Nat.le_pred_of_lt b.toNat_lt)

theorem montLoop_exact (hA : A < 2 ^ 64) (hB : B < 2 ^ 64) :
    montLoop u64 a d0 A B bs cs ns = montLoop id a d0 A B bs cs ns := by
  induction bs generalizing A B cs ns with
  | nil => rfl
  | cons b bs ih =>
    cases cs with
    | nil => rfl
    | cons c cs =>
      cases ns with
      | nil => rfl
      | cons n ns =>
        have hc := c.toNat_lt
        have hab := mul_toNat_le a b
        have hdn := mul_toNat_le d0 n
        have hA' : u64 (A / 2 ^ 32 + a.toNat * b.toNat + c.toNat) =
            A / 2 ^ 32 + a.toNat * b.toNat + c.toNat := u64_of_lt (by omega)
        have hB' : ∀ x, u64 (B / 2 ^ 32 + d0.toNat * n.toNat + x % 2 ^ 32) =
            B / 2 ^ 32 + d0.toNat * n.toNat + x % 2 ^ 32 := fun x => u64_of_lt (by omega)
        simp only [montLoop, id_eq, hA', hB']
        rw [ih (by omega) (by omega)]

theorem value_montLoop {r : List UInt32 × Nat × Nat} (hr : montLoop id a d0 A B bs cs ns = r)
    (hbc : bs.length = cs.length) (hbn : bs.length = ns.length) :
    r.1.length = bs.length ∧
      value r.1 + 2 ^ (32 * bs.length) * (r.2.1 / 2 ^ 32 + r.2.2 / 2 ^ 32) =
        A / 2 ^ 32 + B / 2 ^ 32 + a.toNat * value bs + value cs + d0.toNat * value ns := by
  induction bs generalizing A B cs ns r with
  | nil =>
    obtain rfl := length_eq_zero_iff.1 hbc.symm
    obtain rfl := length_eq_zero_iff.1 hbn.symm
    simp [← hr, montLoop]
  | cons b bs ih =>
    obtain ⟨c, cs, rfl⟩ := exists_cons_of_length_eq_add_one hbc.symm
    obtain ⟨n, ns, rfl⟩ := exists_cons_of_length_eq_add_one hbn.symm
    simp only [montLoop, id_eq] at hr
    generalize hA' : A / 2 ^ 32 + a.toNat * b.toNat + c.toNat = A' at *
    generalize hB' : B / 2 ^ 32 + d0.toNat * n.toNat + A' % 2 ^ 32 = B' at *
    obtain ⟨hlen, hvalue⟩ := ih rfl (by simpa using hbc) (by simpa using hbn)
    generalize montLoop id a d0 A' B' bs cs ns = r' at *
    subst hr
    refine ⟨by simp [hlen], ?_⟩
    have hlow : (UInt32.ofNat B').toNat = B' % 2 ^ 32 := UInt32.toNat_ofNat'
    have hsplitA := Nat.mod_add_div A' (2 ^ 32)
    have hsplitB := Nat.mod_add_div B' (2 ^ 32)
    rw [value_cons, value_cons, value_cons, value_cons, hlow, length_cons, mul_add 32, pow_add]
    linear_combination 2 ^ 32 * hvalue + hsplitB + hB'.symm + hsplitA + hA'.symm

theorem length_subM (h : ws.length = key.n.length) : (key.subM ws).length = key.n.length := by
  simp [subM, h]

/-- A difference that does not become negative, or one that does and has a higher bit to take from. -/
theorem value_subM (h : ws.length = key.n.length) {k : Nat}
    (hlo : value key.n ≤ value ws + 2 ^ (32 * key.n.length) * k)
    (hhi : value ws + 2 ^ (32 * key.n.length) * k < value key.n + 2 ^ (32 * key.n.length)) :
    value (key.subM ws) + value key.n = value ws + 2 ^ (32 * key.n.length) * k := by
  obtain ⟨d, hd, -, hvalue⟩ := carryLoop_sub
    (f := fun a n => (a.toNat : Int) - n.toNat)
    (by intro w v; push_cast; ring) le_rfl h
  change value (key.subM ws) + 1 * value key.n = _ at hvalue
  have hlt := value_lt (key.subM ws)
  rw [length_subM h] at hlt
  rw [h, one_mul] at hvalue
  generalize 2 ^ (32 * key.n.length) = M at *
  -- both differences lie in one interval of length `M`
  have hdk : d = k := by
    obtain hlt' | rfl | hgt := lt_trichotomy d k
    · have : M * d + M ≤ M * k := Nat.mul_le_mul_left M hlt'
      omega
    · rfl
    · have : M * k + M ≤ M * d := Nat.mul_le_mul_left M hgt
      omega
  rw [hvalue, hdk]

theorem geLoop_iff (h : ws.length = vs.length) :
    geLoop ws vs = true ↔ value vs.reverse ≤ value ws.reverse := by
  induction ws generalizing vs with
  | nil =>
    obtain rfl := length_eq_zero_iff.1 h.symm
    simp [geLoop]
  | cons w ws ih =>
    obtain ⟨v, vs, rfl⟩ := exists_cons_of_length_eq_add_one h.symm
    have hlen : ws.length = vs.length := by simpa using h
    have hw := value_lt ws.reverse
    have hv := value_lt vs.reverse
    rw [length_reverse] at hw hv
    rw [reverse_cons, reverse_cons, value_append, value_append, value_singleton,
      value_singleton, length_reverse, length_reverse, ← hlen, geLoop]
    rw [← hlen] at hv
    generalize 2 ^ (32 * ws.length) = M at *
    obtain hlt | heq | hgt := lt_trichotomy w.toNat v.toNat
    · have : M * w.toNat + M ≤ M * v.toNat := Nat.mul_le_mul_left M hlt
      rw [if_pos (UInt32.lt_iff_toNat_lt.2 hlt)]
      refine iff_of_false (by simp) ?_
      omega
    · obtain rfl := UInt32.toNat_inj.1 heq
      rw [if_neg (by simp), if_neg (by simp), ih hlen]
      omega
    · have : M * v.toNat + M ≤ M * w.toNat := Nat.mul_le_mul_left M hgt
      rw [if_neg (by rw [UInt32.lt_iff_toNat_lt]; omega), if_pos (UInt32.lt_iff_toNat_lt.2 hgt)]
      refine iff_of_true rfl ?_
      omega

theorem geM_iff (h : ws.length = key.n.length) : key.geM ws = true ↔ value key.n ≤ value ws := by
  rw [geM, geLoop_iff (by simp [h]), reverse_reverse, reverse_reverse]

/-! ## One Montgomery step -/

/-- The first running sum of a step fits, and so does the second. -/
theorem first_lt (a b c : UInt32) (x : Nat) :
    a.toNat * b.toNat + c.toNat < 2 ^ 64 ∧ a.toNat * b.toNat + x % 2 ^ 32 < 2 ^ 64 := by
  have hc := c.toNat_lt
  have hab := mul_toNat_le a b
  omega

theorem montLoop_lt (hA : A < 2 ^ 64) (hB : B < 2 ^ 64) :
    (montLoop u64 a d0 A B bs cs ns).2.1 < 2 ^ 64 ∧ (montLoop u64 a d0 A B bs cs ns).2.2 < 2 ^ 64 := by
  induction bs generalizing A B cs ns with
  | nil => exact ⟨hA, hB⟩
  | cons b bs ih =>
    cases cs with
    | nil => exact ⟨hA, hB⟩
    | cons c cs =>
      cases ns with
      | nil => exact ⟨hA, hB⟩
      | cons n ns =>
        exact ih (Nat.mod_lt _ (by decide)) (Nat.mod_lt _ (by decide))

/-- No carry is lost in a Montgomery step: sums of any size give the same words. -/
theorem montMulAdd_exact (key : RsaPublicKey) (c : List UInt32) (a : UInt32) (b : List UInt32) :
    key.montMulAdd c a b = montMulAddWith id key c a b := by
  have hA := (first_lt a (b.getD 0 0) (c.getD 0 0) 0).1
  unfold montMulAdd montMulAddWith
  dsimp only [id_eq]
  rw [u64_of_lt hA]
  generalize a.toNat * (b.getD 0 0).toNat + (c.getD 0 0).toNat = A at *
  have hB := (first_lt (UInt32.ofNat A * key.n0inv) (key.n.getD 0 0) 0 A).2
  rw [u64_of_lt hB]
  generalize (UInt32.ofNat A * key.n0inv).toNat * (key.n.getD 0 0).toNat + A % 2 ^ 32 = B at *
  have hlast : (montLoop u64 a (UInt32.ofNat A * key.n0inv) A B b.tail c.tail key.n.tail).2.1 <
        2 ^ 64 ∧
      (montLoop u64 a (UInt32.ofNat A * key.n0inv) A B b.tail c.tail key.n.tail).2.2 < 2 ^ 64 :=
    montLoop_lt hA hB
  rw [montLoop_exact hA hB] at *
  rw [u64_of_lt (by omega)]

theorem modEq_of_add_mul {x y m : Nat} (j k : Nat) (h : x + j * m = y + k * m) :
    x ≡ y [MOD m] := by
  have hx : x + j * m ≡ x [MOD m] := Nat.add_mul_modulus_modEq_iff.2 rfl
  rw [h] at hx
  exact hx.symm.trans (Nat.add_mul_modulus_modEq_iff.2 rfl)

section

variable (hinv : key.n0inv.toNat * value key.n % 2 ^ 32 = 2 ^ 32 - 1)
include hinv

/-- A step divides the sum by a word. What it leaves has the same length as the modulus again. -/
theorem montMulAdd_spec (hcs : cs.length = key.n.length) (hbs : bs.length = key.n.length) :
    (key.montMulAdd cs a bs).length = key.n.length ∧
      value (key.montMulAdd cs a bs) * 2 ^ 32 ≡ value cs + a.toNat * value bs [MOD value key.n] := by
  obtain ⟨n, ns, hn⟩ : ∃ n ns, key.n = n :: ns := by
    cases hn : key.n with
    | nil =>
      rw [hn] at hinv
      simp at hinv
    | cons n ns => exact ⟨n, ns, rfl⟩
  obtain ⟨b, bs, rfl⟩ := exists_cons_of_length_eq_add_one (hbs.trans (by rw [hn]; rfl))
  obtain ⟨c, cs, rfl⟩ := exists_cons_of_length_eq_add_one (hcs.trans (by rw [hn]; rfl))
  have hlen : key.n.length = bs.length + 1 := by rw [← hbs]; rfl
  have hbc : bs.length = cs.length := by
    have := hcs.trans hbs.symm
    simpa using this.symm
  have hbn : bs.length = ns.length := by
    rw [hn] at hlen
    simpa using hlen.symm
  rw [montMulAdd_exact, montMulAddWith]
  simp only [id_eq, getD_cons_zero, tail_cons, show key.n.getD 0 0 = n by rw [hn]; rfl,
    show key.n.tail = ns by rw [hn]; rfl]
  generalize hA : a.toNat * b.toNat + c.toNat = A
  generalize hd : UInt32.ofNat A * key.n0inv = d0
  generalize hB : d0.toNat * n.toNat + A % 2 ^ 32 = B
  -- the lowest word of the sum is zero
  have hzero : B % 2 ^ 32 = 0 := by
    have hdvd : 2 ^ 32 ∣ key.n0inv.toNat * n.toNat + 1 := by
      have hlow : key.n0inv.toNat * value key.n =
          key.n0inv.toNat * n.toNat + 2 ^ 32 * (key.n0inv.toNat * value ns) := by
        rw [hn, value_cons]
        ring
      omega
    have hd0 : d0.toNat ≡ A % 2 ^ 32 * key.n0inv.toNat [MOD 2 ^ 32] := by
      rw [← hd]
      exact Nat.mod_modEq _ _
    have hsum : B ≡ 0 [MOD 2 ^ 32] := by
      calc B = d0.toNat * n.toNat + A % 2 ^ 32 := hB.symm
        _ ≡ A % 2 ^ 32 * key.n0inv.toNat * n.toNat + A % 2 ^ 32 [MOD 2 ^ 32] :=
          (hd0.mul_right _).add_right _
        _ = A % 2 ^ 32 * (key.n0inv.toNat * n.toNat + 1) := by ring
        _ ≡ 0 [MOD 2 ^ 32] := Nat.modEq_zero_iff_dvd.2 (Dvd.dvd.mul_left hdvd _)
    exact hsum
  generalize hr : montLoop id a d0 A B bs cs ns = r
  obtain ⟨hwlen, hvalue⟩ := value_montLoop hr hbc hbn
  generalize r.2.1 / 2 ^ 32 + r.2.2 / 2 ^ 32 = top at *
  -- the whole sum, before it is divided
  have hsum : 2 ^ 32 * (value r.1 + 2 ^ (32 * bs.length) * top) =
      value (c :: cs) + a.toNat * value (b :: bs) + d0.toNat * value key.n := by
    have hsplitA := Nat.mod_add_div A (2 ^ 32)
    have hsplitB := Nat.mod_add_div B (2 ^ 32)
    rw [hzero] at hsplitB
    rw [hn, value_cons, value_cons, value_cons]
    linear_combination 2 ^ 32 * hvalue + hsplitB + hB.symm + hsplitA + hA.symm
  have hM : (2 : Nat) ^ (32 * key.n.length) = 2 ^ (32 * bs.length) * 2 ^ 32 := by
    rw [hlen, mul_add, pow_add]
  have hwords : value (r.1 ++ [UInt32.ofNat top]) + 2 ^ (32 * key.n.length) * (top / 2 ^ 32) =
      value r.1 + 2 ^ (32 * bs.length) * top := by
    have hlow : (UInt32.ofNat top).toNat = top % 2 ^ 32 := UInt32.toNat_ofNat'
    have hsplit := Nat.mod_add_div top (2 ^ 32)
    rw [value_append, value_singleton, hwlen, hlow, hM]
    linear_combination 2 ^ (32 * bs.length) * hsplit
  have hclen : (r.1 ++ [UInt32.ofNat top]).length = key.n.length := by
    rw [length_append, hwlen, length_singleton, hlen]
  rw [← hwords] at hsum
  by_cases hover : top / 2 ^ 32 ≠ 0
  · -- the sum is below `2 ^ (32 * len) + n`, so one subtraction makes it fit
    have hc := value_lt (c :: cs)
    have hb := value_lt (b :: bs)
    have hnlt := value_lt key.n
    rw [hcs] at hc
    rw [hbs] at hb
    generalize hMdef : 2 ^ (32 * key.n.length) = M at hc hb hnlt hsum
    have hab : a.toNat * value (b :: bs) ≤ (2 ^ 32 - 1) * (M - 1) :=
      Nat.mul_le_mul (by have := a.toNat_lt; omega) (by omega)
    have hdn : d0.toNat * value key.n ≤ (2 ^ 32 - 1) * value key.n :=
      Nat.mul_le_mul_right _ (by have := d0.toNat_lt; omega)
    have hMk : M * 1 ≤ M * (top / 2 ^ 32) := Nat.mul_le_mul_left M (by omega)
    have hsub := value_subM hclen (k := top / 2 ^ 32) (by rw [hMdef]; omega) (by rw [hMdef]; omega)
    rw [hMdef] at hsub
    rw [if_pos hover]
    refine ⟨length_subM hclen, modEq_of_add_mul (2 ^ 32) d0.toNat ?_⟩
    rw [← hsum, ← hsub]
    ring
  · rw [if_neg hover]
    rw [not_not.1 hover] at hsum
    refine ⟨hclen, modEq_of_add_mul 0 d0.toNat ?_⟩
    rw [← hsum]
    ring

/-! ## Products -/

theorem montMulLoop_spec (as : List UInt32) (hcs : cs.length = key.n.length)
    (hbs : bs.length = key.n.length) :
    (key.montMulLoop bs as cs).length = key.n.length ∧
      value (key.montMulLoop bs as cs) * 2 ^ (32 * as.length) ≡
        value cs + value as * value bs [MOD value key.n] := by
  induction as generalizing cs with
  | nil => exact ⟨hcs, by simpa [montMulLoop] using Nat.ModEq.refl _⟩
  | cons a as ih =>
    obtain ⟨hlen, hstep⟩ := montMulAdd_spec hinv hcs hbs
    obtain ⟨hlen', hrest⟩ := ih hlen
    refine ⟨hlen', ?_⟩
    calc value (key.montMulLoop bs as (key.montMulAdd cs a bs)) * 2 ^ (32 * (a :: as).length)
        = value (key.montMulLoop bs as (key.montMulAdd cs a bs)) * 2 ^ (32 * as.length) *
            2 ^ 32 := by
          rw [length_cons]
          ring
      _ ≡ (value (key.montMulAdd cs a bs) + value as * value bs) * 2 ^ 32 [MOD value key.n] :=
          hrest.mul_right _
      _ = value (key.montMulAdd cs a bs) * 2 ^ 32 + 2 ^ 32 * (value as * value bs) := by ring
      _ ≡ value cs + a.toNat * value bs + 2 ^ 32 * (value as * value bs) [MOD value key.n] :=
          hstep.add_right _
      _ = value cs + value (a :: as) * value bs := by
          rw [value_cons]
          ring

/-- Words of the length of the modulus that stand for `v * R`. -/
def Represents (key : RsaPublicKey) (ws : List UInt32) (v : Nat) : Prop :=
  ws.length = key.n.length ∧ value ws ≡ v * 2 ^ (32 * key.n.length) [MOD value key.n]

/-- A factor `R` can be cancelled, because the modulus is odd. -/
theorem cancel_radix {x y : Nat}
    (h : x * 2 ^ (32 * key.n.length) ≡ y * 2 ^ (32 * key.n.length) [MOD value key.n]) :
    x ≡ y [MOD value key.n] := by
  have hodd : value key.n % 2 = 1 := by
    have hmod : key.n0inv.toNat * value key.n % 2 = 1 := by omega
    by_contra heven
    rw [Nat.mul_mod, show value key.n % 2 = 0 by omega, mul_zero] at hmod
    exact absurd hmod (by decide)
  have hgcd : Nat.gcd (value key.n) (2 ^ (32 * key.n.length)) = 1 := by
    apply Nat.Coprime.pow_right
    rw [Nat.coprime_comm]
    show Nat.gcd 2 (value key.n) = 1
    rw [Nat.gcd_rec, hodd]
    rfl
  exact h.cancel_right_of_coprime hgcd

theorem length_montMul (as : List UInt32) (hbs : bs.length = key.n.length) :
    (key.montMul as bs).length = key.n.length :=
  (montMulLoop_spec hinv as (length_replicate) hbs).1

theorem montMul_spec {v : Nat} (hws : ws.length = key.n.length) (hbs : bs.length = key.n.length)
    (h : value ws * value bs ≡ v * 2 ^ (32 * key.n.length) [MOD value key.n]) :
    value (key.montMul ws bs) ≡ v [MOD value key.n] := by
  have hmul := (montMulLoop_spec hinv ws (length_replicate (a := 0)) hbs).2
  rw [value_replicate_zero, zero_add, hws] at hmul
  exact cancel_radix hinv (hmul.trans h)

/-- Multiplying by `R ^ 2` brings a number into the representation. -/
theorem Represents.enter (hrr : value key.rr = 2 ^ (64 * key.n.length) % value key.n)
    (hws : ws.length = key.n.length) : Represents key (key.montMul ws key.rr) (value ws) := by
  refine ⟨length_montMul hinv ws key.length_rr, montMul_spec hinv hws key.length_rr ?_⟩
  rw [hrr, mul_assoc, ← pow_add, ← add_mul]
  exact (Nat.mod_modEq _ _).mul_left _

section

variable {v : Nat} (h : Represents key ws v)
include h

theorem Represents.square : Represents key (key.montMul ws ws) (v ^ 2) := by
  refine ⟨length_montMul hinv ws h.1, montMul_spec hinv h.1 h.1 ?_⟩
  calc value ws * value ws
      ≡ v * 2 ^ (32 * key.n.length) * (v * 2 ^ (32 * key.n.length)) [MOD value key.n] := h.2.mul h.2
    _ = v ^ 2 * 2 ^ (32 * key.n.length) * 2 ^ (32 * key.n.length) := by ring

theorem Represents.squares (k : Nat) :
    Represents key ((range k).foldl (fun aR _ => key.squareTwice aR) ws) (v ^ 4 ^ k) := by
  induction k with
  | zero => simpa using h
  | succ k ih =>
    rw [range_succ, foldl_append]
    have htwice := (ih.square hinv).square hinv
    rwa [← pow_mul, ← pow_mul, ← pow_succ] at htwice

/-- Multiplying by a number leaves the representation. -/
theorem Represents.leave (hvs : vs.length = key.n.length) :
    value (key.montMul ws vs) ≡ v * value vs [MOD value key.n] := by
  apply montMul_spec hinv h.1 hvs
  calc value ws * value vs
      ≡ v * 2 ^ (32 * key.n.length) * value vs [MOD value key.n] := h.2.mul_right _
    _ = v * value vs * 2 ^ (32 * key.n.length) := by ring

end

theorem power_spec (hrr : value key.rr = 2 ^ (64 * key.n.length) % value key.n)
    (he : key.exponent = 3 ∨ key.exponent = 65537) (hws : ws.length = key.n.length) :
    ∃ r, key.power ws = some r ∧ r.length = key.n.length ∧
      value r ≡ value ws ^ key.exponent.toNat [MOD value key.n] := by
  have hstart := Represents.enter hinv hrr hws
  obtain he | he := he
  · have hpow : value ws ^ key.exponent.toNat = value ws ^ 2 * value ws := by
      rw [he]
      exact pow_succ _ 2
    rw [hpow]
    refine ⟨_, ?_, ?_, (hstart.square hinv).leave hinv hws⟩
    · rw [power, if_neg (by rw [he]; decide), if_pos he]
    · exact length_montMul hinv _ hws
  · have hpow : value ws ^ key.exponent.toNat = value ws ^ 4 ^ 8 * value ws := by
      rw [he]
      exact Nat.pow_succ _ (4 ^ 8)
    rw [hpow]
    refine ⟨_, ?_, ?_, (hstart.squares hinv 8).leave hinv hws⟩
    · rw [power, if_pos he]
    · exact length_montMul hinv _ hws

end

/-! ## Bytes -/

theorem unbe_words (ws : List UInt32) : unbe (ws.reverse.flatMap beBytes) = value ws := by
  induction ws with
  | nil => rfl
  | cons w ws ih =>
    rw [reverse_cons, flatMap_append, unbe_append, ih, value_cons, flatMap_cons,
      flatMap_nil, append_nil, unbe_beBytes]
    show value ws * 256 ^ 4 + w.toNat = _
    ring

theorem length_flatMap_beBytes (ws : List UInt32) :
    (ws.flatMap beBytes).length = 4 * ws.length := by
  induction ws with
  | nil => rfl
  | cons w ws ih =>
    rw [flatMap_cons, length_append, ih, length_cons]
    show 4 + 4 * ws.length = _
    omega

end

/-- A key is what its description says: the constants belong to the modulus, which is odd and fills
its 64 words. -/
structure WellFormed (key : RsaPublicKey) : Prop where
  length_n : key.n.length = 64
  odd : value key.n % 2 = 1
  large : 2 ^ 2047 < value key.n
  n0inv_mul : key.n0inv.toNat * value key.n % 2 ^ 32 = 2 ^ 32 - 1
  rr_eq : value key.rr = 2 ^ 4096 % value key.n
  exponent_eq : key.exponent = 3 ∨ key.exponent = 65537

/-- For every input `modpow` leaves the encoding of the reduced power, and no step loses a carry. -/
theorem modpow_correct (key : RsaPublicKey) (hkey : key.WellFormed) (inout : List UInt8)
    (hin : inout.length = 256) :
    (∃ out, key.modpow inout = some out ∧ out.length = 256 ∧
      unbe out = unbe inout ^ key.exponent.toNat % value key.n) ∧
    ∀ c a b, key.montMulAdd c a b = montMulAddWith id key c a b := by
  refine ⟨?_, montMulAdd_exact key⟩
  have hlen := hkey.length_n
  have hwords : value ((range key.n.length).map fun i =>
      beWord inout (4 * (key.n.length - 1 - i))) = unbe inout :=
    value_beWords (by rw [hlen, hin])
  obtain ⟨r, hpower, hrlen, hmod⟩ := power_spec hkey.n0inv_mul
    (by rw [hkey.rr_eq, hlen]) hkey.exponent_eq
    (show ((range key.n.length).map fun i =>
      beWord inout (4 * (key.n.length - 1 - i))).length = key.n.length by simp)
  rw [hwords] at hmod
  have hrlt := value_lt r
  rw [hrlen, hlen] at hrlt
  have hlarge := hkey.large
  obtain ⟨s, hs, hslen, hsval⟩ : ∃ s, (if key.geM r then key.subM r else r) = s ∧
      s.length = key.n.length ∧ value s = unbe inout ^ key.exponent.toNat % value key.n := by
    by_cases hge : key.geM r = true
    · have hle := (geM_iff hrlen).1 hge
      have hsub := value_subM hrlen (k := 0) (by omega) (by rw [hlen]; omega)
      refine ⟨key.subM r, by rw [if_pos hge], length_subM hrlen, ?_⟩
      rw [← hmod, Nat.mod_eq_sub_mod hle, Nat.mod_eq_of_lt (by omega)]
      omega
    · have hlt : value r < value key.n := by
        rw [geM_iff hrlen] at hge
        omega
      refine ⟨r, by rw [if_neg hge], hrlen, ?_⟩
      rw [← hmod, Nat.mod_eq_of_lt hlt]
  refine ⟨s.reverse.flatMap beBytes, ?_, ?_, ?_⟩
  · rw [modpow]
    simp only [hpower, Option.bind_eq_bind, Option.bind_some, hs]
  · rw [length_flatMap_beBytes, length_reverse, hslen, hlen]
  · rw [unbe_words, hsval]

/-- The modulus `2 ^ 2048 - 1`, and an input that is not reduced. -/
theorem modpow_unreduced :
    ∃ out, modpow ⟨1, replicate 64 (-1), 1 :: replicate 63 0, 3, rfl⟩
        (replicate 256 0xff) = some out ∧ unbe out = 0 := by
  have hkey : WellFormed ⟨1, replicate 64 (-1), 1 :: replicate 63 0, 3, rfl⟩ :=
    ⟨rfl, by decide +kernel, by decide +kernel, by decide +kernel, by decide +kernel, .inl rfl⟩
  obtain ⟨out, hrun, -, hval⟩ := (modpow_correct _ hkey (replicate 256 0xff) length_replicate).1
  exact ⟨out, hrun, hval.trans (by decide +kernel)⟩

end RsaPublicKey

end AndroidSystem.Mincrypt
