import AndroidSystem.Lib.LittleEndian
import AndroidSystem.Lib.Machine
import Mathlib.Data.List.GetD
import Mathlib.Tactic.LinearCombination

/-!
# Numbers kept as 32-bit words

A long number is a list of 32-bit words, least significant first, and `Words.value` is the number the
list stands for. Sums, differences and products by a word are computed in one pass that keeps a
running sum in a wider variable, stores its low word and shifts the rest to the next place
(`carryLoop`). As long as no running sum leaves the variable (`Keeps`), the words and the last carry
together are the sum of the columns (`carryLoop_spec`).
-/

namespace AndroidSystem.Words

open List

/-- The number that words stand for, least significant first. -/
def value : List UInt32 → Nat
  | [] => 0
  | w :: ws => w.toNat + 2 ^ 32 * value ws

section

variable {ws vs : List UInt32} {n : Nat}

@[simp] theorem value_nil : value [] = 0 := rfl

theorem value_cons (w : UInt32) (ws : List UInt32) :
    value (w :: ws) = w.toNat + 2 ^ 32 * value ws := rfl

@[simp] theorem value_singleton (w : UInt32) : value [w] = w.toNat := rfl

theorem value_append (ws vs : List UInt32) :
    value (ws ++ vs) = value ws + 2 ^ (32 * ws.length) * value vs := by
  induction ws with
  | nil => simp
  | cons w ws ih =>
    rw [cons_append, value_cons, value_cons, ih, length_cons]
    ring

theorem value_lt (ws : List UInt32) : value ws < 2 ^ (32 * ws.length) := by
  induction ws with
  | nil => simp
  | cons w ws ih =>
    have hw := w.toNat_lt
    rw [value_cons, length_cons, mul_add, pow_add]
    omega

@[simp] theorem value_replicate_zero (n : Nat) : value (replicate n 0) = 0 := by
  induction n with
  | zero => rfl
  | succ n ih => simp [replicate_succ, value_cons, ih]

theorem value_eq_zero_iff : value ws = 0 ↔ ∀ w ∈ ws, w = 0 := by
  induction ws with
  | nil => simp
  | cons w ws ih =>
    rw [value_cons, forall_mem_cons, ← ih, ← UInt32.toNat_inj]
    simp

end

/-! ## Words from bytes -/

/-- The word whose bytes stand at `offset`, most significant first. -/
def beWord (src : List UInt8) (offset : Nat) : UInt32 :=
  (src.getD offset 0).toUInt32 <<< 24 ||| (src.getD (offset + 1) 0).toUInt32 <<< 16 |||
    (src.getD (offset + 2) 0).toUInt32 <<< 8 ||| (src.getD (offset + 3) 0).toUInt32

/-- The bytes of a word, most significant first. -/
def beBytes (w : UInt32) : List UInt8 :=
  [(w >>> 24).toUInt8, (w >>> 16).toUInt8, (w >>> 8).toUInt8, (w >>> 0).toUInt8]

theorem toNat_shiftRight_toUInt8 (w : UInt32) {k : UInt32} {m : Nat} (hk : k.toNat = m)
    (hm : m < 32) : (w >>> k).toUInt8.toNat = w.toNat / 2 ^ m % 2 ^ 8 := by
  rw [UInt32.toNat_toUInt8, UInt32.toNat_shiftRight, hk, Nat.mod_eq_of_lt hm,
    Nat.shiftRight_eq_div_pow]

theorem unbe_beBytes (w : UInt32) : unbe (beBytes w) = w.toNat := by
  have hw := w.toNat_lt
  simp only [beBytes, unbe, length_cons, length_nil]
  rw [toNat_shiftRight_toUInt8 w (m := 24) rfl (by decide),
    toNat_shiftRight_toUInt8 w (m := 16) rfl (by decide),
    toNat_shiftRight_toUInt8 w (m := 8) rfl (by decide),
    toNat_shiftRight_toUInt8 w (m := 0) rfl (by decide)]
  omega

theorem toNat_bytes (b0 b1 b2 b3 : UInt8) :
    (b0.toUInt32 <<< 24 ||| b1.toUInt32 <<< 16 ||| b2.toUInt32 <<< 8 ||| b3.toUInt32).toNat =
      b0.toNat * 2 ^ 24 + b1.toNat * 2 ^ 16 + b2.toNat * 2 ^ 8 + b3.toNat := by
  have h1 := b1.toNat_lt
  have h2 := b2.toNat_lt
  have h3 := b3.toNat_lt
  have hshift : ∀ (b : UInt8) (k : UInt32) (n : Nat), k.toNat = n → n ≤ 24 →
      (b.toUInt32 <<< k).toNat = 2 ^ n * b.toNat := by
    intro b k n hk hn
    have hb := b.toNat_lt
    have hmul : 2 ^ n * b.toNat < 2 ^ 32 := by
      calc 2 ^ n * b.toNat ≤ 2 ^ 24 * b.toNat :=
            Nat.mul_le_mul_right _ (Nat.pow_le_pow_right (by decide) hn)
        _ < 2 ^ 32 := by omega
    rw [UInt32.toNat_shiftLeft, hk, UInt8.toNat_toUInt32, Nat.mod_eq_of_lt (show n < 32 by omega),
      Nat.shiftLeft_eq, mul_comm, Nat.mod_eq_of_lt hmul]
  rw [UInt32.toNat_or, UInt32.toNat_or, UInt32.toNat_or, hshift b0 24 24 rfl (by omega),
    hshift b1 16 16 rfl (by omega), hshift b2 8 8 rfl (by omega), UInt8.toNat_toUInt32,
    ← Nat.two_pow_add_eq_or_of_lt (by omega)]
  rw [show 2 ^ 24 * b0.toNat + 2 ^ 16 * b1.toNat = 2 ^ 16 * (2 ^ 8 * b0.toNat + b1.toNat) by ring,
    ← Nat.two_pow_add_eq_or_of_lt (by omega)]
  rw [show 2 ^ 16 * (2 ^ 8 * b0.toNat + b1.toNat) + 2 ^ 8 * b2.toNat =
      2 ^ 8 * (2 ^ 16 * b0.toNat + 2 ^ 8 * b1.toNat + b2.toNat) by ring,
      ← Nat.two_pow_add_eq_or_of_lt (by omega)]
  ring

/-- The words of a big-endian string, the last one first, stand for its number. -/
theorem value_beWords {n : Nat} {src : List UInt8} (h : src.length = 4 * n) :
    value ((range n).map fun i => beWord src (4 * (n - 1 - i))) = unbe src := by
  induction n generalizing src with
  | zero =>
    obtain rfl := length_eq_zero_iff.1 h
    rfl
  | succ n ih =>
    obtain ⟨b0, src, rfl⟩ := exists_cons_of_length_eq_add_one
      (h.trans (show 4 * (n + 1) = 4 * n + 3 + 1 by omega))
    obtain ⟨b1, src, rfl⟩ := exists_cons_of_length_eq_add_one
      (show src.length = 4 * n + 2 + 1 by simp at h; omega)
    obtain ⟨b2, src, rfl⟩ := exists_cons_of_length_eq_add_one
      (show src.length = 4 * n + 1 + 1 by simp at h; omega)
    obtain ⟨b3, src, rfl⟩ := exists_cons_of_length_eq_add_one
      (show src.length = 4 * n + 1 by simp at h; omega)
    have hlen : src.length = 4 * n := by simp at h; omega
    have hlower : (range n).map (fun i => beWord (b0 :: b1 :: b2 :: b3 :: src)
        (4 * (n + 1 - 1 - i))) = (range n).map fun i => beWord src (4 * (n - 1 - i)) := by
      apply map_congr_left
      intro i hi
      rw [mem_range] at hi
      rw [show 4 * (n + 1 - 1 - i) = 4 * (n - 1 - i) + 4 by omega]
      rfl
    have htop : (beWord (b0 :: b1 :: b2 :: b3 :: src) 0).toNat = _ := toNat_bytes b0 b1 b2 b3
    rw [range_succ, map_append, hlower, map_singleton, value_append, ih hlen,
      value_cons, value_nil, show 4 * (n + 1 - 1 - n) = 0 by omega, htop]
    simp only [unbe, length_cons, length_map, length_range, hlen]
    rw [show (2 : Nat) ^ (32 * n) = 256 ^ (4 * n) by
      rw [show 32 * n = 8 * (4 * n) by ring, pow_mul]
      rfl]
    ring

/-! ## The sum of columns -/

/-- The sum of columns, each a place higher than the one before it. -/
def columns : List Int → Int
  | [] => 0
  | t :: ts => t + 2 ^ 32 * columns ts

section

variable {f : UInt32 → UInt32 → Int} {ws vs : List UInt32}

/-- Columns that are a combination of two numbers' words. -/
theorem columns_zipWith {a b : Int} (h : ∀ w v, f w v = a * w.toNat + b * v.toNat)
    (hlen : ws.length = vs.length) :
    columns (zipWith f ws vs) = a * value ws + b * value vs := by
  induction ws generalizing vs with
  | nil =>
    obtain rfl := length_eq_zero_iff.1 hlen.symm
    simp [columns]
  | cons w ws ih =>
    obtain ⟨v, vs, rfl⟩ := exists_cons_of_length_eq_add_one hlen.symm
    rw [zipWith_cons_cons, columns, h, ih (by simpa using hlen), value_cons, value_cons]
    push_cast
    ring

end

/-! ## Passing on the carry -/

/-- One pass over the columns: the running sum is held in a variable that keeps `wrap` of it, its low
word is stored and its high part is carried to the next column. -/
def carryLoop (wrap : Int → Int) : Int → List Int → List UInt32 × Int
  | carry, [] => ([], carry)
  | carry, t :: ts =>
    let sum := wrap (carry + t)
    let rest := carryLoop wrap (sum >>> (32 : Nat)) ts
    (UInt32.ofInt sum :: rest.1, rest.2)

/-- The variable holds the running sum of a carry and a column, and what is carried on is again such
a carry. -/
def Keeps (wrap : Int → Int) (carry term : Int → Prop) : Prop :=
  ∀ c t, carry c → term t → wrap (c + t) = c + t ∧ carry ((c + t) / 2 ^ 32)

theorem toNat_ofInt (x : Int) : ((UInt32.ofInt x).toNat : Int) = x % 2 ^ 32 := by
  have hofNat : (UInt32.ofInt x).toNat = (x % 2 ^ 32).toNat % 2 ^ 32 := UInt32.toNat_ofNat'
  omega

section

variable {wrap : Int → Int} {carry term : Int → Prop}

@[simp] theorem length_carryLoop (c : Int) (ts : List Int) :
    (carryLoop wrap c ts).1.length = ts.length := by
  induction ts generalizing c with
  | nil => rfl
  | cons t ts ih => simp [carryLoop, ih]

/-- Nothing is lost: the stored words and the last carry are the sum of the columns. -/
theorem carryLoop_spec (h : Keeps wrap carry term) {c : Int} (hc : carry c) {ts : List Int}
    (hts : ∀ t ∈ ts, term t) :
    (value (carryLoop wrap c ts).1 : Int) + 2 ^ (32 * ts.length) * (carryLoop wrap c ts).2 =
        c + columns ts ∧
      carry (carryLoop wrap c ts).2 := by
  induction ts generalizing c with
  | nil => exact ⟨by simp [carryLoop, columns], hc⟩
  | cons t ts ih =>
    obtain ⟨hsum, hnext⟩ := h c t hc (hts t mem_cons_self)
    obtain ⟨hvalue, hlast⟩ := ih hnext fun u hu => hts u (mem_cons_of_mem t hu)
    have hsplit := Int.emod_add_mul_ediv (c + t) (2 ^ 32)
    have hshift : (c + t) >>> (32 : Nat) = (c + t) / 2 ^ 32 := Int.shiftRight_eq_div_pow _ _
    simp only [carryLoop, hsum, hshift]
    refine ⟨?_, hlast⟩
    rw [value_cons, columns, length_cons, Nat.cast_add, toNat_ofInt, Nat.cast_mul]
    linear_combination (2 ^ 32 : Int) * hvalue + hsplit

end

/-- A sum in an `uint64_t` of a column that leaves room for a carry of 32 bits. -/
theorem keeps_unsigned : Keeps (fun x => (u64OfInt x : Int)) (fun c => 0 ≤ c ∧ c < 2 ^ 32)
    (fun t => 0 ≤ t ∧ t ≤ 2 ^ 64 - 2 ^ 32) := by
  intro c t hc ht
  show ((((c + t) % 2 ^ 64).toNat : Nat) : Int) = c + t ∧ _
  omega

theorem keeps_signed : Keeps i64 (fun c => c = 0 ∨ c = -1)
    (fun t => -(2 ^ 32) < t ∧ t < 2 ^ 32) := by
  intro c t hc ht
  unfold i64
  split_ifs <;> omega

/-! ## Sums and differences of two numbers -/

section

variable {f : UInt32 → UInt32 → Int} {ws vs : List UInt32} {k : Nat}

theorem forall_mem_zipWith {P : Int → Prop} (hf : ∀ w v, P (f w v)) :
    ∀ t ∈ zipWith f ws vs, P t := by
  intro t ht
  obtain ⟨i, hi, rfl⟩ := mem_iff_getElem.1 ht
  rw [getElem_zipWith]
  exact hf _ _

/-- Adding a multiple of one number to another, in an `uint64_t`. -/
theorem carryLoop_add (hf : ∀ w v, f w v = w.toNat + k * v.toNat) (hk : k < 2 ^ 32)
    (hlen : ws.length = vs.length) :
    ∃ c : Nat, c < 2 ^ 32 ∧
      (carryLoop (fun x => (u64OfInt x : Int)) 0 (zipWith f ws vs)).2 = (c : Int) ∧
      value (carryLoop (fun x => (u64OfInt x : Int)) 0 (zipWith f ws vs)).1 +
        2 ^ (32 * ws.length) * c = value ws + k * value vs := by
  have hterm : ∀ w v, 0 ≤ f w v ∧ f w v ≤ 2 ^ 64 - 2 ^ 32 := by
    intro w v
    have hw := w.toNat_lt
    have hv := v.toNat_lt
    have hmul : k * v.toNat ≤ (2 ^ 32 - 1) * (2 ^ 32 - 1) := Nat.mul_le_mul (by omega) (by omega)
    rw [hf]
    omega
  obtain ⟨hvalue, hc⟩ := carryLoop_spec keeps_unsigned (c := 0) (by decide)
    (forall_mem_zipWith hterm : ∀ t ∈ zipWith f ws vs, _)
  obtain ⟨c, hcr⟩ := Int.eq_ofNat_of_zero_le hc.1
  rw [columns_zipWith (a := 1) (by simpa using hf) hlen, length_zipWith, ← hlen,
    min_self, hcr] at hvalue
  refine ⟨c, by omega, hcr, ?_⟩
  apply Int.ofNat_inj.1
  push_cast
  linarith

/-- Subtracting one number from another, or nothing, in an `int64_t`. -/
theorem carryLoop_sub (hf : ∀ w v, f w v = w.toNat - k * v.toNat) (hk : k ≤ 1)
    (hlen : ws.length = vs.length) :
    ∃ c : Nat, c ≤ 1 ∧ (carryLoop i64 0 (zipWith f ws vs)).2 = -(c : Int) ∧
      value (carryLoop i64 0 (zipWith f ws vs)).1 + k * value vs =
        value ws + 2 ^ (32 * ws.length) * c := by
  have hterm : ∀ w v, -(2 ^ 32) < f w v ∧ f w v < 2 ^ 32 := by
    intro w v
    have hw := w.toNat_lt
    have hv := v.toNat_lt
    have hmul : k * v.toNat ≤ 1 * v.toNat := Nat.mul_le_mul_right _ hk
    rw [hf]
    omega
  obtain ⟨hvalue, hc⟩ := carryLoop_spec keeps_signed (c := 0) (by decide)
    (forall_mem_zipWith hterm : ∀ t ∈ zipWith f ws vs, _)
  generalize hr : carryLoop i64 0 (zipWith f ws vs) = r at *
  rw [columns_zipWith (a := 1) (b := -k) (fun w v => by rw [hf]; ring) hlen, length_zipWith, ← hlen,
    min_self] at hvalue
  refine ⟨(-r.2).toNat, by omega, by omega, ?_⟩
  apply Int.ofNat_inj.1
  push_cast
  rw [Int.toNat_of_nonneg (by omega)]
  linarith

end

end AndroidSystem.Words
