import AndroidSystem.Utils.BasicHashtable
import Mathlib.Data.Nat.Prime.Basic

/-!
# The capacity of a hash table

What `determineCapacity` returns. The number of buckets is a prime and the capacity is between 1 and
the number of buckets; that holds for every load factor because the primes of the table, less one,
are rounded to single precision downwards where they are not exact.

The capacity is meant to be at least `minimumCapacity`. In single precision it is so up to a relative
error of `2⁻²¹` (`determineCapacity_ok`), hence exactly for less than `2 ^ 21` entries. It is not for
19754977 entries and the load factor 0.75 (`determineCapacity_short`).
-/

namespace AndroidSystem.Utils

open List

variable {k d p n : Nat}

/-! ## The table of primes -/

/-- The product of the numbers from `8 * k + 1` to `8 * k + 8`. -/
def block (k : Nat) : Nat :=
  (8 * k + 1) * (8 * k + 2) * (8 * k + 3) * (8 * k + 4) * (8 * k + 5) * (8 * k + 6) * (8 * k + 7) *
    (8 * k + 8)

theorem dvd_block (hlo : 8 * k + 1 ≤ d) (hhi : d ≤ 8 * k + 8) : d ∣ block k := by
  obtain rfl | rfl | rfl | rfl | rfl | rfl | rfl | rfl : d = 8 * k + 1 ∨ d = 8 * k + 2 ∨
      d = 8 * k + 3 ∨ d = 8 * k + 4 ∨ d = 8 * k + 5 ∨ d = 8 * k + 6 ∨ d = 8 * k + 7 ∨
      d = 8 * k + 8 := by omega
  all_goals repeat first
    | exact dvd_mul_left _ _
    | exact dvd_mul_right _ _
    | apply Nat.dvd_mul_right_of_dvd

/-- No number from 2 to `8 * k` divides `p`. -/
def noDivisors (p : Nat) : Nat → Bool
  | 0 => true
  | k + 1 => Nat.gcd p (block k) == 1 && noDivisors p k

theorem not_dvd_of_noDivisors (h : noDivisors p k = true) (hd : 2 ≤ d) (hk : d ≤ 8 * k) :
    ¬d ∣ p := by
  induction k with
  | zero => omega
  | succ k ih =>
    rw [noDivisors, Bool.and_eq_true, beq_iff_eq] at h
    rcases lt_or_ge (8 * k) d with hlt | hge
    · intro hdvd
      have hone : d ∣ 1 := h.1 ▸ Nat.dvd_gcd hdvd (dvd_block hlt (by omega))
      rw [Nat.dvd_one] at hone
      omega
    · exact ih h.2 hge

theorem prime_of_noDivisors (hp : 2 ≤ p) (hk : p < (8 * k + 1) * (8 * k + 1))
    (h : noDivisors p k = true) : p.Prime := by
  rw [Nat.prime_def_le_sqrt]
  exact ⟨hp, fun d hd hle => not_dvd_of_noDivisors h hd
    (hle.trans (Nat.lt_succ_iff.1 (Nat.sqrt_lt.2 hk)))⟩

/-- The primes after the first, each with a bound on its square root in eights. -/
def primeBounds : List (Nat × Nat) :=
  [(11, 1), (23, 1), (47, 1), (97, 2), (197, 2), (397, 3), (797, 4), (1597, 5), (3203, 7),
    (6421, 10), (12853, 15), (25717, 20), (51437, 29), (102877, 40), (205759, 57), (411527, 81),
    (823117, 114), (1646237, 161), (3292489, 227), (6584983, 321), (13169977, 454), (26339969, 642),
    (52679969, 908), (105359939, 1283), (210719881, 1815), (421439783, 2566), (842879579, 3629),
    (1685759167, 5133)]

theorem primes_eq : primes = 5 :: primeBounds.map Prod.fst ++ [0] := rfl

theorem prime_of_mem_primes (hp : p ∈ primes) (hpos : p ≠ 0) : p.Prime := by
  have htable : ∀ x ∈ primeBounds, 2 ≤ x.1 ∧ x.1 < (8 * x.2 + 1) * (8 * x.2 + 1) ∧
      noDivisors x.1 x.2 = true := by
    decide +kernel
  rw [primes_eq, cons_append, mem_cons, mem_append, mem_singleton] at hp
  obtain rfl | hp | hp := hp
  · exact Nat.prime_five
  · obtain ⟨x, hx, rfl⟩ := mem_map.1 hp
    obtain ⟨htwo, hbound, hcheck⟩ := htable x hx
    exact prime_of_noDivisors htwo hbound hcheck
  · exact absurd hp hpos

/-! ## Natural numbers in single precision -/

/-- A natural number with more than 24 bits, rounded down. -/
theorem roundSingle_natCast {r e : Nat} (hn : n = k * 2 ^ e + r)
    (h : 2 ^ 23 ≤ k ∧ k < 2 ^ 24 ∧ (2 * r < 2 ^ e ∨ 2 * r = 2 ^ e ∧ k % 2 = 0)) :
    roundSingle n = (k * 2 ^ e : Nat) := by
  obtain ⟨hlo, hhi, hr⟩ := h
  have hpos : (0 : ℚ) < 2 ^ e := by positivity
  have hq : (n : ℚ) / 2 ^ e = k + r / 2 ^ e := by
    rw [hn]
    push_cast
    rw [add_div, mul_div_cancel_right₀ _ hpos.ne']
  have hrlt : r < 2 ^ e := by
    have := Nat.two_pow_pos e
    omega
  have hround : roundEven ((n : ℚ) / 2 ^ e) = k := by
    rw [hq]
    apply roundEven_eq
    · exact le_add_of_nonneg_right (by positivity)
    · push_cast
      rcases hr with h | ⟨h, heven⟩
      · left
        have : (r : ℚ) / 2 ^ e < 1 / 2 := by
          rw [div_lt_div_iff₀ hpos two_pos]
          exact_mod_cast (by omega)
        linarith
      · right
        have : (r : ℚ) / 2 ^ e = 1 / 2 := by
          rw [div_eq_div_iff hpos.ne' two_ne_zero]
          exact_mod_cast (by omega)
        rw [this]
        exact ⟨rfl, by exact_mod_cast heven⟩
  have hlow : 2 ^ 23 * 2 ^ e ≤ n := hn ▸ (Nat.mul_le_mul_right _ hlo).trans (Nat.le_add_right _ _)
  have hhigh : n < 2 ^ 24 * 2 ^ e := by
    calc n < k * 2 ^ e + 2 ^ e := by omega
      _ = (k + 1) * 2 ^ e := (Nat.succ_mul _ _).symm
      _ ≤ 2 ^ 24 * 2 ^ e := Nat.mul_le_mul_right _ hhi
  rw [roundSingle_eq (e : ℤ), zpow_natCast, hround]
  · push_cast
    rfl
  · rw [zpow_add₀ two_ne_zero, mul_comm]
    exact_mod_cast hlow
  · rw [zpow_add₀ two_ne_zero, mul_comm]
    exact_mod_cast hhigh

theorem roundSingle_of_lt (hn : n < 2 ^ 24) : roundSingle n = n := by
  rcases eq_zero_or_pos n with rfl | hpos
  · exact_mod_cast roundSingle_zero
  · have hlog : n.log2 < 24 := (Nat.log2_lt hpos.ne').2 hn
    have hmul : (n : ℚ) / 2 ^ ((n.log2 : ℤ) - 23) = (n * 2 ^ (23 - n.log2) : Nat) := by
      rw [div_eq_iff (zpow_ne_zero _ two_ne_zero), Nat.cast_mul, Nat.cast_pow, Nat.cast_two,
        mul_assoc, ← zpow_natCast (2 : ℚ), ← zpow_add₀ two_ne_zero,
        show ((23 - n.log2 : Nat) : ℤ) + ((n.log2 : ℤ) - 23) = 0 by omega, zpow_zero, mul_one]
    rw [roundSingle_eq ((n.log2 : ℤ) - 23), hmul]
    · rw [← Int.cast_natCast (n * 2 ^ (23 - n.log2)), roundEven_intCast, Int.cast_natCast, ← hmul,
        div_mul_cancel₀ _ (zpow_ne_zero _ two_ne_zero)]
    · rw [sub_add_cancel]
      exact_mod_cast Nat.log2_self_le hpos.ne'
    · rw [show (n.log2 : ℤ) - 23 + 24 = (n.log2 + 1 : Nat) by push_cast; ring]
      exact_mod_cast Nat.lt_log2_self

theorem roundSingle_natCast_eq (n : Nat) : ∃ k : Nat, roundSingle n = k := by
  rcases lt_or_ge n (2 ^ 24) with hlt | hge
  · exact ⟨n, roundSingle_of_lt hlt⟩
  · have hlog : (23 : ℤ) ≤ Int.log 2 (n : ℚ) := by
      rw [← Int.zpow_le_iff_le_log (by decide) (by exact_mod_cast (by omega))]
      exact_mod_cast (by omega)
    obtain ⟨e, he⟩ := Int.eq_ofNat_of_zero_le (sub_nonneg.2 hlog)
    have hplace : lastPlace n = (2 ^ e : Nat) := by
      rw [lastPlace, he]
      push_cast
      rfl
    have hint : roundSingle n = (roundEven ((n : ℚ) / lastPlace n) * (2 ^ e : Nat) : ℤ) := by
      rw [roundSingle, hplace]
      push_cast
      rfl
    have hnonneg := roundSingle_nonneg (Nat.cast_nonneg (α := ℚ) n)
    rw [hint] at hnonneg
    obtain ⟨k, hk⟩ := Int.eq_ofNat_of_zero_le (Int.cast_nonneg_iff.1 hnonneg)
    exact ⟨k, by rw [hint, hk, Int.cast_natCast]⟩

/-- The primes less one are rounded down. -/
theorem roundSingle_prime (hp : p ∈ primes) (hpos : p ≠ 0) :
    ∃ f : Nat, f ≤ p - 1 ∧ 0 < f ∧ roundSingle (p - 1 : Nat) = f ∧ roundSingle f = f := by
  rcases lt_or_ge (p - 1) (2 ^ 24) with hlt | hge
  · have hprime := (prime_of_mem_primes hp hpos).two_le
    exact ⟨p - 1, le_rfl, by omega, roundSingle_of_lt hlt, roundSingle_of_lt hlt⟩
  · have htable : ∀ q ∈ primes, 2 ^ 24 ≤ q - 1 → ∃ x ∈ [(13169984, 1), (13169992, 2), (13169992, 3),
        (13169992, 4), (13169993, 5), (13169993, 6), (13169993, 7)],
        x.1 * 2 ^ x.2 ≤ q - 1 ∧ 2 ^ 23 ≤ x.1 ∧ x.1 < 2 ^ 24 ∧
          (2 * (q - 1 - x.1 * 2 ^ x.2) < 2 ^ x.2 ∨
            2 * (q - 1 - x.1 * 2 ^ x.2) = 2 ^ x.2 ∧ x.1 % 2 = 0) := by
      decide +kernel
    obtain ⟨⟨k, e⟩, -, hle, hr⟩ := htable p hp hge
    have ⟨hlo, hhi, _⟩ := hr
    have hmul : 0 < k * 2 ^ e := mul_pos (by dsimp only at hlo; omega) (Nat.two_pow_pos e)
    refine ⟨k * 2 ^ e, hle, hmul, roundSingle_natCast ?_ hr,
      roundSingle_natCast (r := 0) rfl ⟨hlo, hhi, .inl (Nat.two_pow_pos e)⟩⟩
    exact (Nat.add_sub_of_le hle).symm

/-! ## `determineCapacity` -/

section

variable {minimumCapacity count capacity : Nat} {loadFactor : ℚ}

theorem determineCapacity_inv
    (h : determineCapacity minimumCapacity loadFactor = .ok (count, capacity)) :
    0 < loadFactor ∧ loadFactor ≤ 1 ∧ count ∈ primes ∧ count ≠ 0 ∧
      bucketsFor minimumCapacity loadFactor ≤ count ∧ capacity = capacityOf count loadFactor := by
  unfold determineCapacity at h
  split_ifs at h with hfatal
  split at h
  · cases h
  · rename_i found hfound
    split_ifs at h with hzero
    cases h
    rw [not_or, not_le, not_lt] at hfatal
    refine ⟨hfatal.1, hfatal.2, mem_of_find?_eq_some hfound, hzero, ?_, rfl⟩
    have := find?_some hfound
    simpa using this

/-- There is a prime for the capacity asked for. -/
def HasPrime (minimumCapacity : Nat) (loadFactor : ℚ) : Prop :=
  bucketsFor minimumCapacity loadFactor ≤ 1685759167

theorem factor_bounds : (0 : ℚ) < 0.75 ∧ (0.75 : ℚ) ≤ 1 := by norm_num

theorem le_of_mem_primes (hp : p ∈ primes) : p ≤ 1685759167 :=
  (by decide : ∀ p ∈ primes, p ≤ 1685759167) p hp

theorem determineCapacity_cases (minimumCapacity : Nat)
    (hfactor : 0 < loadFactor ∧ loadFactor ≤ 1) :
    HasPrime minimumCapacity loadFactor ∧
        (∃ count capacity, determineCapacity minimumCapacity loadFactor = .ok (count, capacity)) ∨
      ¬HasPrime minimumCapacity loadFactor ∧
        determineCapacity minimumCapacity loadFactor = .error .pastPrimes := by
  unfold determineCapacity HasPrime
  rw [if_neg (not_or.2 ⟨not_le.2 hfactor.1, not_lt.2 hfactor.2⟩)]
  generalize bucketsFor minimumCapacity loadFactor = d
  cases hfind : primes.find? fun prime => ¬d > prime with
  | none =>
    have := find?_eq_none.1 hfind 1685759167 (by decide)
    exact .inr ⟨by simpa using this, rfl⟩
  | some count =>
    have hle : d ≤ count := by simpa using find?_some hfind
    have hzero : count ≠ 0 := by
      rintro rfl
      obtain rfl : d = 0 := by omega
      exact absurd hfind (by decide)
    exact .inl ⟨hle.trans (le_of_mem_primes (mem_of_find?_eq_some hfind)), count, _, if_neg hzero⟩

theorem capacityOf_bounds (hcount : count ∈ primes) (hzero : count ≠ 0) (hpos : 0 < loadFactor)
    (hone : loadFactor ≤ 1) : 0 < capacityOf count loadFactor ∧
      capacityOf count loadFactor < count := by
  obtain ⟨f, hle, hf, hround, hexact⟩ := roundSingle_prime hcount hzero
  have hf' : (0 : ℚ) < f := by exact_mod_cast hf
  have hlow : 0 < roundSingle (f * loadFactor) := roundSingle_pos (mul_pos hf' hpos)
  have hhigh : roundSingle (f * loadFactor) ≤ f := by
    calc roundSingle (f * loadFactor) ≤ roundSingle f :=
          roundSingle_mono (mul_pos hf' hpos).le (mul_le_of_le_one_right hf'.le hone)
      _ = f := hexact
  have hceil : 0 < ⌈roundSingle (f * loadFactor)⌉ := Int.ceil_pos.2 hlow
  have hceil' : ⌈roundSingle (f * loadFactor)⌉ ≤ f := Int.ceil_le.2 (by exact_mod_cast hhigh)
  unfold capacityOf
  rw [hround]
  omega

theorem le_bucketsFor (hpos : 0 < loadFactor) :
    (minimumCapacity : ℚ) / loadFactor * ((1 - 1 / 2 ^ 24) ^ 2 * (1 - 1 / 2 ^ 23)) ≤
      bucketsFor minimumCapacity loadFactor - 1 := by
  set q : ℚ := roundSingle (roundSingle minimumCapacity / loadFactor) with hq
  have hnonneg : 0 ≤ roundSingle minimumCapacity / loadFactor :=
    div_nonneg (roundSingle_nonneg (Nat.cast_nonneg _)) hpos.le
  have hqlow : (minimumCapacity : ℚ) / loadFactor * (1 - 1 / 2 ^ 24) ^ 2 ≤ q := by
    calc (minimumCapacity : ℚ) / loadFactor * (1 - 1 / 2 ^ 24) ^ 2
        = minimumCapacity * (1 - 1 / 2 ^ 24) / loadFactor * (1 - 1 / 2 ^ 24) := by ring
      _ ≤ roundSingle minimumCapacity / loadFactor * (1 - 1 / 2 ^ 24) := by
        apply mul_le_mul_of_nonneg_right _ (by norm_num)
        exact div_le_div_of_nonneg_right (le_roundSingle (Nat.cast_nonneg _)) hpos.le
      _ ≤ q := le_roundSingle hnonneg
  obtain ⟨c, hc⟩ : ∃ c : Nat, ⌈q⌉ = c :=
    Int.eq_ofNat_of_zero_le (Int.ceil_nonneg (roundSingle_nonneg hnonneg))
  have hqc : q ≤ c := by exact_mod_cast Int.ceil_le.1 hc.le
  obtain ⟨k, hk⟩ := roundSingle_natCast_eq (c + 1)
  have hbuckets : bucketsFor minimumCapacity loadFactor = k := by
    unfold bucketsFor
    rw [hc]
    push_cast at hk ⊢
    rw [hk, Int.floor_natCast, Int.toNat_natCast]
  have hklow := le_roundSingle (Nat.cast_nonneg (α := ℚ) (c + 1))
  rw [hk] at hklow
  push_cast at hklow
  have hsum : (c : ℚ) * (1 - 1 / 2 ^ 23) ≤ k - 1 := by
    rcases eq_zero_or_pos c with rfl | hcpos
    · rw [roundSingle_of_lt (by decide)] at hk
      simp [← hk]
    · have hcpos' : (1 : ℚ) ≤ c := by exact_mod_cast hcpos
      linarith
  calc _ = (minimumCapacity : ℚ) / loadFactor * (1 - 1 / 2 ^ 24) ^ 2 * (1 - 1 / 2 ^ 23) := by ring
    _ ≤ c * (1 - 1 / 2 ^ 23) := mul_le_mul_of_nonneg_right (hqlow.trans hqc) (by norm_num)
    _ ≤ k - 1 := hsum
    _ = _ := by rw [hbuckets]

/-- What `determineCapacity` gives. The capacity is not far below what was asked for. -/
theorem determineCapacity_ok
    (h : determineCapacity minimumCapacity loadFactor = .ok (count, capacity)) :
    count.Prime ∧ 0 < capacity ∧ capacity < count ∧
      (minimumCapacity : ℚ) * (1 - 1 / 2 ^ 21) ≤ capacity := by
  obtain ⟨hpos, hone, hcount, hzero, hbuckets, rfl⟩ := determineCapacity_inv h
  obtain ⟨hlow, hhigh⟩ := capacityOf_bounds hcount hzero hpos hone
  have hprime := prime_of_mem_primes hcount hzero
  refine ⟨hprime, hlow, hhigh, ?_⟩
  have hcast : ((count - 1 : Nat) : ℚ) = count - 1 := by
    rw [Nat.cast_sub hprime.one_lt.le, Nat.cast_one]
  have hle : (bucketsFor minimumCapacity loadFactor : ℚ) - 1 ≤ (count - 1 : Nat) := by
    rw [hcast]
    exact sub_le_sub_right (by exact_mod_cast hbuckets) 1
  have hround := le_roundSingle (Nat.cast_nonneg (α := ℚ) (count - 1))
  have hround' := le_roundSingle
    (mul_nonneg (roundSingle_nonneg (Nat.cast_nonneg (α := ℚ) (count - 1))) hpos.le)
  have hceil : roundSingle (roundSingle (count - 1 : Nat) * loadFactor)
      ≤ capacityOf count loadFactor := by
    refine (Int.le_ceil _).trans ?_
    exact_mod_cast Int.self_le_toNat _
  calc (minimumCapacity : ℚ) * (1 - 1 / 2 ^ 21)
      ≤ minimumCapacity * ((1 - 1 / 2 ^ 24) ^ 4 * (1 - 1 / 2 ^ 23)) :=
        mul_le_mul_of_nonneg_left (by norm_num) (Nat.cast_nonneg _)
    _ = minimumCapacity / loadFactor * ((1 - 1 / 2 ^ 24) ^ 2 * (1 - 1 / 2 ^ 23)) *
          (1 - 1 / 2 ^ 24) * loadFactor * (1 - 1 / 2 ^ 24) := by
        field_simp
    _ ≤ (count - 1 : Nat) * (1 - 1 / 2 ^ 24) * loadFactor * (1 - 1 / 2 ^ 24) := by
        have := (le_bucketsFor hpos).trans hle
        gcongr
    _ ≤ roundSingle (count - 1 : Nat) * loadFactor * (1 - 1 / 2 ^ 24) := by
        gcongr
    _ ≤ capacityOf count loadFactor := hround'.trans hceil

theorem determineCapacity_double (hn : 0 < n)
    (h : determineCapacity (2 * n) loadFactor = .ok (count, capacity)) : n < capacity := by
  obtain ⟨-, -, -, hle⟩ := determineCapacity_ok h
  have hn' : (0 : ℚ) < n := by exact_mod_cast hn
  push_cast at hle
  have : (n : ℚ) < capacity := by linarith
  exact_mod_cast this

end

/-- The computation where every intermediate result is an integer. -/
theorem determineCapacity_eval {minimumCapacity a b c count f g capacity : Nat} {loadFactor : ℚ}
    (hfactor : 0 < loadFactor ∧ loadFactor ≤ 1) (ha : roundSingle minimumCapacity = a)
    (hquot : (a : ℚ) / loadFactor = b) (hb : roundSingle b = c) (hc : roundSingle (c + 1 : Nat) = d)
    (hfind : (primes.find? fun prime => ¬d > prime) = some count) (hcount : count ≠ 0)
    (hf : roundSingle (count - 1 : Nat) = f) (hprod : (f : ℚ) * loadFactor = g)
    (hg : roundSingle g = capacity) :
    determineCapacity minimumCapacity loadFactor = .ok (count, capacity) := by
  have hbuckets : bucketsFor minimumCapacity loadFactor = d := by
    have hsum : ((c : Nat) : ℤ) + (1 : ℚ) = (c + 1 : Nat) := by
      push_cast
      rfl
    unfold bucketsFor
    rw [ha, hquot, hb, Int.ceil_natCast, hsum, hc, Int.floor_natCast, Int.toNat_natCast]
  have hcapacity : capacityOf count loadFactor = capacity := by
    unfold capacityOf
    rw [hf, hprod, hg, Int.ceil_natCast, Int.toNat_natCast]
  unfold determineCapacity
  rw [if_neg (not_or.2 ⟨not_le.2 hfactor.1, not_lt.2 hfactor.2⟩), hbuckets, hfind]
  dsimp only
  rw [if_neg hcount, hcapacity]

/-- 19754977 entries and the load factor 0.75: the capacity is one less. -/
theorem determineCapacity_short : determineCapacity 19754977 0.75 = .ok (26339969, 19754976) := by
  have h1 : roundSingle (19754977 : Nat) = (19754976 : Nat) :=
    roundSingle_natCast (k := 9877488) (r := 1) (e := 1) rfl (by decide)
  have h2 : roundSingle (26339968 : Nat) = (26339968 : Nat) :=
    roundSingle_natCast (k := 13169984) (r := 0) (e := 1) rfl (by decide)
  have h3 : roundSingle (26339969 : Nat) = (26339968 : Nat) :=
    roundSingle_natCast (k := 13169984) (r := 1) (e := 1) rfl (by decide)
  have h4 : roundSingle (19754976 : Nat) = (19754976 : Nat) :=
    roundSingle_natCast (k := 9877488) (r := 0) (e := 1) rfl (by decide)
  exact determineCapacity_eval (by norm_num) h1 (by norm_num) h2 h3 (by decide) (by decide) h2
    (by norm_num) h4

/-- A capacity for which all of the computation is exact, but for the 1 that is lost. -/
theorem determineCapacity_large : determineCapacity 25165824 0.75 = .ok (52679969, 39509976) := by
  have h1 : roundSingle (25165824 : Nat) = (25165824 : Nat) :=
    roundSingle_natCast (k := 12582912) (r := 0) (e := 1) rfl (by decide)
  have h2 : roundSingle (33554432 : Nat) = (33554432 : Nat) :=
    roundSingle_natCast (k := 8388608) (r := 0) (e := 2) rfl (by decide)
  have h3 : roundSingle (33554433 : Nat) = (33554432 : Nat) :=
    roundSingle_natCast (k := 8388608) (r := 1) (e := 2) rfl (by decide)
  have h4 : roundSingle (52679968 : Nat) = (52679968 : Nat) :=
    roundSingle_natCast (k := 13169992) (r := 0) (e := 2) rfl (by decide)
  have h5 : roundSingle (39509976 : Nat) = (39509976 : Nat) :=
    roundSingle_natCast (k := 9877494) (r := 0) (e := 2) rfl (by decide)
  exact determineCapacity_eval (by norm_num) h1 (by norm_num) h2 h3 (by decide) (by decide) h4
    (by norm_num) h5

end AndroidSystem.Utils
