import AndroidSystem.Mincrypt.Eliminate
import Mathlib.Algebra.Order.BigOperators.Group.List

/-!
# Products of field elements

The columns of `felem_square` and `felem_mul` fit in 64 bits, and stand for the square and the product.
A term of a column has at most 61 bits, and a column has at most nine terms.
-/

namespace AndroidSystem.Mincrypt

open List MixedRadix Arith

variable {a b : List Int}

variable {m : Int} {l : List Int} {A : Arith} {T : Arith → List (List Int)}

/-- The value is not negative, and below `m`. -/
def Below (m x : Int) : Prop := 0 ≤ x ∧ x < m

theorem Below.mul {n x y : Int} (hx : Below m x) (hy : Below n y) : Below (m * n) (x * y) :=
  ⟨mul_nonneg hx.1 hy.1, mul_lt_mul'' hx.2 hy.2 hx.1 hy.1⟩

/-! ## Columns -/

theorem sum64_exact (l : List Int) : exact.sum64 l = l.sum := by
  cases l with
  | nil => rfl
  | cons t ts =>
    have hfold : ∀ s : Int, ts.foldl (fun s t => exact.w64 (s + t)) s = s + ts.sum := by
      induction ts with
      | nil => simp
      | cons u us ih =>
        intro s
        rw [foldl_cons, ih]
        exact add_assoc s u us.sum
    rw [sum64, hfold, sum_cons]

theorem sum_below (h : ∀ t ∈ l, Below m t) : 0 ≤ l.sum ∧ l.sum ≤ l.length * m := by
  induction l with
  | nil => simp
  | cons t ts ih =>
    have ht := h t mem_cons_self
    have hts := ih fun u hu => h u (mem_cons_of_mem t hu)
    rw [sum_cons, length_cons, Nat.cast_add, Nat.cast_one]
    exact ⟨add_nonneg ht.1 hts.1, by linarith [ht.2, hts.2]⟩

/-- A sum that fits in 64 bits fits on the way, since no term is negative. -/
theorem sum64_eq (hA : A.IsMachine) (h : ∀ t ∈ l, 0 ≤ t) (hsum : l.sum < 2 ^ 64) :
    A.sum64 l = exact.sum64 l := by
  cases l with
  | nil => rfl
  | cons t ts =>
    have hfold : ∀ s : Int, 0 ≤ s → s + ts.sum < 2 ^ 64 →
        ts.foldl (fun s t => A.w64 (s + t)) s = s + ts.sum := by
      have hts := fun u hu => h u (mem_cons_of_mem t hu)
      clear h hsum
      induction ts with
      | nil => simp
      | cons u us ih =>
        intro s hs hsum
        have hu := hts u mem_cons_self
        have hus := sum_nonneg fun v hv => hts v (mem_cons_of_mem u hv)
        rw [sum_cons, ← add_assoc] at hsum ⊢
        rw [foldl_cons, hA.w64_eq _ (by linarith) (by linarith)]
        exact ih (fun v hv => hts v (mem_cons_of_mem u hv)) _ (by linarith) hsum
    rw [sum64_exact, sum64, hfold t (h t mem_cons_self) hsum, sum_cons]

theorem shl_exact (x : Int) (k : Nat) : exact.shl x k = x * 2 ^ k := rfl

/-- Columns of few small terms are those of the exact arithmetic, and fit in a word. -/
theorem columns_eq (hT : ∀ A : Arith, A.IsMachine → T A = T exact)
    (hterms : ∀ l ∈ T exact, (l.length : Int) * m < 2 ^ 64 ∧ ∀ t ∈ l, Below m t) :
    (∀ A : Arith, A.IsMachine → (T A).map A.sum64 = (T exact).map exact.sum64) ∧
      ∀ t ∈ (T exact).map exact.sum64, InU64 t := by
  constructor
  · intro A hA
    rw [hT A hA]
    refine map_congr_left ?_
    intro l hl
    obtain ⟨hlen, hbelow⟩ := hterms l hl
    exact sum64_eq hA (fun t ht => (hbelow t ht).1) ((sum_below hbelow).2.trans_lt hlen)
  · intro t ht
    obtain ⟨l, hl, rfl⟩ := mem_map.1 ht
    obtain ⟨hlen, hbelow⟩ := hterms l hl
    have hsum := sum_below hbelow
    rw [sum64_exact]
    exact ⟨hsum.1, hsum.2.trans_lt hlen⟩

/-- A product of two field elements, from its columns. -/
theorem reduceDegree_columns {v : Int} (hT : ∀ A : Arith, A.IsMachine → T A = T exact)
    (hterms : ∀ l ∈ T exact, (l.length : Int) * m < 2 ^ 64 ∧ ∀ t ∈ l, Below m t)
    (hlen : (T exact).length = 17) (hlast : ((T exact).map exact.sum64).getD 16 0 < 7 * 2 ^ 58)
    (hvalue : columnsValue ((T exact).map exact.sum64) = v) :
    Right (fun A => felemReduceDegree A ((T A).map A.sum64)) (v * kRInv) := by
  obtain ⟨hcolumns, hwords⟩ := columns_eq hT hterms
  have hright := felemReduceDegree_right (by rw [length_map, hlen]) hwords hlast
  rw [hvalue] at hright
  refine ⟨?_, hright.tidy, hright.value⟩
  intro A hA
  simp only [hcolumns A hA]
  exact hright.eq_exact A hA

/-! ## Bounds of the terms -/

section

variable {x y : Int}

theorem Below.wider (h : Below (2 ^ 29) x) : Below (2 ^ 30) x := ⟨h.1, h.2.trans (by norm_num)⟩

theorem Below.double (h : Below (2 ^ 29) x) : Below (2 ^ 30) (x * 2 ^ 1) := by
  rw [Below] at h ⊢
  omega

theorem Below.double_even (h : Below (2 ^ 30) x) : Below (2 ^ 31) (x * 2 ^ 1) := by
  rw [Below] at h ⊢
  omega

theorem Below.quadruple (h : Below (2 ^ 29) x) : Below (2 ^ 31) (x * 2 ^ 2) := by
  rw [Below] at h ⊢
  omega

theorem Below.term (hx : Below (2 ^ 30) x) (hy : Below (2 ^ 30) y) : Below (2 ^ 60) (x * y) :=
  hx.mul hy

theorem Below.term_double (hx : Below (2 ^ 30) x) (hy : Below (2 ^ 31) y) :
    Below (2 ^ 61) (x * y) :=
  hx.mul hy

theorem Below.term_wider (hx : Below (2 ^ 30) x) (hy : Below (2 ^ 30) y) : Below (2 ^ 61) (x * y) :=
  hx.term_double ⟨hy.1, hy.2.trans (by norm_num)⟩

theorem Below.shl_eq (hA : A.IsMachine) {k : Nat} (h : Below (2 ^ 31) (x * 2 ^ k)) :
    A.shl x k = exact.shl x k :=
  hA.w32_eq _ h.1 (h.2.trans (by norm_num))

theorem loose_iff {a0 a1 a2 a3 a4 a5 a6 a7 a8 : Int} :
    Loose [a0, a1, a2, a3, a4, a5, a6, a7, a8] ↔
      Below (2 ^ 30) a0 ∧ Below (2 ^ 29) a1 ∧ Below (2 ^ 30) a2 ∧ Below (2 ^ 29) a3 ∧
        Below (2 ^ 30) a4 ∧ Below (2 ^ 29) a5 ∧ Below (2 ^ 30) a6 ∧ Below (2 ^ 29) a7 ∧
        Below (2 ^ 30) a8 :=
  inWidths_iff

end

/-! ## Squares and products -/

theorem felemMul_right (ha : Loose a) (hb : Loose b) :
    Right (fun A => felemMul A a b) (felemValue a * felemValue b * kRInv) := by
  obtain ⟨a0, a1, a2, a3, a4, a5, a6, a7, a8, rfl⟩ := exists_limbs (length_of_inWidths ha)
  obtain ⟨b0, b1, b2, b3, b4, b5, b6, b7, b8, rfl⟩ := exists_limbs (length_of_inWidths hb)
  obtain ⟨ha0, ha1, ha2, ha3, ha4, ha5, ha6, ha7, ha8⟩ := loose_iff.1 ha
  obtain ⟨hb0, hb1, hb2, hb3, hb4, hb5, hb6, hb7, hb8⟩ := loose_iff.1 hb
  refine reduceDegree_columns (m := 2 ^ 60) ?_ ?_ rfl ?_ ?_
  · intro A hA
    simp only [mulTerms, hb1.wider.double_even.shl_eq hA, hb3.wider.double_even.shl_eq hA,
      hb5.wider.double_even.shl_eq hA, hb7.wider.double_even.shl_eq hA]
  · simp only [mulTerms, shl_exact, forall_mem_cons, Below.term, Below.wider, Below.double,
      ha0, ha1, ha2, ha3, ha4, ha5, ha6, ha7, ha8, hb0, hb1, hb2, hb3, hb4, hb5, hb6, hb7, hb8]
    simp
  · show a8 * b8 < _
    linarith [(ha8.term hb8).2]
  · simp only [mulTerms, map_cons, sum64_exact, shl_exact, columnsValue, limbWidths, limbWidth,
      value, felemValue_eq]
    simp
    ring

theorem felemSquare_right (ha : Loose a) :
    Right (fun A => felemSquare A a) (felemValue a * felemValue a * kRInv) := by
  obtain ⟨a0, a1, a2, a3, a4, a5, a6, a7, a8, rfl⟩ := exists_limbs (length_of_inWidths ha)
  obtain ⟨ha0, ha1, ha2, ha3, ha4, ha5, ha6, ha7, ha8⟩ := loose_iff.1 ha
  refine reduceDegree_columns (m := 2 ^ 61) ?_ ?_ rfl ?_ ?_
  · intro A hA
    simp only [squareTerms, ha1.wider.double_even.shl_eq hA, ha2.double_even.shl_eq hA,
      ha3.wider.double_even.shl_eq hA, ha4.double_even.shl_eq hA, ha5.wider.double_even.shl_eq hA,
      ha6.double_even.shl_eq hA, ha7.wider.double_even.shl_eq hA, ha8.double_even.shl_eq hA,
      ha3.quadruple.shl_eq hA, ha5.quadruple.shl_eq hA, ha7.quadruple.shl_eq hA]
  · simp only [squareTerms, shl_exact, forall_mem_cons, Below.term_wider, Below.term_double,
      Below.wider, Below.double, Below.double_even, Below.quadruple,
      ha0, ha1, ha2, ha3, ha4, ha5, ha6, ha7, ha8]
    simp
  · show a8 * a8 < _
    linarith [(ha8.term ha8).2]
  · simp only [squareTerms, map_cons, sum64_exact, shl_exact, columnsValue, limbWidths, limbWidth,
      value, felemValue_eq]
    simp
    ring

end AndroidSystem.Mincrypt
