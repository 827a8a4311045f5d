import AndroidSystem.Mincrypt.Felem
import AndroidSystem.Mincrypt.Modmul

/-!
# Sums of field elements

The functions that end with a chain of carries and `felem_reduce_carry`. Each result is `Tidy`: the
limbs have their width and one bit more, and the last one only its width. The machine computes what
the exact arithmetic computes, and the value is right modulo `p`.

`felem_reduce_carry` allows for a carry of 8, one more than its comment says. That is what
`felem_scalar_4` and `felem_scalar_8` may give.
-/

namespace AndroidSystem.Mincrypt

open List MixedRadix Arith

/-- The prime of the field. -/
def fieldP : Int := 2 ^ 256 - 2 ^ 224 + 2 ^ 192 + 2 ^ 96 - 1

/-- The value of the limbs of a field element. -/
def felemValue (a : List Int) : Int := value widths a

/-- The limbs have one bit more than their width, as the comments of the source ask for. -/
def Loose (a : List Int) : Prop := InWidths 1 widths a

/-- The last limb has no more than its width. -/
structure Tidy (a : List Int) : Prop where
  loose : Loose a
  last : a.getD 8 0 < 2 ^ 29

/-- What is proved of a function: machines compute the exact result, its limbs are bounded, and its
value is `v` modulo `p`. -/
structure Right (f : Arith → List Int) (v : Int) : Prop where
  eq_exact : ∀ A : Arith, A.IsMachine → f A = f exact
  tidy : Tidy (f exact)
  value : felemValue (f exact) ≡ v [ZMOD fieldP]

variable {a b : List Int} {c : Int} {k : Nat}

theorem inWidths_iff {a0 a1 a2 a3 a4 a5 a6 a7 a8 : Int} :
    InWidths k widths [a0, a1, a2, a3, a4, a5, a6, a7, a8] ↔
      (0 ≤ a0 ∧ a0 < 2 ^ (29 + k)) ∧ (0 ≤ a1 ∧ a1 < 2 ^ (28 + k)) ∧
        (0 ≤ a2 ∧ a2 < 2 ^ (29 + k)) ∧ (0 ≤ a3 ∧ a3 < 2 ^ (28 + k)) ∧
        (0 ≤ a4 ∧ a4 < 2 ^ (29 + k)) ∧ (0 ≤ a5 ∧ a5 < 2 ^ (28 + k)) ∧
        (0 ≤ a6 ∧ a6 < 2 ^ (29 + k)) ∧ (0 ≤ a7 ∧ a7 < 2 ^ (28 + k)) ∧
        (0 ≤ a8 ∧ a8 < 2 ^ (29 + k)) := by
  have hwidths : widths = [29, 28, 29, 28, 29, 28, 29, 28, 29] := rfl
  simp only [InWidths, hwidths, forall₂_cons, forall₂_nil_left_iff, and_true]

theorem exists_limbs (h : a.length = 9) :
    ∃ a0 a1 a2 a3 a4 a5 a6 a7 a8 : Int, a = [a0, a1, a2, a3, a4, a5, a6, a7, a8] := by
  rcases a with - | ⟨a0, - | ⟨a1, - | ⟨a2, - | ⟨a3, - | ⟨a4, - |
    ⟨a5, - | ⟨a6, - | ⟨a7, - | ⟨a8, - | ⟨a9, l⟩⟩⟩⟩⟩⟩⟩⟩⟩⟩
  -- no other length is left
  case cons.cons.cons.cons.cons.cons.cons.cons.cons.nil => exact ⟨a0, a1, a2, a3, a4, a5, a6, a7, a8, rfl⟩
  all_goals simp at h

theorem length_of_inWidths (h : InWidths k widths a) : a.length = 9 := h.length_eq.symm

theorem felemValue_eq (a0 a1 a2 a3 a4 a5 a6 a7 a8 : Int) :
    felemValue [a0, a1, a2, a3, a4, a5, a6, a7, a8] =
      a0 + 2 ^ 29 * a1 + 2 ^ 57 * a2 + 2 ^ 86 * a3 + 2 ^ 114 * a4 + 2 ^ 143 * a5 + 2 ^ 171 * a6 +
        2 ^ 200 * a7 + 2 ^ 228 * a8 := by
  have hwidths : widths = [29, 28, 29, 28, 29, 28, 29, 28, 29] := rfl
  simp only [felemValue, hwidths, value]
  ring

theorem two_pow_257 : (2 : Int) ^ 257 = 2 * 2 ^ 256 := pow_succ' 2 256

/-! ## `felem_reduce_carry` -/

/-- The added multiple of `p` is `2 * carry * p`, without its highest term. -/
theorem felemReduceCarry_right (ha : InWidths 0 widths a) (hc0 : 0 ≤ c) (hc : c ≤ 8) :
    Right (fun A => felemReduceCarry A a c) (felemValue a + 2 ^ 257 * c) := by
  obtain ⟨a0, a1, a2, a3, a4, a5, a6, a7, a8, rfl⟩ := exists_limbs (length_of_inWidths ha)
  obtain ⟨h0, h1, h2, h3, h4, h5, h6, h7, h8⟩ := inWidths_iff.1 ha
  have hmachine : ∀ A : Arith, A.IsMachine →
      felemReduceCarry A [a0, a1, a2, a3, a4, a5, a6, a7, a8] c =
        felemReduceCarry exact [a0, a1, a2, a3, a4, a5, a6, a7, a8] c := by
    intro A hA
    simp only [felemReduceCarry, exact, shl, id_eq, masked]
    split
    all_goals
      simp (disch := omega) only [hA.w32_eq, hA.wrap_eq, cons.injEq, true_and, and_true]
      omega
  have hexact : felemReduceCarry exact [a0, a1, a2, a3, a4, a5, a6, a7, a8] c =
      [a0 + c * 2, a1, a2, a3 + masked c (2 ^ 28) - c * 2 ^ 11, a4 + masked c (2 ^ 29 - 1),
        a5 + masked c (2 ^ 28 - 1), a6 + masked c (2 ^ 29 - 1) - c * 2 ^ 22,
        a7 - masked c 1 + c * 2 ^ 25, a8] := rfl
  refine ⟨hmachine, ?_, ?_⟩
  · rw [hexact]
    refine ⟨inWidths_iff.2 ?_, by simpa using h8.2⟩
    simp only [masked]
    split <;> omega
  · rw [hexact, felemValue_eq, felemValue_eq, Int.modEq_iff_dvd, two_pow_257]
    refine ⟨2 * c, ?_⟩
    simp only [fieldP, masked]
    split
    · subst_vars
      ring
    · ring

/-! ## Chains of carries -/

/-- The carries, and the reduction of the last one. -/
theorem carryAndReduce_right {f : Arith → List Int} {g : Arith → Int → Int}
    (hg : g exact = id) (hlen : (f exact).length = 9)
    (hchain : ∀ A : Arith, A.IsMachine →
      carryChain (g A) widths 0 (f A) = carryChain id widths 0 (f exact))
    (hsafe : Safe (2 ^ 32) widths 0 (f exact)) :
    Right (fun A => carryAndReduce A (g A) (f A)) (felemValue (f exact)) := by
  have hlen' : widths.length = (f exact).length := hlen.symm
  have hcarry : 0 ≤ (carryChain id widths 0 (f exact)).2 ∧
      (carryChain id widths 0 (f exact)).2 * 2 ^ 29 < 2 ^ 32 :=
    @Safe.carry (limbWidths true 8) _ _ _ 29 hsafe hlen.symm
  have hvalue := value_carryChain (c := 0) hlen'
  have hfits := inWidths_carryChain (c := 0) hlen'
  have hreduce := felemReduceCarry_right hfits hcarry.1 (by omega)
  have hsum : widths.sum = 257 := rfl
  rw [hsum, add_zero] at hvalue
  rw [felemValue, hvalue] at hreduce
  refine ⟨?_, ?_, ?_⟩
  · intro A hA
    simp only [carryAndReduce, hchain A hA, hg]
    exact hreduce.eq_exact A hA
  all_goals simp only [hg]
  · exact hreduce.tidy
  · exact hreduce.value

theorem carryAndReduce_words {f : Arith → List Int} (hlen : (f exact).length = 9)
    (hf : ∀ A : Arith, A.IsMachine → f A = f exact) (hsafe : Safe (2 ^ 32) widths 0 (f exact)) :
    Right (fun A => carryAndReduce A A.w32 (f A)) (felemValue (f exact)) := by
  refine carryAndReduce_right rfl hlen ?_ hsafe
  intro A hA
  rw [hf A hA]
  exact carryChain_of_safe hA.w32_eq hsafe

/-- `felem_sum`. The limbs of the sum have to leave room for a carry of less than 16. -/
theorem felemSum_right (ha : a.length = 9)
    (hab : List.Forall₂ (fun x y => (0 ≤ x ∧ 0 ≤ y) ∧ x + y + 15 < 2 ^ 32) a b) :
    Right (fun A => felemSum A a b) (felemValue a + felemValue b) := by
  have hb : b.length = 9 := hab.length_eq.symm.trans ha
  have hvalue : felemValue (a.zipWith (· + ·) b) = felemValue a + felemValue b :=
    value_zipWith_add ha.symm hb.symm
  rw [← hvalue]
  obtain ⟨a0, a1, a2, a3, a4, a5, a6, a7, a8, rfl⟩ := exists_limbs ha
  obtain ⟨b0, b1, b2, b3, b4, b5, b6, b7, b8, rfl⟩ := exists_limbs hb
  simp only [forall₂_cons] at hab
  refine carryAndReduce_words rfl ?_ ?_
  · intro A hA
    simp (disch := omega) only [zipWith_cons_cons, zipWith_nil_left, hA.w32_eq, exact,
      id_eq]
  · refine safe_of_le (m := 15) ?_ le_rfl (by norm_num)
    simp only [widths, limbWidths, limbWidth, exact]
    simp
    omega

theorem felemValue_zero31 : felemValue zero31 = 8 * fieldP := by
  decide

theorem felemDiff_right (ha : Loose a) (hb : Loose b) :
    Right (fun A => felemDiff A a b) (felemValue a - felemValue b) := by
  have hla := length_of_inWidths ha
  have hlb := length_of_inWidths hb
  obtain ⟨a0, a1, a2, a3, a4, a5, a6, a7, a8, rfl⟩ := exists_limbs hla
  obtain ⟨b0, b1, b2, b3, b4, b5, b6, b7, b8, rfl⟩ := exists_limbs hlb
  have ha' := inWidths_iff.1 ha
  have hb' := inWidths_iff.1 hb
  have hright := carryAndReduce_words (f := fun A =>
    (([a0, a1, a2, a3, a4, a5, a6, a7, a8].zipWith (fun x y => A.wrap (x - y))
      [b0, b1, b2, b3, b4, b5, b6, b7, b8]).zipWith (fun d z => A.wrap (d + z)) zero31)) rfl
    (by
      intro A hA
      simp only [hA.wrap_eq, exact, zero31, zipWith_cons_cons, zipWith_nil_left, id_eq, cons.injEq,
        and_true]
      omega)
    (by
      refine safe_of_le (m := 6) ?_ le_rfl (by norm_num)
      simp only [widths, limbWidths, limbWidth, exact, zero31]
      simp
      omega)
  refine ⟨hright.eq_exact, hright.tidy, hright.value.trans ?_⟩
  have hvalue : felemValue (([a0, a1, a2, a3, a4, a5, a6, a7, a8].zipWith (· - ·)
      [b0, b1, b2, b3, b4, b5, b6, b7, b8]).zipWith (· + ·) zero31) =
      felemValue [a0, a1, a2, a3, a4, a5, a6, a7, a8] -
        felemValue [b0, b1, b2, b3, b4, b5, b6, b7, b8] + felemValue zero31 := by
    simp only [zero31, zipWith_cons_cons, zipWith_nil_left, felemValue_eq]
    ring
  refine Int.modEq_iff_dvd.2 ⟨-8, ?_⟩
  show _ - felemValue (([a0, a1, a2, a3, a4, a5, a6, a7, a8].zipWith (· - ·)
      [b0, b1, b2, b3, b4, b5, b6, b7, b8]).zipWith (· + ·) zero31) = _
  rw [hvalue, felemValue_zero31]
  ring

theorem felemScalar3_right (ha : Loose a) :
    Right (fun A => felemScalar3 A a) (felemValue a * 3) := by
  have hvalue : felemValue (a.map (· * 3)) = felemValue a * 3 := value_map_mul widths a 3
  rw [← hvalue]
  obtain ⟨a0, a1, a2, a3, a4, a5, a6, a7, a8, rfl⟩ := exists_limbs (length_of_inWidths ha)
  have ha' := inWidths_iff.1 ha
  refine carryAndReduce_words rfl ?_ ?_
  · intro A hA
    simp (disch := omega) only [map_cons, map_nil, hA.w32_eq, exact, id_eq]
  · refine safe_of_le (m := 6) ?_ le_rfl (by norm_num)
    simp only [widths, limbWidths, limbWidth, exact]
    simp
    omega

/-! ## Products with powers of two -/

/-- `felem_scalar_4` and `felem_scalar_8`: no carry is more than `m`, and the last one is at most 8. -/
theorem felemScale_right {m : Int} (hm : 0 ≤ m) (hk : k ≤ 28)
    (ha : List.Forall₂ (fun w d => (0 ≤ d ∧ d * 2 ^ k + m < 2 ^ w * (m + 1)) ∧ 2 ^ w + m < 2 ^ 32 ∧
      k ≤ w) widths a) (hcarry : (carryChain id widths 0 (a.map (· * 2 ^ k))).2 ≤ 8) :
    Right (fun A => felemScale A k a) (felemValue a * 2 ^ k) := by
  have hlen : widths.length = (a.map (· * 2 ^ k)).length := by
    rw [length_map]
    exact ha.length_eq
  have hwide : ∀ w ∈ widths, 28 ≤ w := by decide
  have hdvd : ∀ w ∈ widths, (2 : Int) ^ w ∣ 2 ^ 32 := by decide
  have hexact : scaleChain id id k widths 0 a = carryChain id widths 0 (a.map (· * 2 ^ k)) :=
    scaleChain_id fun w hw => hk.trans (hwide w hw)
  have hmachine : ∀ A : Arith, A.IsMachine →
      scaleChain A.wrap A.w32 k widths 0 a = scaleChain id id k widths 0 a := by
    intro A hA
    have hwrap : A.wrap = (· % 2 ^ 32) := funext hA.wrap_eq
    rw [hwrap]
    exact scaleChain_wrap hA.w32_eq hdvd ha le_rfl hm
  have hdigits : List.Forall₂ (fun w d => 0 ≤ d ∧ d + m < 2 ^ w * (m + 1)) widths
      (a.map (· * 2 ^ k)) := by
    refine forall₂_map_right_iff.2 (ha.imp ?_)
    intro w d hd
    exact ⟨mul_nonneg hd.1.1 (by positivity), hd.1.2⟩
  have hvalue := value_carryChain (c := 0) hlen
  have hsum : widths.sum = 257 := rfl
  rw [hsum, add_zero, value_map_mul] at hvalue
  have hreduce := felemReduceCarry_right (inWidths_carryChain (c := 0) hlen)
    (carryChain_le hdigits le_rfl hm).1 hcarry
  rw [felemValue, hvalue] at hreduce
  refine ⟨?_, ?_, ?_⟩
  · intro A hA
    simp only [felemScale, hmachine A hA, exact, hexact]
    exact hreduce.eq_exact A hA
  all_goals simp only [felemScale, exact, hexact]
  · exact hreduce.tidy
  · exact hreduce.value

theorem felemScalar4_right (ha : Loose a) :
    Right (fun A => felemScalar4 A a) (felemValue a * 4) := by
  obtain ⟨a0, a1, a2, a3, a4, a5, a6, a7, a8, rfl⟩ := exists_limbs (length_of_inWidths ha)
  have ha' := inWidths_iff.1 ha
  have hdigits : List.Forall₂ (fun w d => 0 ≤ d ∧ d + 8 < 2 ^ w * (8 + 1)) widths
      ([a0, a1, a2, a3, a4, a5, a6, a7, a8].map (· * 2 ^ 2)) := by
    simp only [widths, limbWidths, limbWidth]
    simp
    omega
  refine felemScale_right (m := 8) (by norm_num) (by norm_num) ?_
    (carryChain_le hdigits le_rfl (by norm_num)).2
  simp only [widths, limbWidths, limbWidth]
  simp
  omega

/-- `felem_scalar_8`. The last limb must have no more than its width: with one more bit the last carry
can be 16. -/
theorem felemScalar8_right (ha : Tidy a) :
    Right (fun A => felemScalar8 A a) (felemValue a * 8) := by
  have hlast := ha.last
  obtain ⟨a0, a1, a2, a3, a4, a5, a6, a7, a8, rfl⟩ := exists_limbs (length_of_inWidths ha.loose)
  have ha' := inWidths_iff.1 ha.loose
  have hdigits : List.Forall₂ (fun w d => 0 ≤ d ∧ d + 16 < 2 ^ w * (16 + 1)) (limbWidths true 8)
      ([a0, a1, a2, a3, a4, a5, a6, a7].map (· * 2 ^ 3)) := by
    simp only [limbWidths, limbWidth]
    simp
    omega
  have hcarry := (carryChain_le hdigits le_rfl (by norm_num)).2
  refine felemScale_right (m := 16) (by norm_num) (by norm_num) ?_ ?_
  · simp only [widths, limbWidths, limbWidth]
    simp
    omega
  · have hconcat := carryChain_concat (c := 0) (w := 29) (d := a8 * 2 ^ 3) hdigits.length_eq
    refine hconcat.le.trans (ediv_le ?_)
    simp only [getD_cons_succ, getD_cons_zero] at hlast
    linarith

end AndroidSystem.Mincrypt
