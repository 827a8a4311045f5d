import AndroidSystem.Mincrypt.PointBounds
import Mathlib.AlgebraicGeometry.EllipticCurve.Jacobian.Point

/-!
# The group law

The point functions compute sums of points on `y ^ 2 = x ^ 3 - 3 * x + b`. Their formulas hold in
any ring (`pointDouble_coords`, `pointAdd_coords`), and limbs stand for elements of a ring in a way
that goes with the functions (`felemOps_hom`). `point_add` and `point_add_mixed` need two different
points, neither of them at infinity.
-/

namespace AndroidSystem.Mincrypt

open Arith WeierstrassCurve.Jacobian

/-! ## In a ring -/

section

variable {R : Type} [CommRing R]

/-- The functions on field elements, in a ring. -/
def ringOps (R : Type) [CommRing R] : FieldOps Id R where
  square a := a * a
  mul a b := a * b
  sum a b := a + b
  diff a b := a - b
  scalar3 a := a * 3
  scalar4 a := a * 4
  scalar8 a := a * 8

/-- The curve `y ^ 2 = x ^ 3 - 3 * x + b`. -/
def curve (b : R) : WeierstrassCurve.Jacobian R := ⟨0, 0, 0, -3, b⟩

def Jacobian.coords (p : Jacobian R) : Fin 3 → R := ![p.x, p.y, p.z]

variable {b : R} {p q : Jacobian R}

theorem pointDouble_coords : (pointDouble (ringOps R) p).coords = (curve b).dblXYZ p.coords := by
  simp only [pointDouble, ringOps, Jacobian.coords, dblXYZ, dblX, dblY, dblZ, negDblY, dblU_eq,
    negY, curve]
  ext i
  fin_cases i
  all_goals
    simp [pure, bind]
    ring

theorem pointAdd_coords (hp : (curve b).Equation p.coords) (hq : (curve b).Equation q.coords) :
    (pointAdd (ringOps R) p q).coords =
      (-2 * p.z * q.z) • (curve b).addXYZ p.coords q.coords := by
  have hx := addX_eq' hp hq
  have hy := @negAddY_eq' R _ (curve b) p.coords q.coords
  rw [hx] at hy
  simp only [Jacobian.coords, addZ, curve] at hx hy
  simp only [pointAdd, pointAddEnd, ringOps, Jacobian.coords, addXYZ, addY, addZ, negY, curve,
    smul_fin3]
  ext i
  fin_cases i
  all_goals simp [pure, bind] at hx hy ⊢
  · linear_combination -4 * hx
  · linear_combination -8 * hy
  · ring

theorem pointAddMixed_eq (x2 y2 : R) :
    pointAddMixed (ringOps R) p x2 y2 = pointAdd (ringOps R) p ⟨x2, y2, 1⟩ := by
  simp [pointAddMixed, pointAdd, pointAddEnd, ringOps, pure, bind]
  ring_nf

end

/-! ## On limbs -/

/-- Limbs within the bounds that every function keeps. -/
def Felem : Type := { a : List Int // Tidy a }

/-- The result on the machine. -/
def Right.felem {f : Arith → List Int} {v : Int} (h : Right f v) : Felem :=
  ⟨f machine, (h.eq_exact _ isMachine_machine).symm ▸ h.tidy⟩

def felemOps : FieldOps Id Felem where
  square a := (felemSquare_right a.2.loose).felem
  mul a b := (felemMul_right a.2.loose b.2.loose).felem
  sum a b :=
    have hentry := sumEntry_of_loose a.2.loose b.2.loose
    (felemSum_right hentry.1 hentry.2).felem
  diff a b := (felemDiff_right a.2.loose b.2.loose).felem
  scalar3 a := (felemScalar3_right a.2.loose).felem
  scalar4 a := (felemScalar4_right a.2.loose).felem
  scalar8 a := (felemScalar8_right a.2).felem

/-- The element of the field that limbs stand for. They are in Montgomery form. -/
def element (a : Felem) : ZMod fieldP.toNat := felemValue a.1 * kRInv

theorem Right.element {f : Arith → List Int} {v : Int} (h : Right f v) :
    element h.felem = v * kRInv := by
  have hv : (felemValue (f exact) : ZMod fieldP.toNat) = v :=
    (ZMod.intCast_eq_intCast_iff _ _ _).2 (by
      rw [Int.toNat_of_nonneg (by decide)]
      exact h.value)
  show (felemValue (f machine) : ZMod fieldP.toNat) * kRInv = _
  rw [h.eq_exact _ isMachine_machine, hv]

/-- A map between field elements that goes with the functions on them. -/
structure FieldOps.Hom {F G : Type} (φ : F → G) (ops : FieldOps Id F) (ops' : FieldOps Id G) :
    Prop where
  square a : φ (ops.square a) = ops'.square (φ a)
  mul a b : φ (ops.mul a b) = ops'.mul (φ a) (φ b)
  sum a b : φ (ops.sum a b) = ops'.sum (φ a) (φ b)
  diff a b : φ (ops.diff a b) = ops'.diff (φ a) (φ b)
  scalar3 a : φ (ops.scalar3 a) = ops'.scalar3 (φ a)
  scalar4 a : φ (ops.scalar4 a) = ops'.scalar4 (φ a)
  scalar8 a : φ (ops.scalar8 a) = ops'.scalar8 (φ a)

theorem felemOps_hom : felemOps.Hom element (ringOps _) := by
  constructor
  all_goals
    intros
    refine (Right.element _).trans ?_
    simp [element, ringOps]
    ring

def Jacobian.map {F G : Type} (φ : F → G) (p : Jacobian F) : Jacobian G := ⟨φ p.x, φ p.y, φ p.z⟩

section

variable {F G : Type} {φ : F → G} {ops : FieldOps Id F} {ops' : FieldOps Id G}
  (h : ops.Hom φ ops')
include h

theorem map_pointDouble (p : Jacobian F) :
    (pointDouble ops p).map φ = pointDouble ops' (p.map φ) := by
  simp only [pointDouble, Jacobian.map, pure, bind, ← h.square, ← h.mul, ← h.sum, ← h.diff,
    ← h.scalar3, ← h.scalar4, ← h.scalar8]

theorem map_pointAdd (p q : Jacobian F) :
    (pointAdd ops p q).map φ = pointAdd ops' (p.map φ) (q.map φ) := by
  simp only [pointAdd, pointAddEnd, Jacobian.map, pure, bind, ← h.square, ← h.mul, ← h.sum,
    ← h.diff]

theorem map_pointAddMixed (p : Jacobian F) (x2 y2 : F) :
    (pointAddMixed ops p x2 y2).map φ = pointAddMixed ops' (p.map φ) (φ x2) (φ y2) := by
  simp only [pointAddMixed, Jacobian.map, pure, bind, ← h.square, ← h.mul, ← h.sum, ← h.diff]

end

/-! ## Sums of points -/

/-- A representative of a point of the curve that is not at infinity. -/
structure Finite {R : Type} [CommRing R] (b : R) (p : Jacobian R) : Prop where
  equation : (curve b).Equation p.coords
  z : IsUnit p.z

/-- The point that field elements stand for. -/
def Jacobian.point (p : Jacobian Felem) : PointClass (ZMod fieldP.toNat) :=
  ⟦(p.map element).coords⟧

variable {b : ZMod fieldP.toNat}

theorem class_pointAdd {p q : Jacobian (ZMod fieldP.toNat)} (hp : Finite b p) (hq : Finite b q)
    (hne : ¬p.coords ≈ q.coords) :
    (⟦(pointAdd (ringOps _) p q).coords⟧ : PointClass _) =
      (curve b).addMap ⟦p.coords⟧ ⟦q.coords⟧ := by
  have htwo : IsUnit (2 : ZMod fieldP.toNat) :=
    (ZMod.isUnit_iff_coprime 2 _).2 (by decide +kernel)
  rw [pointAdd_coords hp.equation hq.equation, smul_eq _ ((htwo.neg.mul hp.z).mul hq.z), addMap_eq,
    add_of_not_equiv hne]

/-- The point functions on limbs give the sums of the points that their arguments stand for. -/
theorem pointFunctions_add (p q : Jacobian Felem) :
    (pointDouble felemOps p).point = (curve b).addMap p.point p.point ∧
      (Finite b (p.map element) → Finite b (q.map element) → p.point ≠ q.point →
        (pointAdd felemOps p q).point = (curve b).addMap p.point q.point ∧
          (element q.z = 1 →
            (pointAddMixed felemOps p q.x q.y).point = (curve b).addMap p.point q.point)) := by
  refine ⟨?_, fun hp hq hne => ?_⟩
  · rw [Jacobian.point, map_pointDouble felemOps_hom, pointDouble_coords (b := b), Jacobian.point,
      addMap_eq, add_self]
  · have hadd := class_pointAdd hp hq fun h => hne (Quotient.sound h)
    refine ⟨?_, fun hone => ?_⟩
    · rw [Jacobian.point, map_pointAdd felemOps_hom, hadd]
      rfl
    · rw [Jacobian.point, map_pointAddMixed felemOps_hom, pointAddMixed_eq, ← hone]
      exact hadd

def kOne : List Int :=
  [2, 0, 0, 0xffff800, 0x1fffffff, 0xfffffff, 0x1fbfffff, 0x1ffffff, 0]

/-- The limbs of `kOne` times 0, 1 or 2. -/
def small (n : Fin 3) : Felem := ⟨kOne.map (n * ·), by decide +revert⟩

theorem element_small (n : Fin 3) : element (small n) = n := by decide +kernel +revert

def minusOne : Felem := felemOps.diff (small 0) (small 1)

theorem element_minusOne : element minusOne = -1 := by
  simp [minusOne, felemOps_hom.diff, element_small, ringOps]

/-- The points `(2, 1)` and `(-1, 1)` of `y ^ 2 = x ^ 3 - 3 * x - 1`. -/
theorem pointFunctions_add_small :
    (pointAdd felemOps ⟨small 2, small 1, small 1⟩ ⟨minusOne, small 1, small 1⟩).point =
      (curve (-1)).addMap (Jacobian.point ⟨small 2, small 1, small 1⟩)
        (Jacobian.point ⟨minusOne, small 1, small 1⟩) ∧
    (pointAddMixed felemOps ⟨small 2, small 1, small 1⟩ minusOne (small 1)).point =
      (curve (-1)).addMap (Jacobian.point ⟨small 2, small 1, small 1⟩)
        (Jacobian.point ⟨minusOne, small 1, small 1⟩) := by
  have hone : element (small 1) = 1 := by simp [element_small]
  refine (((pointFunctions_add _ _).2 ⟨(equation_iff _).2 ?_, ?_⟩ ⟨(equation_iff _).2 ?_, ?_⟩
    ?_)).imp_right fun h => h hone
  on_goal 5 =>
    intro h
    have hx := X_eq_of_equiv (Quotient.exact h)
    simp only [Jacobian.coords, Jacobian.map, element_small, element_minusOne] at hx
    revert hx
    decide +kernel
  all_goals simp [curve, Jacobian.coords, Jacobian.map, element_small, element_minusOne]
  all_goals norm_num

end AndroidSystem.Mincrypt
