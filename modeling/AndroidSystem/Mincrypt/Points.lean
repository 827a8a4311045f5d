/-!
# Points in Jacobian coordinates

The point functions of `p256_ec.c`, for any field elements and any way to call the functions on them.
The affine coordinates of `(x, y, z)` are `x / z ^ 2` and `y / z ^ 3`.
-/

namespace AndroidSystem.Mincrypt

/-- The functions on field elements that the point functions call. -/
structure FieldOps (m : Type → Type) (F : Type) where
  square : F → m F
  mul : F → F → m F
  sum : F → F → m F
  diff : F → F → m F
  scalar3 : F → m F
  scalar4 : F → m F
  scalar8 : F → m F

/-- A point in Jacobian coordinates. -/
@[ext]
structure Jacobian (F : Type) where
  x : F
  y : F
  z : F

variable {m : Type → Type} [Monad m] {F : Type} (ops : FieldOps m F)

def pointDouble (a : Jacobian F) : m (Jacobian F) := do
  let delta ← ops.square a.z
  let gamma ← ops.square a.y
  let beta ← ops.mul a.x gamma
  let tmp ← ops.sum a.x delta
  let tmp2 ← ops.diff a.x delta
  let alpha ← ops.mul tmp tmp2
  let alpha ← ops.scalar3 alpha
  let tmp ← ops.sum a.y a.z
  let tmp ← ops.square tmp
  let tmp ← ops.diff tmp gamma
  let zOut ← ops.diff tmp delta
  let beta ← ops.scalar4 beta
  let xOut ← ops.square alpha
  let xOut ← ops.diff xOut beta
  let xOut ← ops.diff xOut beta
  let tmp ← ops.diff beta xOut
  let tmp ← ops.mul alpha tmp
  let tmp2 ← ops.square gamma
  let tmp2 ← ops.scalar8 tmp2
  let yOut ← ops.diff tmp tmp2
  pure ⟨xOut, yOut, zOut⟩

/-- The second point is affine. -/
def pointAddMixed (a : Jacobian F) (x2 y2 : F) : m (Jacobian F) := do
  let z1z1 ← ops.square a.z
  let tmp ← ops.sum a.z a.z
  let u2 ← ops.mul x2 z1z1
  let z1z1z1 ← ops.mul a.z z1z1
  let s2 ← ops.mul y2 z1z1z1
  let h ← ops.diff u2 a.x
  let i ← ops.sum h h
  let i ← ops.square i
  let j ← ops.mul h i
  let r ← ops.diff s2 a.y
  let r ← ops.sum r r
  let v ← ops.mul a.x i
  let zOut ← ops.mul tmp h
  let rr ← ops.square r
  let xOut ← ops.diff rr j
  let xOut ← ops.diff xOut v
  let xOut ← ops.diff xOut v
  let tmp ← ops.diff v xOut
  let yOut ← ops.mul tmp r
  let tmp ← ops.mul a.y j
  let yOut ← ops.diff yOut tmp
  let yOut ← ops.diff yOut tmp
  pure ⟨xOut, yOut, zOut⟩

/-- What `point_add` and `point_add_or_double_vartime` compute from `u1`, `s1`, `h`, `i`, `j`, the
difference `r` and `tmp`. -/
def pointAddEnd (u1 s1 h i j r tmp : F) : m (Jacobian F) := do
  let r ← ops.sum r r
  let v ← ops.mul u1 i
  let zOut ← ops.mul tmp h
  let rr ← ops.square r
  let xOut ← ops.diff rr j
  let xOut ← ops.diff xOut v
  let xOut ← ops.diff xOut v
  let tmp ← ops.diff v xOut
  let yOut ← ops.mul tmp r
  let tmp ← ops.mul s1 j
  let yOut ← ops.diff yOut tmp
  let yOut ← ops.diff yOut tmp
  pure ⟨xOut, yOut, zOut⟩

def pointAdd (a b : Jacobian F) : m (Jacobian F) := do
  let z1z1 ← ops.square a.z
  let z2z2 ← ops.square b.z
  let u1 ← ops.mul a.x z2z2
  let tmp ← ops.sum a.z b.z
  let tmp ← ops.square tmp
  let tmp ← ops.diff tmp z1z1
  let tmp ← ops.diff tmp z2z2
  let z2z2z2 ← ops.mul b.z z2z2
  let s1 ← ops.mul a.y z2z2z2
  let u2 ← ops.mul b.x z1z1
  let z1z1z1 ← ops.mul a.z z1z1
  let s2 ← ops.mul b.y z1z1z1
  let h ← ops.diff u2 u1
  let i ← ops.sum h h
  let i ← ops.square i
  let j ← ops.mul h i
  let r ← ops.diff s2 s1
  pointAddEnd ops u1 s1 h i j r tmp

end AndroidSystem.Mincrypt
