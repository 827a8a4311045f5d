import AndroidSystem.Lib.MixedRadix

/-!
# Field elements in nine limbs

The field of P-256 as `p256_ec.c` computes in it. An element has nine limbs that are alternately 29
and 28 bits wide, with room for more in each 32-bit word, and is kept multiplied by `R = 2 ^ 257`.

Every function is given for an arithmetic: that of the machine, where a sum of limbs is taken modulo
`2 ^ 32` and a sum of products modulo `2 ^ 64`, the exact one, where it is not, and others between
the two (`IsMachine`). A shift to the right is a division and a mask of the lowest bits a remainder in
all of them.
-/

namespace AndroidSystem.Mincrypt

open MixedRadix

/-- What happens to a `limb` and to a `u64`. `wrap` is for a `limb` that is meant to leave its range:
one that is masked after a shift, or one that falls below zero and comes back. -/
structure Arith where
  w32 : Int → Int
  w64 : Int → Int
  wrap : Int → Int

namespace Arith

def machine : Arith := ⟨(· % 2 ^ 32), (· % 2 ^ 64), (· % 2 ^ 32)⟩

def exact : Arith := ⟨id, id, id⟩

/-- A machine whose words hold what fits in them. What it makes of a result that does not fit is left
open, so that nothing that is the same for all of these depends on one. -/
structure IsMachine (A : Arith) : Prop where
  w32_eq : ∀ x, 0 ≤ x → x < 2 ^ 32 → A.w32 x = x
  w64_eq : ∀ x, 0 ≤ x → x < 2 ^ 64 → A.w64 x = x
  wrap_eq : ∀ x, A.wrap x = x % 2 ^ 32

theorem isMachine_machine : machine.IsMachine :=
  ⟨fun _ => Int.emod_eq_of_lt, fun _ => Int.emod_eq_of_lt, fun _ => rfl⟩

variable (A : Arith)

/-- A shift of a limb to the left. -/
def shl (x : Int) (k : Nat) : Int := A.w32 (x * 2 ^ k)

/-- The lowest `m` bits of a shifted limb. -/
def shlMask (x : Int) (k m : Nat) : Int := A.wrap (x * 2 ^ k) % 2 ^ m

/-- A sum of products of two limbs. -/
def sum64 : List Int → Int
  | [] => 0
  | t :: ts => ts.foldl (fun s t => A.w64 (s + t)) t

/-- `tmp2[j] += e`. -/
def addAt (w : Nat → Int) (j : Nat) (e : Int) : Nat → Int :=
  Function.update w j (A.wrap (w j + e))

end Arith

/-- The width of a limb: 29 bits at an even place and 28 at an odd one. -/
def limbWidth (even : Bool) : Nat := if even then 29 else 28

/-- The widths of `n` limbs. -/
def limbWidths : Bool → Nat → List Nat
  | _, 0 => []
  | even, n + 1 => limbWidth even :: limbWidths (!even) n

/-- The widths of the limbs of a field element. -/
def widths : List Nat := limbWidths true 9

/-- `e & NON_ZERO_TO_ALL_ONES(x)`, for `x` of at most `2 ^ 31`. -/
def masked (x e : Int) : Int := if x = 0 then 0 else e

/-! ## Sums -/

section

variable (A : Arith)

def felemReduceCarry (inout : List Int) (carry : Int) : List Int :=
  match inout with
  | [a0, a1, a2, a3, a4, a5, a6, a7, a8] =>
    [A.w32 (a0 + A.shl carry 1),
      a1,
      a2,
      A.w32 (A.w32 (a3 + masked carry 0x10000000) - A.shl carry 11),
      A.w32 (a4 + masked carry (0x20000000 - 1)),
      A.w32 (a5 + masked carry (0x10000000 - 1)),
      A.w32 (A.w32 (a6 + masked carry (0x20000000 - 1)) - A.shl carry 22),
      -- the first difference may be below zero
      A.wrap (A.wrap (a7 - masked carry 1) + A.shl carry 25),
      a8]
  | _ => inout

/-- The end of most functions: the carries go up, and the last one is reduced. `word` is what happens
to a sum with a carry. -/
def carryAndReduce (word : Int → Int) (limbs : List Int) : List Int :=
  let r := carryChain word widths 0 limbs
  felemReduceCarry A r.1 r.2

def felemSum (a b : List Int) : List Int :=
  carryAndReduce A A.w32 (a.zipWith (fun x y => A.w32 (x + y)) b)

/-- A multiple of `p` whose limbs are larger than those of a field element. -/
def zero31 : List Int :=
  [2 ^ 31 - 2 ^ 3, 2 ^ 30 - 2 ^ 2, 2 ^ 31 - 2 ^ 2, 2 ^ 30 + 2 ^ 13 - 2 ^ 2, 2 ^ 31 - 2 ^ 2,
    2 ^ 30 - 2 ^ 2, 2 ^ 31 + 2 ^ 24 - 2 ^ 2, 2 ^ 30 - 2 ^ 27 - 2 ^ 2, 2 ^ 31 - 2 ^ 2]

def felemDiff (a b : List Int) : List Int :=
  carryAndReduce A A.w32
    ((a.zipWith (fun x y => A.wrap (x - y)) b).zipWith (fun d z => A.wrap (d + z)) zero31)

def felemScalar3 (a : List Int) : List Int := carryAndReduce A A.w32 (a.map fun x => A.w32 (x * 3))

/-- `felem_scalar_4` and `felem_scalar_8`: a product with `2 ^ k`. -/
def felemScale (k : Nat) (a : List Int) : List Int :=
  let r := scaleChain A.wrap A.w32 k widths 0 a
  felemReduceCarry A r.1 r.2

def felemScalar4 (a : List Int) : List Int := felemScale A 2 a

def felemScalar8 (a : List Int) : List Int := felemScale A 3 a

/-! ## Reduction of a product -/

/-- `(limb) x`. -/
def loWord (x : Int) : Int := x % 2 ^ 32

/-- `(limb) (x >> 32)`. -/
def hiWord (x : Int) : Int := x / 2 ^ 32 % 2 ^ 32

/-- The words of 64 bits overlap with the two above them. The loop makes words of the widths of
limbs from them; `p2` and `p1` are the two words before. The first two words are like the others with
zeros before them, since the `|=` for `tmp2[1]` joins bits that do not overlap. -/
def spreadLoop : List Nat → Int → Int → Int → List Int → List Int
  | w :: ws, p2, p1, carry, t :: ts =>
    let s := A.w32 (hiWord p2 / 2 ^ 25 + loWord p1 / 2 ^ (57 - w))
    let s := A.w32 (s + A.shlMask (hiWord p1) (w - 25) w)
    let s := A.w32 (s + loWord t % 2 ^ w)
    let s := A.w32 (s + carry)
    s % 2 ^ w :: spreadLoop ws p1 t (s / 2 ^ w) ts
  | _, p2, p1, carry, _ =>
    let s := A.w32 (hiWord p2 / 2 ^ 25 + loWord p1 / 2 ^ 29)
    let s := A.w32 (s + A.shl (hiWord p1) 3)
    [A.w32 (s + carry)]

/-- The top half of the loop: word `i` is made zero by adding `tmp2[i] * p`. -/
def eliminateTop (i : Nat) (w : Nat → Int) : Nat → Int :=
  let w := A.addAt w (i + 1) (w i / 2 ^ 29)
  let x := w i % 2 ^ 29
  let w := Function.update w i 0
  let w := A.addAt w (i + 3) (A.shlMask x 10 28)
  let w := A.addAt w (i + 4) (x / 2 ^ 18)
  let w := A.addAt w (i + 6) (A.shlMask x 21 29)
  let w := A.addAt w (i + 7) (x / 2 ^ 8)
  let w := A.addAt w (i + 7) (masked x 0x10000000)
  let w := A.addAt w (i + 8) (masked x (x - 1))
  let w := A.addAt w (i + 7) (-(A.shlMask x 24 28))
  let w := A.addAt w (i + 8) (-(x / 2 ^ 4))
  let w := A.addAt w (i + 8) (masked x 0x20000000)
  let w := A.addAt w (i + 8) (-x)
  let w := A.addAt w (i + 8) (A.shlMask x 28 29)
  -- this is below zero for `x = 1`
  A.addAt w (i + 9) (masked x (A.wrap (x / 2 - 1)))

/-- The bottom half: word `i + 1` is made zero. -/
def eliminateBottom (i : Nat) (w : Nat → Int) : Nat → Int :=
  let w := A.addAt w (i + 2) (w (i + 1) / 2 ^ 28)
  let x := w (i + 1) % 2 ^ 28
  let w := Function.update w (i + 1) 0
  let w := A.addAt w (i + 4) (A.shlMask x 11 29)
  let w := A.addAt w (i + 5) (x / 2 ^ 18)
  let w := A.addAt w (i + 7) (A.shlMask x 21 28)
  let w := A.addAt w (i + 8) (x / 2 ^ 7)
  let w := A.addAt w (i + 8) (masked x 0x20000000)
  let w := A.addAt w (i + 9) (masked x (x - 1))
  let w := A.addAt w (i + 8) (-(A.shlMask x 25 29))
  let w := A.addAt w (i + 9) (-(x / 2 ^ 4))
  let w := A.addAt w (i + 9) (masked x 0x10000000)
  let w := A.addAt w (i + 9) (-x)
  A.addAt w (i + 10) (masked x (x - 1))

/-- The loop, which ends in the middle of its last round. -/
def eliminateLoop (w : Nat → Int) : Nat → Int :=
  eliminateTop A 8 ([0, 2, 4, 6].foldl (fun w i => eliminateBottom A i (eliminateTop A i w)) w)

/-- The words above `2 ^ 257` have the widths 28, 29, ..., which is corrected on the way down. -/
def shiftDown (w : Nat → Int) : List Int :=
  [A.wrap (w 9 + A.shlMask (w 10) 28 29), w 10 / 2,
    A.wrap (w 11 + A.shlMask (w 12) 28 29), w 12 / 2,
    A.wrap (w 13 + A.shlMask (w 14) 28 29), w 14 / 2,
    A.wrap (w 15 + A.shlMask (w 16) 28 29), w 16 / 2, w 17]

def felemReduceDegree (tmp : List Int) : List Int :=
  let tmp2 := spreadLoop A (limbWidths true 17) 0 0 0 tmp
  carryAndReduce A A.wrap (shiftDown A (eliminateLoop A fun j => tmp2.getD j 0))

/-! ## Products -/

/-- The terms of the columns of a square. -/
def squareTerms (a : List Int) : List (List Int) :=
  match a with
  | [a0, a1, a2, a3, a4, a5, a6, a7, a8] =>
    [
      [a0 * a0],
      [a0 * (A.shl a1 1)],
      [a0 * (A.shl a2 1), a1 * (A.shl a1 1)],
      [a0 * (A.shl a3 1), a1 * (A.shl a2 1)],
      [a0 * (A.shl a4 1), a1 * (A.shl a3 2), a2 * a2],
      [a0 * (A.shl a5 1), a1 * (A.shl a4 1), a2 * (A.shl a3 1)],
      [a0 * (A.shl a6 1), a1 * (A.shl a5 2), a2 * (A.shl a4 1), a3 * (A.shl a3 1)],
      [a0 * (A.shl a7 1), a1 * (A.shl a6 1), a2 * (A.shl a5 1), a3 * (A.shl a4 1)],
      [a0 * (A.shl a8 1), a1 * (A.shl a7 2), a2 * (A.shl a6 1), a3 * (A.shl a5 2), a4 * a4],
      [a1 * (A.shl a8 1), a2 * (A.shl a7 1), a3 * (A.shl a6 1), a4 * (A.shl a5 1)],
      [a2 * (A.shl a8 1), a3 * (A.shl a7 2), a4 * (A.shl a6 1), a5 * (A.shl a5 1)],
      [a3 * (A.shl a8 1), a4 * (A.shl a7 1), a5 * (A.shl a6 1)],
      [a4 * (A.shl a8 1), a5 * (A.shl a7 2), a6 * a6],
      [a5 * (A.shl a8 1), a6 * (A.shl a7 1)],
      [a6 * (A.shl a8 1), a7 * (A.shl a7 1)],
      [a7 * (A.shl a8 1)],
      [a8 * a8]
    ]
  | _ => []

/-- The columns `tmp` of a square. -/
def squareColumns (a : List Int) : List Int := (squareTerms A a).map A.sum64

def felemSquare (a : List Int) : List Int := felemReduceDegree A (squareColumns A a)

/-- The terms of the columns of a product. -/
def mulTerms (a b : List Int) : List (List Int) :=
  match a, b with
  | [a0, a1, a2, a3, a4, a5, a6, a7, a8], [b0, b1, b2, b3, b4, b5, b6, b7, b8] =>
    [
      [a0 * b0],
      [a0 * b1, a1 * b0],
      [a0 * b2, a1 * (A.shl b1 1), a2 * b0],
      [a0 * b3, a1 * b2, a2 * b1, a3 * b0],
      [a0 * b4, a1 * (A.shl b3 1), a2 * b2, a3 * (A.shl b1 1), a4 * b0],
      [a0 * b5, a1 * b4, a2 * b3, a3 * b2, a4 * b1, a5 * b0],
      [a0 * b6, a1 * (A.shl b5 1), a2 * b4, a3 * (A.shl b3 1),
        a4 * b2, a5 * (A.shl b1 1), a6 * b0],
      [a0 * b7, a1 * b6, a2 * b5, a3 * b4, a4 * b3, a5 * b2, a6 * b1, a7 * b0],
      [a0 * b8, a1 * (A.shl b7 1), a2 * b6, a3 * (A.shl b5 1), a4 * b4,
        a5 * (A.shl b3 1), a6 * b2, a7 * (A.shl b1 1), a8 * b0],
      [a1 * b8, a2 * b7, a3 * b6, a4 * b5, a5 * b4, a6 * b3, a7 * b2, a8 * b1],
      [a2 * b8, a3 * (A.shl b7 1), a4 * b6, a5 * (A.shl b5 1),
        a6 * b4, a7 * (A.shl b3 1), a8 * b2],
      [a3 * b8, a4 * b7, a5 * b6, a6 * b5, a7 * b4, a8 * b3],
      [a4 * b8, a5 * (A.shl b7 1), a6 * b6, a7 * (A.shl b5 1), a8 * b4],
      [a5 * b8, a6 * b7, a7 * b6, a8 * b5],
      [a6 * b8, a7 * (A.shl b7 1), a8 * b6],
      [a7 * b8, a8 * b7],
      [a8 * b8]
    ]
  | _, _ => []

/-- The columns `tmp` of a product. -/
def mulColumns (a b : List Int) : List Int := (mulTerms A a b).map A.sum64

def felemMul (a b : List Int) : List Int := felemReduceDegree A (mulColumns A a b)

end

end AndroidSystem.Mincrypt
