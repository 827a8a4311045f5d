import AndroidSystem.Lib.Words

/-!
# 256-bit integers

The routines of libmincrypt on 256-bit integers: sums, differences, shifts, comparison, the modular
product, the binary Euclidean inverse and the check that a point is on the curve P-256. Numbers are
eight digits of 32 bits. Routines that go over the digits with a running sum are instances of
`Words.carryLoop`, each with its own columns and the type of its running sum.

A routine that writes through a pointer returns what it wrote. An `assert` that fails is `none`.
-/

namespace AndroidSystem.Mincrypt

open Words

/-- `p256_int`: eight digits, least significant first. -/
structure P256Int where
  a : List UInt32
  length_a : a.length = 8
  deriving DecidableEq, Repr

namespace P256Int

/-- The number the digits stand for. -/
def val (x : P256Int) : Nat := value x.a

/-- The eight digits at a pointer. -/
def ofDigits (l : List UInt32) : P256Int :=
  ⟨(List.range 8).map fun i => l.getD i 0, by simp⟩

end P256Int

/-! ## Constants -/

/-- Curve order. -/
def secp256r1N : P256Int :=
  ⟨[0xfc632551, 0xf3b9cac2, 0xa7179e84, 0xbce6faad, -1, -1, 0, -1], rfl⟩

/-- Curve field size. -/
def secp256r1P : P256Int := ⟨[-1, -1, -1, 0, 0, 0, 1, -1], rfl⟩

/-- Curve b. -/
def secp256r1B : P256Int :=
  ⟨[0x27d2604b, 0x3bce3c3e, 0xcc53b0f6, 0x651d06b0,
    0x769886bc, 0xb3ebbd55, 0xaa3a93e7, 0x5ac635d8], rfl⟩

def p256Zero : P256Int := ⟨[0, 0, 0, 0, 0, 0, 0, 0], rfl⟩

def p256One : P256Int := ⟨[1, 0, 0, 0, 0, 0, 0, 0], rfl⟩

/-! ## Running sums -/

/-- The type `p256_ddigit`. -/
def ddigit (x : Int) : Int := u64OfInt x

/-- The type `p256_sddigit`. -/
def sddigit (x : Int) : Int := i64 x

/-- `top, c[] += a[] * b`. -/
def mulAdd (a : P256Int) (b top : UInt32) (c : List UInt32) : UInt32 × List UInt32 :=
  let r := carryLoop ddigit 0 (c.zipWith (fun c a => c.toNat + a.toNat * b.toNat) a.a)
  (top + UInt32.ofInt r.2, r.1)

/-- `top, c[] -= top_a, a[]`. -/
def subTop (topA : UInt32) (a : List UInt32) (topC : UInt32) (c : List UInt32) :
    Option (UInt32 × List UInt32) :=
  let r := carryLoop sddigit 0 (c.zipWith (fun c a => c.toNat - a.toNat) a)
  let borrow := sddigit (r.2 + topC.toNat - topA.toNat)
  if borrow >>> (32 : Nat) = 0 then some (UInt32.ofInt borrow, r.1) else none

section

variable (MOD : P256Int) (top : UInt32) (c : List UInt32) (mask : UInt32)

/-- `top, c[] -= MOD[] & mask`. -/
def subM : UInt32 × List UInt32 :=
  let r := carryLoop sddigit 0 (c.zipWith (fun c m => c.toNat - (m &&& mask).toNat) MOD.a)
  (top + UInt32.ofInt r.2, r.1)

/-- `top, c[] += MOD[] & mask`. -/
def addM : UInt32 × List UInt32 :=
  let r := carryLoop ddigit 0 (c.zipWith (fun c m => c.toNat + (m &&& mask).toNat) MOD.a)
  (top + UInt32.ofInt r.2, r.1)

end

/-- `c = a - b`. Returns the borrow, 0 or -1. -/
def p256Sub (a b : P256Int) : Int × P256Int :=
  let r := carryLoop sddigit 0 (a.a.zipWith (fun a b => a.toNat - b.toNat) b.a)
  (i32 r.2, .ofDigits r.1)

/-- `c = a + b`. Returns the carry, 0 or 1. -/
def p256Add (a b : P256Int) : Int × P256Int :=
  let r := carryLoop ddigit 0 (a.a.zipWith (fun a b => a.toNat + b.toNat) b.a)
  (i32 r.2, .ofDigits r.1)

/-- -1, 0, 1 for `a < b`, `a == b` or `a > b`. -/
def p256Cmp (a b : P256Int) : Int :=
  let r := carryLoop sddigit 0 (a.a.zipWith (fun a b => a.toNat - b.toNat) b.a)
  let notzero := r.1.foldl (fun notzero digit => notzero ||| if digit ≠ 0 then 1 else 0) 0
  i32 (UInt32.ofInt r.2 ||| notzero).toNat

/-! ## Bits -/

def p256IsZero (a : P256Int) : Bool := a.a.foldl (· ||| ·) 0 = 0

def p256IsEven (a : P256Int) : Bool := !(a.a.getD 0 0 &&& 1 = 1)

/-- The loop of `p256_shr1`: each digit takes the low bit of the next one, the last one takes
`highbit`. -/
def shr1Loop (highbit : UInt32) : List UInt32 → List UInt32
  | [] => []
  | [d] => [d >>> 1 ||| highbit <<< 31]
  | d :: e :: l => (d >>> 1 ||| e <<< 31) :: shr1Loop highbit (e :: l)

def p256Shr1 (a : P256Int) (highbit : Int) : P256Int :=
  .ofDigits (shr1Loop (UInt32.ofInt highbit) a.a)

/-! ## The modular product -/

/-- The eight digits at `tmp + i`. -/
def window (tmp : List UInt32) (i : Nat) : List UInt32 := (tmp.drop i).take 8

/-- `tmp` after the eight digits at `tmp + i` have been written. -/
def setWindow (tmp : List UInt32) (i : Nat) (w : List UInt32) : List UInt32 :=
  tmp.take i ++ w ++ tmp.drop (i + 8)

/-- Multiply/add into `tmp`, for the digits of `b` from the `i`-th on. -/
def mulLoop (a : P256Int) : List UInt32 → Nat → List UInt32 → UInt32 → List UInt32 × UInt32
  | [], _, tmp, top => (tmp, top)
  | b :: bs, i, tmp, top =>
    let tmp := if i ≠ 0 then tmp.set (i + 7) top else tmp
    let r := mulAdd a b 0 (window tmp i)
    mulLoop a bs (i + 1) (setWindow tmp i r.2) r.1

/-- One round of the reduction: the new `tmp` and the new top digit. -/
def reduceStep (MOD : P256Int) (i : Nat) (tmp : List UInt32) (top : UInt32) :
    Option (List UInt32 × UInt32) := do
  let reducer := mulAdd MOD top 0 (List.replicate 8 0)
  let r ← subTop reducer.1 reducer.2 top (window tmp i)
  let tmp := setWindow tmp i r.2
  if r.1 ≤ 1 then
    let s := subM MOD r.1 (window tmp i) (~~~(r.1 - 1))
    let tmp := setWindow tmp i s.2
    if s.1 = 0 then some (tmp, tmp.getD (i + 7) 0) else none
  else none

/-- Reduce `tmp`, digit by digit, down from digit `i`. -/
def reduceLoop (MOD : P256Int) : Nat → List UInt32 → UInt32 → Option (List UInt32)
  | 0, tmp, top => (reduceStep MOD 0 tmp top).map Prod.fst
  | i + 1, tmp, top => do
    let r ← reduceStep MOD (i + 1) tmp top
    reduceLoop MOD i r.1 r.2

/-- `b := a % MOD`, for a number of at most the length of the modulus. -/
def p256Mod (MOD a : P256Int) : P256Int :=
  let r := subM MOD 0 a.a (-1)
  .ofDigits (addM MOD 0 r.2 r.1).2

/-- `c = a * (top_b | b) mod MOD`. -/
def p256Modmul (MOD a : P256Int) (topB : UInt32) (b : P256Int) : Option P256Int := do
  let r := mulLoop a b.a 0 (List.replicate 17 0) 0
  let tmp := r.1.set 15 r.2
  let s := mulAdd a topB 0 (window tmp 8)
  let tmp ← reduceLoop MOD 8 (setWindow tmp 8 s.2) s.1
  let t := subM MOD 0 (window tmp 0) (-1)
  some (.ofDigits (addM MOD 0 t.2 t.1).2)

/-! ## The modular inverse -/

/-- The variables of `p256_modinv_vartime`. -/
structure ModinvState where
  R : P256Int
  S : P256Int
  U : P256Int
  V : P256Int
  deriving DecidableEq, Repr

/-- `x / 2`, or `(x + MOD) / 2` if `x` is odd. -/
def halve (MOD x : P256Int) : P256Int :=
  if p256IsEven x then p256Shr1 x 0
  else
    let r := p256Add x MOD
    p256Shr1 r.2 r.1

/-- `x - y`, to which `MOD` is added if it is negative. -/
def subMod (MOD x y : P256Int) : P256Int :=
  let r := p256Sub x y
  if r.1 ≠ 0 then (p256Add r.2 MOD).2 else r.2

/-- One round of the loop: the new variables, and whether the loop is left. -/
def modinvStep (MOD : P256Int) (s : ModinvState) : ModinvState × Bool :=
  if p256IsEven s.U then ({ s with U := p256Shr1 s.U 0, R := halve MOD s.R }, false)
  else if p256IsEven s.V then ({ s with V := p256Shr1 s.V 0, S := halve MOD s.S }, false)
  else if (p256Sub s.V s.U).1 = 0 then
    let V := (p256Sub s.V s.U).2
    ({ s with V := V, S := subMod MOD s.S s.R }, p256IsZero V)
  else ({ s with U := (p256Sub s.U s.V).2, R := subMod MOD s.R s.S }, false)

/-- The loop, for at most `fuel` rounds. -/
def modinvLoop (MOD : P256Int) : Nat → ModinvState → Option ModinvState
  | 0, _ => none
  | fuel + 1, s =>
    let r := modinvStep MOD s
    if r.2 then some r.1 else modinvLoop MOD fuel r.1

/-- `b = 1/a mod MOD`, binary euclid. -/
def p256ModinvVartime (fuel : Nat) (MOD a : P256Int) : Option P256Int :=
  (modinvLoop MOD fuel ⟨p256Zero, p256One, MOD, a⟩).map fun s => p256Mod MOD s.R

/-! ## Points -/

/-- Verify `y^2 == x^3 - 3x + b mod p` and `0 < x < p` and `0 < y < p`. -/
def p256IsValidPoint (x y : P256Int) : Option Bool :=
  if p256Cmp secp256r1P x ≤ 0 ∨ p256Cmp secp256r1P y ≤ 0 ∨ p256IsZero x ∨ p256IsZero y then
    some false
  else do
    let y2 ← p256Modmul secp256r1P y 0 y
    let x3 ← p256Modmul secp256r1P x 0 x
    let x3 ← p256Modmul secp256r1P x 0 x3
    let x3 := subMod secp256r1P x3 x
    let x3 := subMod secp256r1P x3 x
    let x3 := subMod secp256r1P x3 x
    let r := p256Add x3 secp256r1B
    let x3 := if r.1 ≠ 0 then (p256Sub r.2 secp256r1P).2 else r.2
    some (p256Cmp y2 x3 = 0)

/-- The digits of a big-endian byte string. -/
def p256FromBin (src : List UInt8) : P256Int :=
  .ofDigits ((List.range 8).map fun i => beWord src (4 * (7 - i)))

end AndroidSystem.Mincrypt
