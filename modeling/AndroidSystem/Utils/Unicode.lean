import Mathlib.Data.Nat.Bitwise
import Mathlib.Tactic.Ring

/-!
# Conversions between UTF-8, UTF-16 and UTF-32

A model of `libutils/Unicode.cpp`. A string is the list of its units; `src_len` is its length.
The conversions give everything that is written to `dst`, the terminator included. The decoders of
UTF-8 do not look where their input ends while they read a character: `none` stands for a read past
the end of the input, and for a shift by the width of the type or more.

`utf16ToUtf8Length` measures what `utf16ToUtf8` writes. The two loops differ after a high surrogate
that no low surrogate follows: the measuring loop has already stepped past it, and takes the next
unit by itself, even where it begins a pair. `utf16ToUtf8Length_eq_iff` says on which strings the
two agree.
-/

namespace AndroidSystem.Unicode

open List

variable {u v : UInt16}

/-! ## UTF-32 -/

def kByteMask : UInt32 := 0x000000BF
def kByteMark : UInt32 := 0x00000080
def kUnicodeSurrogateStart : UInt32 := 0x0000D800
def kUnicodeSurrogateEnd : UInt32 := 0x0000DFFF
def kUnicodeMaxCodepoint : UInt32 := 0x0010FFFF

/-- The mark of the first byte, by the number of bytes of the sequence. -/
def kFirstByteMark : List UInt32 := [0x00, 0x00, 0xC0, 0xE0, 0xF0]

/-- `utf32_codepoint_utf8_length`: 0 for what is no character. -/
def utf32CodepointUtf8Length (srcChar : UInt32) : Nat :=
  if srcChar < 0x00000080 then 1
  else if srcChar < 0x00000800 then 2
  else if srcChar < 0x00010000 then
    if srcChar < kUnicodeSurrogateStart ∨ srcChar > kUnicodeSurrogateEnd then 3 else 0
  else if srcChar ≤ kUnicodeMaxCodepoint then 4
  else 0

/-- The cases of the `switch` from `n` down, each falling through to the next. The bytes are written
from the last one to the first. -/
def writeBack (mark : UInt32) : Nat → UInt32 → List UInt8 → List UInt8
  | 0, _, out => out
  | 1, srcChar, out => (srcChar ||| mark).toUInt8 :: out
  | n + 2, srcChar, out =>
    writeBack mark (n + 1) (srcChar >>> 6) (((srcChar ||| kByteMark) &&& kByteMask).toUInt8 :: out)

def utf32CodepointToUtf8 (srcChar : UInt32) (bytes : Nat) : List UInt8 :=
  if bytes ≤ 4 then writeBack (kFirstByteMark.getD bytes 0) bytes srcChar [] else []

/-- What is written for one character. -/
def encodeCodepoint (utf32 : UInt32) : List UInt8 :=
  utf32CodepointToUtf8 utf32 (utf32CodepointUtf8Length utf32)

def utf32ToUtf8Length (src : List UInt32) : Int :=
  if src.length = 0 then -1 else ((src.map utf32CodepointUtf8Length).sum : Nat)

def utf32ToUtf8 (src : List UInt32) : List UInt8 :=
  if src.length = 0 then [] else src.flatMap encodeCodepoint ++ [0]

/-! ## UTF-16 -/

def isHigh (u : UInt16) : Bool := u &&& 0xFC00 == 0xD800
def isLow (u : UInt16) : Bool := u &&& 0xFC00 == 0xDC00

/-- The character of a surrogate pair. -/
def pair (high low : UInt16) : UInt32 :=
  ((high.toUInt32 - 0xD800) <<< 10 ||| (low.toUInt32 - 0xDC00)) + 0x10000

/-- The loop of `utf16_to_utf8`. -/
def utf16ToUtf8Loop : List UInt16 → List UInt8
  | [] => []
  | [u] => encodeCodepoint u.toUInt32
  | u :: v :: rest =>
    if isHigh u ∧ isLow v then encodeCodepoint (pair u v) ++ utf16ToUtf8Loop rest
    else encodeCodepoint u.toUInt32 ++ utf16ToUtf8Loop (v :: rest)

def utf16ToUtf8 (src : List UInt16) : List UInt8 :=
  if src.length = 0 then [] else utf16ToUtf8Loop src ++ [0]

/-- The loop of `utf16_to_utf8_length`. -/
def utf16ToUtf8LengthLoop : List UInt16 → Nat
  | [] => 0
  | [u] => utf32CodepointUtf8Length u.toUInt32
  | u :: v :: rest =>
    if isHigh u then
      -- `++src` in the condition has moved on to `v`
      if isLow v then 4 + utf16ToUtf8LengthLoop rest
      else utf32CodepointUtf8Length v.toUInt32 + utf16ToUtf8LengthLoop rest
    else utf32CodepointUtf8Length u.toUInt32 + utf16ToUtf8LengthLoop (v :: rest)

def utf16ToUtf8Length (src : List UInt16) : Int :=
  if src.length = 0 then -1 else (utf16ToUtf8LengthLoop src : Nat)

/-! ## UTF-8 -/

section

variable (charSigned : Bool)

/-- A `char` as a `char32_t`: where `char` is signed, its sign is extended. -/
def charToChar32 (c : UInt8) : UInt32 :=
  if charSigned ∧ 0x80 ≤ c then 0xFFFFFF00 ||| c.toUInt32 else c.toUInt32

/-- The loop of `utf32_at_internal`: the character, `to_ignore_mask` and `num_to_read` at its end. -/
def utf32AtLoop (firstChar : UInt32) : List UInt8 → UInt32 → UInt32 → UInt32 → Nat →
    Option (UInt32 × UInt32 × Nat)
  | cur, mask, toIgnoreMask, utf32, numToRead =>
    if firstChar &&& mask = 0 then some (utf32, toIgnoreMask ||| mask, numToRead)
    else match cur with
      | [] => none
      | c :: cur =>
        utf32AtLoop firstChar cur (mask >>> 1) (toIgnoreMask ||| mask)
          ((utf32 <<< 6) + (c.toUInt32 &&& 0x3F)) (numToRead + 1)

/-- `utf32_at_internal`: the character at `cur`, and the number of bytes read. -/
def utf32AtInternal : List UInt8 → Option (UInt32 × Nat)
  | [] => none
  | firstChar :: cur =>
    if firstChar &&& 0x80 = 0 then some (firstChar.toUInt32, 1)
    else do
      let (utf32, toIgnoreMask, numToRead) ← utf32AtLoop (charToChar32 charSigned firstChar) cur 0x40
        0xFFFFFF80 (charToChar32 charSigned firstChar) 1
      if 6 * (numToRead - 1) < 32 then
        some (utf32 &&& ~~~(toIgnoreMask <<< (6 * (numToRead - 1)).toUInt32), numToRead)
      else none

/-- The loop of `utf8_to_utf32`. Every iteration reads at least one byte. -/
def utf8ToUtf32Loop : Nat → List UInt8 → Option (List UInt32)
  | _, [] => some []
  | 0, _ :: _ => none
  | fuel + 1, cur@(_ :: _) => do
    let (utf32, numRead) ← utf32AtInternal charSigned cur
    let rest ← utf8ToUtf32Loop fuel (cur.drop numRead)
    some (utf32 :: rest)

def utf8ToUtf32 (src : List UInt8) : Option (List UInt32) :=
  if src.length = 0 then some []
  else (utf8ToUtf32Loop charSigned src.length src).map (· ++ [0])

end

/-- The inner loop of `utf8_to_utf32_length`: `mask` has `n` bits to go. -/
def skipLoop (firstChar : UInt8) : Nat → UInt8 → Nat → Nat
  | 0, _, numToSkip => numToSkip
  | n + 1, mask, numToSkip =>
    if firstChar &&& mask = 0 then numToSkip else skipLoop firstChar n (mask >>> 1) (numToSkip + 1)

def numToSkip (firstChar : UInt8) : Nat :=
  if firstChar &&& 0x80 = 0 then 1 else skipLoop firstChar 7 0x40 1

/-- The loop of `utf8_to_utf32_length`. -/
def utf8ToUtf32LengthLoop : Nat → List UInt8 → Nat
  | _, [] => 0
  | 0, _ :: _ => 0
  | fuel + 1, c :: cur => utf8ToUtf32LengthLoop fuel ((c :: cur).drop (numToSkip c)) + 1

def utf8ToUtf32Length (src : List UInt8) : Nat := utf8ToUtf32LengthLoop src.length src

def utf8CodepointLen (ch : UInt8) : Nat :=
  (((0xe5000000 : UInt32) >>> ((ch >>> 3) &&& 0x1e).toUInt32) &&& 3).toNat + 1

def utf8ShiftAndMask (codePoint : UInt32) (byte : UInt8) : UInt32 :=
  codePoint <<< 6 ||| (0x3F &&& byte.toUInt32)

def utf8ToUtf32Codepoint : List UInt8 → Nat → Option UInt32
  | a :: _, 1 => some a.toUInt32
  | a :: b :: _, 2 => some (utf8ShiftAndMask (a.toUInt32 &&& 0x1f) b)
  | a :: b :: c :: _, 3 => some (utf8ShiftAndMask (utf8ShiftAndMask (a.toUInt32 &&& 0x0f) b) c)
  | a :: b :: c :: d :: _, 4 =>
    some (utf8ShiftAndMask (utf8ShiftAndMask (utf8ShiftAndMask (a.toUInt32 &&& 0x07) b) c) d)
  | _, 1 => none
  | _, 2 => none
  | _, 3 => none
  | _, 4 => none
  | _, _ => some 0xffff

/-- The loop of `utf8_to_utf16_length`: the units, and whether the last character ends where the
string does. -/
def utf8ToUtf16LengthLoop : Nat → List UInt8 → Option (Nat × Bool)
  | _, [] => some (0, true)
  | 0, _ :: _ => none
  | fuel + 1, c :: cur => do
    let codepoint ← utf8ToUtf32Codepoint (c :: cur) (utf8CodepointLen c)
    let units := if codepoint > 0xFFFF then 2 else 1
    if utf8CodepointLen c > cur.length + 1 then some (units, false)
    else do
      let (rest, ends) ← utf8ToUtf16LengthLoop fuel ((c :: cur).drop (utf8CodepointLen c))
      some (units + rest, ends)

def utf8ToUtf16Length (u8str : List UInt8) : Option Int := do
  let (u16measuredLen, ends) ← utf8ToUtf16LengthLoop u8str.length u8str
  some (if ends then (u16measuredLen : Int) else -1)

/-- The units of one character. -/
def utf16Units (codepoint : UInt32) : List UInt16 :=
  if codepoint ≤ 0xFFFF then [codepoint.toUInt16]
  else [(((codepoint - 0x10000) >>> 10) + 0xD800).toUInt16,
    (((codepoint - 0x10000) &&& 0x3FF) + 0xDC00).toUInt16]

def utf8ToUtf16NoNullTerminator : Nat → List UInt8 → Option (List UInt16)
  | _, [] => some []
  | 0, _ :: _ => none
  | fuel + 1, c :: cur => do
    let codepoint ← utf8ToUtf32Codepoint (c :: cur) (utf8CodepointLen c)
    let rest ← utf8ToUtf16NoNullTerminator fuel ((c :: cur).drop (utf8CodepointLen c))
    some (utf16Units codepoint ++ rest)

def utf8ToUtf16 (u8str : List UInt8) : Option (List UInt16) :=
  (utf8ToUtf16NoNullTerminator u8str.length u8str).map (· ++ [0])

/-! ## Lengths of the encodings -/

@[simp] theorem length_writeBack (mark : UInt32) (n : Nat) (c : UInt32) (out : List UInt8) :
    (writeBack mark n c out).length = n + out.length := by
  induction n, c, out using writeBack.induct with
  | case1 => simp [writeBack]
  | case2 => simp [writeBack, add_comm]
  | case3 n c out ih =>
    rw [writeBack, ih, length_cons]
    omega

theorem utf32CodepointUtf8Length_le (c : UInt32) : utf32CodepointUtf8Length c ≤ 4 := by
  unfold utf32CodepointUtf8Length
  split_ifs <;> decide

@[simp] theorem length_encodeCodepoint (c : UInt32) :
    (encodeCodepoint c).length = utf32CodepointUtf8Length c := by
  unfold encodeCodepoint utf32CodepointToUtf8
  rw [if_pos (utf32CodepointUtf8Length_le c), length_writeBack, length_nil, add_zero]

/-! ## Surrogates -/

theorem and_upper {n : Nat} (hn : n < 2 ^ 16) : n &&& 0xFC00 = n / 1024 * 1024 := by
  apply Nat.eq_of_testBit_eq
  intro i
  rw [show (0xFC00 : Nat) = 2 ^ 10 * (2 ^ 6 - 1) by decide,
    show n / 1024 * 1024 = 2 ^ 10 * (n / 2 ^ 10) by omega, Nat.testBit_and,
    Nat.testBit_two_pow_mul, Nat.testBit_two_pow_mul, Nat.testBit_two_pow_sub_one,
    Nat.testBit_div_two_pow]
  by_cases hi : 10 ≤ i
  · by_cases hi' : i - 10 < 6
    · simp [hi, hi']
    · have hzero : n.testBit i = false :=
        Nat.testBit_lt_two_pow (lt_of_lt_of_le hn (Nat.pow_le_pow_right (by decide) (by omega)))
      simp [hi, hzero]
  · simp [hi]

theorem upper_eq_iff (u m : UInt16) : u &&& 0xFC00 == m ↔ u.toNat / 1024 * 1024 = m.toNat := by
  rw [beq_iff_eq, ← UInt16.toNat_inj]
  exact Eq.congr_left (and_upper u.toNat_lt)

theorem isHigh_iff (u : UInt16) : isHigh u ↔ 0xD800 ≤ u.toNat ∧ u.toNat < 0xDC00 := by
  rw [isHigh, upper_eq_iff, show (0xD800 : UInt16).toNat = 0xD800 from rfl]
  omega

theorem isLow_iff (u : UInt16) : isLow u ↔ 0xDC00 ≤ u.toNat ∧ u.toNat < 0xE000 := by
  rw [isLow, upper_eq_iff, show (0xDC00 : UInt16).toNat = 0xDC00 from rfl]
  omega

theorem not_isHigh_of_isLow (h : isLow u = true) : isHigh u = false := by
  rw [isLow_iff] at h
  rw [← Bool.not_eq_true, isHigh_iff]
  omega

theorem toNat_pair (hu : isHigh u = true) (hv : isLow v = true) :
    (pair u v).toNat = (u.toNat - 0xD800) * 1024 + (v.toNat - 0xDC00) + 0x10000 := by
  obtain ⟨hu1, hu2⟩ := (isHigh_iff u).1 hu
  obtain ⟨hv1, hv2⟩ := (isLow_iff v).1 hv
  have hhigh : (u.toUInt32 - 0xD800).toNat = u.toNat - 0xD800 :=
    UInt32.toNat_sub_of_le _ _ (by rw [UInt32.le_iff_toNat_le]; simpa using hu1)
  have hlow : (v.toUInt32 - 0xDC00).toNat = v.toNat - 0xDC00 :=
    UInt32.toNat_sub_of_le _ _ (by rw [UInt32.le_iff_toNat_le]; simpa using hv1)
  have hor := Nat.shiftLeft_add_eq_or_of_lt (i := 10) (b := v.toNat - 0xDC00) (by omega)
    (u.toNat - 0xD800)
  rw [pair, UInt32.toNat_add, UInt32.toNat_or, UInt32.toNat_shiftLeft, hhigh, hlow,
    show (10 : UInt32).toNat % 32 = 10 from rfl, show (0x10000 : UInt32).toNat = 0x10000 from rfl,
    Nat.mod_eq_of_lt (a := (u.toNat - 0xD800) <<< 10) (by rw [Nat.shiftLeft_eq]; omega)]
  omega

theorem utf32CodepointUtf8Length_eq (c : UInt32) : utf32CodepointUtf8Length c =
    if c.toNat < 0x80 then 1 else if c.toNat < 0x800 then 2
    else if c.toNat < 0x10000 then if c.toNat < 0xD800 ∨ c.toNat > 0xDFFF then 3 else 0
    else if c.toNat ≤ 0x10FFFF then 4 else 0 := rfl

theorem length_pair (hu : isHigh u = true) (hv : isLow v = true) :
    utf32CodepointUtf8Length (pair u v) = 4 := by
  have hpair := toNat_pair hu hv
  rw [isHigh_iff] at hu
  rw [isLow_iff] at hv
  rw [utf32CodepointUtf8Length_eq, if_neg (by omega), if_neg (by omega), if_neg (by omega),
    if_pos (by omega)]

theorem length_surrogate (h : isHigh u = true ∨ isLow u = true) :
    utf32CodepointUtf8Length u.toUInt32 = 0 := by
  rw [isHigh_iff, isLow_iff] at h
  have hu : u.toUInt32.toNat = u.toNat := by simp
  rw [utf32CodepointUtf8Length_eq, if_neg (by omega), if_neg (by omega), if_pos (by omega),
    if_neg (by omega)]

/-! ## Measuring UTF-16 -/

/-- An even number of high surrogates stands right before a low one. `n` is the number of high
surrogates right before the string. -/
def EvenRunFrom : Nat → List UInt16 → Prop
  | _, [] => False
  | n, u :: us => (0 < n ∧ n % 2 = 0 ∧ isLow u) ∨ EvenRunFrom (if isHigh u then n + 1 else 0) us

/-- An even run of high surrogates stands right before a low one. -/
def EvenRun (us : List UInt16) : Prop := EvenRunFrom 0 us

/-- Only whether a run is even matters. -/
theorem evenRunFrom_add_two (n : Nat) (us : List UInt16) :
    EvenRunFrom (n + 3) us ↔ EvenRunFrom (n + 1) us := by
  induction us generalizing n with
  | nil => rfl
  | cons u us ih =>
    rw [EvenRunFrom, EvenRunFrom]
    have hparity : (n + 3) % 2 = (n + 1) % 2 := by omega
    cases hu : isHigh u with
    | true => simp [hparity, ih (n + 1)]
    | false => simp [hparity]

theorem evenRun_of_not_high (hu : isHigh u = false) (us : List UInt16) :
    EvenRun (u :: us) ↔ EvenRun us := by
  simp [EvenRun, EvenRunFrom, hu]

theorem evenRun_pair (hu : isHigh u = true) (hv : isHigh v = false) (us : List UInt16) :
    EvenRun (u :: v :: us) ↔ EvenRun us := by
  simp [EvenRun, EvenRunFrom, hu, hv]

/-- Two high surrogates change nothing, unless a low one comes next. -/
theorem evenRun_two_high (hu : isHigh u = true) (hv : isHigh v = true) (us : List UInt16) :
    EvenRun (u :: v :: us) ↔ (∃ w ws, us = w :: ws ∧ isLow w = true) ∨ EvenRun us := by
  have hlow : ¬isLow v = true := by
    intro h
    rw [not_isHigh_of_isLow h] at hv
    cases hv
  cases us with
  | nil => simp [EvenRun, EvenRunFrom, hu, hlow]
  | cons w ws =>
    cases hw : isHigh w with
    | true =>
      have := evenRunFrom_add_two 0 ws
      simp_all [EvenRun, EvenRunFrom]
    | false => simp [EvenRun, EvenRunFrom, hu, hv, hw, hlow]

theorem utf16ToUtf8Loop_of_not_high (hu : isHigh u = false) (us : List UInt16) :
    utf16ToUtf8Loop (u :: us) = encodeCodepoint u.toUInt32 ++ utf16ToUtf8Loop us := by
  cases us with
  | nil => simp [utf16ToUtf8Loop]
  | cons v us => rw [utf16ToUtf8Loop, if_neg (by simp [hu])]

/-- The measuring loop never counts too much, and it counts right if there is no even run. -/
theorem lengthLoop_spec (src : List UInt16) :
    utf16ToUtf8LengthLoop src ≤ (utf16ToUtf8Loop src).length ∧
      (utf16ToUtf8LengthLoop src = (utf16ToUtf8Loop src).length ↔ ¬EvenRun src) := by
  induction src using utf16ToUtf8LengthLoop.induct with
  | case1 => simp [utf16ToUtf8LengthLoop, utf16ToUtf8Loop, EvenRun, EvenRunFrom]
  | case2 u => simp [utf16ToUtf8LengthLoop, utf16ToUtf8Loop, EvenRun, EvenRunFrom]
  | case3 u v rest hu hv ih =>
    rw [utf16ToUtf8LengthLoop, utf16ToUtf8Loop, if_pos hu, if_pos hv, if_pos ⟨hu, hv⟩,
      length_append, length_encodeCodepoint, length_pair hu hv,
      evenRun_pair hu (not_isHigh_of_isLow hv)]
    exact ⟨Nat.add_le_add_left ih.1 _, add_left_cancel_iff.trans ih.2⟩
  | case4 u v rest hu hv ih =>
    rw [utf16ToUtf8LengthLoop, utf16ToUtf8Loop, if_pos hu, if_neg hv, if_neg fun h => hv h.2,
      length_append, length_encodeCodepoint, length_surrogate (.inl hu), zero_add]
    cases hv' : isHigh v with
    | false =>
      rw [evenRun_pair hu hv', utf16ToUtf8Loop_of_not_high hv', length_append,
        length_encodeCodepoint]
      exact ⟨Nat.add_le_add_left ih.1 _, add_left_cancel_iff.trans ih.2⟩
    | true =>
      rw [length_surrogate (.inl hv'), evenRun_two_high hu hv']
      cases rest with
      | nil => simp [utf16ToUtf8Loop, utf16ToUtf8LengthLoop, length_surrogate (.inl hv'), EvenRun,
          EvenRunFrom]
      | cons w ws =>
        rw [utf16ToUtf8Loop]
        cases hw : isLow w with
        | true =>
          -- the pair `v`, `w` is written, and counted as two single units
          have hle := ih.1
          rw [utf16ToUtf8Loop_of_not_high (not_isHigh_of_isLow hw), length_append,
            length_encodeCodepoint, length_surrogate (.inr hw)] at hle
          rw [if_pos ⟨hv', rfl⟩, length_append, length_encodeCodepoint, length_pair hv' hw]
          refine ⟨by omega, iff_of_false (by omega) fun h => h (.inl ⟨w, ws, rfl, hw⟩)⟩
        | false =>
          rw [if_neg (by simp), length_append, length_encodeCodepoint, length_surrogate (.inl hv')]
          simpa [hw] using ih
  | case5 u v rest hu ih =>
    have hu' : isHigh u = false := by simpa using hu
    rw [utf16ToUtf8LengthLoop, utf16ToUtf8Loop, if_neg hu, if_neg fun h => hu h.1,
      length_append, length_encodeCodepoint, evenRun_of_not_high hu']
    exact ⟨Nat.add_le_add_left ih.1 _, add_left_cancel_iff.trans ih.2⟩

/-- `utf16_to_utf8_length` is the number of bytes that `utf16_to_utf8` writes before the terminator
exactly on the strings without an even run. -/
theorem utf16ToUtf8Length_eq_iff (u : UInt16) (us : List UInt16) :
    utf16ToUtf8Length (u :: us) = (utf16ToUtf8 (u :: us)).dropLast.length ↔ ¬EvenRun (u :: us) := by
  rw [← (lengthLoop_spec (u :: us)).2, utf16ToUtf8Length, utf16ToUtf8, if_neg (by simp),
    if_neg (by simp), dropLast_concat]
  exact Nat.cast_inj

/-- Two high surrogates before a low one: four bytes are written, none is counted. -/
theorem two_high_one_low : utf16ToUtf8Length [0xD800, 0xD800, 0xDC00] = 0 ∧
    utf16ToUtf8 [0xD800, 0xD800, 0xDC00] = [0xF0, 0x90, 0x80, 0x80, 0] := by
  decide

end AndroidSystem.Unicode
