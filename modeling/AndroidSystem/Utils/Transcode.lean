import AndroidSystem.Utils.Unicode
import Mathlib.Algebra.BigOperators.Group.List.Basic

/-!
# The conversions are inverse to each other

On strings of characters, that is of Unicode scalar values, the conversions compute the encoding
forms: `String.utf8EncodeChar` is UTF-8, the characters themselves are UTF-32, and `utf16EncodeChar`
is UTF-16. Each decoder is followed through one character with any bytes after it, and then through
the string by induction on its characters; the same goes for the functions that only measure.

`conversions_inverse` collects the results. `utf32_to_utf8_length` and `utf16_to_utf8_length` give
`-1` for an empty string (`empty_string_length`).
-/

namespace AndroidSystem.Unicode

open String (utf8EncodeChar)
open List

variable {c : Char} {b : UInt8} {l : List Char} {bs : List UInt8}

/-! ## The encoding forms -/

/-- UTF-16: one unit, or a high and a low surrogate. -/
def utf16EncodeChar (c : Char) : List UInt16 :=
  if c.toNat < 0x10000 then [UInt16.ofNat c.toNat]
  else [UInt16.ofNat (0xD800 + (c.toNat - 0x10000) / 1024),
    UInt16.ofNat (0xDC00 + (c.toNat - 0x10000) % 1024)]

def utf8Encode (l : List Char) : List UInt8 := l.flatMap utf8EncodeChar

def utf16Encode (l : List Char) : List UInt16 := l.flatMap utf16EncodeChar

def utf32Encode (l : List Char) : List UInt32 := l.map Char.val

/-- A character is not a surrogate, and not too large. -/
theorem toNat_valid (c : Char) : c.toNat < 0xD800 ∨ 0xDFFF < c.toNat ∧ c.toNat < 0x110000 := c.valid

/-- The four forms of UTF-8, for a character with the number `v`. -/
inductive Form (v : Nat) : List UInt8 → Prop
  | one (a : UInt8) (h : v < 0x80) (ha : a.toNat = v) : Form v [a]
  | two (a b : UInt8) (h : 0x80 ≤ v) (h' : v < 0x800) (ha : a.toNat = v / 64 + 192)
      (hb : b.toNat = v % 64 + 128) : Form v [a, b]
  | three (a b c : UInt8) (h : 0x800 ≤ v) (h' : v < 0x10000) (ha : a.toNat = v / 4096 + 224)
      (hb : b.toNat = v / 64 % 64 + 128) (hc : c.toNat = v % 64 + 128) : Form v [a, b, c]
  | four (a b c d : UInt8) (h : 0x10000 ≤ v) (ha : a.toNat = v / 262144 + 240)
      (hb : b.toNat = v / 4096 % 64 + 128) (hc : c.toNat = v / 64 % 64 + 128)
      (hd : d.toNat = v % 64 + 128) : Form v [a, b, c, d]

theorem utf8EncodeChar_form (c : Char) : Form c.toNat (utf8EncodeChar c) := by
  have hvalid := toNat_valid c
  have hbyte {m n : Nat} (h : m = n) (hn : n < 256) : (UInt8.ofNat m).toNat = n := by
    rw [h]
    exact UInt8.toNat_ofNat_of_lt' hn
  unfold Char.toNat at hvalid ⊢
  simp only [utf8EncodeChar]
  split_ifs with h1 h2 h3
  · exact .one _ (by omega) (hbyte rfl (by omega))
  · exact .two _ _ (by omega) (by omega) (hbyte (by omega) (by omega)) (hbyte rfl (by omega))
  · exact .three _ _ _ (by omega) (by omega) (hbyte (by omega) (by omega)) (hbyte rfl (by omega))
      (hbyte rfl (by omega))
  · exact .four _ _ _ _ (by omega) (hbyte (by omega) (by omega)) (hbyte rfl (by omega))
      (hbyte rfl (by omega)) (hbyte rfl (by omega))

/-! ## Encoding -/

theorem toNat_continuation (x : UInt32) :
    ((x ||| kByteMark) &&& kByteMask).toUInt8.toNat = x.toNat % 64 + 128 := by
  have htable : ∀ n < 256, ((n ||| 128) &&& 191) = n % 64 + 128 := by decide +kernel
  have h := htable (x.toNat % 256) (Nat.mod_lt _ (by decide))
  rw [UInt32.toNat_toUInt8, UInt32.toNat_and, UInt32.toNat_or, Nat.and_mod_two_pow,
    Nat.or_mod_two_pow]
  exact h.trans (by rw [Nat.mod_mod_of_dvd _ (by decide)])

/-- The first byte of a sequence, where the mark is above the bits of the character. -/
theorem toNat_firstByte (x mark : UInt32)
    (h : x.toNat ||| mark.toNat = x.toNat + mark.toNat) :
    (x ||| mark).toUInt8.toNat = (x.toNat + mark.toNat) % 2 ^ 8 := by
  rw [UInt32.toNat_toUInt8, UInt32.toNat_or, h]

theorem toNat_shift6 (x : UInt32) : (x >>> 6).toNat = x.toNat / 64 := by
  rw [UInt32.toNat_shiftRight, show (6 : UInt32).toNat % 32 = 6 from rfl, Nat.shiftRight_eq_div_pow]

/-- The encoder writes UTF-8. -/
theorem encodeCodepoint_val (c : Char) : encodeCodepoint c.val = utf8EncodeChar c := by
  have hvalid := toNat_valid c
  have hval : c.val.toNat = c.toNat := rfl
  have hform := utf8EncodeChar_form c
  generalize utf8EncodeChar c = bytes at hform ⊢
  rw [encodeCodepoint, utf32CodepointUtf8Length_eq, hval]
  cases hform with
  | one a h ha =>
    have hfirst := toNat_firstByte c.val 0 (Nat.or_zero _)
    rw [if_pos h]
    refine congrArg (· :: []) (UInt8.toNat_inj.1 (hfirst.trans ?_))
    show (c.toNat + 0) % 2 ^ 8 = _
    omega
  | two a b h h' ha hb =>
    have htable : ∀ n < 32, n ||| 0xC0 = n + 0xC0 := by decide
    have hfirst := toNat_firstByte (c.val >>> 6) 0xC0 (htable _ (by rw [toNat_shift6]; omega))
    rw [if_neg (by omega), if_pos h']
    show [(c.val >>> 6 ||| 0xC0).toUInt8, _] = _
    simp only [cons.injEq, ← UInt8.toNat_inj, hfirst, toNat_continuation, toNat_shift6, hval, ha, hb,
      and_true]
    exact Nat.mod_eq_of_lt (show c.toNat / 64 + 192 < 256 by omega)
  | three a b c' h h' ha hb hc =>
    have htable : ∀ n < 16, n ||| 0xE0 = n + 0xE0 := by decide
    have hfirst := toNat_firstByte (c.val >>> 6 >>> 6) 0xE0 (htable _ (by
      rw [toNat_shift6, toNat_shift6]
      omega))
    rw [if_neg (by omega), if_neg (by omega), if_pos h', if_pos (by omega)]
    show [(c.val >>> 6 >>> 6 ||| 0xE0).toUInt8, _, _] = _
    simp only [cons.injEq, ← UInt8.toNat_inj, hfirst, toNat_continuation, toNat_shift6, hval, ha, hb,
      hc, Nat.div_div_eq_div_mul, and_true]
    exact Nat.mod_eq_of_lt (show c.toNat / 4096 + 224 < 256 by omega)
  | four a b c' d h ha hb hc hd =>
    have htable : ∀ n < 8, n ||| 0xF0 = n + 0xF0 := by decide
    have hfirst := toNat_firstByte (c.val >>> 6 >>> 6 >>> 6) 0xF0 (htable _ (by
      rw [toNat_shift6, toNat_shift6, toNat_shift6]
      omega))
    rw [if_neg (by omega), if_neg (by omega), if_neg (by omega), if_pos (by omega)]
    show [(c.val >>> 6 >>> 6 >>> 6 ||| 0xF0).toUInt8, _, _, _] = _
    simp only [cons.injEq, ← UInt8.toNat_inj, hfirst, toNat_continuation, toNat_shift6, hval, ha, hb,
      hc, hd, Nat.div_div_eq_div_mul, and_true]
    exact Nat.mod_eq_of_lt (show c.toNat / 262144 + 240 < 256 by omega)

theorem encode_length_val (c : Char) :
    utf32CodepointUtf8Length c.val = (utf8EncodeChar c).length := by
  rw [← length_encodeCodepoint, encodeCodepoint_val]

theorem flatMap_encodeCodepoint (l : List Char) :
    (utf32Encode l).flatMap encodeCodepoint = utf8Encode l := by
  unfold utf32Encode utf8Encode
  rw [flatMap_map]
  simp only [encodeCodepoint_val]

/-! ## Surrogate pairs -/

theorem unit_of_char (hc : c.toNat < 0x10000) :
    utf16EncodeChar c = [UInt16.ofNat c.toNat] ∧ isHigh (UInt16.ofNat c.toNat) = false ∧
      isLow (UInt16.ofNat c.toNat) = false ∧ (UInt16.ofNat c.toNat).toUInt32 = c.val := by
  have hvalid := toNat_valid c
  have hnat : (UInt16.ofNat c.toNat).toNat = c.toNat := UInt16.toNat_ofNat_of_lt' hc
  refine ⟨if_pos hc, ?_, ?_, ?_⟩
  · rw [← Bool.not_eq_true, isHigh_iff]
    omega
  · rw [← Bool.not_eq_true, isLow_iff]
    omega
  · rw [← UInt32.toNat_inj, UInt16.toNat_toUInt32, hnat]
    rfl

theorem pair_of_char (hc : 0x10000 ≤ c.toNat) :
    ∃ u v, utf16EncodeChar c = [u, v] ∧ isHigh u = true ∧ isLow v = true ∧ pair u v = c.val := by
  have hvalid := toNat_valid c
  have hu : (UInt16.ofNat (0xD800 + (c.toNat - 0x10000) / 1024)).toNat
      = 0xD800 + (c.toNat - 0x10000) / 1024 :=
    UInt16.toNat_ofNat_of_lt' (show _ < 65536 by omega)
  have hv : (UInt16.ofNat (0xDC00 + (c.toNat - 0x10000) % 1024)).toNat
      = 0xDC00 + (c.toNat - 0x10000) % 1024 :=
    UInt16.toNat_ofNat_of_lt' (show _ < 65536 by omega)
  have hhigh : isHigh (UInt16.ofNat (0xD800 + (c.toNat - 0x10000) / 1024)) = true := by
    rw [isHigh_iff]
    omega
  have hlow : isLow (UInt16.ofNat (0xDC00 + (c.toNat - 0x10000) % 1024)) = true := by
    rw [isLow_iff]
    omega
  refine ⟨_, _, if_neg (by omega), hhigh, hlow, ?_⟩
  rw [← UInt32.toNat_inj, toNat_pair hhigh hlow]
  show _ = c.toNat
  omega

theorem utf16ToUtf8Loop_encode (l : List Char) :
    utf16ToUtf8Loop (utf16Encode l) = utf8Encode l := by
  induction l with
  | nil => rfl
  | cons c l ih =>
    unfold utf16Encode utf8Encode at ih ⊢
    rw [flatMap_cons, flatMap_cons, ← ih, ← encodeCodepoint_val]
    rcases lt_or_ge c.toNat 0x10000 with hc | hc
    · obtain ⟨hunit, hhigh, -, hval⟩ := unit_of_char hc
      rw [hunit, singleton_append, utf16ToUtf8Loop_of_not_high hhigh, hval]
    · obtain ⟨u, v, hpair, hu, hv, hval⟩ := pair_of_char hc
      rw [hpair, cons_append, singleton_append, utf16ToUtf8Loop, if_pos ⟨hu, hv⟩, hval]

/-- In a string of characters a low surrogate comes after exactly one high surrogate. -/
theorem not_evenRun_encode (l : List Char) : ¬EvenRun (utf16Encode l) := by
  induction l with
  | nil => exact id
  | cons c l ih =>
    unfold utf16Encode at ih ⊢
    rw [flatMap_cons]
    rcases lt_or_ge c.toNat 0x10000 with hc | hc
    · obtain ⟨hunit, hhigh, -, -⟩ := unit_of_char hc
      rwa [hunit, singleton_append, evenRun_of_not_high hhigh]
    · obtain ⟨u, v, hpair, hu, hv, -⟩ := pair_of_char hc
      rwa [hpair, cons_append, singleton_append,
        evenRun_pair hu (not_isHigh_of_isLow hv)]

theorem utf16Units_val (c : Char) : utf16Units c.val = utf16EncodeChar c := by
  have hval : c.val.toNat = c.toNat := rfl
  unfold utf16Units utf16EncodeChar
  by_cases hc : c.toNat < 0x10000
  · rw [if_pos hc, if_pos (UInt32.le_iff_toNat_le.2 (show c.val.toNat ≤ 0xFFFF by omega))]
    rfl
  · have hsub : (c.val - 0x10000).toNat = c.toNat - 0x10000 :=
      UInt32.toNat_sub_of_le _ _ (show 0x10000 ≤ c.val.toNat by omega)
    have hhigh : ((c.val - 0x10000) >>> 10).toNat = (c.toNat - 0x10000) / 1024 := by
      rw [UInt32.toNat_shiftRight, hsub, show (10 : UInt32).toNat % 32 = 10 from rfl,
        Nat.shiftRight_eq_div_pow]
    have hlow : ((c.val - 0x10000) &&& 0x3FF).toNat = (c.toNat - 0x10000) % 1024 := by
      rw [UInt32.toNat_and, hsub, show (0x3FF : UInt32).toNat = 2 ^ 10 - 1 from rfl,
        Nat.and_two_pow_sub_one_eq_mod]
    rw [if_neg hc, if_neg fun h => by
      have : c.val.toNat ≤ 0xFFFF := UInt32.le_iff_toNat_le.1 h
      omega]
    refine congrArg₂ (fun a b => [a, b]) ?_ ?_
    · rw [← UInt16.toNat_inj, UInt32.toNat_toUInt16, UInt32.toNat_add, UInt16.toNat_ofNat',
        show (0xD800 : UInt32).toNat = 0xD800 from rfl]
      omega
    · rw [← UInt16.toNat_inj, UInt32.toNat_toUInt16, UInt32.toNat_add, UInt16.toNat_ofNat',
        show (0xDC00 : UInt32).toNat = 0xDC00 from rfl]
      omega

/-! ## Decoding with shifts and masks -/

theorem toNat_shiftAndMask {x : UInt32} (hx : x.toNat < 2 ^ 26) (b : UInt8) :
    (utf8ShiftAndMask x b).toNat = x.toNat * 64 + b.toNat % 64 := by
  have hor := Nat.shiftLeft_add_eq_or_of_lt (i := 6) (b := b.toNat % 64) (by omega) x.toNat
  rw [utf8ShiftAndMask, UInt32.toNat_or, UInt32.toNat_shiftLeft, UInt32.toNat_and, Nat.and_comm,
    UInt8.toNat_toUInt32, show (0x3F : UInt32).toNat = 2 ^ 6 - 1 from rfl,
    Nat.and_two_pow_sub_one_eq_mod, show (6 : UInt32).toNat % 32 = 6 from rfl,
    Nat.mod_eq_of_lt (by rw [Nat.shiftLeft_eq]; omega), ← hor, Nat.shiftLeft_eq]

/-- The number of bytes, by the first one. -/
def countOf (b : UInt8) : Nat :=
  if b.toNat < 192 then 1 else if b.toNat < 224 then 2 else if b.toNat < 240 then 3 else 4

theorem utf8CodepointLen_eq : ∀ b, utf8CodepointLen b = countOf b := by
  rintro ⟨⟨n⟩⟩
  revert n
  decide +kernel

theorem utf8EncodeChar_count (c : Char) : ∃ b bs, utf8EncodeChar c = b :: bs ∧ b.toNat < 248 ∧
    countOf b = bs.length + 1 := by
  have hvalid := toNat_valid c
  have hform := utf8EncodeChar_form c
  generalize utf8EncodeChar c = bytes at hform ⊢
  unfold countOf
  cases hform with
  | one a h ha => exact ⟨a, _, rfl, by omega, if_pos (by omega)⟩
  | two a b h h' ha hb =>
    refine ⟨a, _, rfl, by omega, ?_⟩
    rw [if_neg (by omega), if_pos (by omega)]
    rfl
  | three a b c' h h' ha hb hc =>
    refine ⟨a, _, rfl, by omega, ?_⟩
    rw [if_neg (by omega), if_neg (by omega), if_pos (by omega)]
    rfl
  | four a b c' d h ha hb hc hd =>
    refine ⟨a, _, rfl, by omega, ?_⟩
    rw [if_neg (by omega), if_neg (by omega), if_neg (by omega)]
    rfl

theorem toNat_and_mask (a : UInt8) (k : Nat) (mask : UInt32) (hmask : mask.toNat = 2 ^ k - 1) :
    (a.toUInt32 &&& mask).toNat = a.toNat % 2 ^ k := by
  rw [UInt32.toNat_and, UInt8.toNat_toUInt32, hmask, Nat.and_two_pow_sub_one_eq_mod]

/-- The decoder with shifts and masks reads a character back. -/
theorem utf8ToUtf32Codepoint_encode (c : Char) (rest : List UInt8) :
    utf8ToUtf32Codepoint (utf8EncodeChar c ++ rest) (utf8EncodeChar c).length = some c.val := by
  have hvalid := toNat_valid c
  have hval : c.val.toNat = c.toNat := rfl
  have hform := utf8EncodeChar_form c
  generalize utf8EncodeChar c = bytes at hform ⊢
  cases hform with
  | one a h ha => exact congrArg some (UInt32.toNat_inj.1 ((UInt8.toNat_toUInt32 a).trans ha))
  | two a b h h' ha hb =>
    refine congrArg some (UInt32.toNat_inj.1 ?_)
    have h1 := toNat_and_mask a 5 0x1f rfl
    rw [toNat_shiftAndMask (by omega)]
    omega
  | three a b c' h h' ha hb hc =>
    refine congrArg some (UInt32.toNat_inj.1 ?_)
    have h1 := toNat_and_mask a 4 0x0f rfl
    have h2 := toNat_shiftAndMask (h1.trans_lt (by omega)) b
    rw [toNat_shiftAndMask (by omega)]
    omega
  | four a b c' d h ha hb hc hd =>
    refine congrArg some (UInt32.toNat_inj.1 ?_)
    have h1 := toNat_and_mask a 3 0x07 rfl
    have h2 := toNat_shiftAndMask (h1.trans_lt (by omega)) b
    have h3 := toNat_shiftAndMask (h2.trans_lt (by omega)) c'
    rw [toNat_shiftAndMask (by omega)]
    omega

/-! ## Decoding with a loop over the bits of the first byte -/

theorem numToSkip_eq : ∀ b : UInt8, b.toNat < 248 → numToSkip b = countOf b := by
  rintro ⟨⟨n⟩⟩
  revert n
  decide +kernel

theorem toNat_shift_add (x : UInt32) (b : UInt8) :
    ((x <<< 6) + (b.toUInt32 &&& 0x3F)).toNat = (x.toNat * 64 + b.toNat % 64) % 2 ^ 32 := by
  have hb := toNat_and_mask b 6 0x3F rfl
  rw [UInt32.toNat_add, UInt32.toNat_shiftLeft, show (6 : UInt32).toNat % 32 = 6 from rfl]
  omega

section

variable (charSigned : Bool)

/-- Whether `char` is signed or not makes no difference in the lower eight bits. -/
theorem charToChar32_mod : ∀ b, (charToChar32 charSigned b).toNat % 256 = b.toNat := by
  rintro ⟨⟨n⟩⟩
  revert n
  cases charSigned <;> decide +kernel

theorem firstBits : ∀ b : UInt8, 192 ≤ b.toNat →
    b &&& 0x80 ≠ 0 ∧ charToChar32 charSigned b &&& 0x40 ≠ 0 ∧
    (charToChar32 charSigned b &&& 0x20 = 0 ↔ b.toNat < 224) ∧
    (224 ≤ b.toNat → (charToChar32 charSigned b &&& 0x10 = 0 ↔ b.toNat < 240)) ∧
    (240 ≤ b.toNat → (charToChar32 charSigned b &&& 0x08 = 0 ↔ b.toNat < 248)) := by
  rintro ⟨⟨n⟩⟩
  revert n
  cases charSigned <;> decide +kernel

section Loop

variable {firstChar mask toIgnoreMask utf32 : UInt32} {numToRead : Nat} {cur : List UInt8}

theorem utf32AtLoop_stop (h : firstChar &&& mask = 0) :
    utf32AtLoop firstChar cur mask toIgnoreMask utf32 numToRead
      = some (utf32, toIgnoreMask ||| mask, numToRead) := by
  rw [utf32AtLoop.eq_def]
  exact if_pos h

theorem utf32AtLoop_next (h : firstChar &&& mask ≠ 0) (b : UInt8) :
    utf32AtLoop firstChar (b :: cur) mask toIgnoreMask utf32 numToRead
      = utf32AtLoop firstChar cur (mask >>> 1) (toIgnoreMask ||| mask)
          ((utf32 <<< 6) + (b.toUInt32 &&& 0x3F)) (numToRead + 1) := by
  exact if_neg h

/-- After the loop, the mark of the first byte is masked out. -/
theorem utf32AtInternal_of_loop (cur : List UInt8) {charSigned : Bool} (hb : b &&& 0x80 ≠ 0)
    (hloop : utf32AtLoop (charToChar32 charSigned b) cur 0x40 0xFFFFFF80
      (charToChar32 charSigned b) 1 = some (utf32, toIgnoreMask, numToRead))
    (hshift : 6 * (numToRead - 1) < 32) (bits : Nat)
    (hmask : (~~~(toIgnoreMask <<< (6 * (numToRead - 1)).toUInt32)).toNat = 2 ^ bits - 1) :
    ∃ x : UInt32, utf32AtInternal charSigned (b :: cur) = some (x, numToRead) ∧
      x.toNat = utf32.toNat % 2 ^ bits := by
  refine ⟨utf32 &&& ~~~(toIgnoreMask <<< (6 * (numToRead - 1)).toUInt32), ?_, ?_⟩
  · rw [utf32AtInternal, if_neg hb, hloop]
    exact if_pos hshift
  · rw [UInt32.toNat_and, hmask, Nat.and_two_pow_sub_one_eq_mod]

end Loop

theorem utf32AtInternal_encode (c : Char) (rest : List UInt8) :
    utf32AtInternal charSigned (utf8EncodeChar c ++ rest)
      = some (c.val, (utf8EncodeChar c).length) := by
  have hvalid := toNat_valid c
  have hval : c.val.toNat = c.toNat := rfl
  have hform := utf8EncodeChar_form c
  generalize utf8EncodeChar c = bytes at hform ⊢
  cases hform with
  | one a h ha =>
    have htable : ∀ b : UInt8, b.toNat < 128 → b &&& 0x80 = 0 := by
      rintro ⟨⟨n⟩⟩
      revert n
      decide +kernel
    have hx : a.toUInt32 = c.val := UInt32.toNat_inj.1 ((UInt8.toNat_toUInt32 a).trans ha)
    rw [singleton_append, utf32AtInternal, if_pos (htable a (by omega)), hx]
    rfl
  | two a b h h' ha hb =>
    obtain ⟨h0, h1, h2, -⟩ := firstBits charSigned a (by omega)
    have hmod := charToChar32_mod charSigned a
    obtain ⟨x, hrun, hx⟩ := utf32AtInternal_of_loop (b :: rest) h0
      ((utf32AtLoop_next h1 _).trans (utf32AtLoop_stop (h2.2 (by omega)))) (by decide) 11 rfl
    rw [toNat_shift_add] at hx
    exact hrun.trans (congrArg (fun x => some (x, 2)) (UInt32.toNat_inj.1 (by omega)))
  | three a b c' h h' ha hb hc =>
    obtain ⟨h0, h1, h2, h3, -⟩ := firstBits charSigned a (by omega)
    have hmod := charToChar32_mod charSigned a
    obtain ⟨x, hrun, hx⟩ := utf32AtInternal_of_loop (b :: c' :: rest) h0
      ((utf32AtLoop_next h1 _).trans ((utf32AtLoop_next (mt h2.1 (by omega)) _).trans
        (utf32AtLoop_stop ((h3 (by omega)).2 (by omega))))) (by decide) 16 rfl
    rw [toNat_shift_add, toNat_shift_add] at hx
    exact hrun.trans (congrArg (fun x => some (x, 3)) (UInt32.toNat_inj.1 (by omega)))
  | four a b c' d h ha hb hc hd =>
    obtain ⟨h0, h1, h2, h3, h4⟩ := firstBits charSigned a (by omega)
    have hmod := charToChar32_mod charSigned a
    obtain ⟨x, hrun, hx⟩ := utf32AtInternal_of_loop (b :: c' :: d :: rest) h0
      ((utf32AtLoop_next h1 _).trans ((utf32AtLoop_next (mt h2.1 (by omega)) _).trans
        ((utf32AtLoop_next (mt (h3 (by omega)).1 (by omega)) _).trans
          (utf32AtLoop_stop ((h4 (by omega)).2 (by omega)))))) (by decide) 21 rfl
    rw [toNat_shift_add, toNat_shift_add, toNat_shift_add] at hx
    exact hrun.trans (congrArg (fun x => some (x, 4)) (UInt32.toNat_inj.1 (by omega)))

/-! ## Strings -/

/-- What the decoders make of the first character of a string. -/
structure Head (c : Char) (l : List Char) (b : UInt8) (bs : List UInt8) : Prop where
  eq : utf8Encode (c :: l) = b :: (bs ++ utf8Encode l)
  len : utf8CodepointLen b = bs.length + 1
  skip : numToSkip b = bs.length + 1
  codepoint : utf8ToUtf32Codepoint (b :: (bs ++ utf8Encode l)) (bs.length + 1) = some c.val
  at_ : ∀ charSigned, utf32AtInternal charSigned (b :: (bs ++ utf8Encode l))
    = some (c.val, bs.length + 1)

theorem exists_head (c : Char) (l : List Char) : ∃ b bs, Head c l b bs := by
  obtain ⟨b, bs, hcons, hlt, hcount⟩ := utf8EncodeChar_count c
  refine ⟨b, bs, ⟨?_, (utf8CodepointLen_eq b).trans hcount, (numToSkip_eq b hlt).trans hcount, ?_,
    fun charSigned => ?_⟩⟩
  · show utf8EncodeChar c ++ utf8Encode l = _
    rw [hcons, cons_append]
  · have hread := utf8ToUtf32Codepoint_encode c (utf8Encode l)
    rwa [hcons, cons_append, length_cons] at hread
  · have hread := utf32AtInternal_encode charSigned c (utf8Encode l)
    rwa [hcons, cons_append, length_cons] at hread

theorem Head.drop (_ : Head c l b bs) :
    (b :: (bs ++ utf8Encode l)).drop (bs.length + 1) = utf8Encode l := by
  rw [drop_succ_cons, drop_left]

theorem Head.length (h : Head c l b bs) :
    (utf8Encode (c :: l)).length = bs.length + 1 + (utf8Encode l).length := by
  rw [h.eq, length_cons, length_append]
  omega

section

variable (l : List Char) (fuel : Nat) (hfuel : (utf8Encode l).length ≤ fuel)
include hfuel

/-- Induction over a string, where each character takes one iteration. -/
@[elab_as_elim]
theorem encode_induction {motive : List Char → Nat → Prop} (nil : ∀ fuel, motive [] fuel)
    (cons : ∀ c l b bs fuel, Head c l b bs → motive l fuel → motive (c :: l) (fuel + 1)) :
    motive l fuel := by
  induction l generalizing fuel with
  | nil => exact nil fuel
  | cons c l ih =>
    obtain ⟨b, bs, hhead⟩ := exists_head c l
    have hlen := hhead.length
    cases fuel with
    | zero => omega
    | succ fuel => exact cons c l b bs fuel hhead (ih fuel (by omega))

theorem utf8ToUtf16_encode :
    utf8ToUtf16NoNullTerminator fuel (utf8Encode l) = some (utf16Encode l) := by
  refine encode_induction l fuel hfuel ?_ ?_
  · rintro (_ | fuel) <;> rfl
  · intro c l b bs fuel hhead ih
    rw [hhead.eq, utf8ToUtf16NoNullTerminator, hhead.len, hhead.codepoint]
    simp
    rw [ih, utf16Units_val]
    rfl

theorem utf8ToUtf16LengthLoop_encode :
    utf8ToUtf16LengthLoop fuel (utf8Encode l) = some ((utf16Encode l).length, true) := by
  refine encode_induction l fuel hfuel ?_ ?_
  · rintro (_ | fuel) <;> rfl
  · intro c l b bs fuel hhead ih
    have hunits : (if c.val > 0xFFFF then 2 else 1) = (utf16EncodeChar c).length := by
      rw [← utf16Units_val]
      unfold utf16Units
      by_cases h : c.val ≤ 0xFFFF
      · rw [if_pos h, if_neg (UInt32.not_lt.2 h)]
        rfl
      · rw [if_neg h, if_pos (UInt32.not_le.1 h)]
        rfl
    rw [hhead.eq, utf8ToUtf16LengthLoop, hhead.len, hhead.codepoint, hhead.drop]
    simp only [Option.bind_eq_bind, Option.bind_some]
    rw [if_neg (by rw [length_append]; omega), ih, hunits]
    simp only [Option.bind_some]
    show _ = some ((utf16EncodeChar c ++ utf16Encode l).length, true)
    rw [length_append]

theorem utf8ToUtf32Loop_encode :
    utf8ToUtf32Loop charSigned fuel (utf8Encode l) = some (utf32Encode l) := by
  refine encode_induction l fuel hfuel ?_ ?_
  · rintro (_ | fuel) <;> rfl
  · intro c l b bs fuel hhead ih
    rw [hhead.eq, utf8ToUtf32Loop, hhead.at_ charSigned]
    simp only [Option.bind_eq_bind, Option.bind_some]
    rw [hhead.drop, ih]
    rfl

theorem utf8ToUtf32LengthLoop_encode :
    utf8ToUtf32LengthLoop fuel (utf8Encode l) = (utf32Encode l).length := by
  refine encode_induction l fuel hfuel ?_ ?_
  · rintro (_ | fuel) <;> rfl
  · intro c l b bs fuel hhead ih
    rw [hhead.eq, utf8ToUtf32LengthLoop, hhead.skip, hhead.drop, ih]
    rfl

end

end

theorem sum_lengths (l : List Char) :
    ((utf32Encode l).map utf32CodepointUtf8Length).sum = (utf8Encode l).length := by
  unfold utf32Encode utf8Encode
  rw [length_flatMap, map_map]
  congr 2
  funext c
  exact encode_length_val c

/-- The conversions of a string of characters into each other, with the lengths they are measured
to have. Every conversion ends with a terminator. -/
theorem conversions_inverse (charSigned : Bool) (c : Char) (l : List Char) :
    utf8ToUtf32 charSigned (utf8Encode (c :: l)) = some (utf32Encode (c :: l) ++ [0]) ∧
    utf8ToUtf16 (utf8Encode (c :: l)) = some (utf16Encode (c :: l) ++ [0]) ∧
    utf8ToUtf32Length (utf8Encode (c :: l)) = (utf32Encode (c :: l)).length ∧
    utf8ToUtf16Length (utf8Encode (c :: l)) = some ((utf16Encode (c :: l)).length : Int) ∧
    utf32ToUtf8 (utf32Encode (c :: l)) = utf8Encode (c :: l) ++ [0] ∧
    utf16ToUtf8 (utf16Encode (c :: l)) = utf8Encode (c :: l) ++ [0] ∧
    utf32ToUtf8Length (utf32Encode (c :: l)) = (utf8Encode (c :: l)).length ∧
    utf16ToUtf8Length (utf16Encode (c :: l)) = (utf8Encode (c :: l)).length := by
  obtain ⟨b, bs, hhead⟩ := exists_head c l
  have h8 : (utf8Encode (c :: l)).length ≠ 0 := by
    rw [hhead.length]
    omega
  have h16 : (utf16Encode (c :: l)).length ≠ 0 := by
    intro h
    rw [length_eq_zero_iff] at h
    have := utf16ToUtf8Loop_encode (c :: l)
    rw [h] at this
    rw [← this] at h8
    exact h8 rfl
  have h32 : (utf32Encode (c :: l)).length ≠ 0 := by simp [utf32Encode]
  refine ⟨?_, ?_, utf8ToUtf32LengthLoop_encode _ _ le_rfl, ?_, ?_, ?_, ?_, ?_⟩
  · rw [utf8ToUtf32, if_neg h8, utf8ToUtf32Loop_encode charSigned _ _ le_rfl]
    rfl
  · rw [utf8ToUtf16, utf8ToUtf16_encode _ _ le_rfl]
    rfl
  · rw [utf8ToUtf16Length, utf8ToUtf16LengthLoop_encode _ _ le_rfl]
    rfl
  · rw [utf32ToUtf8, if_neg h32, flatMap_encodeCodepoint]
  · rw [utf16ToUtf8, if_neg h16, utf16ToUtf8Loop_encode]
  · rw [utf32ToUtf8Length, if_neg h32, sum_lengths]
  · rw [utf16ToUtf8Length, if_neg h16, (lengthLoop_spec _).2.2 (not_evenRun_encode _),
      utf16ToUtf8Loop_encode]

/-- The empty string is measured as `-1`. -/
theorem empty_string_length : utf8Encode [] = [] ∧ utf32ToUtf8Length (utf32Encode []) = -1 ∧
    utf16ToUtf8Length (utf16Encode []) = -1 := by
  decide

end AndroidSystem.Unicode
