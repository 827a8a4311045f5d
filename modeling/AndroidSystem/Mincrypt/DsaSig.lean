import AndroidSystem.Mincrypt.P256Value
import Mathlib.Data.List.TakeWhile

/-!
# Unpacking a DSA signature

`dsa_sig_unpack` reads the DER encoding `30 L 02 Lr R 02 Ls S` of two integers. The header checks read
only bytes that are there. The loop that drops leading zero bytes looks at a byte
before it looks at how many are left, so a number that is all zeros is read one byte too far. After
`R` there is the tag of `S`; after `S` there is nothing.

The buffer is the list of the bytes that may be read. A read of any other byte is `none`.
-/

namespace AndroidSystem.Mincrypt

open List Words Option

/-! ## The source -/

section

variable (sig : List UInt8)

/-- The loop of `trim_to_p256_bytes`: where the number starts without its leading zero bytes, and how
many bytes it has. -/
def trimLoop : Nat → Nat → Option (Nat × Nat)
  | src, 0 => do
    let _ ← sig[src]?
    some (src, 0)
  | src, srcLen + 1 => do
    let b ← sig[src]?
    if b = 0 then trimLoop (src + 1) srcLen else some (src, srcLen + 1)

/-- Trims off the leading zero bytes and aligns the others to the end of 32 bytes. The inner `none` is
the return value 0. -/
def trimToP256Bytes (src srcLen : Nat) : Option (Option (List UInt8)) := do
  let r ← trimLoop sig src srcLen
  if r.2 > 32 ∨ r.2 < 1 then some none
  else if r.1 + r.2 ≤ sig.length then
    some (some (List.replicate (32 - r.2) 0 ++ (sig.drop r.1).take r.2))
  else none

/-- The checks of the headers: the lengths of `R` and `S`. -/
def dsaSigHeader (sigLen : Int) : Option (Option (Nat × Nat)) :=
  if sigLen < 8 then some none
  else do
    let b₀ ← sig[0]?
    if b₀ ≠ 0x30 then some none else
    let b₂ ← sig[2]?
    if b₂ ≠ 0x02 then some none else
    let seqLen ← sig[1]?
    if seqLen.toNat ≤ 0 ∨ (seqLen.toNat : Int) + 2 ≠ sigLen then some none else
    let rLen ← sig[3]?
    if rLen.toNat < 1 ∨ (rLen.toNat : Int) > seqLen.toNat - 5 then some none else
    let tag ← sig[4 + rLen.toNat]?
    if tag ≠ 0x02 then some none else
    let sLen ← sig[5 + rLen.toNat]?
    if sLen.toNat < 1 ∨ (sLen.toNat : Int) ≠ seqLen.toNat - 4 - rLen.toNat then some none else
    some (some (rLen.toNat, sLen.toNat))

/-- Unpacks the ASN.1 DSA signature sequence. The inner `none` is the return value 0. -/
def dsaSigUnpack (sigLen : Int) : Option (Option (P256Int × P256Int)) := do
  let header ← dsaSigHeader sig sigLen
  header.elim (some none) fun lens => do
    let rBytes ← trimToP256Bytes sig 4 lens.1
    rBytes.elim (some none) fun rBytes => do
      let sBytes ← trimToP256Bytes sig (6 + lens.1) lens.2
      sBytes.elim (some none) fun sBytes => some (some (p256FromBin rBytes, p256FromBin sBytes))

end

/-! ## The encoding -/

/-- The bytes `30 L 02 Lr R 02 Ls S`, with lengths that are those of `R`, of `S` and of the whole. -/
def Layout (sig R S : List UInt8) : Prop :=
  ∃ L Lr Ls : UInt8, sig = 0x30 :: L :: 0x02 :: Lr :: R ++ 0x02 :: Ls :: S ∧
    L.toNat + 2 = sig.length ∧ Lr.toNat = R.length ∧ Ls.toNat = S.length ∧
    1 ≤ R.length ∧ 1 ≤ S.length

/-- A number without its leading zero bytes. -/
def significant (l : List UInt8) : List UInt8 := l.dropWhile (· = 0)

/-- The number in 32 bytes. -/
def trimmed (l : List UInt8) : List UInt8 :=
  List.replicate (32 - (significant l).length) 0 ++ significant l

/-- The number has between 1 and 32 significant bytes. -/
def Fits (l : List UInt8) : Prop := 1 ≤ (significant l).length ∧ (significant l).length ≤ 32

instance (l : List UInt8) : Decidable (Fits l) := inferInstanceAs (Decidable (_ ∧ _))

section

variable {sig R S X pre post : List UInt8}

theorem Layout.unique {R' S' : List UInt8} (h : Layout sig R S) (h' : Layout sig R' S') :
    R = R' ∧ S = S' := by
  obtain ⟨L, Lr, Ls, rfl, -, hLr, -, -, -⟩ := h
  obtain ⟨L', Lr', Ls', heq, -, hLr', -, -, -⟩ := h'
  simp only [cons_append, cons.injEq, true_and] at heq
  obtain ⟨rfl, rfl, heq⟩ := heq
  obtain ⟨rfl, htail⟩ := append_inj heq (by omega)
  simp only [cons.injEq, true_and] at htail
  exact ⟨rfl, htail.2⟩

theorem getElem?_layout {b0 L b2 Lr tag Ls : UInt8}
    (h : sig = b0 :: L :: b2 :: Lr :: R ++ tag :: Ls :: S) :
    sig[4 + R.length]? = some tag ∧ sig[5 + R.length]? = some Ls := by
  rw [h, add_comm, show 5 + R.length = R.length + 1 + 4 by omega]
  simp

theorem dsaSigHeader_layout (h : Layout sig R S) :
    dsaSigHeader sig sig.length = some (some (R.length, S.length)) := by
  obtain ⟨L, Lr, Ls, hsig, hL, hLr, hLs, hR, hS⟩ := h
  have h0 : sig[0]? = some 0x30 := by rw [hsig]; rfl
  have h1 : sig[1]? = some L := by rw [hsig]; rfl
  have h2 : sig[2]? = some 0x02 := by rw [hsig]; rfl
  have h3 : sig[3]? = some Lr := by rw [hsig]; rfl
  obtain ⟨htag, hsLen⟩ := getElem?_layout hsig
  have hsum : sig.length = R.length + S.length + 6 := by
    simp only [hsig, length_append, length_cons]
    omega
  rw [dsaSigHeader, if_neg (by omega)]
  simp only [h0, h1, h2, h3, hLr, htag, hsLen, bind_eq_bind, bind_some]
  rw [if_neg (by simp), if_neg (by simp), if_neg (by omega), if_neg (by omega), if_neg (by simp),
    if_neg (by omega), hLs]

/-- The header checks read no byte outside, and what they accept is an encoding. -/
theorem dsaSigHeader_cases {sigLen : Int} (hlen : sig.length = sigLen.toNat) :
    ∃ h, dsaSigHeader sig sigLen = some h ∧
      ∀ lens, h = some lens → ∃ R S, Layout sig R S ∧ lens = (R.length, S.length) := by
  unfold dsaSigHeader
  split_ifs with hshort
  · exact ⟨none, rfl, by simp⟩
  rcases sig with _ | ⟨b0, _ | ⟨L, _ | ⟨b2, _ | ⟨Lr, rest⟩⟩⟩⟩
  all_goals simp only [length_nil, length_cons] at hlen
  iterate 4 omega
  simp only [getElem?_cons_zero, getElem?_cons_succ, bind_eq_bind, bind_some]
  split_ifs with hb0 hb2 hseq hr
  · exact ⟨none, rfl, by simp⟩
  · exact ⟨none, rfl, by simp⟩
  · exact ⟨none, rfl, by simp⟩
  · exact ⟨none, rfl, by simp⟩
  -- the length of `R` leaves room for the header of `S` and one byte
  obtain ⟨R, tail, hR, rfl⟩ : ∃ R tail, R.length = Lr.toNat ∧ rest = R ++ tail :=
    ⟨rest.take Lr.toNat, rest.drop Lr.toNat, by rw [length_take]; omega, (take_append_drop ..).symm⟩
  rw [length_append] at hlen
  rcases tail with _ | ⟨tag, _ | ⟨Ls, S⟩⟩
  all_goals simp only [length_nil, length_cons] at hlen
  iterate 2 omega
  obtain ⟨htag, hsLen⟩ := getElem?_layout (rfl : _ = b0 :: L :: b2 :: Lr :: R ++ tag :: Ls :: S)
  simp only [← hR, ← cons_append, htag, hsLen, bind_some]
  split_ifs with htag' hs
  · exact ⟨none, rfl, by simp⟩
  · exact ⟨none, rfl, by simp⟩
  refine ⟨_, rfl, ?_⟩
  intro lens hlens
  refine ⟨R, S, ⟨L, Lr, Ls, ?_, by simp; omega, hR.symm, by omega, by omega, by omega⟩, ?_⟩
  · rw [not_not.1 hb0, not_not.1 hb2, not_not.1 htag']
  · rw [← some_inj.1 hlens]
    congr 1
    omega

/-! ## Trimming -/

theorem significant_cons_zero (l : List UInt8) : significant (0 :: l) = significant l := by
  simp [significant]

theorem significant_cons {b : UInt8} (hb : b ≠ 0) (l : List UInt8) :
    significant (b :: l) = b :: l := by
  simp [significant, hb]

theorem length_significant_le (l : List UInt8) : (significant l).length ≤ l.length :=
  (dropWhile_suffix _).length_le

/-- What is dropped are zero bytes. -/
theorem replicate_append_significant (l : List UInt8) :
    replicate (l.length - (significant l).length) 0 ++ significant l = l := by
  induction l with
  | nil => rfl
  | cons b l ih =>
    by_cases hb : b = 0
    · subst hb
      rw [significant_cons_zero, length_cons, Nat.succ_sub (length_significant_le l), replicate_succ,
        cons_append, ih]
    · rw [significant_cons hb, Nat.sub_self]
      rfl

theorem unbe_significant (l : List UInt8) : unbe (significant l) = unbe l := by
  conv_rhs => rw [← replicate_append_significant l]
  rw [unbe_append, unbe_replicate_zero, zero_mul, zero_add]

/-- The loop stops at the first significant byte. If there is none it reads the byte behind. -/
theorem trimLoop_spec (pre X post : List UInt8) :
    trimLoop (pre ++ X ++ post) pre.length X.length =
      if significant X = [] ∧ post = [] then none
      else some (pre.length + (X.length - (significant X).length), (significant X).length) := by
  induction X generalizing pre with
  | nil =>
    cases post with
    | nil => simp [trimLoop, significant]
    | cons b post => simp [trimLoop, significant]
  | cons b X ih =>
    have hhead : (pre ++ b :: X ++ post)[pre.length]? = some b := by simp
    rw [length_cons, trimLoop, hhead]
    simp only [bind_eq_bind, bind_some]
    by_cases hb : b = 0
    · subst hb
      have hle := length_significant_le X
      have hrest := ih (pre ++ [0])
      rw [length_append, length_singleton] at hrest
      rw [if_pos rfl, significant_cons_zero, show pre ++ 0 :: X ++ post = pre ++ [0] ++ X ++ post by simp,
        hrest, show pre.length + 1 + (X.length - (significant X).length) =
          pre.length + (X.length + 1 - (significant X).length) by omega]
    · rw [if_neg hb, significant_cons hb, length_cons, Nat.sub_self]
      rfl

theorem trimToP256Bytes_spec (pre X post : List UInt8) :
    trimToP256Bytes (pre ++ X ++ post) pre.length X.length =
      if significant X = [] ∧ post = [] then none
      else some (if 1 ≤ (significant X).length ∧ (significant X).length ≤ 32 then
        some (trimmed X) else none) := by
  rw [trimToP256Bytes, trimLoop_spec]
  by_cases hout : significant X = [] ∧ post = []
  · rw [if_pos hout, if_pos hout]
    rfl
  · have hle := length_significant_le X
    rw [if_neg hout, if_neg hout]
    simp only [bind_eq_bind, bind_some]
    by_cases hfit : 1 ≤ (significant X).length ∧ (significant X).length ≤ 32
    · have hread : ((pre ++ X ++ post).drop (pre.length + (X.length - (significant X).length))).take
          (significant X).length = significant X := by
        have hX : pre ++ X ++ post = pre ++ replicate (X.length - (significant X).length) 0 ++
            (significant X ++ post) := by
          conv_lhs => rw [← replicate_append_significant X]
          simp
        rw [hX, drop_left' (by simp), take_left]
      rw [if_neg (by omega), if_pos (by simp only [length_append]; omega), if_pos hfit, hread,
        trimmed]
    · rw [if_pos (by omega), if_neg hfit]

theorem val_p256FromBin {src : List UInt8} (h : src.length = 32) :
    (p256FromBin src).val = unbe src := by
  exact value_beWords (n := 8) h

theorem val_trimmed (h : Fits X) : (p256FromBin (trimmed X)).val = unbe X := by
  rw [trimmed, val_p256FromBin (by rw [length_append, length_replicate]; unfold Fits at h; omega),
    unbe_append, unbe_replicate_zero, zero_mul, zero_add, unbe_significant]

/-! ## Unpacking -/

theorem dsaSigUnpack_layout (h : Layout sig R S) :
    dsaSigUnpack sig sig.length =
      if Fits R then
        if significant S = [] then none
        else if Fits S then some (some (p256FromBin (trimmed R), p256FromBin (trimmed S)))
        else some none
      else some none := by
  obtain ⟨L, Lr, Ls, hsig, -, -, -, -, -⟩ := id h
  have hR : trimToP256Bytes sig 4 R.length = some (if Fits R then
      some (trimmed R) else none) := by
    have := trimToP256Bytes_spec [0x30, L, 0x02, Lr] R (0x02 :: Ls :: S)
    rw [if_neg (by simp)] at this
    rw [hsig]
    exact this
  have hS : trimToP256Bytes sig (6 + R.length) S.length = if significant S = [] then none
      else some (if Fits S then some (trimmed S) else none) := by
    have := trimToP256Bytes_spec (0x30 :: L :: 0x02 :: Lr :: R ++ [0x02, Ls]) S []
    rw [show (0x30 :: L :: 0x02 :: Lr :: R ++ [0x02, Ls]).length = 6 + R.length by simp; omega]
      at this
    simp only [and_true] at this
    rw [hsig, show 0x30 :: L :: 0x02 :: Lr :: R ++ 0x02 :: Ls :: S =
      0x30 :: L :: 0x02 :: Lr :: R ++ [0x02, Ls] ++ S ++ [] by simp]
    exact this
  rw [dsaSigUnpack, dsaSigHeader_layout h]
  simp only [bind_eq_bind, bind_some, elim_some, hR]
  by_cases hfitR : Fits R
  · simp only [hfitR, if_true, elim_some, hS]
    by_cases hzero : significant S = []
    · simp only [hzero, if_true, bind_none]
    · by_cases hfitS : Fits S
      · simp only [hzero, hfitS, if_true, if_false, bind_some, elim_some]
      · simp only [hzero, hfitS, if_false, bind_some, elim_none]
  · simp only [hfitR, if_false, elim_none]

end

/-- The result of unpacking is right: two numbers exactly if the buffer is an encoding of numbers that
fit, and then these numbers. -/
structure Unpacked (sig : List UInt8) (r : Option (P256Int × P256Int)) : Prop where
  accepted : r.isSome = true ↔ ∃ R S, Layout sig R S ∧ Fits R ∧ Fits S
  numbers : ∀ R S rs, Layout sig R S → r = some rs → rs.1.val = unbe R ∧ rs.2.val = unbe S

/-- Unpacking stays in the buffer and gives the right result unless the buffer is an encoding in which
`R` fits and `S` is zero. -/
theorem dsaSigUnpack_iff (sig : List UInt8) (sigLen : Int) (hlen : sig.length = sigLen.toNat) :
    (∃ r, dsaSigUnpack sig sigLen = some r ∧ Unpacked sig r) ↔
      ∀ R S, Layout sig R S → Fits R → significant S ≠ [] := by
  by_cases hlayout : ∃ R S, Layout sig R S
  · obtain ⟨R, S, h⟩ := hlayout
    have hsigLen : sigLen = sig.length := by
      obtain ⟨L, -, -, -, hL, -⟩ := h
      omega
    have hunique : ∀ R' S', Layout sig R' S' → R' = R ∧ S' = S := fun R' S' h' => h'.unique h
    rw [hsigLen, dsaSigUnpack_layout h]
    by_cases hfitR : Fits R
    · rw [if_pos hfitR]
      by_cases hzero : significant S = []
      · rw [if_pos hzero]
        constructor
        · rintro ⟨r, hr, -⟩
          cases hr
        · intro hall
          exact absurd hzero (hall R S h hfitR)
      · rw [if_neg hzero]
        refine iff_of_true ?_ ?_
        · by_cases hfitS : Fits S
          · rw [if_pos hfitS]
            refine ⟨_, rfl, ⟨by simp; exact ⟨R, S, h, hfitR, hfitS⟩, ?_⟩⟩
            intro R' S' rs h' hrs
            obtain ⟨rfl, rfl⟩ := hunique R' S' h'
            rw [← some_inj.1 hrs]
            exact ⟨val_trimmed hfitR, val_trimmed hfitS⟩
          · rw [if_neg hfitS]
            refine ⟨none, rfl, ⟨?_, by simp⟩⟩
            refine iff_of_false (by simp) ?_
            rintro ⟨R', S', h', -, hS'⟩
            rw [(hunique R' S' h').2] at hS'
            exact hfitS hS'
        · intro R' S' h' _
          rwa [(hunique R' S' h').2]
    · rw [if_neg hfitR]
      refine iff_of_true ⟨none, rfl, ⟨?_, by simp⟩⟩ ?_
      · refine iff_of_false (by simp) ?_
        rintro ⟨R', S', h', hR', -⟩
        rw [(hunique R' S' h').1] at hR'
        exact hfitR hR'
      · intro R' S' h' hR'
        rw [(hunique R' S' h').1] at hR'
        exact absurd hR' hfitR
  · -- the header checks fail
    obtain ⟨header, hheader, hcases⟩ := dsaSigHeader_cases hlen
    obtain rfl : header = none := by
      cases header with
      | none => rfl
      | some lens =>
        obtain ⟨R, S, h, -⟩ := hcases lens rfl
        exact absurd ⟨R, S, h⟩ hlayout
    refine iff_of_true ⟨none, ?_, ?_, by simp⟩ ?_
    · rw [dsaSigUnpack, hheader]
      rfl
    · refine iff_of_false (by simp) ?_
      rintro ⟨R, S, h, -⟩
      exact hlayout ⟨R, S, h⟩
    · intro R S h
      exact absurd ⟨R, S, h⟩ hlayout

/-- `R = 1` and `S = 1`. -/
theorem dsaSigUnpack_ones :
    ∃ r, dsaSigUnpack [0x30, 6, 0x02, 1, 1, 0x02, 1, 1] 8 = some r ∧
      Unpacked [0x30, 6, 0x02, 1, 1, 0x02, 1, 1] r := by
  refine (dsaSigUnpack_iff [0x30, 6, 0x02, 1, 1, 0x02, 1, 1] 8 rfl).2 ?_
  intro R S h _
  have hones : Layout [0x30, 6, 0x02, 1, 1, 0x02, 1, 1] [1] [1] :=
    ⟨6, 1, 1, rfl, rfl, rfl, rfl, le_rfl, le_rfl⟩
  rw [(h.unique hones).2]
  decide

/-- `R = 1` and `S = 0`: the byte behind the buffer is read. -/
theorem dsaSigUnpack_outside :
    dsaSigUnpack [0x30, 6, 0x02, 1, 1, 0x02, 1, 0] 8 = none := by
  decide +kernel

end AndroidSystem.Mincrypt
