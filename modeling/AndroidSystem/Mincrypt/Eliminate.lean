import AndroidSystem.Mincrypt.ReduceDegree

/-!
# The elimination loop of the reduction

Bounds of the words along the loop of `felem_reduce_degree`, and from them the result of the function.

The exact words are below `2 ^ 32` throughout, and not negative but for one case: when the top half of
the loop eliminates a word that is 1, word `i + 9` may become `-1`. The word before it is then so large
that its carry makes up for it (`Borrows`).
-/

namespace AndroidSystem.Mincrypt

open List MixedRadix Arith Function

variable {y m c : Int} {A : Arith} {tmp : List Int}

/-! ## What one half of a round adds -/

/-- What the top half adds to word `i + k`, for `y` in word `i`. -/
def topDelta (y : Int) (k : Nat) : Int :=
  let x := y % 2 ^ 29
  match k with
  | 1 => y / 2 ^ 29
  | 3 => x * 2 ^ 10 % 2 ^ 28
  | 4 => x / 2 ^ 18
  | 6 => x * 2 ^ 21 % 2 ^ 29
  | 7 => x / 2 ^ 8 + masked x 0x10000000 - x * 2 ^ 24 % 2 ^ 28
  | 8 => masked x (x - 1) - x / 2 ^ 4 + masked x 0x20000000 - x + x * 2 ^ 28 % 2 ^ 29
  | 9 => masked x (x / 2 - 1)
  | _ => 0

/-- What the bottom half adds to word `i + k`, for `y` in word `i + 1`. -/
def bottomDelta (y : Int) (k : Nat) : Int :=
  let x := y % 2 ^ 28
  match k with
  | 2 => y / 2 ^ 28
  | 4 => x * 2 ^ 11 % 2 ^ 29
  | 5 => x / 2 ^ 18
  | 7 => x * 2 ^ 21 % 2 ^ 28
  | 8 => x / 2 ^ 7 + masked x 0x20000000 - x * 2 ^ 25 % 2 ^ 29
  | 9 => masked x (x - 1) - x / 2 ^ 4 + masked x 0x10000000 - x
  | 10 => masked x (x - 1)
  | _ => 0

variable {w v U : Nat → Int} {i j k : Nat}

theorem eliminateTop_apply :
    eliminateTop exact i w j = (if j = i then 0 else w j) + topDelta (w i) (j - i) := by
  have hx : exact.addAt w (i + 1) (w i / 2 ^ 29) i = w i := addAt_of_ne (by omega)
  obtain hj | hj := lt_or_ge j i
  · rw [if_neg hj.ne, Nat.sub_eq_zero_of_le hj.le]
    simp only [eliminateTop, addAt]
    repeat rw [update_of_ne (by omega)]
    exact (add_zero (w j)).symm
  · obtain ⟨k, rfl⟩ := Nat.exists_eq_add_of_le hj
    simp only [eliminateTop, hx, topDelta]
    rcases k with _ | _ | _ | _ | _ | _ | _ | _ | _ | _ | k
    all_goals
      simp [addAt, exact, shlMask]
      try ring

theorem eliminateBottom_apply :
    eliminateBottom exact i w j =
      (if j = i + 1 then 0 else w j) + bottomDelta (w (i + 1)) (j - i) := by
  have hx : exact.addAt w (i + 2) (w (i + 1) / 2 ^ 28) (i + 1) = w (i + 1) := addAt_of_ne (by omega)
  obtain hj | hj := lt_or_ge j i
  · rw [if_neg (by omega), Nat.sub_eq_zero_of_le hj.le]
    simp only [eliminateBottom, addAt]
    repeat rw [update_of_ne (by omega)]
    exact (add_zero (w j)).symm
  · obtain ⟨k, rfl⟩ := Nat.exists_eq_add_of_le hj
    simp only [eliminateBottom, hx, bottomDelta]
    rcases k with _ | _ | _ | _ | _ | _ | _ | _ | _ | _ | _ | k
    all_goals
      simp [addAt, exact, shlMask]
      try ring

/-! ## Bounds of what is added -/

/-- The most that the top half adds to word `i + k`, for at most `y` in word `i`. -/
def topRoom (y : Int) : Nat → Int
  | 1 => y / 2 ^ 29
  | 3 => 2 ^ 28
  | 4 => 2 ^ 11
  | 6 => 2 ^ 29
  | 7 => 2 ^ 21 + 2 ^ 28
  | 8 => 2 ^ 29 + 2 ^ 28
  | 9 => 2 ^ 28
  | _ => 0

/-- The most that the bottom half adds to word `i + k`, for at most `y` in word `i + 1`. -/
def bottomRoom (y : Int) : Nat → Int
  | 2 => y / 2 ^ 28
  | 4 => 2 ^ 29
  | 5 => 2 ^ 10
  | 7 => 2 ^ 28
  | 8 => 2 ^ 21 + 2 ^ 29
  | 9 => 2 ^ 28
  | 10 => 2 ^ 28
  | _ => 0

theorem topDelta_le (hm : y ≤ m) : topDelta y k ≤ topRoom m k := by
  rcases k with _ | _ | _ | _ | _ | _ | _ | _ | _ | _ | k
  all_goals
    simp only [topDelta, topRoom, masked]
    omega

/-- Only word `i + 9` can lose something. -/
theorem topDelta_nonneg (hy : 0 ≤ y) (hk : k ≠ 9) : 0 ≤ topDelta y k := by
  rcases k with _ | _ | _ | _ | _ | _ | _ | _ | _ | _ | k
  all_goals
    simp only [topDelta, masked]
    omega

theorem topDelta_nine : 0 ≤ topDelta y 9 ∨ topDelta y 9 = -1 ∧ 2 ^ 29 ≤ topDelta y 8 := by
  simp only [topDelta, masked]
  omega

theorem bottomDelta_le (hm : y ≤ m) : bottomDelta y k ≤ bottomRoom m k := by
  rcases k with _ | _ | _ | _ | _ | _ | _ | _ | _ | _ | _ | k
  all_goals
    simp only [bottomDelta, bottomRoom, masked]
    omega

theorem bottomDelta_nonneg (hy : 0 ≤ y) : 0 ≤ bottomDelta y k := by
  rcases k with _ | _ | _ | _ | _ | _ | _ | _ | _ | _ | _ | k
  all_goals
    simp only [bottomDelta, masked]
    omega

/-! ## The words along the loop -/

/-- Word `j` is `-1`, and the one before it has a carry for it. Only a word that the top half reached
at the distance 9 can be so. -/
structure Borrows (i : Nat) (w : Nat → Int) (j : Nat) : Prop where
  eq : w j = -1
  odd : j % 2 = 1
  nine_le : 9 ≤ j
  above : i < j
  reached : j < i + 9
  carry : 2 ^ 29 ≤ w (j - 1)

/-- The words below `i` are eliminated, and the others have at most what `U` says. -/
structure LoopWords (i : Nat) (U w : Nat → Int) : Prop where
  zero : ∀ j < i, w j = 0
  upper : ∀ j, w j ≤ U j
  lower : ∀ j, 0 ≤ w j ∨ Borrows i w j

theorem LoopWords.next_nonneg (h : LoopWords i U w) : 0 ≤ w i := by
  obtain h0 | hborrows := h.lower i
  · exact h0
  · exact absurd hborrows.above (lt_irrefl i)

theorem LoopWords.even_nonneg (h : LoopWords i U w) (hj : j % 2 = 0) : 0 ≤ w j := by
  obtain h0 | hborrows := h.lower j
  · exact h0
  · have hodd := hborrows.odd
    omega

/-- The bounds of the words after the top half. -/
def topUpper (i : Nat) (U : Nat → Int) (j : Nat) : Int := U j + topRoom (U i) (j - i)

/-- The bounds of the words after the bottom half. -/
def bottomUpper (i : Nat) (U : Nat → Int) (j : Nat) : Int := U j + bottomRoom (U (i + 1)) (j - i)

/-- A step that clears word `i` and adds `d`. What `d` takes away from a word is made up for by what it
adds to the word before, and a large word `i` leaves a carry. -/
theorem LoopWords.step {d R w' : Nat → Int} (h : LoopWords i U w)
    (hw' : ∀ j, w' j = (if j = i then 0 else w j) + d j) (hzero : ∀ j ≤ i, d j = 0)
    (hupper : ∀ j, d j ≤ R j)
    (hlower : ∀ j, 0 ≤ d j ∨ j = i + 9 ∧ j % 2 = 1 ∧ d j = -1 ∧ 2 ^ 29 ≤ d (j - 1))
    (hcarry : 2 ^ 29 ≤ w i → 1 ≤ d (i + 1)) :
    LoopWords (i + 1) (fun j => U j + R j) w' := by
  have hbelow : ∀ j ≤ i, w' j = 0 := by
    intro j hj
    rw [hw', hzero j hj]
    split_ifs with heq
    · rfl
    · rw [h.zero j (lt_of_le_of_ne hj heq), add_zero]
  have habove : ∀ j, i < j → w' j = w j + d j := by
    intro j hj
    rw [hw', if_neg hj.ne']
  refine ⟨fun j hj => hbelow j (Nat.le_of_lt_succ hj), ?_, ?_⟩
  · intro j
    have hd := hupper j
    have hword := h.upper j
    rw [hw']
    split_ifs with heq
    · have hnext := h.next_nonneg
      rw [heq] at hword hd ⊢
      linarith
    · linarith
  · intro j
    obtain hj | hj := lt_or_ge i j
    · have hword' := habove j hj
      obtain hd | ⟨rfl, hodd, hd, hbefore⟩ := hlower j
      · obtain hword | ⟨heq, hodd, hnine, -, hreached, hbefore⟩ := h.lower j
        · exact .inl (hword'.symm ▸ add_nonneg hword hd)
        · -- the borrow stays, unless the cleared word was the one before it
          by_cases hpos : 0 ≤ w' j
          · exact .inl hpos
          · have hne : j ≠ i + 1 := by
              rintro rfl
              have hone := hcarry hbefore
              omega
            obtain hd1 | ⟨hj9, -⟩ := hlower (j - 1)
            · have hbefore' := habove (j - 1) (by omega)
              exact .inr ⟨by omega, hodd, hnine, by omega, by omega, by omega⟩
            · omega
      · -- this word had not lost anything yet
        obtain hword | hborrows := h.lower (i + 9)
        · by_cases hpos : 0 ≤ w' (i + 9)
          · exact .inl hpos
          · have heven := h.even_nonneg (j := i + 8) (by omega)
            have hbefore' := habove (i + 8) (by omega)
            rw [show i + 9 - 1 = i + 8 from rfl] at hbefore
            exact .inr ⟨by omega, hodd, by omega, by omega, by omega, by
              rw [show i + 9 - 1 = i + 8 from rfl]
              omega⟩
        · exact absurd hborrows.reached (lt_irrefl _)
    · exact .inl (hbelow j hj).ge

theorem LoopWords.top (h : LoopWords i U w) (hi : i % 2 = 0) :
    LoopWords (i + 1) (topUpper i U) (eliminateTop exact i w) := by
  have hy := h.next_nonneg
  refine h.step (fun j => eliminateTop_apply) ?_ ?_ ?_ ?_
  · intro j hj
    rw [Nat.sub_eq_zero_of_le hj]
    rfl
  · intro j
    exact topDelta_le (h.upper i)
  · intro j
    obtain hj | hj := eq_or_ne (j - i) 9
    · obtain rfl : j = i + 9 := by omega
      rw [Nat.add_sub_cancel_left, show i + 9 - 1 - i = 8 by omega]
      obtain hd | hd := topDelta_nine
      · exact .inl hd
      · exact .inr ⟨rfl, by omega, hd⟩
    · exact .inl (topDelta_nonneg hy hj)
  · intro hlarge
    rw [Nat.add_sub_cancel_left]
    show 1 ≤ w i / 2 ^ 29
    omega

theorem LoopWords.bottom (h : LoopWords (i + 1) U w) :
    LoopWords (i + 2) (bottomUpper i U) (eliminateBottom exact i w) := by
  have hy := h.next_nonneg
  refine h.step (fun j => eliminateBottom_apply)
    ?_ ?_ ?_ ?_
  · intro j hj
    obtain hj | rfl := Nat.le_succ_iff.1 hj
    · rw [Nat.sub_eq_zero_of_le hj]
      rfl
    · rw [Nat.succ_eq_add_one, Nat.add_sub_cancel_left]
      rfl
  · intro j
    exact bottomDelta_le (h.upper (i + 1))
  · intro j
    exact .inl (bottomDelta_nonneg hy)
  · intro hlarge
    rw [add_assoc, Nat.add_sub_cancel_left]
    show 1 ≤ w (i + 1) / 2 ^ 28
    omega

/-! ## The words of the machine -/

/-- A machine has the exact words modulo `2 ^ 32`. -/
def Reads (v w : Nat → Int) : Prop := ∀ j, v j = w j % 2 ^ 32

theorem Reads.eq (h : Reads v w) (h0 : 0 ≤ w j) (h1 : w j < 2 ^ 32) : v j = w j := by
  rw [h j, Int.emod_eq_of_lt h0 h1]

theorem Reads.clear (h : Reads v w) (l : Nat) :
    Reads (update v l 0) (update w l 0) := by
  intro j
  obtain rfl | hj := eq_or_ne j l
  · simp
  · rw [update_of_ne hj, update_of_ne hj, h j]

section

variable {A : Arith} (hA : A.IsMachine)
include hA

theorem Reads.addAt {e e' : Int} (h : Reads v w) (l : Nat) (he : e ≡ e' [ZMOD 2 ^ 32]) :
    Reads (A.addAt v l e) (exact.addAt w l e') := by
  intro j
  obtain rfl | hj := eq_or_ne j l
  · rw [Arith.addAt, update_self, Arith.addAt, update_self, hA.wrap_eq, h j,
      Int.emod_add_emod]
    exact Int.ModEq.add_left _ he
  · rw [addAt_of_ne hj, addAt_of_ne hj, h j]

theorem Reads.top (h : Reads v w) (h0 : 0 ≤ w i) (h1 : w i < 2 ^ 32) :
    Reads (eliminateTop A i v) (eliminateTop exact i w) := by
  have hx : ∀ (A : Arith) (u : Nat → Int) (e : Int), A.addAt u (i + 1) e i = u i := by
    intro A u e
    exact addAt_of_ne (by omega)
  have hlast : ∀ x, masked x (A.wrap (x / 2 - 1)) ≡ masked x (exact.wrap (x / 2 - 1)) [ZMOD 2 ^ 32] := by
    intro x
    rw [masked, masked, hA.wrap_eq]
    split_ifs
    · rfl
    · exact Int.mod_modEq _ _
  simp only [eliminateTop, hx, h.eq h0 h1, shlMask_eq hA _ _ (by decide : 28 ≤ 32),
    shlMask_eq hA _ _ (by decide : 29 ≤ 32)]
  refine Reads.addAt hA ?_ _ (hlast _)
  repeat refine Reads.addAt hA ?_ _ rfl
  exact (h.addAt hA _ rfl).clear _

theorem Reads.bottom (h : Reads v w) (h0 : 0 ≤ w (i + 1)) (h1 : w (i + 1) < 2 ^ 32) :
    Reads (eliminateBottom A i v) (eliminateBottom exact i w) := by
  have hx : ∀ (A : Arith) (u : Nat → Int) (e : Int), A.addAt u (i + 2) e (i + 1) = u (i + 1) := by
    intro A u e
    exact addAt_of_ne (by omega)
  simp only [eliminateBottom, hx, h.eq h0 h1, shlMask_eq hA _ _ (by decide : 28 ≤ 32),
    shlMask_eq hA _ _ (by decide : 29 ≤ 32)]
  repeat refine Reads.addAt hA ?_ _ rfl
  exact (h.addAt hA _ rfl).clear _

end

/-! ## The loop -/

/-- What holds along the loop: `N` is the number to be reduced. -/
structure Loop (i : Nat) (U v w : Nat → Int) (N : Int) : Prop where
  words : LoopWords i U w
  reads : Reads v w
  value : wordsValue w ≡ N [ZMOD fieldP]

/-- The bounds before the loop. -/
def startUpper (j : Nat) : Int :=
  if j = 17 then 7 * 2 ^ 29 + 2 ^ 8 else if j % 2 = 0 then 2 ^ 29 else 2 ^ 28

/-- The bounds after `n` rounds. -/
def roundsUpper : Nat → Nat → Int
  | 0 => startUpper
  | n + 1 => bottomUpper (2 * n) (topUpper (2 * n) (roundsUpper n))

section

variable {A : Arith} (hA : A.IsMachine) {N : Int}
include hA

theorem Loop.top (h : Loop i U v w N) (hi : i % 2 = 0) (hi8 : i ≤ 8) (hU : U i < 2 ^ 32) :
    Loop (i + 1) (topUpper i U) (eliminateTop A i v) (eliminateTop exact i w) N := by
  refine ⟨h.words.top hi, h.reads.top hA h.words.next_nonneg ((h.words.upper i).trans_lt hU), ?_⟩
  rw [wordsValue_eliminateTop hi hi8, mul_right_comm]
  exact Eq.trans (Int.add_mul_emod_self_right _ _ _) h.value

theorem Loop.bottom (h : Loop (i + 1) U v w N) (hi : i % 2 = 0) (hi6 : i ≤ 6)
    (hU : U (i + 1) < 2 ^ 32) :
    Loop (i + 2) (bottomUpper i U) (eliminateBottom A i v) (eliminateBottom exact i w) N := by
  refine ⟨h.words.bottom, h.reads.bottom hA h.words.next_nonneg ((h.words.upper _).trans_lt hU), ?_⟩
  rw [wordsValue_eliminateBottom hi hi6, mul_right_comm]
  exact Eq.trans (Int.add_mul_emod_self_right _ _ _) h.value

theorem Loop.round {n : Nat} (h : Loop (2 * n) (roundsUpper n) v w N) (hn : n ≤ 3)
    (htop : roundsUpper n (2 * n) < 2 ^ 32)
    (hbottom : topUpper (2 * n) (roundsUpper n) (2 * n + 1) < 2 ^ 32) :
    Loop (2 * (n + 1)) (roundsUpper (n + 1)) (eliminateBottom A (2 * n) (eliminateTop A (2 * n) v))
      (eliminateBottom exact (2 * n) (eliminateTop exact (2 * n) w)) N :=
  (h.top hA (by omega) (by omega) htop).bottom hA (by omega) (by omega) hbottom

theorem Loop.run (h : Loop 0 startUpper v w N) :
    Loop 9 (topUpper 8 (roundsUpper 4)) (eliminateLoop A v) (eliminateLoop exact w) N := by
  have h1 := Loop.round hA (n := 0) h (by decide) (by decide) (by decide)
  have h2 := h1.round hA (by decide) (by decide) (by decide)
  have h3 := h2.round hA (by decide) (by decide) (by decide)
  have h4 := h3.round hA (by decide) (by decide) (by decide)
  exact h4.top hA (by decide) (by decide) (by decide)

end

/-! ## The words above `2 ^ 257` -/

theorem startBit_nine_add (k : Nat) : startBit (9 + k) = 257 + (57 * (k / 2) + 28 * (k % 2)) := by
  rw [startBit]
  omega

theorem wordsValue_shiftDown (h : ∀ j < 9, w j = 0) :
    wordsValue w = 2 ^ 257 * felemValue (shiftDown exact w) := by
  have hlow : ∑ j ∈ Finset.range 9, w j * 2 ^ startBit j = 0 := by
    refine Finset.sum_eq_zero ?_
    intro j hj
    rw [h j (mem_range.1 hj), zero_mul]
  rw [wordsValue, Finset.sum_range_add _ 9 9, hlow]
  have h10 := shifted_split (w 10) 28 29 1 rfl
  have h12 := shifted_split (w 12) 28 29 1 rfl
  have h14 := shifted_split (w 14) 28 29 1 rfl
  have h16 := shifted_split (w 16) 28 29 1 rfl
  simp only [startBit_nine_add, pow_add, mul_left_comm _ ((2 : Int) ^ 257), ← Finset.mul_sum]
  simp only [Finset.sum_range_succ, shiftDown, exact, shlMask, felemValue_eq]
  norm_num at h10 h12 h14 h16 ⊢
  linarith

/-- Two columns of the result, and what is known of the carry that they leave for the others. -/
theorem safe_columns {x : Int} {ws : List Nat} {ds : List Int} (h0 : 0 ≤ x + c) (hx : x < 2 ^ 31)
    (hy : 0 ≤ y ∧ y < 2 ^ 32) (hc : c ≤ 8)
    (hrest : ∀ c', 0 ≤ c' → c' ≤ 8 → (2 ^ 29 ≤ y → 1 ≤ c') → Safe (2 ^ 32) ws c' ds) :
    Safe (2 ^ 32) (29 :: 28 :: ws) c ((x + y * 2 ^ 28 % 2 ^ 29) :: y / 2 :: ds) := by
  refine ⟨by omega, by omega, hrest _ ?_ ?_ ?_⟩
  all_goals omega

/-- A borrowed word takes what the word before it carries. -/
theorem LoopWords.borrow (h : LoopWords i U w) (hc : 0 ≤ c) (hcarry : 2 ^ 29 ≤ w (j - 1) → 1 ≤ c) :
    0 ≤ w j + c := by
  obtain h0 | hborrows := h.lower j
  · exact add_nonneg h0 hc
  · have hone := hcarry hborrows.carry
    have heq := hborrows.eq
    omega

section

variable (h : LoopWords 9 (topUpper 8 (roundsUpper 4)) w)
include h

theorem LoopWords.final_lt (hj : j < 18) : w j < 2 ^ 32 - 2 ^ 27 := by
  have hbound : ∀ j < 18, topUpper 8 (roundsUpper 4) j < 2 ^ 32 - 2 ^ 27 := by decide
  exact (h.upper j).trans_lt (hbound j hj)

theorem LoopWords.even_word (j : Nat) (hj : j < 18) (heven : j % 2 = 0) : 0 ≤ w j ∧ w j < 2 ^ 32 :=
  ⟨h.even_nonneg heven, (h.final_lt hj).trans (by norm_num)⟩

theorem shiftDown_safe : Safe (2 ^ 32) widths 0 (shiftDown exact w) := by
  have hodd : ∀ j ∈ [9, 11, 13, 15], w j < 2 ^ 31 := by
    intro j hj
    have hbound : ∀ j ∈ [9, 11, 13, 15], topUpper 8 (roundsUpper 4) j < 2 ^ 31 := by decide
    exact (h.upper j).trans_lt (hbound j hj)
  have heven := h.even_word
  refine safe_columns (h.borrow le_rfl ?_) (hodd 9 (by decide)) (heven 10 (by decide) rfl)
    (by norm_num) ?_
  · intro hlarge
    norm_num [h.zero 8 (by decide)] at hlarge
  intro c1 h1 hc1 hcarry1
  refine safe_columns (h.borrow h1 hcarry1) (hodd 11 (by decide)) (heven 12 (by decide) rfl) hc1 ?_
  intro c2 h2 hc2 hcarry2
  refine safe_columns (h.borrow h2 hcarry2) (hodd 13 (by decide)) (heven 14 (by decide) rfl) hc2 ?_
  intro c3 h3 hc3 hcarry3
  refine safe_columns (h.borrow h3 hcarry3) (hodd 15 (by decide)) (heven 16 (by decide) rfl) hc3 ?_
  intro c4 h4 hc4 hcarry4
  have hlast := h.final_lt (j := 17) (by decide)
  exact ⟨⟨h.borrow h4 hcarry4, by omega⟩, trivial⟩

end

theorem shiftDown_machine (hA : A.IsMachine) (h : Reads v w)
    (hw : LoopWords 9 (topUpper 8 (roundsUpper 4)) w) :
    List.Forall₂ (fun x y => x ≡ y [ZMOD 2 ^ 32]) (shiftDown A v) (shiftDown exact w) := by
  have hword : ∀ j, v j ≡ w j [ZMOD 2 ^ 32] := by
    intro j
    rw [h j]
    exact Int.mod_modEq _ _
  have heq : ∀ j < 18, j % 2 = 0 → v j = w j := by
    intro j hj hj2
    exact h.eq (hw.even_word j hj hj2).1 (hw.even_word j hj hj2).2
  simp only [shiftDown, heq 10 (by decide) rfl, heq 12 (by decide) rfl, heq 14 (by decide) rfl,
    heq 16 (by decide) rfl, shlMask_eq hA _ _ (by decide : 29 ≤ 32), forall₂_cons,
    forall₂_nil_left_iff, and_true]
  have hsum : ∀ j e, A.wrap (v j + e) ≡ exact.wrap (w j + e) [ZMOD 2 ^ 32] := by
    intro j e
    rw [hA.wrap_eq]
    exact (Int.mod_modEq _ _).trans ((hword j).add_right e)
  exact ⟨hsum _ _, rfl, hsum _ _, rfl, hsum _ _, rfl, hsum _ _, rfl, hword 17⟩

/-! ## `felem_reduce_degree` -/

/-- `kRInv`: `1 / R` modulo `p`. -/
def kRInv : Int := 0x7fffffff00000001fffffffe8000000100000000ffffffff0000000180000000

theorem kRInv_spec : 2 ^ 257 * kRInv ≡ 1 [ZMOD fieldP] := by
  rw [two_pow_257]
  decide

/-- What the 17 words of 64 bits stand for. -/
def columnsValue (tmp : List Int) : Int := value (limbWidths true 17) tmp

theorem Loop.start (hA : A.IsMachine) (hlen : tmp.length = 17) (htmp : ∀ t ∈ tmp, InU64 t)
    (hlast : tmp.getD 16 0 < 7 * 2 ^ 58) :
    Loop 0 startUpper (fun j => (spreadLoop A (limbWidths true 17) 0 0 0 tmp).getD j 0)
      (fun j => (spreadLoop exact (limbWidths true 17) 0 0 0 tmp).getD j 0) (columnsValue tmp) := by
  have hzero : InU64 0 := ⟨le_rfl, by norm_num⟩
  have hlast' : ∀ t ∈ (0 :: tmp).getLast?, t < 7 * 2 ^ 58 := by
    intro t ht
    have hmem : tmp.getLast? = some t := by
      cases tmp with
      | nil => simp at hlen
      | cons u us => exact ht
    rw [getLast?_eq_getElem?, hlen] at hmem
    rwa [getD_eq_getElem?_getD, hmem] at hlast
  obtain ⟨hmachine, ws, last, heq, hfits, hlast0, hlast1⟩ :=
    @spreadLoop_bounds true 17 0 0 0 tmp hlen hzero hzero htmp hlast' le_rfl (by norm_num)
  have hws : ws.length = 17 := hfits.length_eq.symm
  have hword : ∀ j, 0 ≤ (ws ++ [last]).getD j 0 ∧ (ws ++ [last]).getD j 0 ≤ startUpper j := by
    intro j
    obtain hj | hj := lt_or_ge j 17
    · have hdigit := hfits.getD j
      have hwidth : ∀ j < 17, (2 : Int) ^ ((limbWidths true 17).getD j 0 + 0) = startUpper j := by
        decide
      rw [hwidth j hj] at hdigit
      rw [getD_append _ _ _ _ (hws.symm ▸ hj)]
      exact ⟨hdigit.1, hdigit.2.le⟩
    · rw [getD_append_right _ _ _ _ (hws.symm ▸ hj), hws]
      obtain rfl | hj := hj.eq_or_lt
      · exact ⟨hlast0, hlast1.le⟩
      · rw [getD_eq_default _ _ (by simp; omega), startUpper]
        split_ifs <;> norm_num
  have hvalue := @value_spreadLoop true 17 0 0 0 tmp hlen rfl hzero hzero htmp
  rw [hmachine A hA]
  rw [value_limbWidths (by rw [heq]; simp [hws])] at hvalue
  simp only [heq] at hvalue ⊢
  refine ⟨⟨fun j hj => absurd hj (Nat.not_lt_zero j), fun j => (hword j).2, fun j => .inl (hword j).1⟩,
    ?_, ?_⟩
  · intro j
    have hsmall : startUpper j < 2 ^ 32 := by
      rw [startUpper]
      split_ifs <;> norm_num
    exact (Int.emod_eq_of_lt (hword j).1 ((hword j).2.trans_lt hsmall)).symm
  · have hstart : wordsValue (fun j => (ws ++ [last]).getD j 0) = columnsValue tmp := by
      simpa [wordsValue, offsetBit, columnsValue] using hvalue
    rw [hstart]

/-- `felem_reduce_degree`. The last word must be below `7 * 2 ^ 58`, which no square and no product
comes near. -/
theorem felemReduceDegree_right (hlen : tmp.length = 17) (htmp : ∀ t ∈ tmp, InU64 t)
    (hlast : tmp.getD 16 0 < 7 * 2 ^ 58) :
    Right (fun A => felemReduceDegree A tmp) (columnsValue tmp * kRInv) := by
  have hloop : ∀ {A : Arith}, A.IsMachine → _ := fun hA => (Loop.start hA hlen htmp hlast).run hA
  have hexact := hloop isMachine_machine
  have hright := carryAndReduce_right (g := fun A => A.wrap) (f := fun A => shiftDown A
    (eliminateLoop A fun j => (spreadLoop A (limbWidths true 17) 0 0 0 tmp).getD j 0)) rfl rfl
    (by
      intro A hA
      have hwrap : A.wrap = (· % 2 ^ 32) := funext hA.wrap_eq
      rw [hwrap]
      exact carryChain_wrap (shiftDown_machine hA (hloop hA).reads (hloop hA).words)
        (shiftDown_safe hexact.words))
    (shiftDown_safe hexact.words)
  have hvalue := hexact.value
  rw [wordsValue_shiftDown hexact.words.zero] at hvalue
  refine ⟨hright.eq_exact, hright.tidy, hright.value.trans ?_⟩
  generalize felemValue _ = r at hvalue ⊢
  calc r = 1 * r := (one_mul r).symm
    _ ≡ 2 ^ 257 * kRInv * r [ZMOD fieldP] := kRInv_spec.symm.mul_right r
    _ = 2 ^ 257 * r * kRInv := mul_right_comm _ _ _
    _ ≡ columnsValue tmp * kRInv [ZMOD fieldP] := hvalue.mul_right kRInv

end AndroidSystem.Mincrypt
