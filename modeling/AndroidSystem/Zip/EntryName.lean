import AndroidSystem.Lib.Except
import AndroidSystem.Zip.Archive

/-!
# `IsValidEntryName`

The two loops of `IsValidEntryName` are one automaton that takes the bytes of a name one after the
other (`nameStep`). Its state has the leading ones of a sequence that are still without their
continuation byte. `isValidEntryName_eq` says what the loops return, and when they read outside: if
the name is longer than what there is, and nothing is wrong with what there is.
-/

namespace AndroidSystem.Zip

open List

/-- The state after a byte, or `none` if the byte is wrong. -/
def nameStep (pending byte : UInt8) : Option UInt8 :=
  if pending &&& 0x80 = 0 then
    if byte = 0 then none
    else if byte &&& 0x80 = 0 then some 0
    else if byte &&& 0xc0 = 0x80 ∨ byte &&& 0xfe = 0xfe then none
    else some (byte <<< 1)
  else if byte &&& 0xc0 ≠ 0x80 then none
  else some (pending <<< 1)

/-- The state after some bytes. -/
def nameState (pending : UInt8) (l : List UInt8) : Option UInt8 := l.foldlM nameStep pending

/-- The names that are accepted. -/
def ValidName (l : List UInt8) : Prop := ∃ pending, nameState 0 l = some pending ∧ pending &&& 0x80 = 0

/-- What comes out for a name of `length` bytes, of which `l` can be read. -/
def verdict (pending : UInt8) (l : List UInt8) (length : Nat) : Run Bool :=
  match nameState pending l with
  | none => .ok false
  | some pending => if l.length < length then .error .outside else .ok (pending &&& 0x80 = 0)

section

variable {r : Region} {name length : Nat}

theorem verdict_nil (pending : UInt8) (length : Nat) : verdict pending [] length =
    if 0 < length then .error .outside else .ok (pending &&& 0x80 = 0) := rfl

theorem verdict_cons (pending b : UInt8) (l : List UInt8) (length : Nat) :
    verdict pending (b :: l) (length + 1) =
      (nameStep pending b).elim (.ok false) fun pending => verdict pending l length := by
  unfold verdict nameState
  rw [foldlM_cons]
  cases nameStep pending b with
  | none => rfl
  | some p =>
    simp only [length_cons, add_lt_add_iff_right]
    rfl

/-- Only the top bit of the state counts. -/
theorem verdict_pending {pending : UInt8} (h : pending &&& 0x80 = 0) (l : List UInt8)
    (length : Nat) : verdict pending l length = verdict 0 l length := by
  cases l with
  | nil =>
    rw [verdict_nil, h]
    rfl
  | cons b l =>
    unfold verdict nameState
    rw [foldlM_cons, foldlM_cons]
    have : nameStep pending b = nameStep 0 b := by
      unfold nameStep
      rw [if_pos h, if_pos (show (0 : UInt8) &&& 0x80 = 0 by decide)]
    rw [this]

/-- The bytes of a name from `i` on. -/
def rest (r : Region) (name length i : Nat) : List UInt8 :=
  (r.bytes.drop (name + i)).take (length - i)

theorem verdict_read (pending : UInt8) {i : Nat} (h : i < length) :
    verdict pending (rest r name length i) (length - i) =
      (need (r.readWord (name + i) 1) >>= fun byte =>
        (nameStep pending (UInt8.ofNat byte)).elim (.ok false) fun pending =>
          verdict pending (rest r name length (i + 1)) (length - (i + 1))) := by
  obtain ⟨m, hm⟩ : ∃ m, length - i = m + 1 := ⟨length - i - 1, by omega⟩
  have hm' : length - (i + 1) = m := by omega
  unfold rest
  rw [hm, hm']
  cases hdrop : r.bytes.drop (name + i) with
  | nil =>
    have hread : r.readWord (name + i) 1 = none := by
      rw [← Option.not_isSome_iff_eq_none, Region.readWord_isSome]
      have := drop_eq_nil_iff.1 hdrop
      unfold Region.size
      omega
    rw [hread]
    rfl
  | cons b l =>
    have hnext : r.bytes.drop (name + (i + 1)) = l := by
      rw [← add_assoc, ← drop_drop, hdrop]
      rfl
    rw [Region.readWord_one hdrop, hnext, take_succ_cons, verdict_cons]
    show _ = (nameStep pending (UInt8.ofNat b.toNat)).elim _ _
    rw [UInt8.ofNat_toNat]

/-- The inner loop, with what follows it. `k` is enough for the bits of `first` that are left. -/
theorem continuationLoop_eq {k i : Nat} {first : UInt8} {next : Option Nat → Run Bool}
    (hi : i < length) (hk : k ≤ 8) (hfirst : first.toNat % 2 ^ (8 - k) = 0)
    (hnone : next none = .ok false)
    (hnext : ∀ j, i ≤ j → j < length → next (some j) =
      verdict 0 (rest r name length (j + 1)) (length - (j + 1))) :
    (continuationLoop r name length k first i >>= next) =
      verdict first (rest r name length (i + 1)) (length - (i + 1)) := by
  induction k generalizing i first with
  | zero =>
    have hzero : first = 0 := by
      apply UInt8.toNat_inj.1
      have := first.toNat_lt
      simpa [Nat.mod_eq_of_lt this] using hfirst
    rw [hzero]
    exact hnext i le_rfl hi
  | succ k ih =>
    unfold continuationLoop
    by_cases htop : first &&& 0x80 = 0
    · rw [if_pos htop, verdict_pending htop]
      exact hnext i le_rfl hi
    rw [if_neg htop]
    by_cases hlast : i + 1 = length
    · have hrest : rest r name length (i + 1) = [] := by
        unfold rest
        rw [hlast, Nat.sub_self, take_zero]
      rw [if_pos hlast, hrest, verdict_nil, if_neg (by omega)]
      simp only [htop]
      exact hnone
    rw [if_neg hlast, verdict_read first (by omega), bind_assoc]
    congr 1
    funext byte
    unfold nameStep
    rw [if_neg htop]
    by_cases hcont : UInt8.ofNat byte &&& 0xc0 ≠ 0x80
    · rw [if_pos hcont, if_pos hcont]
      exact hnone
    rw [if_neg hcont, if_neg hcont]
    apply ih (by omega) (by omega)
    · -- one more bit at the bottom is zero
      obtain ⟨q, hq⟩ := Nat.dvd_of_mod_eq_zero hfirst
      have hpow : (2 : Nat) ^ (8 - k) = 2 * 2 ^ (8 - (k + 1)) := by
        rw [← pow_succ']
        congr 1
        omega
      apply Nat.mod_eq_zero_of_dvd
      rw [UInt8.toNat_shiftLeft, Nat.dvd_mod_iff (pow_dvd_pow 2 (by omega)), hpow]
      refine ⟨q, ?_⟩
      rw [hq]
      simp [Nat.shiftLeft_eq]
      ring
    · intro j hij hj
      exact hnext j (by omega) hj

theorem validLoop_eq {n i : Nat} (hi : i ≤ length) (hn : length ≤ i + n) :
    validLoop r name length n i = verdict 0 (rest r name length i) (length - i) := by
  induction n generalizing i with
  | zero =>
    have hrest : rest r name length i = [] := by
      unfold rest
      rw [Nat.sub_eq_zero_of_le (by omega), take_zero]
    rw [hrest, verdict_nil, if_neg (by omega)]
    rfl
  | succ n ih =>
    unfold validLoop
    by_cases hlt : i < length
    · rw [if_pos hlt, verdict_read 0 hlt]
      congr 1
      funext byte
      dsimp only
      unfold nameStep
      rw [if_pos (show (0 : UInt8) &&& 0x80 = 0 by decide)]
      split_ifs
      · rfl
      · exact ih (by omega) (by omega)
      · rfl
      · refine continuationLoop_eq hlt le_rfl (Nat.mod_one _) rfl ?_
        intro j hij hj
        exact ih (by omega) (by omega)
    · have hrest : rest r name length i = [] := by
        unfold rest
        rw [Nat.sub_eq_zero_of_le (by omega), take_zero]
      rw [if_neg hlt, hrest, verdict_nil, if_neg (by omega)]
      rfl

theorem isValidEntryName_eq (r : Region) (name length : Nat) : isValidEntryName r name length =
    verdict 0 ((r.bytes.drop name).take length) length :=
  validLoop_eq (Nat.zero_le _) (by omega)

end

end AndroidSystem.Zip
