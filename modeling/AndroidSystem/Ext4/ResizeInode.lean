import AndroidSystem.Ext4.Geometry

/-!
# The resize inode

`inode_attach_resize` stores each reserved block of the first group in the double-indirect block. Such
a block is also an indirect block, with its copies in the other groups as entries. The order is rotated
by `bg_desc_blocks`. The difference is unsigned: it wraps around at `2 ^ 32` before the remainder is
taken, and the remainder is never negative.
-/

namespace AndroidSystem.Ext4

variable (info : FsInfo) (aux : FsAuxInfo) (getBlock : Nat → Nat) (superblocks : Nat)

/-- `r` in round `i` of the loop -/
def resizeIndex (i : Nat) : Int :=
  let r := i32 (u32OfInt (i - aux.bgDescBlocks) % info.bgDescReserveBlocks)
  if r < 0 then i32 (r + info.bgDescReserveBlocks) else r

/-- What a round stores: a block in the double-indirect block, and the entries of the indirect block
`r`. -/
structure ResizeRound where
  r : Nat
  primary : Nat
  backups : List Nat

/-- What is stored for the reserved block `r` of the first group. -/
def resizeEntries (r : Nat) : ResizeRound where
  r := r
  primary := getBlock r
  backups := (List.range' 1 (superblocks - 1)).map fun j =>
    getBlock (j * info.bgDescReserveBlocks + r)

/-- Round `i` of the loop. -/
def resizeRound (i : Nat) : ResizeRound :=
  resizeEntries info getBlock superblocks (resizeIndex info aux i).toNat

/-- The index is rotated, and each reserved block with its copies is stored once. -/
structure ResizeRight : Prop where
  rotated : ∀ i < info.bgDescReserveBlocks,
    resizeIndex info aux i = ((i : Int) - aux.bgDescBlocks) % info.bgDescReserveBlocks
  once : ∀ k < info.bgDescReserveBlocks, ∃! i, i < info.bgDescReserveBlocks ∧
    resizeRound info aux getBlock superblocks i = resizeEntries info getBlock superblocks k

variable {info aux getBlock superblocks}

theorem resizeIndex_eq (hpos : 0 < info.bgDescReserveBlocks)
    (hle : info.bgDescReserveBlocks < 2 ^ 31) (i : Nat) :
    resizeIndex info aux i =
      ((i : Int) - aux.bgDescBlocks) % 2 ^ 32 % info.bgDescReserveBlocks := by
  have hu : (u32OfInt (i - aux.bgDescBlocks) : Int) = ((i : Int) - aux.bgDescBlocks) % 2 ^ 32 :=
    Int.toNat_of_nonneg (Int.emod_nonneg _ (by decide))
  have h0 := Int.emod_nonneg (((i : Int) - aux.bgDescBlocks) % 2 ^ 32)
    (by omega : (info.bgDescReserveBlocks : Int) ≠ 0)
  have h1 := Int.emod_lt_of_pos (((i : Int) - aux.bgDescBlocks) % 2 ^ 32)
    (by omega : (0 : Int) < info.bgDescReserveBlocks)
  rw [resizeIndex, hu, i32_of_lt h0 (by omega)]
  exact if_neg (not_lt.2 h0)

theorem rotation_once {R : Nat} (D : Nat) {k : Nat} (hk : k < R) :
    ∃! i, i < R ∧ ((i : Int) - D) % R = k := by
  have hiff (i : Nat) (hi : i < R) : ((i : Int) - D) % R = k ↔ i = (k + D) % R := by
    have hmod : ((i : Int) - D) % R = (k : Int) % R ↔ (i : Int) % R = ((k : Int) + D) % R := by
      rw [Int.emod_eq_emod_iff_emod_sub_eq_zero, Int.emod_eq_emod_iff_emod_sub_eq_zero, sub_sub,
        add_comm (D : Int)]
    rw [Int.emod_eq_of_lt (a := k) (by omega) (by omega),
      Int.emod_eq_of_lt (a := i) (by omega) (by omega)] at hmod
    rw [hmod, ← Int.natCast_inj, Int.natCast_emod, Nat.cast_add]
  refine ⟨(k + D) % R, ⟨Nat.mod_lt _ (by omega), (hiff _ (Nat.mod_lt _ (by omega))).2 rfl⟩, ?_⟩
  rintro i ⟨hi, h⟩
  exact (hiff i hi).1 h

/-- The blocks are stored right exactly if their number divides `2 ^ 32`. -/
theorem resize_right_iff {len bs : Nat} (hbs : bs < 2 ^ 32)
    (hR : 1 ≤ (makeFsInfo len bs).bgDescReserveBlocks)
    (hD : 1 ≤ (ext4CreateFsAuxInfo (makeFsInfo len bs)).bgDescBlocks) (getBlock : Nat → Nat)
    (superblocks : Nat) :
    ResizeRight (makeFsInfo len bs) (ext4CreateFsAuxInfo (makeFsInfo len bs)) getBlock superblocks ↔
      (makeFsInfo len bs).bgDescReserveBlocks ∣ 2 ^ 32 := by
  have hle : (makeFsInfo len bs).bgDescReserveBlocks ≤ bs / 4 := InRange.reserve_le
  have hD32 : (ext4CreateFsAuxInfo (makeFsInfo len bs)).bgDescBlocks < 2 ^ 32 := by
    unfold ext4CreateFsAuxInfo
    dsimp only
    split_ifs <;> exact u32_lt _
  generalize makeFsInfo len bs = info at *
  generalize ext4CreateFsAuxInfo info = aux at *
  have hindex := @resizeIndex_eq info aux hR (by omega)
  constructor
  · intro h
    -- the first index wraps around
    have hzero := (hindex 0).symm.trans (h.rotated 0 hR)
    have hwrap : (((0 : Nat) : Int) - aux.bgDescBlocks) % 2 ^ 32 = 2 ^ 32 - aux.bgDescBlocks := by
      omega
    rw [hwrap, Int.emod_eq_emod_iff_emod_sub_eq_zero] at hzero
    have hdvd := Int.dvd_of_emod_eq_zero hzero
    rw [Nat.cast_zero, zero_sub, sub_neg_eq_add, sub_add_cancel] at hdvd
    exact_mod_cast hdvd
  · intro hdvd
    have hrotated (i : Nat) : resizeIndex info aux i =
        ((i : Int) - aux.bgDescBlocks) % info.bgDescReserveBlocks :=
      (hindex i).trans (Int.emod_emod_of_dvd _ (by exact_mod_cast hdvd))
    refine ⟨fun i _ => hrotated i, fun k hk => ?_⟩
    obtain ⟨i, ⟨hi, hik⟩, hunique⟩ := rotation_once aux.bgDescBlocks hk
    refine ⟨i, ⟨hi, ?_⟩, ?_⟩
    · rw [resizeRound, hrotated, hik, Int.toNat_natCast]
    · rintro j ⟨hj, hjk⟩
      refine hunique j ⟨hj, ?_⟩
      have hr : (resizeIndex info aux j).toNat = k := congrArg ResizeRound.r hjk
      rw [← hrotated, ← hr, Int.toNat_of_nonneg]
      rw [hrotated]
      exact Int.emod_nonneg _ (by omega)

/-- A filesystem of 32 GiB has 1024 reserved blocks. -/
theorem resize_right_sample : ResizeRight (makeFsInfo (2 ^ 35) 4096)
    (ext4CreateFsAuxInfo (makeFsInfo (2 ^ 35) 4096)) id 2 :=
  (resize_right_iff (by decide) (by decide) (by decide) id 2).2 (by decide)

/-- A filesystem of 64 MiB has 7 reserved blocks, and the first and the fifth round store the same. -/
theorem resize_stores_twice : (makeFsInfo (2 ^ 26) 4096).bgDescReserveBlocks = 7 ∧
    resizeIndex (makeFsInfo (2 ^ 26) 4096) (ext4CreateFsAuxInfo (makeFsInfo (2 ^ 26) 4096)) 0 = 3 ∧
    resizeIndex (makeFsInfo (2 ^ 26) 4096) (ext4CreateFsAuxInfo (makeFsInfo (2 ^ 26) 4096)) 4 = 3 ∧
    ¬ResizeRight (makeFsInfo (2 ^ 26) 4096) (ext4CreateFsAuxInfo (makeFsInfo (2 ^ 26) 4096)) id 2 := by
  refine ⟨by decide, by decide, by decide, fun h => ?_⟩
  exact absurd (h.rotated 0 (by decide)) (by decide)

end AndroidSystem.Ext4
