import AndroidSystem.Lib.Machine

/-!
# The geometry of an ext4 filesystem

How `make_ext4fs_internal` derives the parameters of a filesystem from its length and block size,
how `ext4_create_fs_aux_info` divides it into block groups, and where `init_bg`,
`allocate_bg_inode_table` and `ext4_fill_in_sb` put the header of each group: a copy of the
superblock with the group descriptors and the blocks reserved for more of them in some groups, and
in all of them two bitmaps and the inode table.

With blocks of 1024 bytes the first group starts at block 1. The number of groups takes that into
account, but the size of the last group, which decides whether to give it up, does not. So it is
one too large: a last group that lacks one block for its header is kept, and a last group that is
full looks as if it had one block and is given up (`small_block_geometry_wrong`). In all other
cases the geometry is right, as long as the descriptors of so many groups fit in a group at all
(`geometry_iff`).

The code is that of a 64-bit host: `size_t` and `u64` have 64 bits.
-/

namespace AndroidSystem.Ext4

/-! ## Parameters -/

/-- `DIV_ROUND_UP` on 32-bit values; on 64-bit values it is `divRoundUp`. -/
def divRoundUp32 (x y : Nat) : Nat := u32 (x + y - 1) / y

/-- The parameters of a filesystem, `struct fs_info`. `sparseSuper` is
`EXT4_FEATURE_RO_COMPAT_SPARSE_SUPER`. -/
structure FsInfo where
  len : Nat
  blockSize : Nat
  blocksPerGroup : Nat := 0
  inodesPerGroup : Nat := 0
  inodeSize : Nat := 0
  inodes : Nat := 0
  sparseSuper : Bool := false
  bgDescReserveBlocks : Nat := 0
  deriving Repr, DecidableEq

section

variable (info : FsInfo)

def computeBlocksPerGroup : Nat := u32 (info.blockSize * 8)

def computeInodes : Nat := u32 (divRoundUp info.len info.blockSize / 4)

/-- The local variable `block_groups` of the next two functions -/
def blockGroups : Nat :=
  divRoundUp32 (u32 (divRoundUp info.len info.blockSize)) info.blocksPerGroup

def computeInodesPerGroup : Nat :=
  let perBlock := info.blockSize / info.inodeSize
  u32 (perBlock * divRoundUp32 (divRoundUp32 info.inodes (blockGroups info)) perBlock)

/-- `sizeof(struct ext2_group_desc)` -/
def groupDescSize : Nat := 32

def computeBgDescReserveBlocks : Nat :=
  let bgDescBlocks := u32 (divRoundUp (blockGroups info * groupDescSize) info.blockSize)
  let reserve := u32 (divRoundUp (u32 (blockGroups info * 1024) * groupDescSize) info.blockSize
    + 2 ^ 32 - bgDescBlocks)
  if reserve > info.blockSize / 4 then info.blockSize / 4 else reserve

end

/-- The parameters that `make_ext4fs_internal` computes from a length and a block size. The length
is rounded down to whole blocks; the block size is a power of two. -/
def makeFsInfo (len blockSize : Nat) : FsInfo :=
  let info : FsInfo := { len := len - len % blockSize, blockSize := blockSize }
  let info := { info with blocksPerGroup := computeBlocksPerGroup info }
  let info := { info with inodes := computeInodes info, inodeSize := 256 }
  let info := { info with
    inodesPerGroup := computeInodesPerGroup info
    inodes := u32 (computeInodesPerGroup info * blockGroups info)
    sparseSuper := true }
  { info with bgDescReserveBlocks := computeBgDescReserveBlocks info }

/-! ## Block groups -/

/-- The loop of `is_power_of`; `fuel` is at least `a`. -/
def isPowerOfLoop (b : Nat) : Nat → Nat → Bool
  | 0, a => a = b
  | fuel + 1, a =>
    if a > b then if a % b ≠ 0 then false else isPowerOfLoop b fuel (a / b) else a = b

def isPowerOf (a b : Nat) : Bool := isPowerOfLoop b a a

def ext4BgHasSuperBlock (info : FsInfo) (bg : Nat) : Bool :=
  if ¬info.sparseSuper then true
  else if bg = 0 ∨ bg = 1 then true
  else isPowerOf bg 3 || isPowerOf bg 5 || isPowerOf bg 7

/-- What is computed from the parameters, `struct fs_aux_info`. -/
structure FsAuxInfo where
  firstDataBlock : Nat
  lenBlocks : Nat
  inodeTableBlocks : Nat
  groups : Nat
  bgDescBlocks : Nat
  deriving Repr, DecidableEq

/-- The superblock copy, the descriptors and the reserved blocks at the start of group `bg`. -/
def superBlocks (info : FsInfo) (aux : FsAuxInfo) (bg : Nat) : Nat :=
  if ext4BgHasSuperBlock info bg then 1 + aux.bgDescBlocks + info.bgDescReserveBlocks else 0

/-- `header_blocks` of a group -/
def headerBlocks (info : FsInfo) (aux : FsAuxInfo) (bg : Nat) : Nat :=
  2 + aux.inodeTableBlocks + superBlocks info aux bg

/-- The first part of `ext4_create_fs_aux_info`, before the last group is looked at -/
def divideIntoGroups (info : FsInfo) : FsAuxInfo :=
  let firstDataBlock := if info.blockSize > 1024 then 0 else 1
  let lenBlocks := info.len / info.blockSize
  let groups := u32 (divRoundUp (lenBlocks - firstDataBlock) info.blocksPerGroup)
  { firstDataBlock := firstDataBlock
    lenBlocks := lenBlocks
    inodeTableBlocks := divRoundUp32 (u32 (info.inodesPerGroup * info.inodeSize)) info.blockSize
    groups := groups
    bgDescBlocks := u32 (divRoundUp (groups * groupDescSize) info.blockSize) }

/-- `ext4_create_fs_aux_info`: a last group too short for its header is given up. -/
def ext4CreateFsAuxInfo (info : FsInfo) : FsAuxInfo :=
  let aux := divideIntoGroups info
  let lastGroupSize := aux.lenBlocks % info.blocksPerGroup
  if lastGroupSize > 0 ∧ lastGroupSize < u32 (headerBlocks info aux (aux.groups - 1)) then
    { aux with groups := aux.groups - 1, lenBlocks := aux.lenBlocks - lastGroupSize }
  else aux

/-! ## Headers -/

/-- Where a group starts and where its bitmaps and its inode table are. -/
structure Placement where
  firstBlock : Nat
  blockBitmap : Nat
  inodeBitmap : Nat
  inodeTable : Nat
  deriving Repr, DecidableEq

section

variable (info : FsInfo) (aux : FsAuxInfo) (bg : Nat)

/-- The block numbers that `init_bg` and `allocate_bg_inode_table` compute -/
def initBgPlacement : Placement :=
  let firstBlock := u32 (aux.firstDataBlock + u32 (bg * info.blocksPerGroup))
  let block := u32 (firstBlock + superBlocks info aux bg)
  { firstBlock := firstBlock
    -- the two bitmaps are one buffer of two blocks
    blockBitmap := block
    inodeBitmap := block + 1
    inodeTable := u32 (firstBlock + 2 + superBlocks info aux bg) }

/-- The block numbers that `ext4_fill_in_sb` computes -/
def fillInSbPlacement : Placement :=
  let groupStartBlock := u32 (aux.firstDataBlock + u32 (bg * info.blocksPerGroup))
  { firstBlock := groupStartBlock
    blockBitmap := u32 (groupStartBlock + superBlocks info aux bg)
    inodeBitmap := u32 (groupStartBlock + superBlocks info aux bg + 1)
    inodeTable := u32 (groupStartBlock + superBlocks info aux bg + 2) }

/-- The first block of a group. -/
def groupStart : Nat :=
  aux.firstDataBlock + bg * info.blocksPerGroup

/-- The block after the last of a group. -/
def groupStop : Nat :=
  min (groupStart info aux bg + info.blocksPerGroup) aux.lenBlocks

end

/-- The parts of a header follow each other from the start of the group and end before it does. -/
structure HeaderFits (info : FsInfo) (aux : FsAuxInfo) (bg : Nat) (p : Placement) : Prop where
  first : p.firstBlock = groupStart info aux bg
  blockBitmap : p.blockBitmap = groupStart info aux bg + superBlocks info aux bg
  inodeBitmap : p.inodeBitmap = p.blockBitmap + 1
  inodeTable : p.inodeTable = p.inodeBitmap + 1
  stop : p.inodeTable + aux.inodeTableBlocks ≤ groupStop info aux bg

/-- The geometry is right: there is a group, there are as many as the length asks for, and the
header of each fits where both functions put it. -/
structure Geometry (info : FsInfo) (aux : FsAuxInfo) : Prop where
  nonempty : 1 ≤ aux.groups
  groups : aux.groups = divRoundUp (aux.lenBlocks - aux.firstDataBlock) info.blocksPerGroup
  fits : ∀ bg < aux.groups, HeaderFits info aux bg (initBgPlacement info aux bg)
  same : ∀ bg < aux.groups, fillInSbPlacement info aux bg = initBgPlacement info aux bg

/-! ## Rounding up -/

theorem divRoundUp32_le (x y : Nat) : divRoundUp32 x y ≤ divRoundUp x y :=
  Nat.div_le_div_right (Nat.mod_le _ _)

/-! ## Bounds on the parameters -/

/-- The block sizes and lengths whose numbers of blocks fit in 32 bits, also when a group is added
for rounding. -/
structure InRange (len blockSize : Nat) : Prop where
  power : ∃ k, 10 ≤ k ∧ k ≤ 28 ∧ blockSize = 2 ^ k
  small : len / blockSize + 8 * blockSize ≤ 2 ^ 32

namespace InRange

variable {len bs : Nat}

section

variable (h : InRange len bs)
include h

theorem pos : 1024 ≤ bs ∧ bs ≤ 2 ^ 28 := by
  obtain ⟨k, hk1, hk2, rfl⟩ := h.power
  have hlow : 2 ^ 10 ≤ 2 ^ k := Nat.pow_le_pow_right (by decide) hk1
  exact ⟨by simpa using hlow, Nat.pow_le_pow_right (by decide) hk2⟩

theorem inodesPerBlock : bs = 256 * (bs / 256) := by
  obtain ⟨k, hk1, hk2, rfl⟩ := h.power
  have : 2 ^ k = 256 * 2 ^ (k - 8) := by
    rw [show (256 : Nat) = 2 ^ 8 by norm_num, ← pow_add]
    congr 1
    omega
  rw [this, Nat.mul_div_cancel_left _ (by decide)]

theorem eq_or_large : bs = 1024 ∨ 2048 ≤ bs := by
  obtain ⟨k, hk1, hk2, rfl⟩ := h.power
  rcases eq_or_lt_of_le hk1 with rfl | hk
  · exact .inl (by norm_num)
  · have hlow : 2 ^ 11 ≤ 2 ^ k := Nat.pow_le_pow_right (by decide) hk
    exact .inr (by simpa using hlow)

theorem blocksPerGroup_eq : (makeFsInfo len bs).blocksPerGroup = 8 * bs := by
  have := h.pos
  show u32 (bs * 8) = 8 * bs
  rw [u32_of_lt (by omega), mul_comm]

omit h in
theorem len_eq : (makeFsInfo len bs).len = len / bs * bs := by
  show len - len % bs = len / bs * bs
  have := Nat.div_add_mod len bs
  rw [Nat.mul_comm] at this
  omega

/-- The number of groups before rounding with `first_data_block`. -/
theorem blockGroups_eq {info : FsInfo} (hlen : info.len = len / bs * bs) (hbs : info.blockSize = bs)
    (hbpg : info.blocksPerGroup = 8 * bs) : blockGroups info = divRoundUp (len / bs) (8 * bs) := by
  have hpos := h.pos
  have hsmall := h.small
  unfold blockGroups
  rw [hlen, hbs, hbpg, divRoundUp_mul_self (by omega), u32_of_lt (by omega), divRoundUp32,
    u32_of_lt (by omega), divRoundUp]

theorem inodesPerGroup_le : (makeFsInfo len bs).inodesPerGroup ≤ 2 * bs := by
  have hpos := h.pos
  have hq := h.inodesPerBlock
  generalize hqd : bs / 256 = q at hq
  generalize hinfo : ({ len := len - len % bs, blockSize := bs, blocksPerGroup := u32 (bs * 8),
                        inodes := u32 (divRoundUp (len - len % bs) bs / 4),
                        inodeSize := 256 } : FsInfo) = info
  have hlen : info.len = len / bs * bs := hinfo ▸ len_eq
  have hbs : info.blockSize = bs := hinfo ▸ rfl
  have hisz : info.inodeSize = 256 := hinfo ▸ rfl
  have hbpg : info.blocksPerGroup = 8 * bs := hinfo ▸ h.blocksPerGroup_eq
  have hinodes : info.inodes ≤ len / bs / 4 := by
    rw [← hinfo]
    refine le_trans (Nat.mod_le _ _) ?_
    rw [show len - len % bs = len / bs * bs from len_eq, divRoundUp_mul_self (by omega)]
  have hgroups := h.blockGroups_eq hlen hbs hbpg
  have hcover : len / bs ≤ divRoundUp (len / bs) (8 * bs) * (8 * bs) :=
    divRoundUp_mul_ge (by omega) _
  have hrun : computeInodesPerGroup info = u32 (q * divRoundUp32
      (divRoundUp32 info.inodes (divRoundUp (len / bs) (8 * bs))) q) := by
    rw [computeInodesPerGroup, hgroups, hbs, hisz, hqd]
  rw [← hinfo] at hrun
  refine le_trans (le_of_eq hrun) (le_trans (Nat.mod_le _ _) ?_)
  generalize divRoundUp (len / bs) (8 * bs) = g at hcover
  have hper : divRoundUp32 info.inodes g ≤ 2 * bs := by
    rcases eq_zero_or_pos g with rfl | hg
    · simp [divRoundUp32]
    · refine le_trans (divRoundUp32_le _ _) ((divRoundUp_le_iff hg _ _).2 ?_)
      have : 2 * bs * g = g * (8 * bs) / 4 := by
        rw [show g * (8 * bs) = 4 * (2 * bs * g) by ring, Nat.mul_div_cancel_left _ (by decide)]
      rw [this]
      exact le_trans hinodes (Nat.div_le_div_right hcover)
  have hround : divRoundUp32 (divRoundUp32 info.inodes g) q ≤ 512 := by
    refine le_trans (divRoundUp32_le _ _) ((divRoundUp_le_iff (by omega) _ _).2 ?_)
    omega
  rw [hinfo]
  calc q * divRoundUp32 (divRoundUp32 info.inodes g) q ≤ q * 512 := Nat.mul_le_mul_left _ hround
    _ = 2 * bs := by omega

theorem inodeTableBlocks_le : (divideIntoGroups (makeFsInfo len bs)).inodeTableBlocks ≤ 512 := by
  have hpos := h.pos
  have hper := h.inodesPerGroup_le
  show divRoundUp32 (u32 ((makeFsInfo len bs).inodesPerGroup * 256)) bs ≤ 512
  refine le_trans (divRoundUp32_le _ _) ((divRoundUp_le_iff (by omega) _ _).2 ?_)
  refine le_trans (Nat.mod_le _ _) ?_
  omega

omit h in
theorem reserve_le : (makeFsInfo len bs).bgDescReserveBlocks ≤ bs / 4 := by
  show computeBgDescReserveBlocks _ ≤ bs / 4
  unfold computeBgDescReserveBlocks
  dsimp only
  split_ifs with h
  · exact le_rfl
  · exact not_lt.1 h

theorem lenBlocks_eq : (divideIntoGroups (makeFsInfo len bs)).lenBlocks = len / bs := by
  have hpos := h.pos
  show (makeFsInfo len bs).len / bs = len / bs
  rw [len_eq, Nat.mul_div_cancel _ (by omega)]

theorem groups_eq : (divideIntoGroups (makeFsInfo len bs)).groups
    = divRoundUp (len / bs - (divideIntoGroups (makeFsInfo len bs)).firstDataBlock) (8 * bs) := by
  have hpos := h.pos
  have hsmall := h.small
  change u32 (divRoundUp ((divideIntoGroups (makeFsInfo len bs)).lenBlocks - _)
    (makeFsInfo len bs).blocksPerGroup) = _
  rw [h.lenBlocks_eq, h.blocksPerGroup_eq]
  refine u32_of_lt (lt_of_le_of_lt ((divRoundUp_le_iff (by omega) _ (len / bs)).2 ?_)
    (by omega))
  exact le_trans (Nat.sub_le _ _) (Nat.le_mul_of_pos_right _ (by omega))

theorem bgDescBlocks_le {m : Nat} (hm : (divideIntoGroups (makeFsInfo len bs)).groups * 32 ≤ m * bs) :
    (divideIntoGroups (makeFsInfo len bs)).bgDescBlocks ≤ m :=
  le_trans (Nat.mod_le _ _) ((divRoundUp_le_iff
    (lt_of_lt_of_le (by decide) h.pos.1) _ _).2 hm)

end

end InRange

/-! ## Headers that fit -/

section Fits

variable {info : FsInfo} {aux : FsAuxInfo} {bg : Nat}

section

variable (hlen : aux.lenBlocks < 2 ^ 32)
include hlen

theorem u32_groupStart
    (h : groupStart info aux bg + headerBlocks info aux bg ≤ groupStop info aux bg) :
    u32 (aux.firstDataBlock + u32 (bg * info.blocksPerGroup)) = groupStart info aux bg ∧
      groupStart info aux bg + superBlocks info aux bg + 2 + aux.inodeTableBlocks < 2 ^ 32 := by
  have hstop : groupStop info aux bg ≤ aux.lenBlocks := min_le_right _ _
  unfold headerBlocks at h
  refine ⟨?_, by omega⟩
  unfold groupStart at h ⊢
  rw [u32_of_lt (n := bg * info.blocksPerGroup) (by omega), u32_of_lt (by omega)]

/-- Block numbers below `2 ^ 32` are computed without loss, so what remains of the placement is
that the header ends in time. -/
theorem headerFits_iff :
    HeaderFits info aux bg (initBgPlacement info aux bg)
      ↔ groupStart info aux bg + headerBlocks info aux bg ≤ groupStop info aux bg := by
  constructor
  · intro h
    have h1 := h.stop
    rw [h.inodeTable, h.inodeBitmap, h.blockBitmap] at h1
    unfold headerBlocks
    omega
  · intro h
    obtain ⟨hfirst, hlt⟩ := u32_groupStart hlen h
    unfold headerBlocks at h
    have hblock : u32 (groupStart info aux bg + superBlocks info aux bg)
        = groupStart info aux bg + superBlocks info aux bg := u32_of_lt (by omega)
    have htable : u32 (groupStart info aux bg + 2 + superBlocks info aux bg)
        = groupStart info aux bg + 2 + superBlocks info aux bg := u32_of_lt (by omega)
    constructor
    · exact hfirst
    · simp only [initBgPlacement, hfirst, hblock]
    · rfl
    · simp only [initBgPlacement, hfirst]
      omega
    · simp only [initBgPlacement, hfirst]
      omega

theorem fillInSbPlacement_eq
    (h : groupStart info aux bg + headerBlocks info aux bg ≤ groupStop info aux bg) :
    fillInSbPlacement info aux bg = initBgPlacement info aux bg := by
  obtain ⟨hfirst, hlt⟩ := u32_groupStart hlen h
  simp only [fillInSbPlacement, initBgPlacement, hfirst, Placement.mk.injEq, true_and]
  refine ⟨?_, ?_⟩
  · rw [u32_of_lt (by omega), u32_of_lt (by omega)]
  · congr 1
    omega

end

theorem headerBlocks_le_first (info : FsInfo) (aux : FsAuxInfo) (bg : Nat) :
    headerBlocks info aux bg ≤ headerBlocks info aux 0 := by
  have h0 : ext4BgHasSuperBlock info 0 = true := by simp [ext4BgHasSuperBlock]
  unfold headerBlocks superBlocks
  split_ifs <;> simp_all

theorem two_le_headerBlocks : 2 ≤ headerBlocks info aux bg := by
  rw [headerBlocks, add_assoc]
  exact Nat.le_add_right _ _

/-- The headers of `k` groups fit in `m` blocks if a group holds the largest, and the last group its
own. -/
theorem geometry_of_fits {k m : Nat} (hm : m < 2 ^ 32) :
    Geometry info { aux with groups := k, lenBlocks := m } ↔ 1 ≤ k
      ∧ k = divRoundUp (m - aux.firstDataBlock) info.blocksPerGroup
      ∧ headerBlocks info aux 0 ≤ info.blocksPerGroup
      ∧ aux.firstDataBlock + (k - 1) * info.blocksPerGroup + headerBlocks info aux (k - 1) ≤ m := by
  have hfits (bg : Nat) : HeaderFits info { aux with groups := k, lenBlocks := m } bg
      (initBgPlacement info { aux with groups := k, lenBlocks := m } bg) ↔
        aux.firstDataBlock + bg * info.blocksPerGroup + headerBlocks info aux bg ≤
          min (aux.firstDataBlock + bg * info.blocksPerGroup + info.blocksPerGroup) m :=
    headerFits_iff hm
  constructor
  · intro h
    have hpos : 1 ≤ k := h.nonempty
    have h0 := (hfits 0).1 (h.fits 0 hpos)
    have hlast := (hfits (k - 1)).1 (h.fits _ (Nat.sub_lt hpos one_pos))
    exact ⟨hpos, h.groups, by omega, hlast.trans (min_le_right _ _)⟩
  · rintro ⟨hpos, hgroups, h0, hlast⟩
    have hall (bg : Nat) (hbg : bg < k) := (hfits bg).2 (by
      have hle := headerBlocks_le_first info aux bg
      rcases lt_or_ge bg (k - 1) with hlt | hge
      · have := Nat.mul_le_mul_right info.blocksPerGroup hlt
        rw [Nat.succ_mul] at this
        omega
      · obtain rfl : bg = k - 1 := by omega
        omega)
    exact ⟨hpos, hgroups, hall, fun bg hbg =>
      fillInSbPlacement_eq hm ((headerFits_iff hm).1 (hall bg hbg))⟩

end Fits

/-! ## Blocks of more than 1024 bytes -/

theorem headerBlocks_le_group {len bs : Nat} (h : InRange len bs) (hbs : 2048 ≤ bs) (bg : Nat) :
    headerBlocks (makeFsInfo len bs) (divideIntoGroups (makeFsInfo len bs)) bg ≤ 8 * bs := by
  refine le_trans (headerBlocks_le_first _ _ bg) ?_
  have hsmall := h.small
  have hitb := h.inodeTableBlocks_le
  have hres : (makeFsInfo len bs).bgDescReserveBlocks ≤ bs / 4 := InRange.reserve_le
  have hgroups : (divideIntoGroups (makeFsInfo len bs)).groups ≤ 2 ^ 18 := by
    rw [h.groups_eq]
    refine (divRoundUp_le_iff (by omega) _ _).2 ?_
    omega
  have hdesc : (divideIntoGroups (makeFsInfo len bs)).bgDescBlocks ≤ 4096 :=
    h.bgDescBlocks_le (by omega)
  unfold headerBlocks superBlocks
  split_ifs <;> omega

theorem geometry_large {len bs : Nat} (h : InRange len bs) (hbs : 2048 ≤ bs)
    (hlen : headerBlocks (makeFsInfo len bs) (divideIntoGroups (makeFsInfo len bs)) 0 ≤ len / bs) :
    Geometry (makeFsInfo len bs) (ext4CreateFsAuxInfo (makeFsInfo len bs)) := by
  have hsmall := h.small
  have hpos := h.pos
  have hfirst : (divideIntoGroups (makeFsInfo len bs)).firstDataBlock = 0 := by
    show (if bs > 1024 then 0 else 1) = 0
    rw [if_pos (by omega)]
  have hgroups := h.groups_eq
  have hblocks := h.lenBlocks_eq
  have hbpg := h.blocksPerGroup_eq
  have hheader := headerBlocks_le_group h hbs
  rw [hfirst, divRoundUp_eq_ite (by omega)] at hgroups
  generalize makeFsInfo len bs = info at *
  generalize haux : divideIntoGroups info = aux at *
  generalize len / bs = n at *
  generalize hb : 8 * bs = b at *
  -- `q` whole groups and `r` more blocks
  have hn := Nat.div_add_mod n b
  generalize hq : n / b = q at *
  generalize hr : n % b = r at *
  have hu32 : u32 (headerBlocks info aux (aux.groups - 1)) = headerBlocks info aux (aux.groups - 1) :=
    u32_of_lt (by have := hheader (aux.groups - 1); omega)
  unfold ext4CreateFsAuxInfo
  simp only [haux, hu32, hblocks, hbpg, hr]
  have hqpos (hrest : r < headerBlocks info aux 0) : 1 ≤ q := by
    by_contra hzero
    obtain rfl : q = 0 := by omega
    omega
  have hwhole (h : 1 ≤ q) : (q - 1) * b + b = b * q := by
    rw [← Nat.succ_mul, mul_comm, Nat.succ_eq_add_one, Nat.sub_add_cancel h]
  split_ifs with hdrop
  · -- the last group is given up
    rw [if_neg (by omega)] at hgroups
    rw [show aux.groups - 1 = q by omega] at hdrop ⊢
    have hq1 := hqpos (hdrop.2.trans_le (headerBlocks_le_first info aux q))
    have hh := hheader (q - 1)
    rw [geometry_of_fits (by omega), hfirst, hbpg]
    refine ⟨hq1, ?_, hheader 0, by omega⟩
    rw [Nat.sub_zero, show n - r = q * b by rw [mul_comm]; omega, divRoundUp_mul_self (by omega)]
  · refine (geometry_of_fits (m := aux.lenBlocks) (by omega)).2 ?_
    rw [hblocks, hfirst, hbpg, Nat.sub_zero, divRoundUp_eq_ite (by omega), hq, hr]
    refine ⟨?_, hgroups, hheader 0, ?_⟩
    · split_ifs at hgroups with hrest
      · have := hqpos (by have := @two_le_headerBlocks info aux 0; omega)
        omega
      · omega
    · split_ifs at hgroups with hrest
      · have hend := hwhole (hqpos (by have := @two_le_headerBlocks info aux 0; omega))
        have hh := hheader (q - 1)
        rw [show aux.groups = q from hgroups]
        omega
      · rw [show aux.groups - 1 = q by omega] at hdrop ⊢
        rw [mul_comm] at hn
        omega

/-! ## Blocks of 1024 bytes -/

/-- What the length must be like when blocks have 1024 bytes: the last group does not seem to have
one block only, nor exactly as many as its header, and the headers fit, also in a last group that
lacks a block. -/
def SmallBlockCondition (info : FsInfo) : Prop :=
  let aux := divideIntoGroups info
  let rest := aux.lenBlocks % 8192
  let lastHeader := headerBlocks info aux (aux.groups - 1)
  rest ≠ 1 ∧ rest ≠ lastHeader ∧ headerBlocks info aux 0 ≤ 8192
    ∧ (rest < lastHeader → headerBlocks info aux (aux.lenBlocks / 8192 - 1) ≤ 8191)

instance (info : FsInfo) : Decidable (SmallBlockCondition info) := by
  unfold SmallBlockCondition
  infer_instance

/-- The groups that follow the first block: a rest of one block belongs to the last whole one. -/
theorem divRoundUp_pred (q : Nat) {r : Nat} (hr : r < 8192) (hn : 1 ≤ 8192 * q + r) :
    divRoundUp (8192 * q + r - 1) 8192 = if r ≤ 1 then q else q + 1 := by
  unfold divRoundUp
  split_ifs <;> omega

/-- With blocks of 1024 bytes the geometry is right for those lengths only. -/
theorem geometry_small {len : Nat} (h : InRange len 1024)
    (hlen : headerBlocks (makeFsInfo len 1024) (divideIntoGroups (makeFsInfo len 1024)) 0
      ≤ len / 1024) :
    Geometry (makeFsInfo len 1024) (ext4CreateFsAuxInfo (makeFsInfo len 1024))
      ↔ SmallBlockCondition (makeFsInfo len 1024) := by
  have hsmall : len / 1024 < 2 ^ 32 := by
    have := h.small
    omega
  have hfirst : (divideIntoGroups (makeFsInfo len 1024)).firstDataBlock = 1 := rfl
  have hgroups := h.groups_eq
  have hblocks := h.lenBlocks_eq
  have hbpg : (makeFsInfo len 1024).blocksPerGroup = 8192 := h.blocksPerGroup_eq
  have hheader (g : Nat) := headerBlocks_le_first (makeFsInfo len 1024)
    (divideIntoGroups (makeFsInfo len 1024)) g
  unfold SmallBlockCondition ext4CreateFsAuxInfo
  generalize makeFsInfo len 1024 = info at *
  dsimp only
  generalize divideIntoGroups info = aux at *
  have h0 := @two_le_headerBlocks info aux 0
  have hlast2 := @two_le_headerBlocks info aux (aux.groups - 1)
  have hlast := hheader (aux.groups - 1)
  rw [hfirst] at hgroups
  rw [hblocks, hbpg, u32_of_lt (lt_of_le_of_lt hlast (lt_of_le_of_lt hlen hsmall))]
  -- `q` times 8192 blocks and `r` more, the block before the first group among them
  have hn := Nat.div_add_mod (len / 1024) 8192
  have hr := Nat.mod_lt (len / 1024) (by decide : 0 < 8192)
  generalize hq : len / 1024 / 8192 = q at *
  generalize len / 1024 % 8192 = r at *
  generalize len / 1024 = n at *
  subst hn
  rw [divRoundUp_pred q hr (by omega)] at hgroups
  split_ifs with hdrop
  · -- the last group is given up, and `8192 * q` blocks remain
    rw [Nat.add_sub_cancel, geometry_of_fits (lt_of_le_of_lt (Nat.le_add_right _ r) hsmall), hbpg,
      divRoundUp]
    split_ifs at hgroups with hr1
    · -- a rest of one block is not a group
      constructor
      · omega
      · omega
    · rw [show aux.groups - 1 = q by omega] at hdrop ⊢
      constructor
      · rintro ⟨h1, h2, hfull, hfit⟩
        exact ⟨by omega, by omega, hfull, fun _ => by omega⟩
      · rintro ⟨-, -, hfull, hshort⟩
        have hqpos : 1 ≤ q := by
          by_contra hzero
          obtain rfl : q = 0 := by omega
          omega
        exact ⟨hqpos, by omega, hfull, by omega⟩
  · refine (geometry_of_fits (m := aux.lenBlocks) (hblocks ▸ hsmall)).trans ?_
    rw [hblocks, hfirst, hbpg, divRoundUp_pred q hr (by omega), ← hgroups]
    split_ifs at hgroups with hr1
    · obtain rfl : r = 0 := by omega
      rw [hgroups] at hlast2 ⊢
      constructor
      · rintro ⟨h1, -, hfull, hfit⟩
        exact ⟨by omega, by omega, hfull, fun _ => by omega⟩
      · rintro ⟨-, -, hfull, hshort⟩
        exact ⟨by omega, rfl, hfull, by omega⟩
    · constructor
      · rintro ⟨h1, -, hfull, hfit⟩
        exact ⟨by omega, by omega, hfull, fun _ => by omega⟩
      · rintro ⟨-, hne, hfull, -⟩
        exact ⟨by omega, rfl, hfull, by omega⟩

/-! ## All block sizes -/

/-- **When the geometry is right.** For every block size and every length in range that holds at
least the header of the first group: always with blocks of more than 1024 bytes, and with blocks of
1024 bytes exactly for the lengths of `SmallBlockCondition`. -/
theorem geometry_iff {len bs : Nat} (h : InRange len bs)
    (hlen : headerBlocks (makeFsInfo len bs) (divideIntoGroups (makeFsInfo len bs)) 0 ≤ len / bs) :
    Geometry (makeFsInfo len bs) (ext4CreateFsAuxInfo (makeFsInfo len bs))
      ↔ (bs = 1024 → SmallBlockCondition (makeFsInfo len bs)) := by
  rcases h.eq_or_large with rfl | hbs
  · rw [geometry_small h hlen]
    exact ⟨fun hc _ => hc, fun hc => hc rfl⟩
  · exact iff_of_true (geometry_large h hbs hlen) fun hbs' => absurd hbs' (by omega)

/-- A filesystem of 64 MiB with blocks of 4096 bytes. -/
theorem geometry_sample :
    InRange (2 ^ 26) 4096
      ∧ Geometry (makeFsInfo (2 ^ 26) 4096) (ext4CreateFsAuxInfo (makeFsInfo (2 ^ 26) 4096)) := by
  have h : InRange (2 ^ 26) 4096 := ⟨⟨12, by norm_num, by norm_num, by norm_num⟩, by norm_num⟩
  exact ⟨h, (geometry_iff h (by decide)).2 (by decide)⟩

/-- **Two lengths with blocks of 1024 bytes for which the geometry is wrong.** At 8193 blocks the
only group is given up. At 8526 blocks the second group has room for 333 blocks, and its header has
334. -/
theorem small_block_geometry_wrong :
    (ext4CreateFsAuxInfo (makeFsInfo (8193 * 1024) 1024)).groups = 0
      ∧ ¬Geometry (makeFsInfo (8193 * 1024) 1024)
        (ext4CreateFsAuxInfo (makeFsInfo (8193 * 1024) 1024))
      ∧ (ext4CreateFsAuxInfo (makeFsInfo (8526 * 1024) 1024)).groups = 2
      ∧ headerBlocks (makeFsInfo (8526 * 1024) 1024)
        (ext4CreateFsAuxInfo (makeFsInfo (8526 * 1024) 1024)) 1 = 334
      ∧ ¬Geometry (makeFsInfo (8526 * 1024) 1024)
        (ext4CreateFsAuxInfo (makeFsInfo (8526 * 1024) 1024)) := by
  refine ⟨by decide, fun h => ?_, by decide, by decide, fun h => ?_⟩
  · exact absurd h.nonempty (by decide)
  · exact absurd ((headerFits_iff (by decide)).1 (h.fits 1 (by decide))) (by decide)

end AndroidSystem.Ext4
