import AndroidSystem.Ext4.Allocate

/-!
# Extents

`extent.c`: a file of a given length gets its blocks from the allocator, and its inode gets the
extents that say where they are. Up to three extents fit in the inode itself. With more of them one
of the blocks becomes an extent block, and the inode points to it.

One block more than the file needs is allocated. If there are at most three regions it is given
back, otherwise it is split off as the extent block; the number of regions, which becomes the number
of extents, is taken before.
-/

namespace AndroidSystem.Ext4

/-! ## On disk -/

/-- `struct ext4_extent`; `ee_start_hi` is 0. -/
structure Extent where
  block : Nat
  len : Nat
  start : Nat
  deriving Repr, DecidableEq

/-- `struct ext4_extent_header`, without the constants in it -/
structure ExtentHeader where
  entries : Nat
  max : Nat
  depth : Nat
  deriving Repr, DecidableEq

/-- What is written for a file. `root` is in the inode; if its depth is 1, the leaf is in the block
`leafBlock`, otherwise it is the root itself. -/
structure ExtentMap where
  root : ExtentHeader
  leafBlock : Nat
  leaf : ExtentHeader
  extents : List Extent
  sizeLo : Nat
  sizeHigh : Nat
  blocksLo : Nat
  blocksHigh : Nat
  deriving Repr, DecidableEq

/-- `EXT_INIT_MAX_LEN`: a larger `ee_len` is that of an extent without data, with as many blocks as
the excess. -/
def extInitMaxLen : Nat := 2 ^ 15

/-- The number of blocks an extent stands for. -/
def Extent.blocks (e : Extent) : Nat :=
  if e.len ≤ extInitMaxLen then e.len else e.len - extInitMaxLen

/-- `i_blocks`, with 48 bits -/
def ExtentMap.iBlocks (m : ExtentMap) : Nat := m.blocksLo + m.blocksHigh * 2 ^ 32

/-! ## Code -/

/-- `eh_max` of an extent block: header and extents have 12 bytes each. -/
def extentBlockMax (blockSize : Nat) : Nat := u16 (u64OfInt ((blockSize : Int) - 12) / 12)

/-- The loop of `do_inode_allocate_extents` that writes the extents of the regions from `list.iter`
on -/
def writeExtents : Nat → RegionList → Nat → AllocM (List Extent)
  | fuel + 1, list, fileBlock =>
    if list.iter = none then return []
    else do
      let r ← deref list.iter
      let regionLen := u32OfInt ((r.len : Int) - list.partialIter)
      let rest ← writeExtents fuel { list with iter := r.next, partialIter := 0 }
        (u32 (fileBlock + regionLen))
      return { block := fileBlock, len := u16 regionLen, start := r.block } :: rest
  | 0, _, _ => return []

/-- The part of `do_inode_allocate_extents` that takes care of the additional block: the number of
the extent block is 0 if there is none. -/
def placeExtentBlock (alloc : BlockAllocation) (allocationLen : Nat) :
    AllocM (BlockAllocation × Nat) :=
  if allocationLen ≤ 3 then do
    let alloc ← reduceAllocation alloc 1
    return (alloc, 0)
  else do
    let reserved ← reserveOobBlocks alloc 1
    let extentBlock ← getOobBlock reserved.2 0
    return (reserved.2, extentBlock)

/-- The headers that `do_inode_allocate_extents` writes: in the inode and, for more than three
extents, in the extent block -/
def extentHeaders (blockSize extentBlock allocationLen : Nat) : ExtentHeader × ExtentHeader :=
  if extentBlock = 0 then
    let header := { entries := u16 allocationLen, max := 3, depth := 0 }
    (header, header)
  else
    ({ entries := 1, max := 3, depth := 1 },
      { entries := u16 allocationLen, max := extentBlockMax blockSize, depth := 0 })

/-- The rest of `do_inode_allocate_extents`: the extents and the counters of the inode -/
def writeExtentMap (G : Globals) (alloc : BlockAllocation) (len blockLen allocationLen : Nat)
    (extentBlock : Nat) : AllocM (Option (BlockAllocation × ExtentMap)) := do
  let s ← get
  let extents ← writeExtents (s.fresh + 1) alloc.list 0
  let headers := extentHeaders G.info.blockSize extentBlock allocationLen
  let blockLen := if extentBlock ≠ 0 then u32 (blockLen + 1) else blockLen
  let blocks := u64 (blockLen * G.info.blockSize) / 512
  return some ({ alloc with list := { alloc.list with iter := alloc.list.first, partialIter := 0 } }, {
    root := headers.1
    leafBlock := extentBlock
    leaf := headers.2
    extents := extents
    sizeLo := u32 len
    sizeHigh := u32 (len / 2 ^ 32)
    blocksLo := u32 blocks
    blocksHigh := u16 (blocks / 2 ^ 32) })

/-- The number of blocks of a file, as `do_inode_allocate_extents` computes it -/
def fileBlocks (G : Globals) (len : Nat) : Nat :=
  u32 (u64 (len + G.info.blockSize - 1) / G.info.blockSize)

/-- `do_inode_allocate_extents`. The test before the leaf is written is about `block_size - 12 / 12`
extents. -/
def doInodeAllocateExtents (G : Globals) (len : Nat) :
    AllocM (Option (BlockAllocation × ExtentMap)) := do
  let blockLen := fileBlocks G len
  let alloc ← allocateBlocks G (u32 (blockLen + 1))
  match alloc with
  | none =>
    error G (.failedToExtend (u32 (blockLen + 1)))
    return none
  | some alloc =>
    let allocationLen ← blockAllocationNumRegions alloc
    let placed ← placeExtentBlock alloc allocationLen
    if placed.2 ≠ 0 ∧ i32 ((G.info.blockSize : Int) - 1) < allocationLen then
      error G (.tooBig len)
      return none
    else
      writeExtentMap G placed.1 len blockLen allocationLen placed.2

end AndroidSystem.Ext4
