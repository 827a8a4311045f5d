import AndroidSystem.Lib.Bitmap
import AndroidSystem.Ext4.Geometry

/-!
# The block allocator

`allocate.c`: the block bitmap and the free counters of each block group, the search for a group
that fits best, and the lists of regions that an allocation is made of. Regions are allocated one
by one and linked by pointers, so the state has a memory of regions; a pointer is the number of
the region, and a region that was freed is gone from the memory.

`error` writes a message and then leaves the tool by `longjmp`, unless it was started with the
option that sets `force`; with it the code goes on. Both ways are modelled: a function of the
source is a state transformer that may stop, and the messages written are part of the state.
-/

namespace AndroidSystem.Ext4

/-! ## State -/

structure Region where
  block : Nat
  len : Nat
  bg : Nat
  next : Option Nat := none
  prev : Option Nat := none
  deriving Repr, DecidableEq

structure RegionList where
  first : Option Nat := none
  last : Option Nat := none
  iter : Option Nat := none
  partialIter : Nat := 0
  deriving Repr, DecidableEq

/-- `struct block_allocation`; the fields that only its callers use are left out. -/
structure BlockAllocation where
  list : RegionList := {}
  oobList : RegionList := {}
  deriving Repr, DecidableEq

/-- `struct block_group_info`, as far as blocks are concerned -/
structure BlockGroupInfo where
  firstBlock : Nat := 0
  headerBlocks : Nat := 0
  dataBlocksUsed : Int := 0
  blockBitmap : Buf := fun _ => 0
  freeBlocks : Nat := 0
  firstFreeBlock : Nat := 0

/-- What is passed to `error`. -/
inductive Message where
  /-- "attempted to reserve already reserved block" -/
  | alreadyReserved
  /-- "failed to reserve %u blocks in block group %u" -/
  | failedToReserve (num bg : Nat)
  /-- "failed to allocate %d blocks in block group %d" -/
  | failedToAllocate (len bg : Nat)
  /-- "failed to allocate %u blocks, out of space?" -/
  | outOfSpace (len : Nat)
  /-- "failed to allocate %d blocks", of `append_oob_allocation` -/
  | failedToAppend (len : Nat)
  /-- "Failed to allocate %d blocks", of `do_inode_allocate_extents` -/
  | failedToExtend (len : Nat)
  /-- "File size %llu is too big to fit in a single extent block" -/
  | tooBig (len : Nat)
  deriving Repr, DecidableEq

/-- Why the code does not go on: `error` left it, or it went through a pointer to nothing. -/
inductive Stop where
  | longjmp
  | badPointer
  deriving Repr, DecidableEq

/-- The variables of the allocator, `aux_info.bgs` and the regions. `fresh` is the number of the
next region. -/
@[ext] structure Allocator where
  bgs : Nat → BlockGroupInfo := fun _ => {}
  regions : Nat → Option Region := fun _ => none
  fresh : Nat := 0
  errors : List Message := []

/-- Code that works on the allocator. -/
abbrev AllocM := EStateM Stop Allocator

/-- The global variables that are set before the allocator is used. -/
structure Globals where
  force : Bool
  info : FsInfo
  aux : FsAuxInfo

namespace Allocator

/-- Another block group `bg`. -/
def setBg (s : Allocator) (bg : Nat) (b : BlockGroupInfo) : Allocator :=
  { s with bgs := fun i => if i = bg then b else s.bgs i }

/-- Another region `i`. -/
def setRegion (s : Allocator) (i : Nat) (r : Option Region) : Allocator :=
  { s with regions := fun j => if j = i then r else s.regions j }

/-- One region more. -/
def malloc (s : Allocator) (r : Region) : Allocator :=
  { s.setRegion s.fresh (some r) with fresh := s.fresh + 1 }

end Allocator

/-! ## Code -/

def error (G : Globals) (m : Message) : AllocM Unit := fun s =>
  let s := { s with errors := s.errors ++ [m] }
  if G.force then .ok () s else .error .longjmp s

/-- The region a pointer points to. -/
def deref (p : Option Nat) : AllocM Region := fun s =>
  match p.bind s.regions with
  | some r => .ok r s
  | none => .error .badPointer s

/-- A write to a field of the region a pointer points to. -/
def update (p : Option Nat) (f : Region → Region) : AllocM Unit := do
  let r ← deref p
  modify fun s => s.setRegion (p.getD 0) (some (f r))

/-- The same, unless the pointer is null. -/
def updateIfSome (p : Option Nat) (f : Region → Region) : AllocM Unit :=
  if p.isSome then update p f else pure ()

/-- `malloc` of a region, with its fields -/
def mallocRegion (r : Region) : AllocM Nat := fun s => .ok s.fresh (s.malloc r)

/-- `free` of a region -/
def freeRegion (p : Option Nat) : AllocM Unit :=
  modify fun s => s.setRegion (p.getD 0) none

/-! ### Bitmaps -/

/-- `bitmap_set_bit`: whether the bit was set before, and the bitmap -/
def bitmapSetBit (m : Buf) (bit : Nat) : Bool × Buf :=
  if m (bit / 8) &&& Buf.mask bit ≠ 0 then (true, m) else (false, m.setBit bit)

/-- `bitmap_set_8_bits`: whether one of the bits was set before, and the bitmap -/
def bitmapSet8Bits (m : Buf) (bit : Nat) : Bool × Buf :=
  (m (bit / 8) ≠ 0, m.setByte bit)

/-- The variables of the loops of `reserve_blocks`. -/
structure Cursor where
  bitmap : Buf
  i : Nat
  block : Nat

/-- A loop of `reserve_blocks`: as long as `go` holds, the `width` blocks at `block` are marked.
The bitmap is the result if a block was marked already. -/
def reserveLoop (go : Cursor → Bool) (setBits : Buf → Nat → Bool × Buf) (width : Nat) :
    Nat → Cursor → Except Buf Cursor
  | 0, c => .ok c
  | fuel + 1, c =>
    if go c then
      let (taken, m) := setBits c.bitmap c.block
      if taken then .error m
      else reserveLoop go setBits width fuel
        { bitmap := m, i := c.i + width, block := c.block + width }
    else .ok c

/-- The three loops of `reserve_blocks`: single blocks up to the next byte, whole bytes, and single
blocks again. No loop has more than `num` rounds, as long as `num` is below `2 ^ 32 - 8` and the
sum of the second loop does not wrap round. -/
def markBlocks (m : Buf) (start num : Nat) : Except Buf Cursor := do
  let c ← reserveLoop (fun c => c.i < num && c.block % 8 != 0) bitmapSetBit 1 num ⟨m, 0, start⟩
  let c ← reserveLoop (fun c => u32 (c.i + 8) ≤ num / 8 * 8) bitmapSet8Bits 8 num c
  reserveLoop (fun c => c.i < num) bitmapSetBit 1 num c

/-- `reserve_blocks`; the result is whether it returns 0. -/
def reserveBlocks (G : Globals) (bg start num : Nat) : AllocM Bool := do
  let b := (← get).bgs bg
  if num > b.freeBlocks then
    return false
  else
    match markBlocks b.blockBitmap start num with
    | .error m =>
      modify fun s => s.setBg bg { b with blockBitmap := m }
      error G .alreadyReserved
      return false
    | .ok c =>
      modify fun s => s.setBg bg { b with
        blockBitmap := c.bitmap
        freeBlocks := b.freeBlocks - num
        firstFreeBlock := if start = b.firstFreeBlock then start + num else b.firstFreeBlock }
      return true

/-- The loop of `free_blocks`, which clears the bits below `block` downwards -/
def clearDown : Nat → Buf → Nat → Buf
  | 0, m, _ => m
  | n + 1, m, block =>
    let block := u32OfInt ((block : Int) - 1)
    clearDown n (m.clearBit block) block

def freeBlocks (bg numBlocks : Nat) : AllocM Unit := do
  let b := (← get).bgs bg
  modify fun s => s.setBg bg { b with
    blockBitmap := clearDown numBlocks b.blockBitmap b.firstFreeBlock
    freeBlocks := u32 (b.freeBlocks + numBlocks)
    firstFreeBlock := u32OfInt ((b.firstFreeBlock : Int) - numBlocks) }

/-! ### Setting up -/

/-- The end of `init_bg`: the part of a group behind the end of the filesystem is reserved. -/
def reserveOverrun (G : Globals) (i firstBlock : Nat) : AllocM Unit := do
  if u32 (firstBlock + G.info.blocksPerGroup) > G.aux.lenBlocks then
    let overrun := u32 (firstBlock + G.info.blocksPerGroup) - G.aux.lenBlocks
    let _ ← reserveBlocks G i (G.info.blocksPerGroup - overrun) overrun

/-- `init_bg`; the inode bitmap and the places in the image are left out here. -/
def initBg (G : Globals) (i : Nat) : AllocM Unit := do
  let firstBlock := u32 (G.aux.firstDataBlock + u32 (i * G.info.blocksPerGroup))
  let header := headerBlocks G.info G.aux i
  modify fun s => s.setBg i {
    firstBlock := firstBlock
    headerBlocks := header
    dataBlocksUsed := 0
    blockBitmap := fun _ => 0
    freeBlocks := G.info.blocksPerGroup
    firstFreeBlock := 0 }
  let ok ← reserveBlocks G i 0 header
  if !ok then
    error G (.failedToReserve header i)
  reserveOverrun G i firstBlock

/-- The loop of `block_allocator_init` up to group `n` -/
def initGroups (G : Globals) : Nat → AllocM Unit
  | 0 => pure ()
  | n + 1 => do
    initGroups G n
    initBg G n

def blockAllocatorInit (G : Globals) : AllocM Unit := initGroups G G.aux.groups

/-! ### Allocating -/

def ext4AllocateFailed : Nat := 2 ^ 32 - 1

section

variable (G : Globals)

def ext4AllocateBlocksFromBlockGroup (len bg : Nat) : AllocM Nat := do
  let b := (← get).bgs bg
  if b.freeBlocks < len then
    return ext4AllocateFailed
  else
    let ok ← reserveBlocks G bg b.firstFreeBlock len
    if !ok then
      error G (.failedToReserve len bg)
      return ext4AllocateFailed
    else
      modify fun s => s.setBg bg { s.bgs bg with
        dataBlocksUsed := i32 ((s.bgs bg).dataBlocksUsed + len) }
      return u32 (b.firstBlock + b.firstFreeBlock)

/-- The loop of `allocate_block`: `n` groups from group `i` on -/
def allocateBlockFrom : Nat → Nat → AllocM Nat
  | 0, _ => return ext4AllocateFailed
  | n + 1, i => do
    let block ← ext4AllocateBlocksFromBlockGroup G 1 i
    if block ≠ ext4AllocateFailed then
      return block
    else
      allocateBlockFrom n (i + 1)

def allocateBlock : AllocM Nat := allocateBlockFrom G G.aux.groups 0

/-- The loop of `ext4_allocate_best_fit_partial` over the first groups: `found_bg` and
`found_bg_len` -/
def bestGroup (free : Nat → Nat) (len : Nat) : Nat → Nat × Nat
  | 0 => (0, 0)
  | i + 1 =>
    let found := bestGroup free len i
    if (len ≤ free i ∧ (found.2 = 0 ∨ free i < found.2)) ∨ (len > found.2 ∧ free i > found.2) then
      (i, free i)
    else found

/-- The part of `ext4_allocate_best_fit_partial` that makes a region in the group found -/
def allocateRegion (allocateLen foundBg : Nat) : AllocM (Option Nat) := do
  let block ← ext4AllocateBlocksFromBlockGroup G allocateLen foundBg
  if block = ext4AllocateFailed then
    error G (.failedToAllocate allocateLen foundBg)
    return none
  else
    let reg ← mallocRegion { block := block, len := allocateLen, bg := foundBg }
    return some reg

def ext4AllocateBestFitPartial (len : Nat) : AllocM (Option Nat) := do
  let s ← get
  let found := bestGroup (fun i => (s.bgs i).freeBlocks) len G.aux.groups
  if found.2 ≠ 0 then
    allocateRegion G (min len found.2) found.1
  else
    error G (.outOfSpace len)
    return none

/-- The part of the loop of `ext4_allocate_best_fit` that links a region to the one before it -/
def linkRegion (prev : Option Nat) (reg : Nat) : AllocM Unit :=
  if prev.isSome then do
    update prev fun r => { r with next := some reg }
    update (some reg) fun r => { r with prev := prev }
  else pure ()

/-- The loop of `ext4_allocate_best_fit`, with `first_reg` and `prev_reg`. A region has a block at
least, so there are no more than `len` rounds. -/
def bestFitLoop : Nat → Nat → Option Nat → Option Nat → AllocM (Option Nat)
  | 0, _, first, _ => return first
  | fuel + 1, len, first, prev => do
    if len > 0 then
      let reg ← ext4AllocateBestFitPartial G len
      match reg with
      | none => return none
      | some reg =>
        linkRegion prev reg
        let r ← deref (some reg)
        bestFitLoop fuel (len - r.len) (first.orElse fun _ => some reg) (some reg)
    else return first

def ext4AllocateBestFit (len : Nat) : AllocM (Option Nat) :=
  bestFitLoop G len len none none

/-- `allocate_blocks`: the last region of the list is set to the first one. -/
def allocateBlocks (len : Nat) : AllocM (Option BlockAllocation) := do
  let reg ← ext4AllocateBestFit G len
  match reg with
  | none => return none
  | some reg => return some { list := {
      first := some reg
      last := some reg
      iter := some reg
      partialIter := 0 } }

end

/-- The loop of `reduce_allocation` -/
def reduceLoop : Nat → Nat → BlockAllocation → AllocM BlockAllocation
  | 0, _, alloc => return alloc
  | fuel + 1, len, alloc => do
    if len > 0 then
      let last ← deref alloc.list.last
      if last.len > len then
        freeBlocks last.bg len
        update alloc.list.last fun r => { r with len := r.len - len }
        return alloc
      else
        freeBlocks last.bg last.len
        if last.prev.isSome then
          update last.prev fun r => { r with next := none }
          freeRegion alloc.list.last
          reduceLoop fuel (len - last.len) alloc
        else
          freeRegion alloc.list.last
          reduceLoop fuel (len - last.len) { alloc with list := {} }
    else return alloc

def reduceAllocation (alloc : BlockAllocation) (len : Nat) : AllocM BlockAllocation :=
  reduceLoop len len alloc

/-! ### Lists of regions -/

def regionListRemove (list : RegionList) (reg : Nat) : AllocM RegionList := do
  let r ← deref (some reg)
  updateIfSome r.prev fun p => { p with next := r.next }
  updateIfSome r.next fun n => { n with prev := r.prev }
  update (some reg) fun r => { r with next := none, prev := none }
  return { list with
    first := if list.first = some reg then r.next else list.first
    last := if list.last = some reg then r.prev else list.last }

def regionListAppend (list : RegionList) (reg : Nat) : AllocM RegionList := do
  if list.first = none then
    update (some reg) fun r => { r with next := none, prev := none }
    return { first := some reg, last := some reg, iter := some reg, partialIter := 0 }
  else
    update list.last fun l => { l with next := some reg }
    update (some reg) fun r => { r with next := none, prev := list.last }
    return { list with last := some reg }

/-- The loop of `block_allocation_num_regions`; a list has at most `fresh` regions. -/
def numRegionsFrom : Nat → Option Nat → AllocM Nat
  | fuel + 1, some reg => do
    let r ← deref (some reg)
    let n ← numRegionsFrom fuel r.next
    return n + 1
  | _, _ => return 0

/-- `block_allocation_num_regions`. A region is in a group of its own, and a group has three blocks
at least, so the number fits in an `int`. -/
def blockAllocationNumRegions (alloc : BlockAllocation) : AllocM Nat := do
  let s ← get
  numRegionsFrom s.fresh alloc.list.first

/-- The loop of `get_oob_block` -/
def getBlockFrom : Nat → Option Nat → Nat → AllocM Nat
  | fuel + 1, some reg, block => do
    let r ← deref (some reg)
    if block < r.len then
      return u32 (r.block + block)
    else
      getBlockFrom fuel r.next (block - r.len)
  | _, _, _ => return ext4AllocateFailed

def getOobBlock (alloc : BlockAllocation) (block : Nat) : AllocM Nat := do
  let s ← get
  getBlockFrom s.fresh alloc.oobList.iter (u32 (block + alloc.oobList.partialIter))

/-- The loop of `do_split_allocation`: the region that `len` blocks lead to, and the blocks left -/
def skipRegions : Nat → Option Nat → Nat → AllocM (Option Nat × Nat)
  | fuel + 1, some reg, len => do
    let r ← deref (some reg)
    if len ≥ r.len then
      skipRegions fuel r.next (len - r.len)
    else
      return (some reg, len)
  | _, reg, len => return (reg, len)

section

variable (alloc : BlockAllocation)

/-- The rest of `do_split_allocation` -/
def splitRegion (reg : Option Nat) (len : Nat) : AllocM (BlockAllocation × Option Nat) :=
  if reg = none ∧ len > 0 then
    return (alloc, none)
  else if len > 0 then do
    let r ← deref reg
    let new ← mallocRegion {
      block := u32 (r.block + len)
      len := r.len - len
      bg := r.bg
      next := r.next
      prev := reg }
    update reg fun r => { r with next := some new, len := len }
    return ({ alloc with list := { alloc.list with iter := some new } }, alloc.list.iter)
  else
    return (alloc, reg)

def doSplitAllocation (len : Nat) :
    AllocM (BlockAllocation × Option Nat) := do
  let s ← get
  let found ← skipRegions s.fresh alloc.list.iter len
  splitRegion alloc found.1 found.2

def splitAllocation (len : Nat) :
    AllocM (BlockAllocation × Option Nat) := do
  let first ← doSplitAllocation alloc alloc.list.partialIter
  let middle ← doSplitAllocation first.1 len
  return ({ middle.1 with list := { middle.1.list with partialIter := 0 } }, middle.2)

end

/-- The loop of `reserve_oob_blocks` -/
def moveToOob : Nat → Option Nat → BlockAllocation → AllocM BlockAllocation
  | fuel + 1, some oob, alloc =>
    if some oob = alloc.list.iter then return alloc
    else do
      let r ← deref (some oob)
      let list ← regionListRemove alloc.list oob
      let oobList ← regionListAppend alloc.oobList oob
      moveToOob fuel r.next { list := list, oobList := oobList }
  | _, _, alloc => return alloc

/-- `reserve_oob_blocks`; the result is whether it returns 0. -/
def reserveOobBlocks (alloc : BlockAllocation) (blocks : Nat) : AllocM (Bool × BlockAllocation) := do
  let split ← splitAllocation alloc blocks
  if split.2 = none then
    return (false, split.1)
  else
    let s ← get
    let alloc ← moveToOob s.fresh split.2 split.1
    return (true, alloc)

/-- The loop of `append_oob_allocation`. The region it appends points to no other afterwards, so
it ends after one round. -/
def appendLoop : Nat → Option Nat → RegionList → AllocM RegionList
  | fuel + 1, some reg, list => do
    let list ← regionListAppend list reg
    let r ← deref (some reg)
    appendLoop fuel r.next list
  | _, _, list => return list

/-- `append_oob_allocation`; the result is whether it returns 0. -/
def appendOobAllocation (G : Globals) (alloc : BlockAllocation) (len : Nat) :
    AllocM (Bool × BlockAllocation) := do
  let reg ← ext4AllocateBestFit G len
  match reg with
  | none =>
    error G (.failedToAppend len)
    return (false, alloc)
  | some reg =>
    let list ← appendLoop 2 (some reg) alloc.oobList
    return (true, { alloc with oobList := list })

end AndroidSystem.Ext4
