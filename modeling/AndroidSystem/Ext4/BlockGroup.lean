import AndroidSystem.Ext4.Allocate

/-!
# The free blocks of a group

What `reserve_blocks`, `free_blocks` and `init_bg` do to the bitmap and the counters of a block
group. The blocks a group can hand out lie between its header and its end, which for the last
group may be the end of the filesystem; the bits of the free ones are the clear bits of the
bitmap, and they are one run before that end (`GroupOk`).

`first_free_block` is the start of the run, with one exception: if the header fills a group that
the filesystem cuts short, `init_bg` reserves the rest of the bitmap from `first_free_block` on and
leaves it at the end of the bitmap. No block is ever taken from such a group.
-/

namespace AndroidSystem.Ext4

open Allocator

/-! ## Running code -/

section Run

variable {α β : Type} {x : AllocM α} {f : α → AllocM β} {s s' : Allocator} {a : α} {e : Stop}

theorem bind_ok (h : x s = .ok a s') : (x >>= f) s = f a s' := by
  show EStateM.bind x f s = f a s'
  rw [EStateM.bind, h]

theorem bind_error (h : x s = .error e s') : (x >>= f) s = .error e s' := by
  show EStateM.bind x f s = .error e s'
  rw [EStateM.bind, h]

theorem get_bind (f : Allocator → AllocM β) (s : Allocator) :
    (get >>= f : AllocM β) s = f s s := rfl

theorem modify_bind (g : Allocator → Allocator) (f : Unit → AllocM β) (s : Allocator) :
    ((modify g : AllocM PUnit) >>= f) s = f () (g s) := rfl

theorem error_force {G : Globals} (h : G.force = true) (m : Message) (s : Allocator) :
    error G m s = .ok () { s with errors := s.errors ++ [m] } := by
  simp [error, h]

theorem error_exit {G : Globals} (h : G.force = false) (m : Message) (s : Allocator) :
    error G m s = .error .longjmp { s with errors := s.errors ++ [m] } := by
  simp [error, h]

end Run

namespace Allocator

variable (s : Allocator) (g i : Nat) (b : BlockGroupInfo)

@[simp] theorem setBg_bgs : (s.setBg g b).bgs i = if i = g then b else s.bgs i := rfl

@[simp] theorem setBg_regions : (s.setBg g b).regions = s.regions := rfl

@[simp] theorem setBg_fresh : (s.setBg g b).fresh = s.fresh := rfl

@[simp] theorem setBg_errors : (s.setBg g b).errors = s.errors := rfl

@[simp] theorem setBg_setBg (b' : BlockGroupInfo) :
    (s.setBg g b).setBg g b' = s.setBg g b' := by
  refine Allocator.ext (funext fun i => ?_) rfl rfl rfl
  show (if i = g then b' else if i = g then b else s.bgs i) = if i = g then b' else s.bgs i
  split_ifs <;> rfl

end Allocator

/-! ## Marking blocks -/

/-- The rule for the loops of `reserve_blocks`: what each round keeps holds at the end, where the
condition of the loop is false. -/
theorem reserveLoop_spec (go : Cursor → Bool) (setBits : Buf → Nat → Bool × Buf) (width num : Nat)
    (hwidth : 0 < width) (P : Cursor → Prop)
    (hround : ∀ c, P c → go c = true → ∃ m, setBits c.bitmap c.block = (false, m) ∧
      P ⟨m, c.i + width, c.block + width⟩ ∧ c.i + width ≤ num)
    (fuel : Nat) (c : Cursor) (hc : P c) (hfuel : num ≤ c.i + fuel) :
    ∃ c', reserveLoop go setBits width fuel c = .ok c' ∧ P c' ∧ go c' = false := by
  induction fuel generalizing c with
  | zero =>
    refine ⟨c, rfl, hc, ?_⟩
    by_contra hgo
    obtain ⟨m, -, -, hle⟩ := hround c hc (by simpa using hgo)
    omega
  | succ fuel ih =>
    unfold reserveLoop
    by_cases hgo : go c = true
    · obtain ⟨m, hset, hnext, hle⟩ := hround c hc hgo
      rw [if_pos hgo, hset]
      exact ih _ hnext (by show num ≤ c.i + width + fuel; omega)
    · rw [if_neg hgo]
      exact ⟨c, rfl, hc, by simpa using hgo⟩

/-- The blocks from `start` up to the cursor are marked, and no others. -/
structure Marked (m : Buf) (start num : Nat) (c : Cursor) : Prop where
  block : c.block = start + c.i
  le : c.i ≤ num
  bits : ∀ b, c.bitmap.bit b = (m.bit b || decide (start ≤ b ∧ b < c.block))

section Mark

variable {m : Buf} {start num : Nat} {c : Cursor}

theorem bitmapSetBit_of_clear {bit : Nat} (h : m.bit bit = false) :
    bitmapSetBit m bit = (false, m.setBit bit) := by
  rw [bitmapSetBit]
  simpa using (Buf.and_mask_eq_zero_iff m bit).2 h

section

variable (hclear : ∀ b, start ≤ b → b < start + num → m.bit b = false)
include hclear

theorem Marked.setBit (hc : Marked m start num c) (hi : c.i < num) :
    ∃ m', bitmapSetBit c.bitmap c.block = (false, m') ∧
      Marked m start num ⟨m', c.i + 1, c.block + 1⟩ ∧ c.i + 1 ≤ num := by
  have hblock := hc.block
  have hbit : c.bitmap.bit c.block = false := by
    rw [hc.bits, hclear _ (by omega) (by omega)]
    simp
  refine ⟨_, bitmapSetBit_of_clear hbit, ⟨?_, hi, fun b => ?_⟩, hi⟩
  · show c.block + 1 = start + (c.i + 1)
    omega
  · rw [Buf.bit_setBit, hc.bits, Bool.or_assoc]
    congr 1
    rw [← Bool.decide_or]
    apply decide_eq_decide.2
    show _ ↔ start ≤ b ∧ b < c.block + 1
    omega

theorem Marked.setByte (hc : Marked m start num c) (halign : c.block % 8 = 0) (hi : c.i + 8 ≤ num) :
    ∃ m', bitmapSet8Bits c.bitmap c.block = (false, m') ∧
      Marked m start num ⟨m', c.i + 8, c.block + 8⟩ ∧ c.i + 8 ≤ num := by
  have hblock := hc.block
  have hbyte : c.bitmap (c.block / 8) = 0 := by
    rw [Buf.byte_eq_zero_iff]
    intro b hb
    rw [hc.bits, hclear b (by omega) (by omega)]
    simp
    omega
  refine ⟨c.bitmap.setByte c.block, by simp [bitmapSet8Bits, hbyte], ⟨?_, hi, fun b => ?_⟩, hi⟩
  · show c.block + 8 = start + (c.i + 8)
    omega
  · rw [Buf.bit_setByte, hc.bits, Bool.or_assoc]
    congr 1
    rw [← Bool.decide_or]
    apply decide_eq_decide.2
    show _ ↔ start ≤ b ∧ b < c.block + 8
    omega

/-- The three loops mark `num` blocks from `start` on, if they are all clear before. -/
theorem markBlocks_spec (hnum : num + 8 < 2 ^ 32) :
    ∃ c, markBlocks m start num = .ok c ∧
      ∀ b, c.bitmap.bit b = (m.bit b || decide (start ≤ b ∧ b < start + num)) := by
  have h0 : Marked m start num ⟨m, 0, start⟩ := by
    refine ⟨rfl, Nat.zero_le _, fun b => ?_⟩
    have : ¬(start ≤ b ∧ b < start) := by omega
    simp [this]
  obtain ⟨c1, hrun1, hc1, hgo1⟩ := reserveLoop_spec
    (fun c => c.i < num && c.block % 8 != 0) bitmapSetBit 1 num (by decide) (Marked m start num)
    (fun c hc hgo => hc.setBit hclear (by simp at hgo; exact hgo.1)) num _ h0 (by simp)
  -- behind the first loop the cursor is at a byte, or everything is done
  have hat1 : c1.i = num ∨ c1.block % 8 = 0 := by
    have hle := hc1.le
    simp only [Bool.and_eq_false_iff, decide_eq_false_iff_not, bne_eq_false_iff_eq] at hgo1
    omega
  obtain ⟨c2, hrun2, ⟨hc2, -⟩, -⟩ := reserveLoop_spec
    (fun c => u32 (c.i + 8) ≤ num / 8 * 8) bitmapSet8Bits 8 num (by decide)
    (fun c => Marked m start num c ∧ (c.i = num ∨ c.block % 8 = 0))
    (fun c hc hgo => by
      have hle := hc.1.le
      have hgo' : c.i + 8 ≤ num / 8 * 8 := by
        rw [← u32_of_lt (by omega : c.i + 8 < 2 ^ 32)]
        simpa using hgo
      have halign : c.block % 8 = 0 := by
        omega
      obtain ⟨m', hset, hnext, hle'⟩ := hc.1.setByte hclear halign (by omega)
      exact ⟨m', hset, ⟨hnext, .inr (by show (c.block + 8) % 8 = 0; omega)⟩, hle'⟩)
    num c1 ⟨hc1, hat1⟩ (by omega)
  obtain ⟨c3, hrun3, hc3, hgo3⟩ := reserveLoop_spec
    (fun c => c.i < num) bitmapSetBit 1 num (by decide) (Marked m start num)
    (fun c hc hgo => hc.setBit hclear (by simpa using hgo)) num c2 hc2 (by omega)
  refine ⟨c3, ?_, fun b => ?_⟩
  · show (reserveLoop _ _ _ _ _ >>= fun c => reserveLoop _ _ _ _ c >>= _) = _
    rw [hrun1]
    show (reserveLoop _ _ _ _ c1 >>= _) = _
    rw [hrun2]
    exact hrun3
  · have hle := hc3.le
    have hblock := hc3.block
    have hi : ¬c3.i < num := by simpa using hgo3
    rw [hc3.bits, show c3.block = start + num by omega]

end

end Mark

/-! ## Clearing blocks -/

theorem bit_clearDown (n : Nat) (m : Buf) (block c : Nat) (hn : n ≤ block) (hblock : block < 2 ^ 32) :
    (clearDown n m block).bit c = (m.bit c && decide ¬(block - n ≤ c ∧ c < block)) := by
  induction n generalizing m block with
  | zero =>
    have : ¬(block ≤ c ∧ c < block) := by omega
    simp [clearDown, this]
  | succ n ih =>
    have hdown := u32OfInt_sub (by omega : 1 ≤ block) hblock
    rw [Nat.cast_one] at hdown
    rw [clearDown, ih _ _ (by omega) (by omega), Buf.bit_clearBit, Bool.and_assoc]
    congr 1
    rw [← Bool.decide_and]
    apply decide_eq_decide.2
    omega

/-! ## Groups -/

/-- What the allocator needs of the geometry: the header of each group ends before the group does,
a block holds the bitmap of a group, and the numbers of blocks have 32 bits, with room for the
counter of `reserve_blocks`. -/
structure Layout (G : Globals) : Prop where
  fits : ∀ g < G.aux.groups,
    groupStart G.info G.aux g + headerBlocks G.info G.aux g ≤ groupStop G.info G.aux g
  bitmap : G.info.blocksPerGroup ≤ 8 * G.info.blockSize
  small : G.aux.firstDataBlock + G.aux.groups * G.info.blocksPerGroup + 8 < 2 ^ 32

/-- The number of blocks of a group. -/
def groupSize (G : Globals) (g : Nat) : Nat :=
  groupStop G.info G.aux g - groupStart G.info G.aux g

/-- The counters and the bitmap of a group agree: the free blocks are the last ones of the group,
and their bits are the clear ones. -/
structure GroupOk (G : Globals) (g : Nat) (b : BlockGroupInfo) : Prop where
  first : b.firstBlock = groupStart G.info G.aux g
  room : headerBlocks G.info G.aux g + b.freeBlocks ≤ groupSize G g
  next : headerBlocks G.info G.aux g < groupSize G g →
    b.firstFreeBlock + b.freeBlocks = groupSize G g
  le : b.firstFreeBlock + b.freeBlocks ≤ G.info.blocksPerGroup
  clear : ∀ c < G.info.blocksPerGroup,
    b.blockBitmap.bit c = false ↔ groupSize G g - b.freeBlocks ≤ c ∧ c < groupSize G g

section Group

variable {G : Globals} {g k : Nat} {s : Allocator} {b : BlockGroupInfo}

theorem Layout.start_add_size (hG : Layout G) (hg : g < G.aux.groups) :
    groupStart G.info G.aux g + groupSize G g = groupStop G.info G.aux g := by
  have := hG.fits g hg
  unfold groupSize
  omega

theorem Layout.header_le (hG : Layout G) (hg : g < G.aux.groups) :
    headerBlocks G.info G.aux g ≤ groupSize G g := by
  have := hG.fits g hg
  unfold groupSize
  omega

theorem groupSize_le (G : Globals) (g : Nat) : groupSize G g ≤ G.info.blocksPerGroup := by
  unfold groupSize groupStop
  omega

theorem Layout.start_lt (hG : Layout G) (hg : g < G.aux.groups) :
    groupStart G.info G.aux g + G.info.blocksPerGroup + 8 < 2 ^ 32 := by
  have hsmall := hG.small
  have hmul : (g + 1) * G.info.blocksPerGroup ≤ G.aux.groups * G.info.blocksPerGroup :=
    Nat.mul_le_mul_right _ hg
  rw [Nat.succ_mul] at hmul
  unfold groupStart
  omega

theorem GroupOk.next_of_free (hb : GroupOk G g b) (hfree : 0 < b.freeBlocks) :
    b.firstFreeBlock + b.freeBlocks = groupSize G g := by
  have := hb.room
  exact hb.next (by omega)

theorem GroupOk.clearRun (hb : GroupOk G g b) :
    b.blockBitmap.ClearRun G.info.blocksPerGroup b.firstFreeBlock b.freeBlocks := by
  refine ⟨hb.le, fun c hc => (hb.clear c hc).trans ?_⟩
  rcases eq_zero_or_pos b.freeBlocks with hzero | hpos
  · omega
  · have := hb.next_of_free hpos
    omega

/-- `reserve_blocks` succeeds on clear bits that are accounted for. -/
theorem reserveBlocks_ok (start num : Nat) (hfree : num ≤ (s.bgs g).freeBlocks)
    (hclear : ∀ c, start ≤ c → c < start + num → (s.bgs g).blockBitmap.bit c = false)
    (hnum : num + 8 < 2 ^ 32) :
    ∃ m, reserveBlocks G g start num s = .ok true (s.setBg g { s.bgs g with
        blockBitmap := m
        freeBlocks := (s.bgs g).freeBlocks - num
        firstFreeBlock := if start = (s.bgs g).firstFreeBlock then start + num
          else (s.bgs g).firstFreeBlock }) ∧
      ∀ c, m.bit c = ((s.bgs g).blockBitmap.bit c || decide (start ≤ c ∧ c < start + num)) := by
  obtain ⟨c, hrun, hbits⟩ := markBlocks_spec hclear hnum
  refine ⟨c.bitmap, ?_, hbits⟩
  unfold reserveBlocks
  rw [get_bind]
  rw [if_neg (by omega), hrun]
  rfl

section

variable (hG : Layout G) (hg : g < G.aux.groups) (hs : GroupOk G g (s.bgs g)) (hk : 0 < k)
include hG hg hs hk

theorem reserveBlocks_group (hfree : k ≤ (s.bgs g).freeBlocks) :
    ∃ b, reserveBlocks G g (s.bgs g).firstFreeBlock k s = .ok true (s.setBg g b) ∧
      GroupOk G g b ∧ b.freeBlocks = (s.bgs g).freeBlocks - k := by
  have hnext := hs.next_of_free (by omega)
  have hroom := hs.room
  have hstart := hG.start_lt hg
  have hsize := groupSize_le G g
  obtain ⟨m, hrun, hbits⟩ := reserveBlocks_ok (g := g)
    (s.bgs g).firstFreeBlock _ hfree
    (fun c h1 h2 => (hs.clear c (by omega)).2 (by omega)) (by omega)
  rw [if_pos rfl] at hrun
  refine ⟨_, hrun, ⟨hs.first, ?_, fun _ => ?_, ?_, fun c hc => ?_⟩, rfl⟩
  · show headerBlocks G.info G.aux g + ((s.bgs g).freeBlocks - k) ≤ _
    omega
  · show (s.bgs g).firstFreeBlock + k + ((s.bgs g).freeBlocks - k) = _
    omega
  · show (s.bgs g).firstFreeBlock + k + ((s.bgs g).freeBlocks - k) ≤ _
    omega
  · show m.bit c = false ↔ groupSize G g - ((s.bgs g).freeBlocks - k) ≤ c ∧ _
    rw [hbits, Bool.or_eq_false_iff, hs.clear c hc, decide_eq_false_iff_not]
    omega

theorem freeBlocks_group (hused : headerBlocks G.info G.aux g + (s.bgs g).freeBlocks + k ≤ groupSize G g) :
    ∃ b, freeBlocks g k s = .ok () (s.setBg g b) ∧
      GroupOk G g b ∧ b.freeBlocks = (s.bgs g).freeBlocks + k := by
  have hnext := hs.next (by omega)
  have hstart := hG.start_lt hg
  have hsize := groupSize_le G g
  have hfree : u32 ((s.bgs g).freeBlocks + k) = (s.bgs g).freeBlocks + k := u32_of_lt (by omega)
  have hfirst := u32OfInt_sub (by omega : k ≤ (s.bgs g).firstFreeBlock) (by omega)
  refine ⟨_, rfl, ⟨hs.first, ?_, fun _ => ?_, ?_, fun c hc => ?_⟩, hfree⟩
  · show headerBlocks G.info G.aux g + u32 _ ≤ _
    omega
  · show u32OfInt _ + u32 _ = _
    omega
  · show u32OfInt _ + u32 _ ≤ _
    omega
  · rw [bit_clearDown _ _ _ _ (by omega) (by omega), Bool.and_eq_false_iff, hs.clear c hc]
    simp
    omega

end

end Group

/-! ## Setting up -/

/-- The groups agree with their bitmaps. -/
def GroupsOk (G : Globals) (s : Allocator) : Prop := ∀ g < G.aux.groups, GroupOk G g (s.bgs g)

section Init

variable {G : Globals} {s : Allocator}

/-- The rest of the bitmap of a group that the filesystem cuts short is reserved. -/
theorem reserveOverrun_ok (hG : Layout G) {g : Nat} (hg : g < G.aux.groups)
    (hfirst : (s.bgs g).firstBlock = groupStart G.info G.aux g)
    (hnext : (s.bgs g).firstFreeBlock = headerBlocks G.info G.aux g)
    (hfree : (s.bgs g).freeBlocks = G.info.blocksPerGroup - headerBlocks G.info G.aux g)
    (hbits : ∀ c, (s.bgs g).blockBitmap.bit c = decide (c < headerBlocks G.info G.aux g)) :
    ∃ b, reserveOverrun G g (groupStart G.info G.aux g) s = .ok () (s.setBg g b) ∧
      GroupOk G g b ∧ b.freeBlocks = groupSize G g - headerBlocks G.info G.aux g := by
  have hstart := hG.start_lt hg
  have hheader := hG.header_le hg
  have hsum := hG.start_add_size hg
  unfold groupStop at hsum
  unfold reserveOverrun
  rw [u32_of_lt (by omega)]
  by_cases hover : groupStart G.info G.aux g + G.info.blocksPerGroup > G.aux.lenBlocks
  · rw [if_pos hover]
    have hlen : G.info.blocksPerGroup
        - (groupStart G.info G.aux g + G.info.blocksPerGroup - G.aux.lenBlocks)
        = groupSize G g := by omega
    obtain ⟨m, hrun, hm⟩ := reserveBlocks_ok (g := g) (s := s) (groupSize G g)
      (G.info.blocksPerGroup - groupSize G g) (by omega)
      (fun c h1 _ => by rw [hbits]; simp; omega) (by omega)
    rw [hlen, show groupStart G.info G.aux g + G.info.blocksPerGroup - G.aux.lenBlocks
      = G.info.blocksPerGroup - groupSize G g by omega]
    refine ⟨_, bind_ok hrun, ⟨hfirst, ?_, fun hlt => ?_, ?_, fun c hc => ?_⟩, ?_⟩
    · show _ + ((s.bgs g).freeBlocks - _) ≤ _
      omega
    · show (if _ = (s.bgs g).firstFreeBlock then _ else (s.bgs g).firstFreeBlock)
        + ((s.bgs g).freeBlocks - _) = _
      rw [if_neg (by omega)]
      omega
    · show (if _ = (s.bgs g).firstFreeBlock then _ else (s.bgs g).firstFreeBlock)
        + ((s.bgs g).freeBlocks - _) ≤ _
      split_ifs <;> omega
    · show m.bit c = false ↔ _ - ((s.bgs g).freeBlocks - _) ≤ c ∧ _
      rw [hm, hbits, Bool.or_eq_false_iff, decide_eq_false_iff_not, decide_eq_false_iff_not]
      omega
    · show (s.bgs g).freeBlocks - _ = _
      omega
  · rw [if_neg hover]
    have hself : s = s.setBg g (s.bgs g) := by
      refine Allocator.ext (funext fun i => ?_) rfl rfl rfl
      rw [setBg_bgs]
      split_ifs with h
      · rw [h]
      · rfl
    refine ⟨s.bgs g, congrArg (EStateM.Result.ok ()) hself,
      ⟨hfirst, ?_, fun _ => ?_, ?_, fun c hc => ?_⟩, ?_⟩
    · omega
    · omega
    · omega
    · rw [hbits, decide_eq_false_iff_not]
      omega
    · omega

theorem initBg_ok (hG : Layout G) {g : Nat} (hg : g < G.aux.groups) (s : Allocator) :
    ∃ b, initBg G g s = .ok () (s.setBg g b) ∧ GroupOk G g b ∧
      b.freeBlocks = groupSize G g - headerBlocks G.info G.aux g := by
  have hstart := hG.start_lt hg
  have hheader := hG.header_le hg
  have hsize := groupSize_le G g
  have hfirst : u32 (G.aux.firstDataBlock + u32 (g * G.info.blocksPerGroup))
      = groupStart G.info G.aux g := by
    unfold groupStart at hstart ⊢
    rw [u32_of_lt (by omega : g * G.info.blocksPerGroup < 2 ^ 32), u32_of_lt (by omega)]
  unfold initBg
  rw [hfirst]
  rw [modify_bind]
  generalize hs1 : s.setBg g _ = s1
  have hg1 : s1.bgs g = { firstBlock := groupStart G.info G.aux g
                          headerBlocks := headerBlocks G.info G.aux g
                          blockBitmap := fun _ => 0
                          freeBlocks := G.info.blocksPerGroup
                          firstFreeBlock := 0 } := by
    rw [← hs1, setBg_bgs, if_pos rfl]
  obtain ⟨m, hrun, hm⟩ := reserveBlocks_ok (g := g)
    0 (headerBlocks G.info G.aux g) (by rw [hg1]; dsimp only; omega)
    (fun c _ _ => by rw [hg1]; exact Buf.bit_zero c) (by omega)
  rw [bind_ok hrun]
  simp only [Bool.not_true, Bool.false_eq_true, if_false]
  rw [hg1] at hm ⊢
  generalize hs2 : s1.setBg g _ = s2
  have hg2 : s2.bgs g = { firstBlock := groupStart G.info G.aux g
                          headerBlocks := headerBlocks G.info G.aux g
                          blockBitmap := m
                          freeBlocks := G.info.blocksPerGroup - headerBlocks G.info G.aux g
                          firstFreeBlock := headerBlocks G.info G.aux g } := by
    rw [← hs2, setBg_bgs, if_pos rfl, if_pos rfl, zero_add]
  obtain ⟨b, hrun', hb, hfree⟩ := reserveOverrun_ok hG hg (by rw [hg2]) (by rw [hg2])
    (by rw [hg2]) (fun c => by rw [hg2]; dsimp only; rw [hm]; simp)
  refine ⟨b, ?_, hb, hfree⟩
  rw [hrun', ← hs2, setBg_setBg, ← hs1, setBg_setBg]

theorem initGroups_ok (hG : Layout G) (n : Nat) (hn : n ≤ G.aux.groups) (s : Allocator) :
    ∃ bgs, initGroups G n s = .ok () { s with bgs := bgs } ∧ ∀ g < n, GroupOk G g (bgs g) ∧
      (bgs g).freeBlocks = groupSize G g - headerBlocks G.info G.aux g := by
  induction n with
  | zero => exact ⟨s.bgs, rfl, fun g hg => absurd hg (Nat.not_lt_zero g)⟩
  | succ n ih =>
    obtain ⟨bgs, hrun, hbgs⟩ := ih (by omega)
    obtain ⟨b, hinit, hb, hfree⟩ := initBg_ok hG (by omega : n < G.aux.groups) { s with bgs := bgs }
    refine ⟨fun i => if i = n then b else bgs i, ?_, fun g hg => ?_⟩
    · rw [initGroups, bind_ok hrun, hinit]
      rfl
    · dsimp only
      split_ifs with hgn
      · exact hgn ▸ ⟨hb, hfree⟩
      · exact hbgs g (by omega)

end Init

end AndroidSystem.Ext4
