import AndroidSystem.Ext4.AllocatorRun
import AndroidSystem.Ext4.RegionList

/-!
# The extents of a file

When the extents that `do_inode_allocate_extents` writes describe the blocks of the file
(`ExtentMapOk`). In the ordinary case they do. They do not

* if no group has two free blocks: taking one block off the first region then leaves nothing of it,
  and with it the rest of the list is lost (`one_block_regions`);
* if there are more regions than an extent block has room for, but not more than its bytes;
* if a region has more blocks than an extent can have;
* if the number of blocks, or of units of 512 bytes, is too large for its field.

`extentMap_ok_iff` says this in terms of the free blocks of the groups before the call.
-/

namespace AndroidSystem.Ext4

open BestFit List

variable {a : BlockAllocation} {blocks e : Nat} {m : ExtentMap} {f : Region}

/-! ## What the extents should be -/

/-- The extents cover the blocks of a file from `start` to `stop`, one after the other. -/
def Tiles (stop : Nat) : Nat → List Extent → Prop
  | start, [] => start = stop
  | start, e :: es => e.block = start ∧ 0 < e.blocks ∧ Tiles stop (start + e.blocks) es

/-- The blocks of the filesystem that an extent stands for. -/
def Extent.physical (e : Extent) : List Nat := range' e.start e.blocks

/-- A block that can be allocated. -/
def FreeIn (G : Globals) (s : Allocator) (b : Nat) : Prop :=
  ∃ g < G.aux.groups, groupStop G.info G.aux g - s.free g ≤ b ∧ b < groupStop G.info G.aux g

/-- The extents written for a file of `len` bytes, with the state before and after. -/
structure ExtentMapOk (G : Globals) (len : Nat) (s s' : Allocator) (m : ExtentMap) : Prop where
  count : m.extents.length = m.leaf.entries
  fits : m.leaf.entries ≤ m.leaf.max
  tiles : Tiles (divRoundUp len G.info.blockSize) 0 m.extents
  distinct : (m.extents.flatMap Extent.physical).Nodup
  taken : ∀ b ∈ m.extents.flatMap Extent.physical, FreeIn G s b ∧ ¬FreeIn G s' b
  extentBlock : m.root.depth = 1 → m.leafBlock ∉ m.extents.flatMap Extent.physical
  units : m.iBlocks = (divRoundUp len G.info.blockSize + m.root.depth) * G.info.blockSize / 512

/-- `m` groups together have `blocks` free blocks. -/
def FewGroups (G : Globals) (free : Nat → Nat) (blocks m : Nat) : Prop :=
  ∃ S ⊆ Finset.range G.aux.groups, S.card ≤ m ∧ blocks ≤ ∑ g ∈ S, free g

open Classical in
/-- The free blocks of the groups suit a file of so many blocks. -/
structure ExtentsFit (G : Globals) (free : Nat → Nat) (blocks : Nat) : Prop where
  lt : blocks < 2 ^ 32
  two : ∃ g < G.aux.groups, 2 ≤ free g
  few : FewGroups G free (blocks + 1) (max 3 (extentBlockMax G.info.blockSize))
  short : if ∃ g < G.aux.groups, blocks + 1 ≤ free g then blocks + 1 ≤ extInitMaxLen + 1
    else (∀ g < G.aux.groups, free g ≤ extInitMaxLen + 1) ∧
      ¬(2 * (extInitMaxLen + 1) ≤ blocks + 1 ∧ ∃ g < G.aux.groups, ∃ g' < G.aux.groups,
        g ≠ g' ∧ free g = extInitMaxLen + 1 ∧ free g' = extInitMaxLen + 1)
  units : (blocks + if FewGroups G free (blocks + 1) 3 then 0 else 1) * G.info.blockSize / 512
    < 2 ^ 48

/-! ## Extents of regions -/

section Extents

variable {rs : List Region} {start stop : Nat}

theorem blocks_u16_le (block len start : Nat) :
    ({ block := block, len := u16 len, start := start } : Extent).blocks ≤ len := by
  unfold Extent.blocks u16 extInitMaxLen
  dsimp only
  split_ifs <;> omega

theorem blocks_u16_eq_iff (block len start : Nat) :
    ({ block := block, len := u16 len, start := start } : Extent).blocks = len ↔
      len ≤ extInitMaxLen := by
  unfold Extent.blocks u16 extInitMaxLen
  dsimp only
  split_ifs <;> omega

@[simp] theorem length_extentsOf (rs : List Region) (start : Nat) :
    (extentsOf start rs).length = rs.length := by
  induction rs generalizing start with
  | nil => rfl
  | cons r rs ih => simp [extentsOf, ih]

theorem Tiles.start_eq {start' : Nat} (h : Tiles stop start' (extentsOf start rs)) :
    rs = [] ∧ start' = stop ∨ start' = start := by
  cases rs with
  | nil => exact .inl ⟨rfl, h⟩
  | cons r rs => exact .inr h.1.symm

theorem Tiles.stop_le (h : Tiles stop start (extentsOf start rs))
    (hsum : start + (rs.map Region.len).sum < 2 ^ 32) : stop ≤ start + (rs.map Region.len).sum := by
  induction rs generalizing start with
  | nil => exact le_of_eq h.symm
  | cons r rs ih =>
    rw [map_cons, sum_cons] at hsum ⊢
    obtain ⟨-, -, hrest⟩ := h
    have hle := blocks_u16_le start r.len r.block
    rcases hrest.start_eq with ⟨rfl, hstop⟩ | heq
    · omega
    · rw [heq] at hrest
      have := ih hrest (by omega)
      omega

/-- When the extents of regions cover as much as the regions have. -/
theorem tiles_extentsOf_iff (rs : List Region) (start stop : Nat)
    (hstop : stop = start + (rs.map Region.len).sum) (hlt : stop < 2 ^ 32) :
    Tiles stop start (extentsOf start rs) ↔ ∀ r ∈ rs, 0 < r.len ∧ r.len ≤ extInitMaxLen := by
  induction rs generalizing start with
  | nil =>
    simp [extentsOf, Tiles, hstop]
  | cons r rs ih =>
    rw [map_cons, sum_cons] at hstop
    rw [extentsOf, Tiles, u32_of_lt (by omega), forall_mem_cons]
    have heq := blocks_u16_eq_iff start r.len r.block
    generalize ({ block := start, len := u16 r.len, start := r.block } : Extent).blocks = k at *
    constructor
    · rintro ⟨-, hpos, hrest⟩
      have hk : k = r.len := by
        rcases hrest.start_eq with ⟨rfl, hend⟩ | hend
        · rw [map_nil, sum_nil] at hstop
          omega
        · omega
      rw [hk] at hrest hpos
      exact ⟨⟨hpos, heq.1 hk⟩, (ih _ (by omega)).1 hrest⟩
    · rintro ⟨⟨hpos, hle⟩, hrest⟩
      rw [heq.2 hle]
      exact ⟨rfl, hpos, (ih _ (by omega)).2 hrest⟩

theorem physical_sublist (rs : List Region) (start : Nat) :
    ((extentsOf start rs).flatMap Extent.physical).Sublist (rs.flatMap Region.blocks) := by
  induction rs generalizing start with
  | nil => exact List.Sublist.refl _
  | cons r rs ih =>
    refine List.Sublist.append ?_ (ih _)
    exact range'_sublist_right.2 (blocks_u16_le start r.len r.block)

end Extents

/-! ## Blocks of a file -/

theorem fileBlocks_eq {G : Globals} {len : Nat} (hpos : 0 < G.info.blockSize)
    (hbs : G.info.blockSize < 2 ^ 32)
    (hlt : divRoundUp len G.info.blockSize < 2 ^ 32) :
    fileBlocks G len = divRoundUp len G.info.blockSize := by
  have hcover := divRoundUp_mul_ge hpos len
  have hsmall : divRoundUp len G.info.blockSize * G.info.blockSize
      ≤ (2 ^ 32 - 1) * (2 ^ 32 - 1) := Nat.mul_le_mul (by omega) (by omega)
  unfold fileBlocks
  rw [u64_of_lt (by omega)]
  exact u32_of_lt hlt

section Regions

variable {G : Globals} {s s' : Allocator} {taken : List (Nat × Nat)} {len left : Nat}

theorem GroupsOk.exists_held (hs : GroupsOk G s) : ∃ held, HeldIs G s.free held := by
  refine ⟨(range G.aux.lenBlocks).filter fun b => ∃ g < G.aux.groups,
    groupStart G.info G.aux g + headerBlocks G.info G.aux g ≤ b ∧
      b < groupStop G.info G.aux g - s.free g, fun g hg => (hs g hg).room,
    nodup_range.filter _, fun b => ?_⟩
  rw [mem_filter, mem_range, decide_eq_true_eq]
  refine and_iff_right_of_imp ?_
  rintro ⟨g, -, -, hb⟩
  have : groupStop G.info G.aux g ≤ G.aux.lenBlocks := min_le_right _ _
  omega

theorem regions_taken (hG : Layout G) (hs : GroupsOk G s)
    (hgreedy : Greedy G.aux.groups s.free len taken left) (hbuilt : Built G s none taken s') :
    ((regionsOf G s.free taken).flatMap Region.blocks).Nodup ∧
      ∀ b ∈ (regionsOf G s.free taken).flatMap Region.blocks, FreeIn G s b ∧ ¬FreeIn G s' b := by
  obtain ⟨held, hheld⟩ := hs.exists_held
  have hafter := hheld.takeAll hG hgreedy
  rw [← hbuilt.free] at hafter
  have hnodup := nodup_append.1 hafter.nodup
  refine ⟨hnodup.2.1, fun b hb => ?_⟩
  obtain ⟨g, hg, h1, h2⟩ := (hafter.mem b).1 (mem_append_right _ hb)
  have hnot : b ∉ held := fun hb' => hnodup.2.2 b hb' b hb rfl
  rw [hheld.mem_group hg (by omega) (by omega)] at hnot
  refine ⟨⟨g, hg, by omega, by omega⟩, ?_⟩
  rintro ⟨g', hg', h1', h2'⟩
  have hroom := hafter.room g' hg'
  have hsum := hG.start_add_size hg'
  obtain rfl : g = g' := group_unique (b := b) (by omega) (by omega) (by omega) h2'
  omega

end Regions

/-! ## Running the code -/

section Code

variable {G : Globals} {s s' s₁ : Allocator} {rest : List (Nat × Nat)} {len n g k : Nat}

theorem not_error_none {α : Type} {msg : Message} {x : α}
    (hrun : (do error G msg; return none : AllocM (Option α)) s = .ok (some x) s') : False := by
  cases hforce : G.force with
  | true =>
    rw [bind_ok (error_force hforce _ _)] at hrun
    cases hrun
  | false =>
    rw [bind_error (error_exit hforce _ _)] at hrun
    cases hrun

theorem allocateBlocks_some (hG : Layout G) (hs : GroupsOk G s)
    (hrun : allocateBlocks G n s = .ok (some a) s₁) :
    ∃ taken, taken ≠ [] ∧ Greedy G.aux.groups s.free n taken 0 ∧ Built G s none taken s₁ ∧
      a = allocationAt s.fresh := by
  obtain ⟨taken, left, s', hgreedy, hbuilt, hloop⟩ := bestFitLoop_spec hG n n le_rfl none none hs
    (by simp)
  unfold allocateBlocks ext4AllocateBestFit at hrun
  cases hres : bestFitLoop G n n none none s with
  | error e s2 =>
    rw [bind_error hres] at hrun
    cases hrun
  | ok p s2 =>
    rw [bind_ok hres] at hrun
    cases p with
    | none => cases hrun
    | some p =>
      cases hrun
      rw [hloop, outcome] at hres
      split_ifs at hres with hleft htaken
      · cases hres
      · cases hres
        exact ⟨taken, htaken, hleft ▸ hgreedy, hbuilt, rfl⟩
      · exact (not_error_none hres).elim

theorem numRegions_ok {r : Nat × Nat} (hbuilt : Built G s none (r :: rest) s₁) :
    blockAllocationNumRegions (allocationAt s.fresh) s₁ = .ok (rest.length + 1) s₁ := by
  have := numRegionsFrom_ok s₁.fresh hbuilt.chain.linked
    (by rw [length_regionsOf, hbuilt.fresh]; omega)
  rw [length_regionsOf] at this
  exact this

/-- The first region of an allocation, and the others. -/
def firstRegion (G : Globals) (s : Allocator) (g k : Nat) : Region :=
  { block := groupStop G.info G.aux g - s.free g, len := k, bg := g }

def otherRegions (G : Globals) (s : Allocator) (g k : Nat) (rest : List (Nat × Nat)) : List Region :=
  regionsOf G (Function.update s.free g (s.free g - k)) rest

theorem regionsOf_cons : regionsOf G s.free ((g, k) :: rest)
    = firstRegion G s g k :: otherRegions G s g k rest := rfl

theorem length_cons_otherRegions (f : Region) :
    (f :: otherRegions G s g k rest).length = rest.length + 1 := by
  unfold otherRegions
  rw [length_cons, length_regionsOf]

/-- The extents are to be written to block `e`, or to the inode if it is 0, and the regions `fs` are
left in the list. -/
structure Placed (s s₁ : Allocator) (n e : Nat) (a : BlockAllocation) (s' : Allocator)
    (fs : List Region) : Prop where
  run : placeExtentBlock (allocationAt s.fresh) n s₁ = .ok (a, e) s'
  part : a.list.partialIter = 0
  fresh : s₁.fresh ≤ s'.fresh
  linked : Linked s'.regions a.list.iter fs

/-- The regions `fs` were free and are not, and the extent block is none of their blocks. -/
structure Kept (G : Globals) (s s' : Allocator) (e : Nat) (fs : List Region) : Prop where
  zero : e = 0 ↔ fs.length ≤ 3
  nodup : (fs.flatMap Region.blocks).Nodup
  taken : ∀ b ∈ fs.flatMap Region.blocks, FreeIn G s b ∧ ¬FreeIn G s' b
  extent : e ≠ 0 → e ∉ fs.flatMap Region.blocks

section First

variable (hG : Layout G) (hs : GroupsOk G s)
  (hgreedy : Greedy G.aux.groups s.free n ((g, k) :: rest) 0)
  (hbuilt : Built G s none ((g, k) :: rest) s₁)
include hG hgreedy hbuilt

/-- More than three regions: the first block is the extent block. -/
theorem place_block (hk : 1 < k) (hmany : ¬rest.length + 1 ≤ 3) :
    ∃ a s', Placed s s₁ (rest.length + 1) (firstRegion G s g k).block a s'
      ({ firstRegion G s g k with
          block := (firstRegion G s g k).block + 1
          len := k - 1 } :: otherRegions G s g k rest) ∧ s'.free = s₁.free := by
  have hg := (head_spec hgreedy).1
  have hblock := hG.stop_sub_free_lt s hg
  have hfresh := hbuilt.fresh
  rw [length_cons] at hfresh
  obtain ⟨a, s', hrun, hiter, hpart, hlinked, hbgs, hfresh', hoob⟩ :=
    reserveOob_long (firstRegion G s g k) (otherRegions G s g k rest) hbuilt.chain hk
      (by
        unfold otherRegions
        rw [length_regionsOf]
        omega)
      (by
        unfold ext4AllocateFailed at hblock
        unfold firstRegion
        dsimp only at hblock ⊢
        omega)
  refine ⟨a, s', ⟨?_, hpart, by omega, by rwa [hiter]⟩, ?_⟩
  · unfold placeExtentBlock
    rw [if_neg hmany, bind_ok hrun, bind_ok hoob]
    rfl
  · unfold Allocator.free
    rw [hbgs]

include hs

theorem freeBlocks_first :
    ∃ b, freeBlocks g 1 s₁ = .ok () (s₁.setBg g b) ∧ b.freeBlocks = s₁.free g + 1 := by
  obtain ⟨hg, hk, hle⟩ := head_spec hgreedy
  have hroom : headerBlocks G.info G.aux g + s.free g ≤ groupSize G g := (hs g hg).room
  have hfree := free_first hgreedy hbuilt
  obtain ⟨b, hrun, -, hb⟩ := freeBlocks_group hG hg (hbuilt.groups g hg) (by decide : 0 < 1)
    (by
      change _ + s₁.free g + 1 ≤ _
      omega)
  exact ⟨b, hrun, hb⟩

/-- At most three regions: one block of the first is given back. -/
theorem place_inode (hk : 1 < k) (hfew : rest.length + 1 ≤ 3) :
    ∃ a s', Placed s s₁ (rest.length + 1) 0 a s'
        ({ firstRegion G s g k with len := k - 1 } :: otherRegions G s g k rest) ∧
      s'.free = Function.update s₁.free g (s₁.free g + 1) := by
  obtain ⟨b, hfree, hb⟩ := freeBlocks_first hG hs hgreedy hbuilt
  obtain ⟨s', hrun, hbgs, hfresh, hlinked⟩ := reduce_long (r := firstRegion G s g k)
     hbuilt.chain hk hfree
  refine ⟨allocationAt s.fresh, s', ⟨?_, rfl, by omega, hlinked⟩, ?_⟩
  · unfold placeExtentBlock
    rw [if_pos hfew, bind_ok hrun]
    rfl
  · rw [← hb, ← Allocator.free_setBg]
    unfold Allocator.free
    rw [hbgs]
    rfl

/-- A first region of one block: no region stays in the list, or only the first. -/
theorem place_single (hk : k = 1) :
    ∃ e a s' fs, Placed s s₁ (rest.length + 1) e a s' fs ∧
      (fs = [] ∧ e = 0 ∨ 4 ≤ rest.length + 1 ∧ fs = [firstRegion G s g 1]) := by
  subst hk
  by_cases hfew : rest.length + 1 ≤ 3
  · obtain ⟨b, hfree, hb⟩ := freeBlocks_first hG hs hgreedy hbuilt
    obtain ⟨s', hrun, hbgs, hfresh⟩ := reduce_single
       hbuilt.chain rfl hfree
    refine ⟨0, {}, s', [], ⟨?_, rfl, by omega, rfl⟩, .inl ⟨rfl, rfl⟩⟩
    unfold placeExtentBlock
    rw [if_pos hfew, bind_ok hrun]
    rfl
  · have hfresh := hbuilt.fresh
    rw [length_cons] at hfresh
    obtain ⟨⟨g2, k2⟩, rest2, rfl⟩ : ∃ r rest2, rest = r :: rest2 :=
      exists_cons_of_ne_nil (by
        rintro rfl
        exact hfew (by simp))
    obtain ⟨hg2, hk2, -⟩ := hgreedy.mem_spec (g2, k2) (by simp)
    dsimp only at hg2 hk2
    have hstart := hG.start_lt hg2
    have hstop : groupStop G.info G.aux g2 ≤ groupStart G.info G.aux g2 + G.info.blocksPerGroup :=
      min_le_left _ _
    rw [length_cons] at hfresh hfew
    obtain ⟨a, s', hrun, hiter, hpart, hlinked, -, hfresh', hoob⟩ := reserveOob_single
      hbuilt.chain rfl hk2
      (by rw [length_regionsOf]; omega)
      (by dsimp only at hstop ⊢; omega)
    refine ⟨groupStop G.info G.aux g2 - Function.update s.free g (s.free g - 1) g2, a, s',
      [firstRegion G s g 1], ⟨?_, hpart, by omega, by rwa [hiter]⟩,
      .inr ⟨by rw [length_cons]; omega, rfl⟩⟩
    unfold placeExtentBlock
    rw [length_cons, if_neg hfew, bind_ok hrun, bind_ok hoob]
    rfl

/-- With at most three regions, the block given back is the one the extents leave out. -/
theorem kept_inode (hfree : s'.free = Function.update s₁.free g (s₁.free g + 1))
    (hfew : rest.length + 1 ≤ 3) :
    Kept G s s' 0 ({ firstRegion G s g k with len := k - 1 } :: otherRegions G s g k rest) := by
  obtain ⟨hnodup, htaken⟩ := regions_taken hG hs hgreedy hbuilt
  rw [regionsOf_cons] at hnodup htaken
  have hsub : (({ firstRegion G s g k with len := k - 1 } :: otherRegions G s g k rest).flatMap
      Region.blocks).Sublist
      ((firstRegion G s g k :: otherRegions G s g k rest).flatMap Region.blocks) := by
    exact List.Sublist.append (range'_sublist_right.2 (Nat.sub_le k 1)) (List.Sublist.refl _)
  refine ⟨iff_of_true rfl (by rwa [length_cons_otherRegions]), hnodup.sublist hsub,
    fun b hb => ⟨(htaken b (hsub.subset hb)).1, ?_⟩, fun h => absurd rfl h⟩
  rintro ⟨g', hg', h1, h2⟩
  have hnot := (htaken b (hsub.subset hb)).2
  rw [hfree, Function.update_apply] at h1
  split_ifs at h1 with hgg
  · subst hgg
    obtain ⟨-, hk, hle⟩ := head_spec hgreedy
    have hfirst := free_first hgreedy hbuilt
    have hroom : headerBlocks G.info G.aux g' + s.free g' ≤ groupSize G g' := (hs g' hg').room
    have hsum := hG.start_add_size hg'
    have hlast : b = (firstRegion G s g' k).block + k - 1 := by
      by_contra hne
      refine hnot ⟨g', hg', ?_, h2⟩
      unfold firstRegion at hne
      dsimp only at hne
      omega
    have hmem : b ∈ (firstRegion G s g' k).blocks := by
      rw [Region.blocks, mem_range'_1]
      show _ ∧ _ < _ + k
      omega
    rw [flatMap_cons, mem_append] at hb
    rw [flatMap_cons, nodup_append] at hnodup
    rcases hb with hb | hb
    · rw [Region.blocks, mem_range'_1] at hb
      dsimp only at hb
      omega
    · exact hnodup.2.2 b hmem b hb rfl
  · exact hnot ⟨g', hg', h1, h2⟩

/-- With more regions, the extent block is the one the extents leave out. -/
theorem kept_block (hfree : s'.free = s₁.free) (hk : 1 < k) (hmany : ¬rest.length + 1 ≤ 3) :
    Kept G s s' (firstRegion G s g k).block ({ firstRegion G s g k with
      block := (firstRegion G s g k).block + 1
      len := k - 1 } :: otherRegions G s g k rest) := by
  obtain ⟨hnodup, htaken⟩ := regions_taken hG hs hgreedy hbuilt
  have hblocks : (regionsOf G s.free ((g, k) :: rest)).flatMap Region.blocks
      = (firstRegion G s g k).block :: ({ firstRegion G s g k with
        block := (firstRegion G s g k).block + 1
        len := k - 1 } :: otherRegions G s g k rest).flatMap Region.blocks := by
    rw [regionsOf_cons, flatMap_cons, flatMap_cons, ← cons_append]
    congr 1
    show range' _ k = _ :: range' _ (k - 1)
    rw [← range'_succ, Nat.sub_add_cancel (by omega)]
  rw [hblocks] at hnodup htaken
  rw [nodup_cons] at hnodup
  refine ⟨iff_of_false ?_ (by rwa [length_cons_otherRegions]), hnodup.2, fun b hb => ?_,
    fun _ => hnodup.1⟩
  · have hg : g < G.aux.groups := (head_spec hgreedy).1
    have hroom : headerBlocks G.info G.aux g + s.free g ≤ groupSize G g := (hs g hg).room
    have hsum := hG.start_add_size hg
    have hheader : 2 ≤ headerBlocks G.info G.aux g := by
      unfold headerBlocks
      omega
    unfold firstRegion
    dsimp only
    omega
  · unfold FreeIn
    rw [hfree]
    exact htaken b (mem_cons_of_mem _ hb)

/-- A first region of more than one block: one block is taken off it. -/
theorem place_long (hk : 1 < k) : ∃ e a s' f, f.len = k - 1 ∧
    Placed s s₁ (rest.length + 1) e a s' (f :: otherRegions G s g k rest) ∧
    Kept G s s' e (f :: otherRegions G s g k rest) := by
  by_cases hfew : rest.length + 1 ≤ 3
  · obtain ⟨a, s', hplaced, hfree⟩ := place_inode hG hs hgreedy hbuilt hk hfew
    exact ⟨0, a, s', _, rfl, hplaced, kept_inode hG hs hgreedy hbuilt hfree hfew⟩
  · obtain ⟨a, s', hplaced, hfree⟩ := place_block hG hgreedy hbuilt hk hfew
    exact ⟨_, a, s', _, rfl, hplaced, kept_block hG hs hgreedy hbuilt hfree hk hfew⟩

end First

/-- What is written for the regions `fs`. -/
def extentMapOf (G : Globals) (len blockLen allocationLen extentBlock : Nat) (fs : List Region) :
    ExtentMap :=
  let headers := extentHeaders G.info.blockSize extentBlock allocationLen
  let blockLen := if extentBlock ≠ 0 then u32 (blockLen + 1) else blockLen
  let blocks := u64 (blockLen * G.info.blockSize) / 512
  { root := headers.1
    leafBlock := extentBlock
    leaf := headers.2
    extents := extentsOf 0 fs
    sizeLo := u32 len
    sizeHigh := u32 (len / 2 ^ 32)
    blocksLo := u32 blocks
    blocksHigh := u16 (blocks / 2 ^ 32) }

theorem forall_len_lt {fs : List Region} (hsum : (fs.map Region.len).sum < 2 ^ 32) :
    ∀ r ∈ fs, r.len < 2 ^ 32 :=
  fun _ hr => lt_of_le_of_lt (single_le_sum (fun _ _ => Nat.zero_le _) _
    (mem_map_of_mem hr)) hsum

theorem Placed.write {s₂ : Allocator} {fs : List Region} (h : Placed s s₁ n e a s₂ fs)
    (len blockLen : Nat) (hsum : (fs.map Region.len).sum < 2 ^ 32) (hfresh : fs.length ≤ s₁.fresh) :
    ∃ a', writeExtentMap G a len blockLen n e s₂
      = .ok (some (a', extentMapOf G len blockLen n e fs)) s₂ := by
  refine ⟨{ a with list := { a.list with iter := a.list.first, partialIter := 0 } }, ?_⟩
  unfold writeExtentMap
  rw [get_bind, bind_ok (writeExtents_ok a.list h.linked h.part (forall_len_lt hsum) 0
    (Nat.lt_succ_of_le (hfresh.trans h.fresh)))]
  rfl

/-- What was written, whatever regions are left in the list. -/
def Written (G : Globals) (len : Nat) (s s₁ s' : Allocator) (n : Nat) (m : ExtentMap) : Prop :=
  ∀ e a₂ s₂ fs, Placed s s₁ n e a₂ s₂ fs → fs.length ≤ n → (fs.map Region.len).sum < 2 ^ 32 →
    s' = s₂ ∧ m = extentMapOf G len (fileBlocks G len) n e fs

theorem doInodeAllocateExtents_some (hG : Layout G) (hs : GroupsOk G s)
    (hrun : doInodeAllocateExtents G len s = .ok (some (a, m)) s') :
    ∃ g k rest s₁, Greedy G.aux.groups s.free (fileBlocks G len + 1) ((g, k) :: rest) 0 ∧
      Built G s none ((g, k) :: rest) s₁ ∧ fileBlocks G len + 1 < 2 ^ 32 ∧
      Written G len s s₁ s' (rest.length + 1) m := by
  unfold doInodeAllocateExtents at hrun
  cases halloc : allocateBlocks G (u32 (fileBlocks G len + 1)) s with
  | error e s₁ =>
    rw [bind_error halloc] at hrun
    cases hrun
  | ok alloc s₁ =>
    rw [bind_ok halloc] at hrun
    cases alloc with
    | none =>
      exact (not_error_none hrun).elim
    | some alloc =>
      obtain ⟨taken, htaken, hgreedy, hbuilt, rfl⟩ := allocateBlocks_some hG hs halloc
      obtain ⟨⟨g, k⟩, rest, rfl⟩ := exists_cons_of_ne_nil htaken
      -- a request for no block at all has no regions
      have hwrap : u32 (fileBlocks G len + 1) = fileBlocks G len + 1 := by
        have hlt : fileBlocks G len < 2 ^ 32 := u32_lt _
        have hsum := hgreedy.sum_add_left
        have hk := (head_spec hgreedy).2.1
        rw [map_cons, sum_cons] at hsum
        unfold u32 at hsum ⊢
        omega
      rw [hwrap] at hgreedy
      have hnum : blockAllocationNumRegions (allocationAt s.fresh) s₁ = .ok (rest.length + 1) s₁ :=
        numRegions_ok hbuilt
      have hfresh := hbuilt.fresh
      rw [length_cons] at hfresh
      refine ⟨g, k, rest, s₁, hgreedy, hbuilt, hwrap ▸ u32_lt _,
        fun e a₂ s₂ fs hplaced hlen hsum => ?_⟩
      obtain ⟨a', hwrite⟩ := hplaced.write len (fileBlocks G len) hsum (by omega)
      dsimp only at hrun
      rw [bind_ok hnum, bind_ok hplaced.run] at hrun
      split_ifs at hrun with hbig
      · exact (not_error_none hrun).elim
      · rw [hwrite] at hrun
        cases hrun
        exact ⟨rfl, rfl⟩

end Code

/-! ## Whether the extents are right -/

section Right

variable {G : Globals} {s s' s₁ : Allocator} {rest : List (Nat × Nat)} {len g k : Nat}
  {fs : List Region}

theorem map_len_regionsOf (G : Globals) (free : Nat → Nat) (taken : List (Nat × Nat)) :
    (regionsOf G free taken).map Region.len = taken.map Prod.snd := by
  induction taken generalizing free with
  | nil => rfl
  | cons r taken ih =>
    rw [regionsOf, map_cons, map_cons, ih]

theorem iBlocks_eq (n : Nat) : u32 n + u16 (n / 2 ^ 32) * 2 ^ 32 = n % 2 ^ 48 := by
  unfold u32 u16
  omega

/-- The extents of regions that have the blocks of the file, and where the number of the extent
block is 0 if it is not needed. -/
theorem extentMapOf_ok_iff (hblocks : blocks = divRoundUp len G.info.blockSize)
    (hsum : (fs.map Region.len).sum = blocks) (hlt : blocks + 1 < 2 ^ 32)
    (hbs : G.info.blockSize < 2 ^ 32) (hkept : Kept G s s' e fs) :
    ExtentMapOk G len s s' (extentMapOf G len blocks fs.length e fs) ↔
      (fs.length ≤ max 3 (extentBlockMax G.info.blockSize)) ∧
      (∀ r ∈ fs, 0 < r.len ∧ r.len ≤ extInitMaxLen) ∧
      (blocks + if fs.length ≤ 3 then 0 else 1) * G.info.blockSize / 512 < 2 ^ 48 := by
  set m := extentMapOf G len blocks fs.length e fs
  simp only [← hkept.zero]
  have hmax : extentBlockMax G.info.blockSize < 2 ^ 16 := Nat.mod_lt _ (by decide)
  have htiles := tiles_extentsOf_iff fs 0 blocks (by omega) (by omega)
  have hsub := physical_sublist fs 0
  have hmul (n : Nat) (hn : n < 2 ^ 32) : u64 (n * G.info.blockSize) = n * G.info.blockSize := by
    apply u64_of_lt
    calc n * G.info.blockSize ≤ (2 ^ 32 - 1) * (2 ^ 32 - 1) := Nat.mul_le_mul (by omega) (by omega)
      _ < 2 ^ 64 := by decide
  have hunits : m.iBlocks
      = (blocks + if e = 0 then 0 else 1) * G.info.blockSize / 512 % 2 ^ 48 := by
    refine (iBlocks_eq _).trans ?_
    by_cases hz : e = 0
    · rw [if_neg (not_not.2 hz), if_pos hz, hmul _ (by omega), add_zero]
    · rw [if_pos hz, if_neg hz, u32_of_lt hlt, hmul _ hlt]
  have hdepth : m.root.depth = if e = 0 then 0 else 1 := by
    show (extentHeaders _ _ _).1.depth = _
    unfold extentHeaders
    split_ifs <;> rfl
  have hleaf : (fs.length = m.leaf.entries ∧ m.leaf.entries ≤ m.leaf.max) ↔
      fs.length ≤ max 3 (extentBlockMax G.info.blockSize) := by
    show (fs.length = (extentHeaders _ _ _).2.entries ∧
      (extentHeaders _ _ _).2.entries ≤ (extentHeaders _ _ _).2.max) ↔ _
    unfold extentHeaders
    split_ifs with hz
    · have := hkept.zero.1 hz
      dsimp only
      rw [u16_of_lt (by omega)]
      omega
    · have := mt hkept.zero.2 hz
      dsimp only
      refine ⟨by omega, fun h => ?_⟩
      rw [u16_of_lt (by omega)]
      omega
  constructor
  · intro h
    refine ⟨hleaf.1 ⟨?_, h.fits⟩, htiles.1 (hblocks ▸ h.tiles), ?_⟩
    · rw [← h.count]
      exact (length_extentsOf fs 0).symm
    · have hu := h.units
      rw [hunits, hdepth, ← hblocks] at hu
      rw [← hu]
      exact Nat.mod_lt _ (by decide)
  · rintro ⟨hmany, hshort, hsmall⟩
    obtain ⟨hentries, hfits⟩ := hleaf.2 hmany
    refine ⟨(length_extentsOf fs 0).trans hentries, hfits, hblocks ▸ htiles.2 hshort,
      hkept.nodup.sublist hsub, fun b hb => hkept.taken b (hsub.subset hb), fun hd => ?_, ?_⟩
    · have hne : e ≠ 0 := by
        intro hzero
        rw [hdepth, if_pos hzero] at hd
        cases hd
      exact fun hmem => hkept.extent hne (hsub.subset hmem)
    · rw [hunits, hdepth, ← hblocks]
      exact Nat.mod_eq_of_lt hsmall

/-- The condition on the free blocks, in terms of what is taken from the groups. -/
theorem extentsFit_iff (hlt : blocks + 1 < 2 ^ 32) (hpos : 0 < blocks)
    (hgreedy : Greedy G.aux.groups s.free (blocks + 1) ((g, k) :: rest) 0) :
    ExtentsFit G s.free blocks ↔ 2 ≤ k ∧
      rest.length + 1 ≤ max 3 (extentBlockMax G.info.blockSize) ∧
      (k ≤ extInitMaxLen + 1 ∧ ∀ r ∈ rest, r.2 ≤ extInitMaxLen) ∧
      (blocks + if rest.length + 1 ≤ 3 then 0 else 1) * G.info.blockSize / 512 < 2 ^ 48 := by
  have hfew (m : Nat) : FewGroups G s.free (blocks + 1) m ↔ rest.length + 1 ≤ m :=
    (hgreedy.length_le_iff m).symm
  have hsizes := hgreedy.sizes_le_iff (b := extInitMaxLen)
  have htwo := hgreedy.two_le_head_iff (by omega)
  constructor
  · intro h
    refine ⟨htwo.2 h.two, (hfew _).1 h.few, hsizes.2 ?_, ?_⟩
    · convert h.short
    · have := h.units
      simp only [hfew] at this
      exact this
  · rintro ⟨hk, hlen, hshort, hunits⟩
    refine ⟨by omega, htwo.1 hk, (hfew _).2 hlen, ?_, ?_⟩
    · convert hsizes.1 hshort
    · simp only [hfew]
      exact hunits

section

variable (hk : 1 < k) (hf : f.len = k - 1) (hgreedy : Greedy G.aux.groups s.free (blocks + 1)
  ((g, k) :: rest) 0)
include hk hf hgreedy

theorem sum_len_eq : ((f :: otherRegions G s g k rest).map Region.len).sum = blocks := by
  have hsum := hgreedy.sum_add_left
  rw [map_cons, sum_cons] at hsum ⊢
  unfold otherRegions
  rw [map_len_regionsOf]
  omega

theorem forall_len_iff :
    (∀ r ∈ f :: otherRegions G s g k rest, 0 < r.len ∧ r.len ≤ extInitMaxLen) ↔
      k ≤ extInitMaxLen + 1 ∧ ∀ r ∈ rest, r.2 ≤ extInitMaxLen := by
  have hmem : ∀ n, n ∈ (otherRegions G s g k rest).map Region.len ↔ n ∈ rest.map Prod.snd := by
    intro n
    unfold otherRegions
    rw [map_len_regionsOf]
  rw [forall_mem_cons]
  constructor
  · rintro ⟨hfirst, hrest⟩
    refine ⟨by omega, fun r hr => ?_⟩
    obtain ⟨q, hq, hqr⟩ := mem_map.1 ((hmem r.2).2 (mem_map_of_mem hr))
    rw [← hqr]
    exact (hrest q hq).2
  · rintro ⟨hfirst, hrest⟩
    refine ⟨by omega, fun q hq => ?_⟩
    obtain ⟨r, hr, hqr⟩ := mem_map.1 ((hmem q.len).1 (mem_map_of_mem hq))
    rw [← hqr]
    exact ⟨(hgreedy.mem_spec r (mem_cons_of_mem _ hr)).2.1, hrest r hr⟩

end

theorem ok_iff_of_long (hpos : 0 < G.info.blockSize) (hbs : G.info.blockSize < 2 ^ 32)
    (hlen : 1 ≤ len) (hk : 1 < k) (hf : f.len = k - 1)
    (hgreedy : Greedy G.aux.groups s.free (fileBlocks G len + 1) ((g, k) :: rest) 0)
    (hlt : fileBlocks G len + 1 < 2 ^ 32) (hkept : Kept G s s' e (f :: otherRegions G s g k rest)) :
    ExtentMapOk G len s s' (extentMapOf G len (fileBlocks G len) (rest.length + 1) e
      (f :: otherRegions G s g k rest)) ↔ ExtentsFit G s.free (divRoundUp len G.info.blockSize) := by
  have hlength : (f :: otherRegions G s g k rest).length = rest.length + 1 :=
    length_cons_otherRegions f
  have hsum := sum_len_eq hk hf hgreedy
  by_cases hc : divRoundUp len G.info.blockSize < 2 ^ 32
  · have hfile := fileBlocks_eq hpos hbs hc
    rw [← hlength, extentMapOf_ok_iff hfile hsum hlt hbs hkept, ← hfile,
      extentsFit_iff hlt (by rw [hfile]; exact divRoundUp_pos hpos hlen) hgreedy,
      forall_len_iff hk hf hgreedy, hlength]
    exact (and_iff_right hk).symm
  · refine iff_of_false (fun hok => hc ?_) fun hfit => hc hfit.lt
    have := Tiles.stop_le hok.tiles (by omega)
    omega

/-- A first region of one block: the extents do not cover the file. -/
theorem not_ok_of_single (hG : Layout G) (hs : GroupsOk G s) (hpos : 0 < G.info.blockSize)
    (hbs : G.info.blockSize < 2 ^ 32) (hlen : 1 ≤ len)
    (hgreedy : Greedy G.aux.groups s.free (fileBlocks G len + 1) ((g, 1) :: rest) 0)
    (hbuilt : Built G s none ((g, 1) :: rest) s₁) (hlt : fileBlocks G len + 1 < 2 ^ 32)
    (hwrite : Written G len s s₁ s' (rest.length + 1) m) : ¬ExtentMapOk G len s s' m := by
  intro hok
  have hblocks : 0 < divRoundUp len G.info.blockSize := divRoundUp_pos hpos hlen
  have hcount := hgreedy.length_le
  rw [length_cons] at hcount
  obtain ⟨e, a₂, s₂, fs, hplaced, hfs⟩ := place_single hG hs hgreedy hbuilt rfl
  have hsum : (fs.map Region.len).sum ≤ 1 ∧ fs.length ≤ 1 := by
    rcases hfs with ⟨rfl, -⟩ | ⟨-, rfl⟩
    · simp
    · exact ⟨le_of_eq (sum_singleton ..), le_rfl⟩
  obtain ⟨rfl, rfl⟩ := hwrite e a₂ s₂ fs hplaced (by omega) (by omega)
  have hle := Tiles.stop_le hok.tiles (by omega)
  have hc := fileBlocks_eq hpos hbs (lt_of_le_of_lt hle (by omega))
  rcases hfs with ⟨rfl, -⟩ | ⟨hmany, rfl⟩
  · rw [map_nil, sum_nil] at hle
    omega
  · omega

/-- The extents are right exactly if the free blocks of the groups suit the file. -/
theorem extentMap_ok_iff {a : BlockAllocation} {m : ExtentMap} (hG : Layout G) (hs : GroupsOk G s)
    (hbs : G.info.blockSize < 2 ^ 32) (hlen : 1 ≤ len)
    (hrun : doInodeAllocateExtents G len s = .ok (some (a, m)) s') :
    ExtentMapOk G len s s' m ↔ ExtentsFit G s.free (divRoundUp len G.info.blockSize) := by
  obtain ⟨g, k, rest, s₁, hgreedy, hbuilt, hlt, hwrite⟩ := doInodeAllocateExtents_some hG hs hrun
  have hkpos : 0 < k := (head_spec hgreedy).2.1
  have hpos : 0 < G.info.blockSize := by
    obtain ⟨hg, -, hle⟩ := head_spec hgreedy
    have := (hs g hg).room
    have := groupSize_le G g
    have := hG.bitmap
    change k ≤ (s.bgs g).freeBlocks at hle
    omega
  rcases lt_or_ge 1 k with hk | hk
  · obtain ⟨e, a₂, s₂, f, hf, hplaced, hkept⟩ := place_long hG hs hgreedy hbuilt hk
    obtain ⟨rfl, rfl⟩ := hwrite e a₂ s₂ _ hplaced (length_cons_otherRegions f).le
      (by rw [sum_len_eq hk hf hgreedy]; omega)
    exact ok_iff_of_long hpos hbs hlen hk hf hgreedy hlt hkept
  · obtain rfl : k = 1 := by omega
    refine iff_of_false (not_ok_of_single hG hs hpos hbs hlen hgreedy hbuilt hlt hwrite) fun hfit => ?_
    have hc := fileBlocks_eq hpos hbs hfit.lt
    rw [hc] at hgreedy hlt
    have := ((extentsFit_iff hlt (divRoundUp_pos hpos hlen) hgreedy).1 hfit).1
    omega

end Right

/-! ## Calls that return -/

section Returns

variable {G : Globals} {s : Allocator} {len n g : Nat}

theorem allocateBlocks_ok (hG : Layout G) (hs : GroupsOk G s) (hn : 0 < n)
    (htotal : n ≤ totalFree G s) :
    ∃ taken s', taken ≠ [] ∧ Greedy G.aux.groups s.free n taken 0 ∧ Built G s none taken s' ∧
      allocateBlocks G n s = .ok (some (allocationAt s.fresh)) s' := by
  obtain ⟨taken, left, s', hgreedy, hbuilt, hloop⟩ := bestFitLoop_spec hG n n le_rfl none none hs
    (by simp)
  obtain rfl : left = 0 := by
    have := hgreedy.left_eq
    unfold totalFree at htotal
    omega
  have htaken : taken ≠ [] := by
    rintro rfl
    have := hgreedy.sum_add_left
    rw [map_nil, sum_nil] at this
    omega
  refine ⟨taken, s', htaken, hgreedy, hbuilt, ?_⟩
  rw [if_neg htaken] at hloop
  unfold allocateBlocks ext4AllocateBestFit
  rw [bind_ok hloop]
  rfl

/-- A file whose blocks, and one more, are there in three groups gets an extent map. -/
theorem doInodeAllocateExtents_returns (hG : Layout G) (hs : GroupsOk G s) (len : Nat)
    (hlt : fileBlocks G len + 1 < 2 ^ 32)
    (hfew : FewGroups G s.free (fileBlocks G len + 1) 3) :
    ∃ a m s', doInodeAllocateExtents G len s = .ok (some (a, m)) s' := by
  have htotal : fileBlocks G len + 1 ≤ totalFree G s := by
    obtain ⟨S, hS, -, hsum⟩ := hfew
    exact le_trans hsum (Finset.sum_le_sum_of_subset hS)
  obtain ⟨taken, s₁, htaken, hgreedy, hbuilt, halloc⟩ :=
    allocateBlocks_ok hG hs (Nat.succ_pos _) htotal
  obtain ⟨⟨g, k⟩, rest, rfl⟩ := exists_cons_of_ne_nil htaken
  have hthree : rest.length + 1 ≤ 3 := (hgreedy.length_le_iff 3).2 hfew
  have hfresh := hbuilt.fresh
  rw [length_cons] at hfresh
  have hnum : blockAllocationNumRegions (allocationAt s.fresh) s₁ = .ok (rest.length + 1) s₁ :=
    numRegions_ok hbuilt
  obtain ⟨a₂, s₂, fs, hplaced, hlen, hsum⟩ : ∃ a₂ s₂ fs, Placed s s₁ (rest.length + 1) 0 a₂ s₂ fs ∧
      fs.length ≤ rest.length + 1 ∧ (fs.map Region.len).sum < 2 ^ 32 := by
    have hkpos : 0 < k := (head_spec hgreedy).2.1
    rcases lt_or_ge 1 k with hk | hk
    · obtain ⟨e, a₂, s₂, f, hf, hplaced, hkept⟩ := place_long hG hs hgreedy hbuilt hk
      have hlength : (f :: otherRegions G s g k rest).length = rest.length + 1 :=
        length_cons_otherRegions f
      obtain rfl := hkept.zero.2 (hlength.trans_le hthree)
      exact ⟨a₂, s₂, _, hplaced, hlength.le, by rw [sum_len_eq hk hf hgreedy]; omega⟩
    · obtain rfl : k = 1 := by omega
      obtain ⟨e, a₂, s₂, fs, hplaced, ⟨rfl, rfl⟩ | ⟨hmany, -⟩⟩ :=
        place_single hG hs hgreedy hbuilt rfl
      · exact ⟨a₂, s₂, [], hplaced, by simp, by simp⟩
      · omega
  obtain ⟨a', hwrite⟩ := hplaced.write len (fileBlocks G len) hsum (by omega)
  refine ⟨a', extentMapOf G len (fileBlocks G len) (rest.length + 1) 0 fs, s₂, ?_⟩
  unfold doInodeAllocateExtents
  rw [u32_of_lt hlt, bind_ok halloc]
  dsimp only
  rw [bind_ok hnum, bind_ok hplaced.run]
  exact hwrite

end Returns

/-- A file of 10000 bytes in an empty filesystem: three blocks, one extent. -/
theorem small_file_extents : ∃ s s' a m, Layout smallTool ∧ GroupsOk smallTool s ∧
    doInodeAllocateExtents smallTool 10000 s = .ok (some (a, m)) s' ∧
    ExtentMapOk smallTool 10000 s s' m := by
  obtain ⟨s, -, hinv, hfree, -⟩ := smallTool_free
  have hblocks : divRoundUp 10000 smallTool.info.blockSize = 3 := by decide
  have hthree : FewGroups smallTool s.free 4 3 :=
    ⟨{0}, by decide, by decide, by rw [Finset.sum_singleton, hfree]; decide⟩
  have hfit : ExtentsFit smallTool s.free 3 := by
    refine ⟨by decide, ⟨0, by decide, by omega⟩, ?_, ?_, ?_⟩
    · exact ⟨{0}, by decide, by decide, by rw [Finset.sum_singleton, hfree]; decide⟩
    · rw [if_pos ⟨0, by decide, by omega⟩]
      decide
    · rw [if_pos hthree]
      decide
  obtain ⟨a, m, s', hrun⟩ := doInodeAllocateExtents_returns smallTool_layout hinv.groups
    10000 (by decide) hthree
  refine ⟨s, s', a, m, smallTool_layout, hinv.groups, hrun, ?_⟩
  exact (extentMap_ok_iff smallTool_layout hinv.groups (by decide) (by decide) hrun).2
    (hblocks ▸ hfit)

/-- A filesystem of 40000 blocks of 4096 bytes, in two groups. -/
def twoGroups : Globals where
  force := false
  info := makeFsInfo (40000 * 4096) 4096
  aux := ext4CreateFsAuxInfo (makeFsInfo (40000 * 4096) 4096)

theorem twoGroups_layout : Layout twoGroups where
  fits := by decide
  bitmap := by decide
  small := by decide

theorem allocate_from {s : Allocator} {n f0 f1 : Nat} (hs : GroupsOk twoGroups s)
    (h0 : s.free 0 = f0) (h1 : s.free 1 = f1) (hn : 0 < n) (hfits : n ≤ f0 ∨ n ≤ f1) :
    ∃ a s', allocateBlocks twoGroups n s = .ok (some a) s' ∧ GroupsOk twoGroups s' ∧
      (n ≤ f0 ∧ (n ≤ f1 → f0 ≤ f1) ∧ s'.free 0 = f0 - n ∧ s'.free 1 = f1 ∨
        n ≤ f1 ∧ (n ≤ f0 → f1 ≤ f0) ∧ s'.free 0 = f0 ∧ s'.free 1 = f1 - n) := by
  have htwo : twoGroups.aux.groups = 2 := by decide
  have htotal : n ≤ totalFree twoGroups s := by
    unfold totalFree
    rw [htwo, Finset.sum_range_succ, Finset.sum_range_one]
    omega
  obtain ⟨taken, s', -, hgreedy, hbuilt, hrun⟩ :=
    allocateBlocks_ok twoGroups_layout hs hn htotal
  obtain ⟨g, hg, rfl, hle, hbest⟩ := hgreedy.eq_of_fits hn (by
    rcases hfits with h | h
    · exact ⟨0, by decide, by omega⟩
    · exact ⟨1, by decide, by omega⟩)
  have hzero := hbest 0 (by decide)
  have hone := hbest 1 (by decide)
  refine ⟨_, s', hrun, hbuilt.groups, ?_⟩
  simp only [hbuilt.free, remaining]
  obtain rfl | rfl : g = 0 ∨ g = 1 := by omega
  · exact .inl ⟨by omega, by omega, by simp [h0], by simp [h1]⟩
  · exact .inr ⟨by omega, by omega, by simp [h0], by simp [h1]⟩

/-- With one free block left in each of the two groups, a file of one block gets no extent. -/
theorem one_block_regions : ∃ s s' a a₂ m, (do
      blockAllocatorInit twoGroups
      let _ ← allocateBlocks twoGroups 6899
      allocateBlocks twoGroups 32435) {} = .ok (some a₂) s ∧
    doInodeAllocateExtents twoGroups 100 s = .ok (some (a, m)) s' ∧
    ¬ExtentMapOk twoGroups 100 s s' m := by
  obtain ⟨s0, hinit, hinv, hfree⟩ := init_inv twoGroups_layout
  obtain ⟨a1, s₁, hfirst, hs1, hfree1⟩ := allocate_from hinv.groups
    ((hfree 0 (by decide)).trans (by decide : _ = 32436))
    ((hfree 1 (by decide)).trans (by decide : _ = 6900)) (by decide : 0 < 6899) (by decide)
  have hfree1 : s₁.free 0 = 32436 ∧ s₁.free 1 = 1 := by omega
  obtain ⟨a₂, s, hsecond, hs, hfree2⟩ := allocate_from hs1 hfree1.1 hfree1.2
    (by decide : 0 < 32435) (by decide)
  have hone : ∀ g < twoGroups.aux.groups, s.free g = 1 := by
    intro g hg
    rw [show twoGroups.aux.groups = 2 by decide] at hg
    obtain rfl | rfl : g = 0 ∨ g = 1 := by omega
    · omega
    · omega
  have hblocks : fileBlocks twoGroups 100 = 1 := by decide
  obtain ⟨a, m, s', hrun⟩ := doInodeAllocateExtents_returns twoGroups_layout hs 100
    (by decide) ⟨{0, 1}, by decide, by decide, by
      rw [Finset.sum_pair (by decide), hone 0 (by decide), hone 1 (by decide), hblocks]⟩
  refine ⟨s, s', a, a₂, m, ?_, hrun, ?_⟩
  · rw [bind_ok hinit, bind_ok hfirst, hsecond]
  · obtain ⟨g, k, rest, s2, hgreedy, hbuilt, hlt, hwrite⟩ :=
      doInodeAllocateExtents_some twoGroups_layout hs hrun
    obtain ⟨hg, hpos, hle⟩ := head_spec hgreedy
    obtain rfl : k = 1 := by
      rw [hone g hg] at hle
      exact le_antisymm hle hpos
    exact not_ok_of_single twoGroups_layout hs (by decide) (by decide) (by decide) hgreedy hbuilt
      hlt hwrite

end AndroidSystem.Ext4
