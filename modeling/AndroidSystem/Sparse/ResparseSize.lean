import AndroidSystem.Sparse.Resparse

/-!
# The size of the pieces

`sparse_file_len` writes a file to a counter, so its result is a sum: the file header, the chunks
of the regions with the skip chunks in front of them (`cost`), a skip chunk at the end if the file
goes on, and a CRC chunk. `move_chunks_up_to_len` keeps a sum of its own and subtracts a fixed
overhead from the limit. The two agree except when a region is split: the room for its part is
computed without the skip chunk in front of it.
-/

namespace AndroidSystem.Sparse

open List

variable {blockSize maxLen len : Nat} {s : SparseFile} {env : Env} {l : List BackedBlock}
  {out : OutputFile Int} {bb : BackedBlock}

variable {pre post : List BackedBlock} {inS : SparseFile}

/-! ## The length of a file -/

theorem writeSkipChunk_counter (h : IsCounter blockSize out) {skipLen : Int}
    (hdvd : skipLen % blockSize = 0) :
    ∃ out', writeSkipChunk out skipLen = (0, out') ∧ Counted blockSize chunkHeaderLen out out' := by
  have hdvd' : ¬ skipLen % out.blockSize ≠ 0 := by rw [h.blockSize]; exact not_not_intro hdvd
  unfold writeSkipChunk
  rw [h.sparseOps]
  simp only [writeSparseSkipChunk, if_neg hdvd', h.write]
  exact ⟨_, rfl, ⟨h.ops, h.sparseOps, h.blockSize⟩, rfl, rfl⟩

/-- The skip chunk in front of a region is always a whole number of blocks. -/
theorem writeGap_counter (h : IsCounter blockSize out) (lastBlock : Nat) (bb : BackedBlock) :
    Counted blockSize (gapLen lastBlock bb) out (if bb.block > lastBlock then
      (writeSkipChunk out (((bb.block - lastBlock : Nat) : Int) * blockSize)).2 else out) := by
  unfold gapLen
  split_ifs with hgap
  · obtain ⟨out', hw, hc⟩ := writeSkipChunk_counter h
      (Int.mul_emod_left ((bb.block - lastBlock : Nat) : Int) blockSize)
    rwa [hw]
  · exact .refl h

theorem writeBlocksLoop_counter (env : Env) (h : IsCounter blockSize out) (lastBlock : Nat)
    (hio : ∀ bb ∈ l, ioErrno env bb = 0) :
    ∃ out', writeBlocksLoop env blockSize l lastBlock out =
        (0, endBlock blockSize lastBlock l, out') ∧
      Counted blockSize (cost blockSize lastBlock l) out out' := by
  induction l generalizing out lastBlock with
  | nil => exact ⟨out, rfl, .refl h⟩
  | cons bb l ih =>
    have hgap := writeGap_counter h lastBlock bb
    obtain ⟨out1, hw, hc⟩ := sparseFileWriteBlock_counter env hgap.counter bb
    have hbb := hio bb (by simp)
    obtain ⟨out2, hw2, hc2⟩ :=
      ih (hc hbb).counter (nextBlock blockSize bb) fun x hx => hio x (mem_cons_of_mem _ hx)
    rw [hbb] at hw
    refine ⟨out2, ?_, (hgap.trans (hc hbb)).trans hc2⟩
    rw [writeBlocksLoop]
    simp only [hw]
    exact hw2

theorem writeBlocksLoop_counter_fail (env : Env) (h : IsCounter blockSize out) (lastBlock : Nat)
    (hio : ∃ bb ∈ l, ioErrno env bb ≠ 0) :
    (writeBlocksLoop env blockSize l lastBlock out).1 < 0 := by
  induction l generalizing out lastBlock with
  | nil => simp at hio
  | cons bb l ih =>
    obtain ⟨out1, hw, hc⟩ :=
      sparseFileWriteBlock_counter env (writeGap_counter h lastBlock bb).counter bb
    rw [writeBlocksLoop]
    simp only [hw]
    by_cases hbb : ioErrno env bb = 0
    · rw [if_neg (by simp [hbb])]
      apply ih (hc hbb).counter
      obtain ⟨x, hx, hne⟩ := hio
      rcases mem_cons.1 hx with rfl | hx
      · exact absurd hbb hne
      · exact ⟨x, hx, hne⟩
    · rw [if_pos (by omega)]
      omega

/-- `pad` in `write_all_blocks`. -/
def padLen (s : SparseFile) : Int := s.len - (endBlock s.blockSize 0 s.blocks : Int) * s.blockSize

/-- The bytes of the skip chunk at the end, which is not written unless it is whole blocks. -/
def trailLen (s : SparseFile) : Int :=
  if 0 < padLen s ∧ padLen s % s.blockSize = 0 then chunkHeaderLen else 0

theorem trailLen_le (s : SparseFile) : trailLen s ≤ chunkHeaderLen := by
  unfold trailLen
  split_ifs
  · exact le_rfl
  · exact Int.natCast_nonneg _

/-- The bytes of the CRC chunk. -/
def crcLen (crc : Bool) : Int := if crc then chunkHeaderLen + 4 else 0

theorem outputFileClose_counter (h : IsCounter blockSize out) :
    (outputFileClose out).sink = out.sink + crcLen out.useCrc := by
  unfold outputFileClose crcLen
  rw [h.sparseOps]
  simp only [writeSparseEndChunk]
  cases out.useCrc with
  | false => simp
  | true =>
    rw [h.write, orReturn_zero, (h.setSink (out.sink + chunkHeaderLen)).write]
    exact add_assoc _ _ _

/-- A skip at the end that is not whole blocks is refused, and the refusal is not looked at. -/
theorem writeTrail_counter (h : IsCounter s.blockSize out) :
    ∃ out', (if padLen s > 0 then .ok (0, (writeSkipChunk out (padLen s)).2) else .ok (0, out)) =
        (.ok (0, out') : Except Fault (Int × OutputFile Int)) ∧
      Counted s.blockSize (trailLen s) out out' := by
  unfold trailLen
  by_cases hpos : 0 < padLen s
  · rw [if_pos hpos]
    refine ⟨_, rfl, ?_⟩
    by_cases hdvd : padLen s % s.blockSize = 0
    · obtain ⟨out', hskip, hc⟩ := writeSkipChunk_counter h hdvd
      rwa [if_pos ⟨hpos, hdvd⟩, hskip]
    · have hskip : (writeSkipChunk out (padLen s)).2 = out := by
        unfold writeSkipChunk
        rw [h.sparseOps]
        simp only [writeSparseSkipChunk]
        rw [h.blockSize, if_pos hdvd]
      rw [if_neg fun h => hdvd h.2, hskip]
      exact .refl h
  · rw [if_neg hpos, if_neg fun h => hpos h.1]
    exact ⟨_, rfl, .refl h⟩

theorem sparseCountChunks_ok (hbs : s.blockSize ≠ 0) : ∃ chunks, sparseCountChunks s = .ok chunks :=
  ⟨_, if_neg hbs⟩

/-- `sparse_file_len` of a file whose backing files can be read. -/
theorem sparseFileLen_eq (hbs : s.blockSize ≠ 0) (hopen : ¬ i32 s.blockSize < 0)
    (hio : ∀ bb ∈ s.blocks, ioErrno env bb = 0) (crc : Bool) :
    sparseFileLen env s true crc =
      if padLen s < 0 then .error .assertFail
      else .ok (sparseHeaderLen + cost s.blockSize 0 s.blocks + trailLen s + crcLen crc) := by
  obtain ⟨chunks, hchunks⟩ := sparseCountChunks_ok hbs
  obtain ⟨out, hinit, hc, hcrc, hsink⟩ := outputFileInit_counter hbs hopen s.len chunks crc
  obtain ⟨out1, hloop, hblocks⟩ := writeBlocksLoop_counter env hc 0 hio
  obtain ⟨out2, hskip, htrail⟩ := writeTrail_counter hblocks.counter
  have hall := hblocks.trans htrail
  rw [sparseFileLen, hchunks]
  simp only [hinit]
  rw [writeAllBlocks, if_neg (fun h => hbs h.1), hloop]
  simp only [ne_eq, not_true_eq_false, if_false]
  rw [show s.len - (endBlock s.blockSize 0 s.blocks : Int) * s.blockSize = padLen s from rfl]
  by_cases hneg : padLen s < 0
  · simp only [hneg, if_true]
  · simp only [hneg, if_false, hskip, lt_irrefl]
    rw [outputFileClose_counter hall.counter, hall.sink, hall.useCrc, hcrc, hsink, ← add_assoc]

/-- A file that cannot be read, or whose blocks are too large to be buffered, has no length. -/
theorem sparseFileLen_fail (hbs : s.blockSize ≠ 0)
    (h : i32 s.blockSize < 0 ∨ ∃ bb ∈ s.blocks, ioErrno env bb ≠ 0) (crc : Bool) :
    sparseFileLen env s true crc = .ok (-1) := by
  obtain ⟨chunks, hchunks⟩ := sparseCountChunks_ok hbs
  rw [sparseFileLen, hchunks]
  simp only
  by_cases hopen : i32 s.blockSize < 0
  · have hinit : outputFileInit (callbackFileOps outCounterWrite) 0 s.blockSize s.len
        true chunks crc = .ok (.error 0) := if_pos hopen
    rw [hinit]
  · have hio := h.resolve_left hopen
    obtain ⟨out, hinit, hc, -⟩ := outputFileInit_counter hbs hopen s.len chunks crc
    simp only [hinit]
    have hret := writeBlocksLoop_counter_fail env hc 0 hio
    rw [writeAllBlocks, if_neg (fun h => hbs h.1)]
    cases hw : writeBlocksLoop env s.blockSize s.blocks 0 out with
    | mk ret p =>
      rw [hw] at hret
      have hne : ret ≠ 0 := by
        omega
      simp only [hne, ne_eq, not_false_eq_true, if_true]
      rw [if_pos hret]

/-! ## The length of a chunk -/

/-- What the data of a raw region counts: its length and its padding, both as `int`s. -/
theorem rawLen_eq (hbs : 0 < blockSize) (hbs31 : blockSize < 2 ^ 31) (hlen : len < 2 ^ 31) :
    i32 len + zeroLen blockSize len = (divRoundUp len blockSize * blockSize : Nat) := by
  have hlt := divRoundUp_mul_lt hbs len
  unfold zeroLen rndUpLen
  rw [alignU32_eq hbs (by omega)]
  generalize divRoundUp len blockSize * blockSize = r at *
  rw [i32_of_lt (by omega) (by omega)]
  have hz : i32 (i32 (r : Int) - len) = r - len := by
    unfold i32
    split_ifs <;> omega
  omega

/-- A length of `2 ^ 31` bytes or more is negative as an `int`. -/
theorem rawLen_nonpos (hbs : 0 < blockSize) (hbs32 : blockSize < 2 ^ 32) (hlen : 2 ^ 31 ≤ len)
    (hlen32 : len < 2 ^ 32) : i32 len + zeroLen blockSize len ≤ 0 := by
  unfold zeroLen rndUpLen
  by_cases hwrap : len + blockSize ≤ 2 ^ 32
  · have hge := divRoundUp_mul_ge hbs len
    have hlt := divRoundUp_mul_lt hbs len
    rw [alignU32_eq hbs hwrap]
    unfold i32
    split_ifs <;> omega
  · rw [(alignU32_of_wrap hlen32 hbs32 (by omega)).2]
    unfold i32
    split_ifs <;> omega

theorem chunkLen_of_raw (h : bb.backing.type ≠ .fill) :
    chunkLen blockSize bb = chunkHeaderLen + (i32 bb.len + zeroLen blockSize bb.len) := by
  unfold chunkLen
  cases hb : bb.backing with
  | fill v => simp [hb, Backing.type] at h
  | data _ | file _ _ | fd _ _ => exact add_assoc _ _ _

theorem chunkLen_of_fill (h : bb.backing.type = .fill) :
    chunkLen blockSize bb = chunkHeaderLen + 4 := by
  obtain ⟨v, hv⟩ := Backing.eq_fill_of_type h
  simp [chunkLen, hv]

/-- The part of a region that a split with the given room keeps in place. -/
def BackedBlock.front (blockSize room : Nat) (bb : BackedBlock) : BackedBlock :=
  { bb with len := min bb.len (alignDown room blockSize) }

theorem PackedAt.piece_eq {p : Pack} (h : PackedAt blockSize len pre bb post p) :
    p.piece = if Splits blockSize len pre then
      pre ++ [bb.front blockSize (u32OfInt (roomAfter blockSize len pre))] else pre := by
  unfold BackedBlock.front
  rw [← cutLen]
  rcases h with hs | ⟨hs, hle⟩ | ⟨hs, hk, hlt⟩
  · rw [if_neg hs]
  · rw [if_pos hs, min_eq_left hle]
  · rw [if_pos hs, ← hk, min_eq_right hlt.le]
    rfl

/-- The whole blocks of the part fit into the room. -/
theorem front_blocks_le (hbs : 0 < blockSize) (bb : BackedBlock) (room : Nat) :
    divRoundUp (bb.front blockSize room).len blockSize * blockSize ≤ room := by
  have hle : divRoundUp (bb.front blockSize room).len blockSize ≤ room / blockSize := by
    rw [divRoundUp_le_iff hbs]
    exact (min_le_right _ _).trans_eq (mul_comm _ _)
  calc _ ≤ room / blockSize * blockSize := Nat.mul_le_mul_right _ hle
    _ ≤ room := Nat.div_mul_le_self _ _

/-! ## The length of a piece -/

/-- A region after a gap is split, and the part with the skip chunk in front of it does not fit
into the room that was computed without that skip chunk; the file then ends in a skip chunk. -/
def TightSplit (env : Env) (maxLen : Nat) (s : SparseFile) : Prop :=
  ¬ i32 s.blockSize < 0 ∧
  ∃ pre bb post, Overflow env s.blockSize (resparseLimit maxLen) s.blocks pre bb post ∧
    Splits s.blockSize (resparseLimit maxLen) pre ∧
    bb.block > endBlock s.blockSize 0 pre ∧
    ∃ part, part = bb.front s.blockSize
        (u32OfInt (roomAfter s.blockSize (resparseLimit maxLen) pre)) ∧
      (bb.backing.type = .fill ∨ (part.len < 2 ^ 31 ∧
        roomAfter s.blockSize (resparseLimit maxLen) pre <
          (divRoundUp part.len s.blockSize * s.blockSize : Nat) + chunkHeaderLen)) ∧
      ioErrno env part = 0 ∧
      (s.blockSize : Int) ∣ s.len ∧ (nextBlock s.blockSize part : Int) * s.blockSize < s.len

/-- The chunks of a split piece exceed the limit only by the skip chunk in front of the part. -/
theorem Overflow.cost_front (h : Overflow env blockSize len l pre bb post) (hbs : 0 < blockSize)
    (hbs31 : blockSize < 2 ^ 31) (hlen : bb.len < 2 ^ 32) (hL : 24 + blockSize ≤ len)
    (hs : Splits blockSize len pre) {part : BackedBlock}
    (hpart : part = bb.front blockSize (u32OfInt (roomAfter blockSize len pre))) :
    cost blockSize 0 (pre ++ [part]) ≤ len + chunkHeaderLen ∧
    (cost blockSize 0 (pre ++ [part]) > len ↔
      bb.block > endBlock blockSize 0 pre ∧
      (bb.backing.type = .fill ∨ (part.len < 2 ^ 31 ∧ roomAfter blockSize len pre <
        (divRoundUp part.len blockSize * blockSize : Nat) + chunkHeaderLen))) := by
  have hover := h.exceeds
  have hroom : 4 ≤ roomAfter blockSize len pre := by
    rcases hs with rfl | hs
    · simp only [roomAfter, cost, chunkHeaderLen]
      omega
    · omega
  have hu32 : (u32OfInt (roomAfter blockSize len pre) : Int) ≤ roomAfter blockSize len pre := by
    unfold u32OfInt
    omega
  have hblocks : (divRoundUp part.len blockSize * blockSize : Nat) ≤ roomAfter blockSize len pre := by
    have := front_blocks_le hbs bb (u32OfInt (roomAfter blockSize len pre))
    rw [← hpart] at this
    omega
  have hpartLen : part.len ≤ divRoundUp part.len blockSize * blockSize := divRoundUp_mul_ge hbs _
  have hgap : gapLen (endBlock blockSize 0 pre) part = gapLen (endBlock blockSize 0 pre) bb := by
    rw [hpart]
    rfl
  have htype : part.backing.type = bb.backing.type := by rw [hpart]; rfl
  have hlen' : part.len < 2 ^ 32 := by
    rw [hpart]
    exact (min_le_left _ _).trans_lt hlen
  rw [cost_append] at hover ⊢
  simp only [cost] at hover ⊢
  have hcost : cost blockSize 0 pre = len - chunkHeaderLen - roomAfter blockSize len pre := by
    unfold roomAfter
    omega
  have h12 : chunkHeaderLen = 12 := rfl
  -- A chunk of `2 ^ 31` bytes or more counts for nothing.
  have hchunk : bb.backing.type = .fill ∧ chunkLen blockSize bb = chunkHeaderLen + 4
        ∧ chunkLen blockSize part = chunkHeaderLen + 4
      ∨ bb.backing.type ≠ .fill ∧ part.len < 2 ^ 31 ∧ chunkLen blockSize part =
        chunkHeaderLen + (divRoundUp part.len blockSize * blockSize : Nat)
      ∨ bb.backing.type ≠ .fill ∧ ¬part.len < 2 ^ 31
        ∧ chunkLen blockSize part ≤ chunkHeaderLen := by
    by_cases hf : bb.backing.type = .fill
    · exact .inl ⟨hf, chunkLen_of_fill hf, chunkLen_of_fill (htype.trans hf)⟩
    · rw [chunkLen_of_raw (fun h => hf (htype ▸ h))]
      by_cases h31 : part.len < 2 ^ 31
      · exact .inr (.inl ⟨hf, h31, by rw [rawLen_eq hbs hbs31 h31]⟩)
      · have hneg := rawLen_nonpos hbs (by omega) (not_lt.1 h31) hlen'
        exact .inr (.inr ⟨hf, h31, by omega⟩)
  by_cases hg : bb.block > endBlock blockSize 0 pre
  · have hgl : gapLen (endBlock blockSize 0 pre) bb = chunkHeaderLen := if_pos hg
    rcases hchunk with ⟨hf, hb, hp⟩ | ⟨hf, h31, hp⟩ | ⟨hf, h31, hp⟩
    · exact ⟨by omega, iff_of_true (by omega) ⟨hg, .inl hf⟩⟩
    · simp only [hf, h31, true_and, false_or]
      omega
    · exact ⟨by omega, iff_of_false (by omega) fun h => h.2.elim hf fun h => h31 h.1⟩
  · -- Without a gap the part fits, whatever it is.
    have hgl : gapLen (endBlock blockSize 0 pre) bb = 0 := if_neg hg
    exact ⟨by omega, iff_of_false (by omega) fun h => hg h.1⟩

theorem nextBlock_le_stop (blockSize : Nat) (bb : BackedBlock) :
    nextBlock blockSize bb ≤ bb.stop blockSize := by
  have h1 : divRoundUpU32 bb.len blockSize ≤ divRoundUp bb.len blockSize :=
    Nat.div_le_div_right (Nat.mod_le _ _)
  have h2 : nextBlock blockSize bb ≤ bb.block + divRoundUpU32 bb.len blockSize := Nat.mod_le _ _
  unfold BackedBlock.stop
  omega

theorem front_stop_le (room : Nat) (bb : BackedBlock) :
    (bb.front blockSize room).stop blockSize ≤ bb.stop blockSize := by
  have : divRoundUp (bb.front blockSize room).len blockSize ≤ divRoundUp bb.len blockSize := by
    apply Nat.div_le_div_right
    have : (bb.front blockSize room).len ≤ bb.len := min_le_left _ _
    omega
  exact Nat.add_le_add_left this _

theorem endBlock_append_singleton (blockSize lastBlock : Nat) (l : List BackedBlock)
    (bb : BackedBlock) : endBlock blockSize lastBlock (l ++ [bb]) = nextBlock blockSize bb := by
  induction l generalizing lastBlock with
  | nil => rfl
  | cons x l ih => exact ih _

theorem mul_blockSize_le (blockSize : Nat) {m n : Nat} (h : m ≤ n) :
    (m : Int) * blockSize ≤ n * blockSize := by
  exact_mod_cast Nat.mul_le_mul_right blockSize h

/-- A list of regions inside a file ends inside it. -/
theorem endBlock_inside {len : Int} (hlen : 0 ≤ len)
    (h : ∀ bb ∈ l, (bb.stop blockSize : Int) * blockSize ≤ len) :
    (endBlock blockSize 0 l : Int) * blockSize ≤ len := by
  rcases eq_nil_or_concat l with rfl | ⟨l, bb, rfl⟩
  · simpa [endBlock] using hlen
  · rw [concat_eq_append] at h ⊢
    rw [endBlock_append_singleton]
    exact (mul_blockSize_le _ (nextBlock_le_stop blockSize bb)).trans (h bb (by simp))

/-- The regions of a file, in whole blocks, lie inside it. -/
def SparseFile.Inside (s : SparseFile) : Prop :=
  0 ≤ s.len ∧ ∀ bb ∈ s.blocks, (bb.stop s.blockSize : Int) * s.blockSize ≤ s.len

theorem SparseFile.Inside.padLen_nonneg (h : s.Inside) : 0 ≤ padLen s := by
  have := endBlock_inside h.1 h.2
  unfold padLen
  omega

/-- `sparse_file_len` returns at most `maxLen`, with and without a CRC chunk. -/
def FitsLimit (env : Env) (maxLen : Nat) (s : SparseFile) : Prop :=
  ∀ crc, ∃ n, sparseFileLen env s true crc = .ok n ∧ n ≤ maxLen

theorem fitsLimit_of_fail (hbs : s.blockSize ≠ 0)
    (h : i32 s.blockSize < 0 ∨ ∃ bb ∈ s.blocks, ioErrno env bb ≠ 0) : FitsLimit env maxLen s :=
  fun crc => ⟨-1, sparseFileLen_fail hbs h crc, by omega⟩

theorem resparseLimit_eq (hmax : resparseOverhead ≤ maxLen) (hmax32 : maxLen < 2 ^ 32) :
    (resparseLimit maxLen : Int) = maxLen - resparseOverhead :=
  u32OfInt_of_range (by omega) (by omega)

section

variable (hbs : s.blockSize ≠ 0) (hopen : ¬ i32 s.blockSize < 0)
  (hio : ∀ bb ∈ s.blocks, ioErrno env bb = 0) (hin : s.Inside)
  (hmax : resparseOverhead ≤ maxLen) (hmax32 : maxLen < 2 ^ 32)
include hbs hopen hio hin hmax hmax32

/-- What the limit on a length says about the chunks of a file. -/
theorem fitsLimit_iff : FitsLimit env maxLen s ↔
      cost s.blockSize 0 s.blocks + trailLen s ≤ resparseLimit maxLen + chunkHeaderLen := by
  have hlimit := resparseLimit_eq hmax hmax32
  have hover : resparseOverhead = 56 := rfl
  have h28 : sparseHeaderLen = 28 := rfl
  have h12 : chunkHeaderLen = 12 := rfl
  have hlen (crc : Bool) : sparseFileLen env s true crc = .ok _ :=
    (sparseFileLen_eq hbs hopen hio crc).trans (if_neg (not_lt.2 hin.padLen_nonneg))
  constructor
  · intro h
    obtain ⟨n, hn, hle⟩ := h true
    rw [hlen, Except.ok.injEq] at hn
    have hcrc : crcLen true = 16 := rfl
    omega
  · intro h crc
    have hcrc : crcLen crc ≤ 16 := by cases crc <;> decide
    exact ⟨_, hlen crc, by omega⟩

theorem fitsLimit_of_cost (hcost : cost s.blockSize 0 s.blocks ≤ resparseLimit maxLen) :
    FitsLimit env maxLen s := by
  have := trailLen_le s
  exact (fitsLimit_iff hbs hopen hio hin hmax hmax32).2 (by omega)

end

theorem TightSplit.more (h : TightSplit env maxLen s) :
    (pack env s.blockSize maxLen s.blocks).more := by
  obtain ⟨hopen, pre, bb, post, hov, -⟩ := h
  exact (hov.packedAt (if_neg hopen).symm).more

theorem Overflow.fitsLimit_front_iff {out : SparseFile}
    (h : Overflow env s.blockSize (resparseLimit maxLen) s.blocks pre bb post)
    (hs : Splits s.blockSize (resparseLimit maxLen) pre) (hbs : 0 < s.blockSize)
    (hopen : ¬ i32 s.blockSize < 0) (hbs31 : s.blockSize < 2 ^ 31) (hlen : bb.len < 2 ^ 32)
    (hmax : 80 + s.blockSize ≤ maxLen) (hmax32 : maxLen < 2 ^ 32)
    (hblocks : out.blocks = pre ++
      [bb.front s.blockSize (u32OfInt (roomAfter s.blockSize (resparseLimit maxLen) pre))])
    (hshape : out.SameShape s) (hin : out.Inside) :
    FitsLimit env maxLen out ↔ ¬ TightSplit env maxLen s := by
  obtain ⟨part, hpart⟩ : ∃ part, part = bb.front s.blockSize
    (u32OfInt (roomAfter s.blockSize (resparseLimit maxLen) pre)) := ⟨_, rfl⟩
  obtain ⟨hsize, hlen'⟩ := hshape
  have hne : out.blockSize ≠ 0 := by omega
  have hover : resparseOverhead = 56 := rfl
  have hlimit := resparseLimit_eq (by omega) hmax32
  obtain ⟨hle, htight⟩ := h.cost_front hbs hbs31 hlen (by omega) hs hpart
  rw [← hpart] at hblocks
  -- A tight split of this state is a split of this region.
  have hiff : TightSplit env maxLen s ↔
      cost s.blockSize 0 (pre ++ [part]) > resparseLimit maxLen ∧ ioErrno env part = 0 ∧
        (s.blockSize : Int) ∣ s.len ∧ (nextBlock s.blockSize part : Int) * s.blockSize < s.len := by
    rw [htight]
    constructor
    · rintro ⟨-, pre', bb', post', hov', -, hgap, part', hpart', htype, hrest⟩
      obtain ⟨rfl, rfl, rfl⟩ := h.unique hov'
      obtain rfl : part' = part := hpart'.trans hpart.symm
      exact ⟨⟨hgap, htype⟩, hrest⟩
    · rintro ⟨⟨hgap, htype⟩, hrest⟩
      exact ⟨hopen, pre, bb, post, h, hs, hgap, part, hpart, htype, hrest⟩
  rw [hiff]
  by_cases hio : ioErrno env part = 0
  · have hioOut : ∀ x ∈ out.blocks, ioErrno env x = 0 := by
      intro x hx
      rw [hblocks, mem_append, mem_singleton] at hx
      rcases hx with hx | rfl
      · exact h.io x (by simp [hx])
      · exact hio
    have hpad : padLen out = s.len - nextBlock s.blockSize part * s.blockSize := by
      rw [padLen, hsize, hlen', hblocks, endBlock_append_singleton]
    rw [fitsLimit_iff hne (hsize ▸ hopen) hioOut hin (by omega) hmax32, hsize, hblocks]
    have hdvd : padLen out % out.blockSize = 0 ↔ (s.blockSize : Int) ∣ s.len := by
      rw [hsize, hpad, Int.sub_mul_emod_self_right, Int.dvd_iff_emod_eq_zero]
    by_cases htrail : 0 < padLen out ∧ padLen out % out.blockSize = 0
    · have : trailLen out = chunkHeaderLen := if_pos htrail
      omega
    · have : trailLen out = 0 := if_neg htrail
      refine iff_of_true (by omega) ?_
      rintro ⟨-, -, h1, h2⟩
      exact htrail ⟨by omega, hdvd.2 h1⟩
  · exact iff_of_true (fitsLimit_of_fail hne (Or.inr ⟨part, by simp [hblocks], hio⟩))
      fun h => hio h.2.1

/-- A piece is too long exactly when it ends in a tight split. -/
theorem fitsLimit_piece_iff {out : SparseFile} (hbs : 0 < s.blockSize)
    (hbs32 : s.blockSize < 2 ^ 32) (hq : Queue s.blockSize s.blocks) (hin : s.Inside)
    (hmax : 80 + s.blockSize ≤ maxLen) (hmax32 : maxLen < 2 ^ 32)
    (hblocks : out.blocks = (pack env s.blockSize maxLen s.blocks).piece)
    (hshape : out.SameShape s) : FitsLimit env maxLen out ↔ ¬ TightSplit env maxLen s := by
  have hover : resparseOverhead = 56 := rfl
  have hne : out.blockSize ≠ 0 := by rw [hshape.1]; omega
  by_cases hopen : i32 s.blockSize < 0
  · exact iff_of_true (fitsLimit_of_fail hne (Or.inl (hshape.1 ▸ hopen))) fun h => h.1 hopen
  have hbs31 : s.blockSize < 2 ^ 31 := by
    by_contra h
    rw [i32_neg_of_ge (by omega) (by omega)] at hopen
    omega
  have hinside (h : ∀ x ∈ out.blocks, ∃ bb ∈ s.blocks,
      x.stop s.blockSize ≤ bb.stop s.blockSize) : out.Inside := by
    refine ⟨hshape.2 ▸ hin.1, fun x hx => ?_⟩
    obtain ⟨bb, hbb, hle⟩ := h x hx
    rw [hshape.1, hshape.2]
    exact (mul_blockSize_le _ hle).trans (hin.2 bb hbb)
  -- Every piece but one that ends in a split keeps below the limit of the loop.
  have hfits (hsub : ∀ x ∈ out.blocks, x ∈ s.blocks)
      (hio : ∀ bb ∈ out.blocks, ioErrno env bb = 0)
      (hcost : cost s.blockSize 0 out.blocks ≤ resparseLimit maxLen) : FitsLimit env maxLen out :=
    fitsLimit_of_cost hne (hshape.1 ▸ hopen) hio (hinside fun x hx => ⟨x, hsub x hx, le_rfl⟩)
      (by omega) hmax32 (hshape.1 ▸ hcost)
  generalize hp : pack env s.blockSize maxLen s.blocks = p at hblocks
  have htight (hmore : p.more = false) : ¬ TightSplit env maxLen s := fun h => by
    simpa [hp, hmore] using h.more
  rcases packed hp with @⟨pre, post, bb, p, -, hov, hp⟩ | ⟨-, hio, hcost⟩ | -
  · have hpre : ∀ x ∈ pre, x ∈ s.blocks := fun x hx => by simp [hov.eq, hx]
    rw [hp.piece_eq] at hblocks
    split_ifs at hblocks with hs
    · refine hov.fitsLimit_front_iff hs hbs hopen hbs31 (hq.len_lt bb hov.mem) hmax hmax32 hblocks
        hshape (hinside fun x hx => ?_)
      rw [hblocks, mem_append, mem_singleton] at hx
      rcases hx with hx | rfl
      · exact ⟨x, hpre x hx, le_rfl⟩
      · exact ⟨bb, hov.mem, front_stop_le _ bb⟩
    · rw [hblocks] at hfits
      refine iff_of_true (hfits hpre hov.io_pre (hov.fits pre prefix_rfl)) ?_
      rintro ⟨-, pre', bb', post', hov', hs', -⟩
      obtain ⟨rfl, rfl, rfl⟩ := hov.unique hov'
      exact hs hs'
  · rw [hblocks] at hfits
    exact iff_of_true (hfits (fun _ hx => hx) hio hcost) (htight rfl)
  · rw [hblocks] at hfits
    exact iff_of_true (hfits (by simp) (by simp) (by simp [cost])) (htight rfl)

/-! ## The length of all pieces -/

/-- With room for a block of the first region, every move takes something. -/
theorem pack_decreases (hbs : 0 < blockSize) (hpos : ∀ bb ∈ l, 0 < bb.len)
    (hL : chunkHeaderLen + blockSize ≤ resparseLimit maxLen) {p : Pack}
    (hp : pack env blockSize maxLen l = p) (hmore : p.more = true) :
    dataBytes p.rest < dataBytes l := by
  rcases packed hp with @⟨pre, post, bb, p, -, hov, hp⟩ | - | -
  · have hbb : 0 < bb.len := hpos bb hov.mem
    have hpre (hne : pre ≠ []) : 0 < dataBytes pre :=
      dataBytes_pos hne fun x hx => hpos x (by simp [hov.eq, hx])
    simp only [hov.eq, dataBytes_append, dataBytes_cons]
    rcases hp with hs | - | ⟨-, hk, hlt⟩
    · have := hpre fun hnil => hs (Or.inl hnil)
      simp
      omega
    · simp only
      omega
    · simp only [dataBytes_cons, BackedBlock.dropBlocks]
      by_cases hnil : pre = []
      · -- The first region: the room is the whole limit.
        have hroom : ¬ u32OfInt (roomAfter blockSize (resparseLimit maxLen) pre) < blockSize := by
          have hlt : resparseLimit maxLen < 2 ^ 32 := u32OfInt_lt _
          rw [hnil]
          simp only [roomAfter, cost]
          have := u32OfInt_of_range (x := (resparseLimit maxLen : Int) - (0 + chunkHeaderLen))
            (by omega) (by omega)
          omega
        have := mt (alignDown_eq_zero_iff hbs _).1 hroom
        rw [← cutLen] at this
        omega
      · have := hpre hnil
        omega
  all_goals cases hmore

/-- A region that is left stops where one of the list does, and is no longer. -/
theorem mem_pack_rest (hbs : 0 < blockSize) (hq : Queue blockSize l) {p : Pack}
    (hp : pack env blockSize maxLen l = p) (hbb : bb ∈ p.rest) :
    ∃ b ∈ l, bb.stop blockSize = b.stop blockSize ∧ bb.len ≤ b.len := by
  rcases pack_split hbs hq hp with hl | ⟨pre, b, post, k, hl, hk, -, hr⟩
  · refine ⟨bb, ?_, rfl, le_rfl⟩
    rw [← hl]
    exact mem_append_right _ hbb
  · rw [hr] at hbb
    rcases mem_cons.1 hbb with rfl | hbb
    · exact ⟨b, by simp [hl], (cut_blocks env hbs hk.le).stop_eq, Nat.sub_le _ _⟩
    · exact ⟨bb, by simp [hl, hbb], rfl, le_rfl⟩

theorem Reached.queue_inside (h : Reached env maxLen inS s) (hbs : 0 < inS.blockSize)
    (hq : Queue inS.blockSize inS.blocks) :
    Queue s.blockSize s.blocks ∧ s.SameShape inS ∧ (inS.Inside → s.Inside) := by
  have hinv := h.induct (P := fun s => Queue s.blockSize s.blocks ∧ (inS.Inside → s.Inside))
    hbs.ne' ⟨hq, id⟩ ?_
  · exact ⟨hinv.1.1, hinv.2, hinv.1.2⟩
  · rintro u u' p hnz hu ⟨hq, hin⟩ hsame hp - hrest
    have hbs : 0 < u.blockSize := pos_of_ne_zero hnz
    rw [hsame.1, hrest]
    refine ⟨(pack_rest hbs hq hp).1, fun hi => ?_⟩
    obtain ⟨hlen, hin⟩ := hin hi
    refine ⟨hsame.2 ▸ hlen, fun x hx => ?_⟩
    rw [hrest] at hx
    obtain ⟨bb, hbb, hstop, -⟩ := mem_pack_rest hbs hq hp hx
    rw [hsame.1, hsame.2, hstop]
    exact hin bb hbb

/-- The rounded length and the end of each region are within 32 bits. -/
def NoWrap (blockSize : Nat) (l : List BackedBlock) : Prop :=
  ∀ bb ∈ l, bb.len + blockSize ≤ 2 ^ 32 ∧ bb.stop blockSize < 2 ^ 32

theorem nextBlock_eq_stop (h : bb.len + blockSize ≤ 2 ^ 32 ∧ bb.stop blockSize < 2 ^ 32) :
    nextBlock blockSize bb = bb.stop blockSize := by
  unfold nextBlock
  rw [divRoundUpU32_eq h.1]
  exact u32_of_lt h.2

theorem endBlock_append_of_ne_nil (blockSize lastBlock : Nat) (l : List BackedBlock)
    {m : List BackedBlock} (hm : m ≠ []) :
    endBlock blockSize lastBlock (l ++ m) = endBlock blockSize 0 m := by
  rcases eq_nil_or_concat m with rfl | ⟨m, bb, rfl⟩
  · exact absurd rfl hm
  · rw [concat_eq_append, ← append_assoc, endBlock_append_singleton,
      endBlock_append_singleton]

/-- A file with a region that sticks out ends after its length. -/
theorem padLen_neg_of_outside (hq : Queue s.blockSize s.blocks)
    (hwrap : NoWrap s.blockSize s.blocks) (h : ¬ s.Inside) : padLen s < 0 := by
  have hend : 0 ≤ (endBlock s.blockSize 0 s.blocks : Int) * s.blockSize := by positivity
  unfold padLen
  by_cases hlen : 0 ≤ s.len
  · obtain ⟨bb, hbb, hout⟩ : ∃ bb ∈ s.blocks, s.len < (bb.stop s.blockSize : Int) * s.blockSize := by
      by_contra hno
      exact h ⟨hlen, fun bb hbb => not_lt.1 fun hlt => hno ⟨bb, hbb, hlt⟩⟩
    rcases eq_nil_or_concat s.blocks with hnil | ⟨l, b, hl⟩
    · simp [hnil] at hbb
    · -- The last region stops after every other one.
      rw [concat_eq_append] at hl
      have hb : b ∈ s.blocks := by simp [hl]
      have hle : bb.stop s.blockSize ≤ b.stop s.blockSize := by
        rw [hl, mem_append, mem_singleton] at hbb
        rcases hbb with hbb | rfl
        · have hsorted := hq.sorted
          rw [hl] at hsorted
          exact ((pairwise_append.1 hsorted).2.2 bb hbb b (by simp)).trans
            (Nat.le_add_right _ _)
        · exact le_rfl
      have hmul := mul_blockSize_le s.blockSize hle
      rw [hl, endBlock_append_singleton, nextBlock_eq_stop (hwrap b hb)]
      omega
  · omega

section

variable {p : Pack} (hbs : 0 < blockSize) (hq : Queue blockSize l)
  (hp : pack env blockSize maxLen l = p) (hwrap : NoWrap blockSize l)
include hbs hq hp hwrap

theorem NoWrap.rest : NoWrap blockSize p.rest := by
  intro x hx
  obtain ⟨bb, hbb, hstop, hlen⟩ := mem_pack_rest hbs hq hp hx
  have := hwrap bb hbb
  omega

/-- A move takes everything up to the end of the last region, or leaves a list with that end. -/
theorem pack_end (hopen : ¬ i32 blockSize < 0) (hio : ∀ bb ∈ l, Readable env bb) :
    p.piece = l ∨ (p.more = true ∧ endBlock blockSize 0 p.rest = endBlock blockSize 0 l) := by
  have hsplit := pack_split hbs hq hp
  have hw := hwrap.rest hbs hq hp
  rcases packed hp with ⟨-, -, hp⟩ | - | h | ⟨x, hx, hne⟩
  · rcases hsplit with hl | ⟨pre, bb, post, k, hl, hk, -, hr⟩
    · by_cases hrest : p.rest = []
      · rw [hrest, append_nil] at hl
        exact Or.inl hl
      · refine Or.inr ⟨hp.more, ?_⟩
        conv_rhs => rw [← hl]
        exact (endBlock_append_of_ne_nil _ _ _ hrest).symm
    · refine Or.inr ⟨hp.more, ?_⟩
      have hnext : nextBlock blockSize (bb.dropBlocks blockSize k) = nextBlock blockSize bb := by
        rw [hr] at hw
        rw [nextBlock_eq_stop (hw _ (by simp)), nextBlock_eq_stop (hwrap bb (by simp [hl]))]
        exact (cut_blocks env hbs hk.le).stop_eq
      rw [hr, hl, endBlock_append_of_ne_nil _ _ _ (by simp), endBlock, endBlock, hnext]
  · exact Or.inl rfl
  · exact absurd h hopen
  · exact absurd ((hio x hx).ioErrno_eq (hq.len_pos x hx)) hne

end

/-- If a region sticks out of the file, so does the piece of some state. -/
theorem reached_outside (maxLen : Nat) {s : SparseFile} (hbs : 0 < inS.blockSize)
    (hopen : ¬ i32 inS.blockSize < 0) (hL : chunkHeaderLen + inS.blockSize ≤ resparseLimit maxLen)
    (hs : Reached env maxLen inS s) (hq : Queue s.blockSize s.blocks)
    (hio : ∀ bb ∈ s.blocks, Readable env bb) (hwrap : NoWrap s.blockSize s.blocks)
    (hsame : s.SameShape inS) (hpad : padLen s < 0) :
    ∃ u, Reached env maxLen inS u ∧ u.SameShape inS ∧ padLen u < 0 ∧
      (∀ bb ∈ u.blocks, ioErrno env bb = 0) ∧
      (pack env u.blockSize maxLen u.blocks).piece = u.blocks := by
  have hbs' : 0 < s.blockSize := hsame.1 ▸ hbs
  rcases pack_end hbs' hq rfl hwrap (hsame.1 ▸ hopen) hio with h | ⟨hmore, hend⟩
  · exact ⟨s, hs, hsame, hpad, fun bb hbb => (hio bb hbb).ioErrno_eq (hq.len_pos bb hbb), h⟩
  · obtain ⟨s', hs', hrest, hsame'⟩ := hs.next rfl hbs'.ne' hmore
    have hdec := pack_decreases hbs' hq.len_pos (hsame.1 ▸ hL) rfl hmore
    obtain ⟨hq', hio'⟩ := pack_rest hbs' hq rfl
    refine reached_outside maxLen hbs hopen hL hs' ?_ ?_ ?_
      ⟨hsame'.1.trans hsame.1, hsame'.2.trans hsame.2⟩ ?_
    · rw [hsame'.1, hrest]
      exact hq'
    · rw [hrest]
      exact hio' hio
    · rw [hsame'.1, hrest]
      exact hwrap.rest hbs' hq rfl
    · rw [padLen, hsame'.1, hsame'.2, hrest, hend]
      exact hpad
termination_by dataBytes s.blocks
decreasing_by rwa [hrest]

/-- No file that `sparse_file_resparse` makes is longer than the limit, exactly when no state it
reaches has a tight split. A region that sticks out of the file makes `sparse_file_len` fail an
assertion instead. -/
theorem resparse_fitsLimit_iff {env : Env} {maxLen : Nat} {inS : SparseFile}
    (hbs : 0 < inS.blockSize) (hbs32 : inS.blockSize < 2 ^ 32)
    (hq : Queue inS.blockSize inS.blocks)
    (hmax : 80 + inS.blockSize ≤ maxLen) (hmax32 : maxLen < 2 ^ 32) :
    (inS.Inside →
      ((∀ fuel outSCount r, sparseFileResparse env fuel inS maxLen outSCount = some (.ok r) →
          ∀ out ∈ r.outS, FitsLimit env maxLen out) ↔
        ∀ s, Reached env maxLen inS s → ¬ TightSplit env maxLen s)) ∧
    (¬ inS.Inside → ¬ i32 inS.blockSize < 0 → (∀ bb ∈ inS.blocks, Readable env bb) →
      NoWrap inS.blockSize inS.blocks →
      ∃ fuel outSCount r, sparseFileResparse env fuel inS maxLen outSCount = some (.ok r) ∧
        ∃ out ∈ r.outS, ∀ crc, sparseFileLen env out true crc = .error .assertFail) := by
  have hover : resparseOverhead = 56 := rfl
  have h12 : chunkHeaderLen = 12 := rfl
  have hlimit := resparseLimit_eq (by omega) hmax32
  -- The call returns, and with enough room in `out_s` it returns the piece of every state.
  obtain ⟨fuel, ⟨ps, rest⟩, hp⟩ := pieces_of_decreasing env maxLen
    hbs.ne' fun s p hs hp hmore => by
      obtain ⟨hqs, hsame, -⟩ := hs.queue_inside hbs hq
      exact pack_decreases (by rw [hsame.1]; exact hbs) hqs.len_pos (by rw [hsame.1]; omega) hp hmore
  obtain ⟨r, hr, -, -, hout, hshape⟩ :=
    sparseFileResparse_some env fuel maxLen ps.length hbs.ne' hp
  rw [Int.toNat_natCast, take_length] at hout
  have hall (s : SparseFile) (hs : Reached env maxLen inS s) :
      ∃ out ∈ r.outS, out.blocks = (pack env s.blockSize maxLen s.blocks).piece := by
    have hmem := (mem_pieces_iff hbs hp).2 ⟨s, hs, rfl⟩
    rw [← hout] at hmem
    exact mem_map.1 hmem
  refine ⟨fun hin => ?_, fun hin hopen hio hwrap => ?_⟩
  · have hpiece {s out : SparseFile} (hs : Reached env maxLen inS s)
        (hblocks : out.blocks = (pack env s.blockSize maxLen s.blocks).piece)
        (hshape : out.SameShape inS) : FitsLimit env maxLen out ↔ ¬ TightSplit env maxLen s := by
      obtain ⟨hqs, hsame, hins⟩ := hs.queue_inside hbs hq
      exact fitsLimit_piece_iff (by rw [hsame.1]; exact hbs) (by rw [hsame.1]; exact hbs32) hqs
        (hins hin) (by rw [hsame.1]; exact hmax) hmax32 hblocks
        ⟨hshape.1.trans hsame.1.symm, hshape.2.trans hsame.2.symm⟩
    constructor
    · intro h s hs
      obtain ⟨out, hmem, hblocks⟩ := hall s hs
      exact (hpiece hs hblocks (hshape out hmem)).1 (h fuel _ r hr out hmem)
    · intro h fuel outSCount r hr out hmem
      obtain ⟨-, ps, rest, hp, -, -, hout, hshape⟩ := sparseFileResparse_inv hr
      have hmem' : out.blocks ∈ ps := by
        apply mem_of_mem_take
        rw [← hout]
        exact mem_map_of_mem hmem
      obtain ⟨s, hs, hblocks⟩ := (mem_pieces_iff hbs hp).1 hmem'
      exact (hpiece hs hblocks (hshape out hmem)).2 (h s hs)
  · obtain ⟨u, hu, hsame, hpad, hiou, hpiece⟩ := reached_outside maxLen
      hbs hopen (by omega) .start hq hio hwrap ⟨rfl, rfl⟩ (padLen_neg_of_outside hq hwrap hin)
    obtain ⟨out, hmem, hblocks⟩ := hall u hu
    rw [hpiece] at hblocks
    have hshape' := hshape out hmem
    refine ⟨fuel, _, r, hr, out, hmem, fun crc => ?_⟩
    have hpad' : padLen out = padLen u := by
      rw [padLen, padLen, hblocks, hshape'.1, hshape'.2, hsame.1, hsame.2]
    rw [sparseFileLen_eq (by rw [hshape'.1]; exact hbs.ne') (by rw [hshape'.1]; exact hopen)
      (by rw [hblocks]; exact hiou) crc, if_pos (by rw [hpad']; exact hpad)]

/-- The first region is split twice, and there is room for each part. -/
theorem resparse_fitsLimit_sample : sampleFile.Inside ∧
    ∀ fuel outSCount r, sparseFileResparse .zeros fuel sampleFile 84 outSCount = some (.ok r) →
      ∀ out ∈ r.outS, FitsLimit .zeros 84 out := by
  refine ⟨⟨by decide, by decide⟩, ?_⟩
  refine ((resparse_fitsLimit_iff (by decide) (by decide) sampleFile_queue (by decide)
    (by decide)).1 ⟨by decide, by decide⟩).2 fun s hs htight => ?_
  -- the last chunk would not end at a block
  obtain ⟨-, _, _, _, -, -, -, _, -, -, -, hdvd, -⟩ := htight
  rw [(reached_sampleFile hs).2.1, (reached_sampleFile hs).2.2] at hdvd
  exact absurd hdvd (by decide)

/-- Three blocks after a gap of one, and a limit that leaves room for exactly two blocks: the first
piece counts a header, a skip chunk, two blocks with their chunk header, the skip chunk at the end
and a CRC chunk, which is twelve bytes too much. -/
theorem resparse_exceeds_limit :
    Queue 4096 [⟨1, 12288, .data 0⟩] ∧ 80 + 4096 ≤ 8260 ∧
    ∃ r, sparseFileResparse .zeros 3 (.ofBlocks 4096 65536 [⟨1, 12288, .data 0⟩]) 8260 1 =
        some (.ok r) ∧
      ∃ out ∈ r.outS, sparseFileLen .zeros out true true = .ok 8272 :=
  ⟨⟨by decide, by decide, by decide, by decide⟩, by decide, _, rfl, _, mem_cons_self, rfl⟩

end AndroidSystem.Sparse
