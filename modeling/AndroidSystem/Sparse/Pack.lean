import AndroidSystem.Sparse.Image

/-!
# Packing regions into pieces

`move_chunks_up_to_len` measures a region by writing it to an output file that only counts, and
moves nodes from one list to another. Here both are replaced by what they compute: `chunkLen` is
the measure, `pack` says which regions go into a piece and what is left, and `pieces` repeats it.
`moveChunksUpToLen_eq` and `sparseFileResparse_inv` tie these to the code, for every file and every
behaviour of the backing files.
-/

namespace AndroidSystem.Sparse

open List Option

variable {blockSize len maxLen : Nat} {out : OutputFile Int} {env : Env} {inS : SparseFile}
  {pre l : List BackedBlock}

variable {post rest : List BackedBlock} {ps : List (List BackedBlock)}

/-! ## Measuring a region -/

/-- The bytes `out_counter_write` counts for a region in sparse format. A raw length of `2 ^ 31`
or more is negative as an `int`. -/
def chunkLen (blockSize : Nat) (bb : BackedBlock) : Int :=
  match bb.backing with
  | .fill _ => chunkHeaderLen + 4
  | _ => chunkHeaderLen + i32 bb.len + zeroLen blockSize bb.len

/-- The error, if any, of reaching the contents of a region. -/
def ioErrno (env : Env) (bb : BackedBlock) : Nat :=
  match bb.backing with
  | .data _ | .fill _ => 0
  | .file f o =>
    if env.openErrno f ≠ 0 then env.openErrno f else mapErrno env (.file f) bb.len o
  | .fd f o => mapErrno env (.fd f) bb.len o

/-- The output file of `move_chunks_up_to_len` and `sparse_file_len`. -/
structure IsCounter (blockSize : Nat) (out : OutputFile Int) : Prop where
  ops : out.ops = callbackFileOps outCounterWrite
  sparseOps : out.sparseOps = .sparse
  blockSize : out.blockSize = blockSize

section

variable (h : IsCounter blockSize out)
include h

theorem IsCounter.write (data : Buf) (len : Int) :
    out.write data len = (0, { out with sink := out.sink + len }) := by
  simp [OutputFile.write, h.ops, callbackFileOps, outCounterWrite]

theorem IsCounter.setSink (n : Int) : IsCounter blockSize { out with sink := n } :=
  ⟨h.ops, h.sparseOps, h.blockSize⟩

/-- The counter `out'` is `out` after `n` more bytes. -/
structure Counted (blockSize : Nat) (n : Int) (out out' : OutputFile Int) : Prop where
  counter : IsCounter blockSize out'
  useCrc : out'.useCrc = out.useCrc
  sink : out'.sink = out.sink + n

theorem Counted.refl : Counted blockSize 0 out out :=
  ⟨h, rfl, (add_zero _).symm⟩

omit h in
theorem Counted.trans {out1 out2 : OutputFile Int} {m n : Int} (h : Counted blockSize m out out1)
    (h' : Counted blockSize n out1 out2) : Counted blockSize (m + n) out out2 :=
  ⟨h'.counter, h'.useCrc.trans h.useCrc, by rw [h'.sink, h.sink, Int.add_assoc]⟩

theorem writeSparseFillChunk_counter (len : Nat) (v : UInt32) :
    ∃ out', writeSparseFillChunk out len v = (0, out') ∧
      Counted blockSize (chunkHeaderLen + 4) out out' := by
  unfold writeSparseFillChunk
  rw [h.write, orFail_zero, (h.setSink (out.sink + chunkHeaderLen)).write]
  exact ⟨_, rfl, ⟨h.ops, h.sparseOps, h.blockSize⟩, rfl, add_assoc _ _ _⟩

theorem writeSparseDataChunk_counter (len : Nat) (data : Buf) :
    ∃ out', writeSparseDataChunk out len data = (0, out') ∧
      Counted blockSize (chunkHeaderLen + i32 len + zeroLen blockSize len) out out' := by
  obtain rfl := h.blockSize
  have h2 := h.setSink (out.sink + chunkHeaderLen + i32 len)
  unfold writeSparseDataChunk
  rw [h.write, orFail_zero, (h.setSink (out.sink + chunkHeaderLen)).write, orFail_zero]
  by_cases hz : zeroLen out.blockSize len = 0
  · rw [if_neg (not_not_intro hz)]
    refine ⟨_, rfl, ⟨h.ops, h.sparseOps, rfl⟩, rfl, ?_⟩
    rw [hz, add_zero, ← add_assoc]
    rfl
  · rw [if_pos hz, h2.write]
    refine ⟨_, rfl, ⟨h.ops, h.sparseOps, rfl⟩, rfl, ?_⟩
    rw [← add_assoc, ← add_assoc]
    rfl

end

/-- Writing a region to a counter fails exactly with the backing file, and otherwise counts
`chunkLen`. -/
theorem sparseFileWriteBlock_counter (env : Env) (h : IsCounter blockSize out) (bb : BackedBlock) :
    ∃ out', sparseFileWriteBlock env out bb = (-(ioErrno env bb : Int), out') ∧
      (ioErrno env bb = 0 → Counted blockSize (chunkLen blockSize bb) out out') := by
  have hfd (hd : Handle) (o : Int) :
      ∃ out', writeFdChunk env out bb.len hd o = (-(mapErrno env hd bb.len o : Int), out') ∧
        (mapErrno env hd bb.len o = 0 →
          Counted blockSize (chunkHeaderLen + i32 bb.len + zeroLen blockSize bb.len) out out') := by
    unfold writeFdChunk writeDataChunk
    by_cases he : mapErrno env hd bb.len o = 0
    · obtain ⟨out', hw, hc⟩ :=
        writeSparseDataChunk_counter h bb.len (fun i => env.byte hd (o + i))
      exact ⟨out', by simp [he, h.sparseOps, hw], fun _ => hc⟩
    · exact ⟨out, by simp [he], fun h0 => absurd h0 he⟩
  unfold ioErrno chunkLen
  cases hb : bb.backing with
  | data p =>
    obtain ⟨out', hw, hc⟩ := writeSparseDataChunk_counter h bb.len (fun i => env.mem (p + i))
    exact ⟨out', by simp [sparseFileWriteBlock, hb, writeDataChunk, h.sparseOps, hw], fun _ => hc⟩
  | fill v =>
    obtain ⟨out', hw, hc⟩ := writeSparseFillChunk_counter h bb.len v
    exact ⟨out', by simp [sparseFileWriteBlock, hb, writeFillChunk, h.sparseOps, hw], fun _ => hc⟩
  | fd f o =>
    obtain ⟨out', hw, hc⟩ := hfd (.fd f) o
    exact ⟨out', by simp [sparseFileWriteBlock, hb, hw], hc⟩
  | file f o =>
    by_cases ho : env.openErrno f = 0
    · obtain ⟨out', hw, hc⟩ := hfd (.file f) o
      exact ⟨out', by simp [sparseFileWriteBlock, hb, writeFileChunk, ho, hw], by simpa [ho] using hc⟩
    · exact ⟨out, by simp [sparseFileWriteBlock, hb, writeFileChunk, ho],
        fun h0 => absurd h0 (by simp [ho])⟩

/-! ## One piece -/

/-- The size of the skip chunk in front of a region, when the last one ended at `lastBlock`. -/
def gapLen (lastBlock : Nat) (bb : BackedBlock) : Int :=
  if bb.block > lastBlock then chunkHeaderLen else 0

/-- `last_block` after a region, as the loops compute it. -/
def nextBlock (blockSize : Nat) (bb : BackedBlock) : Nat :=
  u32 (bb.block + divRoundUpU32 bb.len blockSize)

/-- What one call of `move_chunks_up_to_len` does to the list of regions: the piece it moves, the
regions it leaves, and whether it returns a block. -/
structure Pack where
  piece : List BackedBlock
  rest : List BackedBlock
  more : Bool
  deriving DecidableEq, Repr

/-- The loop of `move_chunks_up_to_len`, for a limit `len` without the overhead. -/
def packLoop (env : Env) (blockSize len : Nat) (done : List BackedBlock) (lastBlock : Nat)
    (fileLen : Int) : List BackedBlock → Pack
  | [] => { piece := done, rest := [], more := false }
  | bb :: rest =>
    let count := gapLen lastBlock bb + chunkLen blockSize bb
    if ioErrno env bb ≠ 0 then { piece := [], rest := done ++ bb :: rest, more := false }
    else if fileLen + count > len then
      let room := (len : Int) - (fileLen + chunkHeaderLen)
      if done = [] ∨ room > (len / 8 : Nat) then
        match backedBlockSplit blockSize bb (u32OfInt room) with
        | (x, r) => { piece := done ++ [x], rest := r.toList ++ rest, more := true }
      else { piece := done, rest := bb :: rest, more := true }
    else packLoop env blockSize len (done ++ [bb]) (nextBlock blockSize bb) (fileLen + count) rest

/-- `move_chunks_up_to_len` on the list of regions. The counter cannot be opened when the block
size is negative as an `int`. -/
def pack (env : Env) (blockSize maxLen : Nat) (l : List BackedBlock) : Pack :=
  if i32 blockSize < 0 then { piece := [], rest := l, more := false }
  else packLoop env blockSize (resparseLimit maxLen) [] 0 0 l

/-- The counting loop with its lists and positions computes `packLoop`. -/
theorem moveLoop_eq (env : Env) (len : Nat) (h : IsCounter blockSize out)
    (done : List BackedBlock) (lastBlock : Nat) (fileLen : Int) (l : List BackedBlock) :
    match moveLoop env blockSize blockSize len done lastBlock fileLen out l with
    | none => packLoop env blockSize len done lastBlock fileLen l = ⟨[], done ++ l, false⟩
    | some r =>
      ∃ n, r.blocks.take n = (packLoop env blockSize len done lastBlock fileLen l).piece ∧
        r.blocks.drop n = (packLoop env blockSize len done lastBlock fileLen l).rest ∧
        r.bb.isSome = (packLoop env blockSize len done lastBlock fileLen l).more ∧
        ((n = 0 ∧ r.blocks = [] ∧ r.lastBb = none ∧ done = [] ∧ l = []) ∨
          (0 < n ∧ n ≤ r.blocks.length ∧ r.lastBb = some (n - 1))) := by
  induction l generalizing out done lastBlock fileLen with
  | nil =>
    refine ⟨done.length, by simp [packLoop], by simp [packLoop], rfl, ?_⟩
    by_cases hd : done = []
    · exact Or.inl ⟨by simp [hd], hd, by simp [hd], hd, rfl⟩
    · exact Or.inr ⟨length_pos_iff.2 hd, le_rfl, by simp [hd]⟩
  | cons bb rest ih =>
    obtain ⟨out', hw, hc⟩ :=
      sparseFileWriteBlock_counter env (h.setSink (gapLen lastBlock bb)) bb
    unfold gapLen at hw
    simp only [moveLoop, packLoop]
    rw [hw]
    by_cases he : ioErrno env bb = 0
    · have hsink : out'.sink = gapLen lastBlock bb + chunkLen blockSize bb := (hc he).sink
      simp only [he, hsink]
      by_cases hfit : fileLen + (gapLen lastBlock bb + chunkLen blockSize bb) > len
      · simp only [hfit]
        by_cases hsplit : done = [] ∨
            (len : Int) - (fileLen + chunkHeaderLen) > (len / 8 : Nat)
        · simp only [hsplit]
          refine ⟨done.length + 1, ?_, ?_, rfl, Or.inr ⟨by omega, by simp, by simp⟩⟩
          · simp [take_append, take_of_length_le]
          · simp [drop_append]
        · simp only [hsplit]
          obtain ⟨hd, -⟩ := not_or.1 hsplit
          refine ⟨done.length, by simp, by simp, rfl,
            Or.inr ⟨length_pos_iff.2 hd, by simp, rfl⟩⟩
      · simp only [hfit]
        have := ih (hc he).counter (done ++ [bb]) (nextBlock blockSize bb)
          (fileLen + (gapLen lastBlock bb + chunkLen blockSize bb))
        simpa [nextBlock] using this
    · have hne : -(ioErrno env bb : Int) ≠ 0 := by omega
      simp [he, hne]

theorem outputFileInit_counter (hbs : blockSize ≠ 0) (hopen : ¬ i32 blockSize < 0) (len : Int)
    (chunks : Nat) (crc : Bool) :
    ∃ out, outputFileInit (callbackFileOps outCounterWrite) 0 blockSize len true chunks crc =
        .ok (.ok out) ∧
      IsCounter blockSize out ∧ out.useCrc = crc ∧ out.sink = sparseHeaderLen := by
  have h : IsCounter blockSize
      (outputFileNew (callbackFileOps outCounterWrite) 0 blockSize len true crc) := ⟨rfl, rfl, rfl⟩
  refine ⟨_, ?_, h.setSink sparseHeaderLen, rfl, rfl⟩
  unfold outputFileInit
  rw [if_neg hopen, if_pos rfl, if_neg hbs]
  rfl

theorem backedBlockListMove_take {src dst : BackedBlockList} {n : Nat} (hdst : dst.dataBlocks = [])
    (hn : 0 < n) (hlen : n ≤ src.dataBlocks.length) :
    backedBlockListMove src dst (some 0) (some (n - 1)) =
      ({ src with dataBlocks := src.dataBlocks.drop n, lastUsed := .null },
        { dst with dataBlocks := src.dataBlocks.take n, lastUsed := .null }) := by
  have hn1 : n - 1 + 1 = n := by omega
  unfold backedBlockListMove
  simp only [getD_some, drop_zero, hn1, take_zero, nil_append]
  cases hnodes : src.dataBlocks.take n with
  | nil =>
    have : (src.dataBlocks.take n).length = 0 := by rw [hnodes]; rfl
    rw [length_take] at this
    omega
  | cons node rest => simp only [hdst, spliceIn]

/-- One call of `move_chunks_up_to_len` into a fresh file moves what `pack` says. -/
theorem moveChunksUpToLen_eq (env : Env) {src dst : SparseFile}
    (hsize : dst.blockSize = src.blockSize) (hdst : dst.blocks = [])
    (hbs : src.blockSize ≠ 0) {maxLen : Nat} {p : Pack}
    (hp : pack env src.blockSize maxLen src.blocks = p) :
    ∃ bb src' dst', moveChunksUpToLen env src dst maxLen = .ok (bb, src', dst') ∧
      bb.isSome = p.more ∧
      (src'.blocks = p.rest ∧ src'.blockSize = src.blockSize ∧ src'.len = src.len) ∧
      (dst'.blocks = p.piece ∧ dst'.blockSize = src.blockSize ∧ dst'.len = dst.len) := by
  rw [moveChunksUpToLen, hsize]
  by_cases hopen : i32 src.blockSize < 0
  · have hinit : outputFileInit (callbackFileOps outCounterWrite) 0 src.blockSize dst.len true 0
        false = .ok (.error 0) := if_pos hopen
    rw [pack, if_pos hopen] at hp
    rw [← hp, hinit]
    exact ⟨none, src, dst, rfl, rfl, ⟨rfl, rfl, rfl⟩, hdst, hsize, rfl⟩
  · rw [pack, if_neg hopen] at hp
    obtain ⟨out, hout, hcounter, -⟩ := outputFileInit_counter hbs hopen dst.len 0 false
    have hloop := moveLoop_eq env (resparseLimit maxLen) hcounter [] 0 0 src.blocks
    rw [hp] at hloop
    rw [hout]
    simp only
    cases hr : moveLoop env src.blockSize src.blockSize (resparseLimit maxLen) [] 0 0 out
        src.blocks with
    | none =>
      simp only [hr] at hloop
      rw [hloop]
      exact ⟨none, src, dst, rfl, rfl, ⟨rfl, rfl, rfl⟩, hdst, hsize, rfl⟩
    | some r =>
      simp only [hr] at hloop
      obtain ⟨n, htake, hdrop, hmore, hpos⟩ := hloop
      simp only
      rw [← htake, ← hdrop, ← hmore]
      rcases hpos with ⟨rfl, hnil, hlast, -, hl⟩ | ⟨hn, hle, hlast⟩
      · -- An empty list: there is nothing to move.
        rw [hnil, if_pos hl]
        exact ⟨_, _, _, rfl, rfl, ⟨rfl, rfl, rfl⟩, hdst, hsize, rfl⟩
      · have hne : src.blocks ≠ [] := by
          intro hl
          rw [hl] at hr
          simp only [moveLoop, some.injEq] at hr
          subst hr
          simp at hlast
        rw [if_neg hne, hlast, backedBlockListMove_take hdst hn hle]
        exact ⟨_, _, _, rfl, rfl, ⟨rfl, rfl, rfl⟩, rfl, hsize, rfl⟩

/-! ## What one piece holds -/

/-- The bytes of the chunks of a list of regions, with the skip chunks in front of them. -/
def cost (blockSize : Nat) : Nat → List BackedBlock → Int
  | _, [] => 0
  | lastBlock, bb :: rest =>
    gapLen lastBlock bb + chunkLen blockSize bb + cost blockSize (nextBlock blockSize bb) rest

/-- `last_block` after a list of regions. -/
def endBlock (blockSize : Nat) : Nat → List BackedBlock → Nat
  | lastBlock, [] => lastBlock
  | _, bb :: rest => endBlock blockSize (nextBlock blockSize bb) rest

theorem cost_append (blockSize lastBlock : Nat) (l m : List BackedBlock) :
    cost blockSize lastBlock (l ++ m) =
      cost blockSize lastBlock l + cost blockSize (endBlock blockSize lastBlock l) m := by
  induction l generalizing lastBlock with
  | nil => simp [cost, endBlock]
  | cons bb l ih =>
    simp only [cons_append, cost, endBlock, ih]
    ring

/-- The first region that does not fit under the limit `len`: `pre` fits, and so does every part
of it, but `bb` after it does not. All of them can be read. -/
structure Overflow (env : Env) (blockSize len : Nat) (l pre : List BackedBlock) (bb : BackedBlock)
    (post : List BackedBlock) : Prop where
  eq : l = pre ++ bb :: post
  io : ∀ x ∈ pre ++ [bb], ioErrno env x = 0
  fits : ∀ q, q <+: pre → cost blockSize 0 q ≤ len
  exceeds : cost blockSize 0 (pre ++ [bb]) > len

section

variable (blockSize len : Nat) (pre : List BackedBlock)

/-- The room for the contents of the region after `pre`. -/
def roomAfter : Int :=
  (len : Int) - (cost blockSize 0 pre + chunkHeaderLen)

/-- Whether the region after `pre` is split: it is the first one, or more than an eighth of the
limit is left. -/
def Splits : Prop :=
  pre = [] ∨ roomAfter blockSize len pre > (len / 8 : Nat)

instance : Decidable (Splits blockSize len pre) :=
  inferInstanceAs (Decidable (_ ∨ _))

/-- The piece that ends at a region that does not fit. -/
def packAt (bb : BackedBlock) (post : List BackedBlock) : Pack :=
  if Splits blockSize len pre then
    match backedBlockSplit blockSize bb (u32OfInt (roomAfter blockSize len pre)) with
    | (x, r) => { piece := pre ++ [x], rest := r.toList ++ post, more := true }
  else { piece := pre, rest := bb :: post, more := true }

end

theorem packLoop_append (env : Env) (done : List BackedBlock) (lastBlock : Nat) (fileLen : Int)
    (m : List BackedBlock) (hio : ∀ x ∈ pre, ioErrno env x = 0)
    (hfits : ∀ q, q <+: pre → fileLen + cost blockSize lastBlock q ≤ len) :
    packLoop env blockSize len done lastBlock fileLen (pre ++ m) =
      packLoop env blockSize len (done ++ pre) (endBlock blockSize lastBlock pre)
        (fileLen + cost blockSize lastBlock pre) m := by
  induction pre generalizing done lastBlock fileLen with
  | nil => simp [cost, endBlock]
  | cons bb pre ih =>
    have hbb : ioErrno env bb = 0 := hio bb mem_cons_self
    have hfit := hfits [bb] (by simp)
    simp only [cost] at hfit
    rw [cons_append, packLoop]
    simp only [hbb, ne_eq, not_true_eq_false, if_false]
    rw [if_neg (by omega), ih]
    · simp only [endBlock, cost, append_assoc, singleton_append, add_assoc]
    · exact fun x hx => hio x (mem_cons_of_mem _ hx)
    · intro q hq
      have := hfits (bb :: q) (by simpa using hq)
      rw [cost] at this
      omega

/-- What the counter's limit makes of a list that can be opened. -/
theorem packLoop_cases (env : Env) (blockSize len : Nat) (l : List BackedBlock) :
    (∃ pre bb post, Overflow env blockSize len l pre bb post) ∨
    (packLoop env blockSize len [] 0 0 l = ⟨l, [], false⟩ ∧
      (∀ x ∈ l, ioErrno env x = 0) ∧ ∀ q, q <+: l → cost blockSize 0 q ≤ len) ∨
    (packLoop env blockSize len [] 0 0 l = ⟨[], l, false⟩ ∧ ∃ x ∈ l, ioErrno env x ≠ 0) := by
  -- The longest front that can be read and fits decides.
  suffices h : ∀ pre m, l = pre ++ m → (∀ x ∈ pre, ioErrno env x = 0) →
      (∀ q, q <+: pre → cost blockSize 0 q ≤ len) → _ from
    h [] l rfl (by simp) (by simp [cost])
  intro pre m
  induction m generalizing pre with
  | nil =>
    rintro rfl hio hfits
    refine Or.inr (Or.inl ⟨?_, by simpa using hio, by simpa using hfits⟩)
    rw [packLoop_append env [] 0 0 [] hio (by simpa using hfits)]
    simp [packLoop]
  | cons bb m ih =>
    rintro rfl hio hfits
    by_cases hbb : ioErrno env bb = 0
    · by_cases hover : cost blockSize 0 (pre ++ [bb]) > len
      · refine Or.inl ⟨pre, bb, m, rfl, ?_, hfits, hover⟩
        simpa [or_imp, forall_and, hbb] using hio
      · apply ih (pre ++ [bb]) (by simp)
        · simpa [or_imp, forall_and, hbb] using hio
        · intro q hq
          rcases prefix_concat_iff.1 hq with rfl | hq
          · simpa using hover
          · exact hfits q hq
    · refine Or.inr (Or.inr ⟨?_, bb, by simp, hbb⟩)
      rw [packLoop_append env [] 0 0 _ hio (by simpa using hfits), packLoop]
      simp [hbb]

section

variable {bb : BackedBlock} (h : Overflow env blockSize len l pre bb post)
include h

theorem Overflow.packLoop_eq :
    packLoop env blockSize len [] 0 0 l = packAt blockSize len pre bb post := by
  have hbb : ioErrno env bb = 0 := h.io bb (by simp)
  have hover := h.exceeds
  rw [cost_append] at hover
  simp only [cost] at hover
  rw [h.eq, packLoop_append env [] 0 0 _ (fun x hx => h.io x (by simp [hx]))
    (by simpa using h.fits), packLoop]
  simp only [hbb, ne_eq, not_true_eq_false, if_false, zero_add]
  rw [if_pos (by omega)]
  rfl

theorem Overflow.io_pre : ∀ x ∈ pre, ioErrno env x = 0 :=
  (forall_mem_append.1 h.io).1

theorem Overflow.mem : bb ∈ l := by
  simp [h.eq]

end

theorem Overflow.unique {pre' : List BackedBlock} {bb bb' : BackedBlock} {post' : List BackedBlock}
    (h : Overflow env blockSize len l pre bb post)
    (h' : Overflow env blockSize len l pre' bb' post') : pre' = pre ∧ bb' = bb ∧ post' = post := by
  have hnot {p q : List BackedBlock} {b c : BackedBlock} {r t : List BackedBlock}
      (hp : Overflow env blockSize len l p b r) (hq : Overflow env blockSize len l q c t) :
      ¬ p.length < q.length := by
    intro hlt
    have hpre : p ++ [b] <+: q := by
      have hp' : p ++ [b] <+: l := ⟨r, by simp [hp.eq]⟩
      refine prefix_of_prefix_length_le hp' ⟨c :: t, hq.eq.symm⟩ ?_
      simpa using Nat.succ_le_of_lt hlt
    have := hq.fits _ hpre
    have := hp.exceeds
    omega
  have hlen : pre'.length = pre.length := by
    have := hnot h h'
    have := hnot h' h
    omega
  obtain ⟨hpre, hrest⟩ := append_inj (h'.eq.symm.trans h.eq) hlen
  exact ⟨hpre, (cons.inj hrest).1, (cons.inj hrest).2⟩

/-- The bytes of the region after `pre` that a split takes, in whole blocks. -/
def cutLen (blockSize len : Nat) (pre : List BackedBlock) : Nat :=
  alignDown (u32OfInt (roomAfter blockSize len pre)) blockSize

/-- What becomes of a region that does not fit: it stays, or it is taken, or its first `k` blocks
are. -/
inductive PackedAt (blockSize len : Nat) (pre : List BackedBlock) (bb : BackedBlock)
    (post : List BackedBlock) : Pack → Prop where
  | kept (hs : ¬ Splits blockSize len pre) :
      PackedAt blockSize len pre bb post ⟨pre, bb :: post, true⟩
  | taken (hs : Splits blockSize len pre) (hle : bb.len ≤ cutLen blockSize len pre) :
      PackedAt blockSize len pre bb post ⟨pre ++ [bb], post, true⟩
  | cut {k : Nat} (hs : Splits blockSize len pre) (hk : k * blockSize = cutLen blockSize len pre)
      (hlt : k * blockSize < bb.len) :
      PackedAt blockSize len pre bb post ⟨pre ++ [bb.firstBlocks blockSize k],
        { bb.dropBlocks blockSize k with block := u32 (bb.block + k) } :: post, true⟩

theorem PackedAt.more {bb : BackedBlock} {p : Pack} (h : PackedAt blockSize len pre bb post p) :
    p.more = true := by
  cases h <;> rfl

/-- What a move makes of a list: it stops at a region that does not fit, takes everything, or
moves nothing because the counter or a backing file cannot be opened. -/
inductive Packed (env : Env) (blockSize maxLen : Nat) (l : List BackedBlock) : Pack → Prop where
  | stops {pre post : List BackedBlock} {bb : BackedBlock} {p : Pack} (hopen : ¬ i32 blockSize < 0)
      (hov : Overflow env blockSize (resparseLimit maxLen) l pre bb post)
      (hp : PackedAt blockSize (resparseLimit maxLen) pre bb post p) : Packed env blockSize maxLen l p
  | all (hopen : ¬ i32 blockSize < 0) (hio : ∀ x ∈ l, ioErrno env x = 0)
      (hcost : cost blockSize 0 l ≤ resparseLimit maxLen) : Packed env blockSize maxLen l ⟨l, [], false⟩
  | fails (h : i32 blockSize < 0 ∨ ∃ x ∈ l, ioErrno env x ≠ 0) :
      Packed env blockSize maxLen l ⟨[], l, false⟩

theorem Overflow.packedAt {bb : BackedBlock} (h : Overflow env blockSize len l pre bb post)
    {p : Pack} (hp : packLoop env blockSize len [] 0 0 l = p) :
    PackedAt blockSize len pre bb post p := by
  rw [← hp, h.packLoop_eq, packAt]
  by_cases hs : Splits blockSize len pre
  · obtain ⟨k, hk, hdiv⟩ : ∃ k, k * blockSize = cutLen blockSize len pre ∧
        k * blockSize / blockSize = k := by
      refine ⟨_, mul_comm _ _, ?_⟩
      rcases eq_zero_or_pos blockSize with rfl | hbs
      · simp
      · exact Nat.mul_div_cancel _ hbs
    rw [if_pos hs, backedBlockSplit, ← cutLen, ← hk]
    by_cases hle : bb.len ≤ k * blockSize
    · simpa [hle] using PackedAt.taken hs (hk ▸ hle)
    · simp only [hle, hdiv]
      exact .cut hs hk (not_le.1 hle)
  · rw [if_neg hs]
    exact .kept hs

section

variable {p : Pack} (hp : pack env blockSize maxLen l = p)
include hp

theorem packed : Packed env blockSize maxLen l p := by
  by_cases hopen : i32 blockSize < 0
  · rw [← hp, pack, if_pos hopen]
    exact .fails (Or.inl hopen)
  · rcases packLoop_cases env blockSize (resparseLimit maxLen) l with
      ⟨pre, bb, post, h⟩ | ⟨h, hio, hfits⟩ | ⟨h, hio⟩
    · exact .stops hopen h (h.packedAt ((if_neg hopen).symm.trans hp))
    · rw [← hp, pack, if_neg hopen, h]
      exact .all hopen hio (hfits l prefix_rfl)
    · rw [← hp, pack, if_neg hopen, h]
      exact .fails (Or.inr hio)

end

/-! ## All pieces -/

/-- `sparse_file_resparse` on the list of regions: the pieces in turn, and what is left when a
call returns no block. `none` means that the fuel was not enough. -/
def pieces (env : Env) (blockSize maxLen : Nat) :
    Nat → List BackedBlock → Option (List (List BackedBlock) × List BackedBlock)
  | 0, _ => none
  | fuel + 1, l =>
    let p := pack env blockSize maxLen l
    if p.more then
      (pieces env blockSize maxLen fuel p.rest).map fun r => (p.piece :: r.1, r.2)
    else some ([p.piece], p.rest)

/-- `backed_block_list_move` of a whole list, on the lists of regions. -/
def moveInto (dst nodes : List BackedBlock) : List BackedBlock :=
  match nodes with
  | [] => dst
  | node :: _ => spliceIn nodes node.block dst

theorem backedBlockListMove_all (src dst : BackedBlockList) :
    (backedBlockListMove src dst none none).2.dataBlocks = moveInto dst.dataBlocks src.dataBlocks ∧
      (backedBlockListMove src dst none none).2.blockSize = dst.blockSize := by
  have hnodes : (src.dataBlocks.drop 0).take (src.dataBlocks.length - 1 + 1 - 0) =
      src.dataBlocks := by
    rw [drop_zero, take_of_length_le (by omega)]
  unfold backedBlockListMove moveInto
  simp only [getD_none, hnodes]
  cases src.dataBlocks with
  | nil => exact ⟨rfl, rfl⟩
  | cons node rest => exact ⟨rfl, rfl⟩

/-- The files `sparse_file_resparse` makes agree with its input in everything but the regions. -/
def SparseFile.SameShape (s t : SparseFile) : Prop := s.blockSize = t.blockSize ∧ s.len = t.len

/-- One iteration of `sparse_file_resparse`: the piece goes to `out_s` or is collected in `tmp`. -/
theorem resparseLoop_succ (env : Env) (maxLen : Nat) (outSCount : Int) (fuel c : Nat)
    (inS tmp : SparseFile) (outS : List SparseFile) (hbs : inS.blockSize ≠ 0)
    {p : Pack} (hp : pack env inS.blockSize maxLen inS.blocks = p) :
    ∃ inS' tmp' out,
      resparseLoop env maxLen outSCount (fuel + 1) c inS tmp outS =
        (if p.more then resparseLoop env maxLen outSCount fuel (c + 1) inS' tmp' (outS ++ out)
        else some (.ok (c + 1, inS', tmp', outS ++ out))) ∧
      (inS'.blocks = p.rest ∧ inS'.SameShape inS) ∧
      (∀ ps, (ps.drop (outSCount - (c + 1 : Nat)).toNat).foldl moveInto tmp'.blocks =
        ((p.piece :: ps).drop (outSCount - c).toNat).foldl moveInto tmp.blocks) ∧
      (∀ ps, out.map SparseFile.blocks ++ ps.take (outSCount - (c + 1 : Nat)).toNat =
        (p.piece :: ps).take (outSCount - c).toNat) ∧
      ∀ s ∈ out, s.SameShape inS := by
  have hsize : (sparseFileNew inS.blockSize inS.len).blockSize = inS.blockSize := rfl
  obtain ⟨bb, inS', s, hmove, hmore, ⟨hrest, hinS⟩, hpiece, hs⟩ :=
    moveChunksUpToLen_eq env hsize rfl hbs hp
  rw [resparseLoop, hmove, ← hmore, ← hrest, ← hpiece]
  by_cases hc : (c : Int) < outSCount
  · have hcount : (outSCount - c).toNat = (outSCount - (c + 1 : Nat)).toNat + 1 := by omega
    simp only [hc, hcount]
    refine ⟨inS', tmp, [s], rfl, ⟨rfl, hinS⟩, fun ps => rfl, fun ps => rfl, fun x hx => ?_⟩
    rw [mem_singleton.1 hx]
    exact hs
  · have h1 : (outSCount - c).toNat = 0 := by omega
    have h2 : (outSCount - (c + 1 : Nat)).toNat = 0 := by omega
    have hmoved := (backedBlockListMove_all s.backedBlockList tmp.backedBlockList).1
    simp only [hc, if_false, h1, h2]
    refine ⟨inS', _, [], by rw [append_nil], ⟨rfl, hinS⟩, fun ps => ?_, fun ps => rfl, by simp⟩
    exact congrArg (fun l => ps.foldl moveInto l) hmoved

theorem pieces_cons {fuel : Nat}
    (hp : pieces env blockSize maxLen (fuel + 1) l = some (ps, rest)) :
    ∃ p, pack env blockSize maxLen l = p ∧
      ((p.more = true ∧ ∃ qs, ps = p.piece :: qs ∧
        pieces env blockSize maxLen fuel p.rest = some (qs, rest)) ∨
      (p.more = false ∧ ps = [p.piece] ∧ rest = p.rest)) := by
  refine ⟨_, rfl, ?_⟩
  rw [pieces] at hp
  by_cases hmore : (pack env blockSize maxLen l).more
  · simp only [hmore, if_true, map_eq_some_iff] at hp
    obtain ⟨⟨qs, rest'⟩, hq, rfl, rfl⟩ := hp
    exact Or.inl ⟨hmore, qs, rfl, hq⟩
  · simp only [hmore, if_false, Bool.false_eq_true, some.injEq, Prod.mk.injEq] at hp
    exact Or.inr ⟨by simpa using hmore, hp.1.symm, hp.2.symm⟩

section

variable (env : Env) (maxLen : Nat) (outSCount : Int) (fuel c : Nat) (inS tmp : SparseFile)
  (outS : List SparseFile) (hbs : inS.blockSize ≠ 0)
include hbs

theorem resparseLoop_none (hp : pieces env inS.blockSize maxLen fuel inS.blocks = none) :
    resparseLoop env maxLen outSCount fuel c inS tmp outS = none := by
  induction fuel generalizing c inS tmp outS with
  | zero => rfl
  | succ fuel ih =>
    obtain ⟨inS', tmp', out, hloop, ⟨hrest, hshape⟩, -⟩ :=
      resparseLoop_succ env maxLen outSCount fuel c inS tmp outS hbs rfl
    rw [hloop]
    rw [pieces] at hp
    by_cases hmore : (pack env inS.blockSize maxLen inS.blocks).more
    · simp only [hmore, if_true, map_eq_none_iff] at hp ⊢
      exact ih (c + 1) inS' tmp' _ (hshape.1 ▸ hbs)
        (by rw [hshape.1, hrest, hp])
    · simp [hmore] at hp

/-- The loop of `sparse_file_resparse` makes the files of `pieces`: those up to `out_s_count` go to
`out_s`, the others are collected in `tmp`. -/
theorem resparseLoop_some (hp : pieces env inS.blockSize maxLen fuel inS.blocks = some (ps, rest)) :
    ∃ inS' tmp' outS',
      resparseLoop env maxLen outSCount fuel c inS tmp outS =
        some (.ok (c + ps.length, inS', tmp', outS ++ outS')) ∧
      (inS'.blocks = rest ∧ inS'.SameShape inS) ∧
      tmp'.blocks = (ps.drop (outSCount - c).toNat).foldl moveInto tmp.blocks ∧
      (outS'.map SparseFile.blocks = ps.take (outSCount - c).toNat ∧
        ∀ s ∈ outS', s.SameShape inS) := by
  induction fuel generalizing c inS tmp outS ps with
  | zero => simp [pieces] at hp
  | succ fuel ih =>
    obtain ⟨p, hpk, hcases⟩ := pieces_cons hp
    obtain ⟨inS', tmp', out, hloop, ⟨hrest, hshape⟩, htmp, hout, houtShape⟩ :=
      resparseLoop_succ env maxLen outSCount fuel c inS tmp outS hbs hpk
    rw [hloop]
    rcases hcases with ⟨hmore, ps', rfl, hp'⟩ | ⟨hmore, rfl, rfl⟩
    · rw [if_pos hmore]
      obtain ⟨inS'', tmp'', outS', h1, ⟨h2, hshape'⟩, h3, h4, h5⟩ :=
        ih (c + 1) inS' tmp' (outS ++ out) (hshape.1 ▸ hbs)
          (by rw [hshape.1, hrest, hp'])
      refine ⟨inS'', tmp'', out ++ outS', ?_,
        ⟨h2, hshape'.1.trans hshape.1, hshape'.2.trans hshape.2⟩, ?_, ?_, ?_⟩
      · rw [h1, append_assoc, length_cons, add_assoc, add_comm 1]
      · rw [h3, htmp]
      · rw [map_append, h4, hout]
      · intro x hx
        rcases mem_append.1 hx with hx | hx
        · exact houtShape x hx
        · exact ⟨(h5 x hx).1.trans hshape.1, (h5 x hx).2.trans hshape.2⟩
    · rw [hmore]
      refine ⟨inS', tmp', out, rfl, ⟨hrest, hshape⟩, ?_, ?_, houtShape⟩
      · simpa using htmp []
      · simpa using hout []

end

/-- The first of the pieces `ps` are in `out_s`, and the others are back with `rest`. -/
abbrev ResparseResult.Leaves (r : ResparseResult) (inS : SparseFile) (outSCount : Int)
    (ps : List (List BackedBlock)) (rest : List BackedBlock) : Prop :=
  r.count = ps.length ∧
    (r.inS.blocks = moveInto rest ((ps.drop outSCount.toNat).foldl moveInto []) ∧
      r.inS.SameShape inS) ∧
    r.outS.map SparseFile.blocks = ps.take outSCount.toNat ∧ ∀ s ∈ r.outS, s.SameShape inS

section

variable (env : Env) (fuel : Nat) (maxLen : Nat) (outSCount : Int)

theorem sparseFileResparse_none (hbs : inS.blockSize ≠ 0)
    (hp : pieces env inS.blockSize maxLen fuel inS.blocks = none) :
    sparseFileResparse env fuel inS maxLen outSCount = none := by
  rw [sparseFileResparse, resparseLoop_none env maxLen outSCount fuel 0 inS _ _ hbs hp]

/-- `sparse_file_resparse` leaves the first pieces in `out_s` and puts the others back. -/
theorem sparseFileResparse_some (hbs : inS.blockSize ≠ 0)
    (hp : pieces env inS.blockSize maxLen fuel inS.blocks = some (ps, rest)) :
    ∃ r, sparseFileResparse env fuel inS maxLen outSCount = some (.ok r) ∧
      r.Leaves inS outSCount ps rest := by
  obtain ⟨inS', tmp', outS', hloop, ⟨hrest, hshape⟩, htmp, hout, houtShape⟩ :=
    resparseLoop_some env maxLen outSCount fuel 0 inS (sparseFileNew inS.blockSize inS.len) [] hbs hp
  obtain ⟨hmove, hsize⟩ := backedBlockListMove_all tmp'.backedBlockList inS'.backedBlockList
  rw [sparseFileResparse, hloop]
  refine ⟨_, rfl, zero_add _, ⟨hmove.trans ?_, hsize.trans hshape.1, hshape.2⟩, ?_, ?_⟩
  · show moveInto inS'.blocks tmp'.blocks = _
    rw [hrest, htmp, Int.natCast_zero, sub_zero]
    rfl
  · simpa using hout
  · simpa using houtShape

/-- With a zero block size the first iteration divides by zero. -/
theorem sparseFileResparse_zero (hbs : inS.blockSize = 0) :
    sparseFileResparse env (fuel + 1) inS maxLen outSCount = some (.error .divByZero) := by
  rw [sparseFileResparse, resparseLoop, hbs]
  rfl

end

theorem sparseFileResparse_inv {fuel : Nat} {outSCount : Int} {r : ResparseResult}
    (h : sparseFileResparse env fuel inS maxLen outSCount = some (.ok r)) :
    inS.blockSize ≠ 0 ∧
    ∃ ps rest, pieces env inS.blockSize maxLen fuel inS.blocks = some (ps, rest) ∧
      r.Leaves inS outSCount ps rest := by
  have hbs : inS.blockSize ≠ 0 := by
    intro hzero
    cases fuel with
    | zero => simp [sparseFileResparse, resparseLoop] at h
    | succ fuel =>
      rw [sparseFileResparse_zero env fuel maxLen outSCount hzero] at h
      cases h
  refine ⟨hbs, ?_⟩
  cases hp : pieces env inS.blockSize maxLen fuel inS.blocks with
  | none =>
    rw [sparseFileResparse_none env fuel maxLen outSCount hbs hp] at h
    cases h
  | some p =>
    obtain ⟨r', hr', hspec⟩ := sparseFileResparse_some env fuel maxLen outSCount hbs hp
    rw [hr'] at h
    obtain rfl : r' = r := by injection h with h; injection h
    exact ⟨p.1, p.2, rfl, hspec⟩

end AndroidSystem.Sparse
