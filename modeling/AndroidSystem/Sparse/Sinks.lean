import AndroidSystem.Sparse.ResparseSize

/-!
# One image for every sink

In sparse format the output functions only append, so every sink is given the bytes that a list
collects (`Same`): `sparse_file_callback` delivers what `sparse_file_write` puts into an empty file,
and `sparse_file_len` is its length. `write` takes no more than `0x7ffff000` bytes in one call, so a
longer region cannot be written to a file, and one of `2 ^ 31` bytes has a negative length for all three.
-/

namespace AndroidSystem.Sparse

/-- What `write` of Linux takes at most. -/
def maxRwCount : Nat := 0x7ffff000

/-- A function that takes bytes and keeps `keep` of all of them. -/
def Gathers {τ : Type} (keep : List UInt8 → τ) (write : τ → Buf → Int → Int × τ) : Prop :=
  ∀ l data (len : Int), 0 ≤ len → len ≤ maxRwCount →
    write (keep l) data len = (0, keep (l ++ data.bytes len.toNat))

/-- Every write to the descriptor is complete, as far as the system allows it. -/
def Complete (accepts : FileState → Nat → Int) : Prop :=
  ∀ f n, n ≤ maxRwCount → accepts f n = n

structure Sink (τ : Type) extends OutputFileOps τ where
  keep : List UInt8 → τ
  gathers : Gathers keep write

def listSink : Sink (List UInt8) where
  skip l _ := (0, l)
  pad l _ := (0, l)
  write l data len := (0, l ++ data.bytes len.toNat)
  keep := id
  gathers _ _ _ _ _ := rfl

variable {τ : Type} {S : Sink τ} {bs len : Nat} {out : OutputFile (List UInt8)}

def OutputFile.into (S : Sink τ) (out : OutputFile (List UInt8)) : OutputFile τ :=
  { out with ops := S.toOutputFileOps, sink := S.keep out.sink }

@[simp] theorem into_sparseOps : (out.into S).sparseOps = out.sparseOps := rfl

@[simp] theorem into_blockSize : (out.into S).blockSize = out.blockSize := rfl

structure Ready (bs : Nat) (out : OutputFile (List UInt8)) : Prop where
  ops : out.ops = listSink.toOutputFileOps
  sparseOps : out.sparseOps = .sparse
  blockSize : out.blockSize = bs

/-- Two results with one return code, the second for another sink. -/
def Same (S : Sink τ) (bs : Nat) (r : Int × OutputFile (List UInt8)) (r' : Int × OutputFile τ) :
    Prop :=
  r' = (r.1, r.2.into S) ∧ Ready bs r.2

theorem Same.orFail {r : Int × OutputFile (List UInt8)} {r' : Int × OutputFile τ}
    {next : OutputFile (List UInt8) → Int × OutputFile (List UInt8)}
    {next' : OutputFile τ → Int × OutputFile τ} (h : Same S bs r r')
    (hnext : ∀ out, Ready bs out → Same S bs (next out) (next' (out.into S))) :
    Same S bs (orFail r next) (orFail r' next') := by
  obtain ⟨rfl, hr⟩ := h
  unfold Sparse.orFail
  split_ifs
  · exact ⟨rfl, hr⟩
  · exact hnext r.2 hr

section

variable (h : Ready bs out)
include h

theorem Ready.write (data : Buf) {len : Int} (hlen : 0 ≤ len ∧ len ≤ maxRwCount) :
    Same S bs (out.write data len) ((out.into S).write data len) := by
  constructor
  · simp only [OutputFile.write, OutputFile.into, h.ops, listSink, S.gathers _ _ _ hlen.1 hlen.2]
  · exact ⟨h.1, h.2, h.3⟩

theorem Ready.skip (skipLen : Int) :
    Same S bs (writeSkipChunk out skipLen) (writeSkipChunk (out.into S) skipLen) := by
  simp only [writeSkipChunk, into_sparseOps, h.sparseOps, writeSparseSkipChunk]
  show Same S bs _ (if skipLen % out.blockSize ≠ 0 then _ else _)
  split_ifs
  · exact ⟨rfl, h⟩
  · exact (h.write _ (by decide)).orFail fun _ h => ⟨rfl, h.1, h.2, h.3⟩

theorem Ready.fill (fillVal : UInt32) :
    Same S bs (writeFillChunk out len fillVal) (writeFillChunk (out.into S) len fillVal) := by
  simp only [writeFillChunk, into_sparseOps, h.sparseOps]
  exact (h.write _ (by decide)).orFail fun _ h => (h.write _ (by decide)).orFail fun _ h =>
    ⟨rfl, h.1, h.2, h.3⟩

variable (h0 : 0 < bs) (hmax : bs ≤ maxRwCount)
include h0 hmax

theorem Ready.data (hlen : len ≤ maxRwCount) (data : Buf) :
    Same S bs (writeDataChunk out len data) (writeDataChunk (out.into S) len data) := by
  have hcount : maxRwCount = 0x7ffff000 := rfl
  have hi : i32 len = len := i32_of_lt (by omega) (by omega)
  have hz : 0 ≤ zeroLen bs len ∧ zeroLen bs len ≤ maxRwCount := by
    have hge := divRoundUp_mul_ge h0 len
    have hlt := divRoundUp_mul_lt h0 len
    have hraw := rawLen_eq h0 (by omega) (show len < 2 ^ 31 by omega)
    omega
  simp only [writeDataChunk, into_sparseOps, h.sparseOps]
  refine (h.write _ (by decide)).orFail fun _ h => (h.write _ (by omega)).orFail fun out h =>
    Same.orFail ?_ fun _ h => ⟨rfl, h.1, h.2, h.3⟩
  simp only [into_blockSize, h.blockSize]
  split_ifs
  · exact h.write _ hz
  · exact ⟨rfl, h⟩

theorem Ready.block (env : Env) {bb : BackedBlock} (hlen : bb.len ≤ maxRwCount) :
    Same S bs (sparseFileWriteBlock env out bb) (sparseFileWriteBlock env (out.into S) bb) := by
  have hfd (hd : Handle) (o : Int) :
      Same S bs (writeFdChunk env out bb.len hd o) (writeFdChunk env (out.into S) bb.len hd o) := by
    unfold writeFdChunk
    split_ifs
    · exact ⟨rfl, h⟩
    · exact h.data h0 hmax hlen _
  unfold sparseFileWriteBlock
  cases bb.backing with
  | data p => exact h.data h0 hmax hlen _
  | fill v => exact h.fill v
  | fd f o => exact hfd _ _
  | file f o =>
    simp only [writeFileChunk]
    split_ifs
    · exact ⟨rfl, h⟩
    · exact hfd _ _

/-- The loop leaves the same behind, whatever the sink. -/
theorem Ready.loop (env : Env) {l : List BackedBlock} (hl : ∀ bb ∈ l, bb.len ≤ maxRwCount)
    (last : Nat) :
    ∃ ret last' out', Ready bs out' ∧ writeBlocksLoop env bs l last out = (ret, last', out') ∧
      writeBlocksLoop env bs l last (out.into S) = (ret, last', out'.into S) := by
  induction l generalizing last out with
  | nil => exact ⟨0, last, out, h, rfl, rfl⟩
  | cons bb l ih =>
    obtain ⟨hskip, hgap⟩ := h.skip (S := S) ((bb.block - last : Nat) * bs)
    obtain ⟨gap, h, hg, hg'⟩ : ∃ gap, Ready bs gap ∧
        (if bb.block > last then (writeSkipChunk out ((bb.block - last : Nat) * bs)).2
          else out) = gap ∧
        (if bb.block > last then (writeSkipChunk (out.into S) ((bb.block - last : Nat) * bs)).2
          else out.into S) = gap.into S := by
      split_ifs
      · exact ⟨_, hgap, rfl, by rw [hskip]⟩
      · exact ⟨out, h, rfl, rfl⟩
    obtain ⟨hblock, hready⟩ := h.block (S := S) h0 hmax env (hl bb List.mem_cons_self)
    simp only [writeBlocksLoop, hg, hg', hblock]
    split_ifs
    · exact ⟨_, last, _, hready, rfl, rfl⟩
    · exact ih hready (fun b hb => hl b (List.mem_cons_of_mem _ hb)) _

end

theorem Ready.close (h : Ready bs out) :
    (outputFileClose (out.into S)).sink = S.keep (outputFileClose out).sink := by
  obtain ⟨h1, hready⟩ := h.write (S := S) (.ofList crc32Header.encode)
    (show 0 ≤ (chunkHeaderLen : Int) ∧ (chunkHeaderLen : Int) ≤ maxRwCount by decide)
  have h2 (l : List UInt8) := (hready.write (S := S) (.ofList l)
    (show (0 : Int) ≤ 4 ∧ 4 ≤ (maxRwCount : Int) by decide)).1
  simp only [outputFileClose, into_sparseOps, h.sparseOps, writeSparseEndChunk, h1, orReturn]
  show (if out.useCrc then (_ : Int × OutputFile τ) else _).2.sink = _
  split_ifs
  · rfl
  · exact congrArg (·.2.sink) (h2 _)
  · rfl

theorem gathers_file {accepts : FileState → Nat → Int} (h : Complete accepts) :
    Gathers (fun l => ⟨l, l.length⟩) (fileOps accepts).write := by
  intro l data len hlen hmax
  have hret : accepts ⟨l, l.length⟩ len.toNat = len := by
    rw [h _ _ (by omega), Int.toNat_of_nonneg hlen]
  simp [fileOps, FileState.put, FileState.resize, hret, hlen.not_gt]

theorem gathers_counter :
    Gathers (fun l => (l.length : Int)) fun n data => outCounterWrite n data := by
  intro l data len hlen _
  simp [outCounterWrite, Buf.bytes, hlen]

theorem sparseFileLen_callback (env : Env) (s : SparseFile) (crc : Bool) :
    sparseFileLen env s true crc =
      (sparseFileCallback env s true crc outCounterWrite 0).map fun r =>
        if r.1 < 0 then -1 else r.2 := by
  unfold sparseFileLen sparseFileCallback sparseFileOutput
  repeat' split
  all_goals simp_all [Except.map, eNomem]

section

variable (env : Env) {s : SparseFile} (h0 : 0 < s.blockSize) (hmax : s.blockSize ≤ maxRwCount)
  (hsmall : ∀ bb ∈ s.blocks, bb.len ≤ maxRwCount) (crc : Bool)
include h0 hmax hsmall

theorem sparseFileOutput_into (S : Sink τ) :
    sparseFileOutput env s S.toOutputFileOps (S.keep []) true crc =
      (sparseFileOutput env s listSink.toOutputFileOps [] true crc).map (Prod.map id S.keep) := by
  obtain ⟨chunks, hchunks⟩ := sparseCountChunks_ok (s := s) h0.ne'
  have hopen : ¬i32 s.blockSize < 0 := by
    have hcount : maxRwCount = 0x7ffff000 := rfl
    rw [i32_of_lt (by omega) (by omega)]
    omega
  have hnew : Ready s.blockSize
      (outputFileNew listSink.toOutputFileOps [] s.blockSize s.len true crc) := ⟨rfl, rfl, rfl⟩
  obtain ⟨hinit, hready⟩ := hnew.write (S := S)
    (.ofList (fileHeader s.blockSize s.len chunks crc).encode)
    (show 0 ≤ (sparseHeaderLen : Int) ∧ (sparseHeaderLen : Int) ≤ maxRwCount by decide)
  obtain ⟨ret, last, out, hout, hl, hl'⟩ := hready.loop (S := S) h0 hmax env hsmall 0
  obtain ⟨hskip, hgap⟩ := hout.skip (S := S) (s.len - last * s.blockSize)
  change (outputFileNew S.toOutputFileOps (S.keep []) s.blockSize s.len true crc).write _ _ = _
    at hinit
  simp only [sparseFileOutput, hchunks, outputFileInit, hopen, h0.ne', hinit, if_false, if_true]
  split_ifs
  · rfl
  · simp only [writeAllBlocks, h0.ne', false_and, if_false, hl, hl', hskip]
    split_ifs
    · simp [Except.map, hout.close]
    · rfl
    · simp [Except.map, hgap.close]
    · simp [Except.map, hout.close]

/-- `sparse_file_callback` delivers the bytes of the file that `sparse_file_write` would write if no
write fails, and `sparse_file_len` tells how many these are. -/
theorem sparseFile_sinks {accepts : FileState → Nat → Int} (hwrite : Complete accepts) :
    (∀ {τ : Type} (keep : List UInt8 → τ) (write : τ → Option Buf → Int → Int × τ),
      Gathers keep (fun a data => write a (some data)) →
        sparseFileCallback env s true crc write (keep []) =
          (sparseFileWrite env s accepts ⟨[], 0⟩ true crc).map fun r => (r.1, keep r.2.bytes)) ∧
    sparseFileLen env s true crc = (sparseFileWrite env s accepts ⟨[], 0⟩ true crc).map fun r =>
      if r.1 < 0 then -1 else (r.2.bytes.length : Int) := by
  have hinto {τ : Type} (S : Sink τ) := sparseFileOutput_into env h0 hmax hsmall crc S
  have hfile : sparseFileWrite env s accepts ⟨[], 0⟩ true crc = _ :=
    hinto ⟨fileOps accepts, _, gathers_file hwrite⟩
  rw [hfile, sparseFileLen_callback]
  refine ⟨fun keep write h => (hinto ⟨callbackFileOps write, keep, h⟩).trans ?_,
    (congrArg _ (hinto ⟨callbackFileOps outCounterWrite, _, gathers_counter⟩)).trans ?_⟩
  all_goals cases sparseFileOutput env s listSink.toOutputFileOps [] true crc <;> rfl

end

theorem sparseFile_sinks_sample : sparseFileLen .zeros sampleFile true true = .ok 124 :=
  (sparseFile_sinks _ (by decide) (by decide) (by decide) true
    (show Complete fun _ n => n from fun _ _ _ => rfl)).2.trans (by decide +kernel)

end AndroidSystem.Sparse
