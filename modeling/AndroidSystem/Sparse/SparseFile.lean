import AndroidSystem.Sparse.OutputFile

/-!
# Sparse files

`sparse.c`: a sparse file cookie, adding regions to it, writing it out, and cutting it into
pieces that fit a size limit.

Every path of `sparse_count_chunks` divides by the block size, and so do every iteration over a
region and the header of a sparse file, so a zero block size is a fault there.
`sparse_file_resparse` need not return; it is run with fuel, and `none` means that the fuel was not
enough.
-/

namespace AndroidSystem.Sparse

/-- `struct sparse_file`. Its block size is that of its list: `sparse_file_new` sets both, and
nothing changes either. -/
structure SparseFile where
  len : Int
  verbose : Bool
  backedBlockList : BackedBlockList
  deriving DecidableEq, Repr

/-- The field `block_size`. -/
def SparseFile.blockSize (s : SparseFile) : Nat := s.backedBlockList.blockSize

def sparseFileNew (blockSize : Nat) (len : Int) : SparseFile where
  len := len
  verbose := false
  backedBlockList := backedBlockListNew blockSize

/-- The regions of a sparse file, in list order. -/
def SparseFile.blocks (s : SparseFile) : List BackedBlock := s.backedBlockList.dataBlocks

/-- A sparse file with the given regions in its queue. -/
def SparseFile.ofBlocks (blockSize : Nat) (len : Int) (blocks : List BackedBlock) : SparseFile where
  len := len
  verbose := false
  backedBlockList := { backedBlockListNew blockSize with dataBlocks := blocks }

/-! ## Writing -/

/-- The loop of `sparse_count_chunks`: the chunk count and `last_block`. -/
def countChunksLoop (blockSize : Nat) : List BackedBlock → Nat → Nat → Nat × Nat
  | [], lastBlock, chunks => (chunks, lastBlock)
  | bb :: rest, lastBlock, chunks =>
    let chunks := if bb.block > lastBlock then u32 (chunks + 1) else chunks
    countChunksLoop blockSize rest (u32 (bb.block + divRoundUpU32 bb.len blockSize))
      (u32 (chunks + 1))

def sparseCountChunks (s : SparseFile) : Except Fault Nat :=
  if s.blockSize = 0 then .error .divByZero
  else
    match countChunksLoop s.blockSize s.blocks 0 0 with
    | (chunks, lastBlock) =>
      .ok (if (lastBlock : Int) < divRoundUpI64 s.len s.blockSize then u32 (chunks + 1) else chunks)

variable {σ : Type}

def sparseFileWriteBlock (env : Env) (out : OutputFile σ) (bb : BackedBlock) :
    Int × OutputFile σ :=
  match bb.backing with
  | .data data => writeDataChunk out bb.len (fun i => env.mem (data + i))
  | .file filename offset => writeFileChunk env out bb.len filename offset
  | .fd fd offset => writeFdChunk env out bb.len (.fd fd) offset
  | .fill val => writeFillChunk out bb.len val

/-- The loop of `write_all_blocks`: a return code, `last_block` and the output. -/
def writeBlocksLoop (env : Env) (blockSize : Nat) :
    List BackedBlock → Nat → OutputFile σ → Int × Nat × OutputFile σ
  | [], lastBlock, out => (0, lastBlock, out)
  | bb :: rest, lastBlock, out =>
    let out :=
      if bb.block > lastBlock then
        (writeSkipChunk out (((bb.block - lastBlock : Nat) : Int) * blockSize)).2
      else out
    match sparseFileWriteBlock env out bb with
    | (ret, out) =>
      if ret ≠ 0 then (ret, lastBlock, out)
      else writeBlocksLoop env blockSize rest (u32 (bb.block + divRoundUpU32 bb.len blockSize)) out

section

variable (env : Env) (s : SparseFile)

def writeAllBlocks (out : OutputFile σ) : Except Fault (Int × OutputFile σ) :=
  if s.blockSize = 0 ∧ s.blocks ≠ [] then .error .divByZero
  else
    match writeBlocksLoop env s.blockSize s.blocks 0 out with
    | (ret, lastBlock, out) =>
      if ret ≠ 0 then .ok (ret, out)
      else
        let pad := s.len - (lastBlock : Int) * s.blockSize
        if pad < 0 then .error .assertFail
        else if pad > 0 then .ok (0, (writeSkipChunk out pad).2)
        else .ok (0, out)

/-- What `sparse_file_write`, `sparse_file_callback` and `sparse_file_len` share: count the
chunks, open the output, write all blocks and close it. -/
def sparseFileOutput (ops : OutputFileOps σ) (sink : σ)
    (sparse crc : Bool) : Except Fault (Int × σ) :=
  match sparseCountChunks s with
  | .error e => .error e
  | .ok chunks =>
    match outputFileInit ops sink s.blockSize s.len sparse chunks crc with
    | .error e => .error e
    | .ok (.error sink) => .ok (-eNomem, sink)
    | .ok (.ok out) =>
      match writeAllBlocks env s out with
      | .error e => .error e
      | .ok (ret, out) => .ok (ret, (outputFileClose out).sink)

/-- `sparse_file_write` to a file, without gzip. -/
def sparseFileWrite (accepts : FileState → Nat → Int) (fd : FileState) (sparse crc : Bool) :
    Except Fault (Int × FileState) :=
  sparseFileOutput env s (fileOps accepts) fd sparse crc

def sparseFileCallback (sparse crc : Bool)
    (write : σ → Option Buf → Int → Int × σ) (priv : σ) : Except Fault (Int × σ) :=
  sparseFileOutput env s (callbackFileOps write) priv sparse crc

def outCounterWrite (count : Int) (_data : Option Buf) (len : Int) : Int × Int := (0, count + len)

def sparseFileLen (sparse crc : Bool) : Except Fault Int :=
  match sparseCountChunks s with
  | .error e => .error e
  | .ok chunks =>
    match outputFileInit (callbackFileOps outCounterWrite) 0 s.blockSize s.len sparse chunks crc with
    | .error e => .error e
    | .ok (.error _) => .ok (-1)
    | .ok (.ok out) =>
      match writeAllBlocks env s out with
      | .error e => .error e
      | .ok (ret, out) => .ok (if ret < 0 then -1 else (outputFileClose out).sink)

end

/-! ## Cutting into pieces -/

/-- `overhead` in `move_chunks_up_to_len`: the file header, an end skip chunk and a CRC chunk. -/
def resparseOverhead : Nat := sparseHeaderLen + 2 * chunkHeaderLen + 4

/-- `len -= overhead`. The difference wraps when the requested size is below the overhead. -/
def resparseLimit (len : Nat) : Nat := u32OfInt ((len : Int) - resparseOverhead)

/-- What the loop of `move_chunks_up_to_len` leaves: the list of `from`, the position of
`last_bb`, and the block it returns. -/
structure MoveResult where
  blocks : List BackedBlock
  lastBb : Option Nat
  bb : Option BackedBlock
  deriving DecidableEq, Repr

/-- The loop of `move_chunks_up_to_len` over the blocks left, `done` being those passed so far, for
the block sizes of the lists `from` and `to`. `none` is the jump to `out`, which moves nothing. -/
def moveLoop (env : Env) (fromSize toSize len : Nat) (done : List BackedBlock) (lastBlock : Nat)
    (fileLen : Int) (outCounter : OutputFile Int) : List BackedBlock → Option MoveResult
  | [] => some {
      blocks := done
      lastBb := if done = [] then none else some (done.length - 1)
      bb := none }
  | bb :: rest =>
    let count : Int := if bb.block > lastBlock then chunkHeaderLen else 0
    match sparseFileWriteBlock env { outCounter with sink := count } bb with
    | (ret, outCounter) =>
      if ret ≠ 0 then none
      else if fileLen + outCounter.sink > len then
        let fileLen := fileLen + chunkHeaderLen
        if done = [] ∨ (len : Int) - fileLen > (len / 8 : Nat) then
          match backedBlockSplit fromSize bb (u32OfInt (len - fileLen)) with
          | (bb, newBb) => some {
              blocks := done ++ bb :: (newBb.toList ++ rest)
              lastBb := some done.length
              bb := some bb }
        else some {
          blocks := done ++ bb :: rest
          lastBb := some (done.length - 1)
          bb := some bb }
      else
        moveLoop env fromSize toSize len (done ++ [bb])
          (u32 (bb.block + divRoundUpU32 bb.len toSize)) (fileLen + outCounter.sink)
          outCounter rest

def moveChunksUpToLen (env : Env) (src dst : SparseFile) (len : Nat) :
    Except Fault (Option BackedBlock × SparseFile × SparseFile) :=
  match outputFileInit (callbackFileOps outCounterWrite) 0 dst.blockSize dst.len true 0 false with
  | .error e => .error e
  | .ok (.error _) => .ok (none, src, dst)
  | .ok (.ok outCounter) =>
    match moveLoop env src.blockSize dst.blockSize (resparseLimit len) [] 0 0 outCounter
        src.blocks with
    | none => .ok (none, src, dst)
    | some r =>
      let start := if src.blocks = [] then none else some 0
      match backedBlockListMove { src.backedBlockList with dataBlocks := r.blocks }
          dst.backedBlockList start r.lastBb with
      | (srcList, dstList) =>
        .ok (r.bb, { src with backedBlockList := srcList },
          { dst with backedBlockList := dstList })

/-- What `sparse_file_resparse` leaves: its return value, the input file and the files written to
`out_s`. -/
structure ResparseResult where
  count : Nat
  inS : SparseFile
  outS : List SparseFile
  deriving DecidableEq, Repr

/-- The loop of `sparse_file_resparse`. -/
def resparseLoop (env : Env) (maxLen : Nat) (outSCount : Int) :
    Nat → Nat → SparseFile → SparseFile → List SparseFile →
      Option (Except Fault (Nat × SparseFile × SparseFile × List SparseFile))
  | 0, _, _, _, _ => none
  | fuel + 1, c, inS, tmp, outS =>
    match moveChunksUpToLen env inS (sparseFileNew inS.blockSize inS.len) maxLen with
    | .error e => some (.error e)
    | .ok (bb, inS, s) =>
      let (tmp, outS) :=
        if (c : Int) < outSCount then (tmp, outS ++ [s])
        else
          ({ tmp with
            backedBlockList :=
              (backedBlockListMove s.backedBlockList tmp.backedBlockList none none).2 }, outS)
      if bb.isSome then resparseLoop env maxLen outSCount fuel (c + 1) inS tmp outS
      else some (.ok (c + 1, inS, tmp, outS))

def sparseFileResparse (env : Env) (fuel : Nat) (inS : SparseFile) (maxLen : Nat)
    (outSCount : Int) : Option (Except Fault ResparseResult) :=
  match resparseLoop env maxLen outSCount fuel 0 inS (sparseFileNew inS.blockSize inS.len) [] with
  | none => none
  | some (.error e) => some (.error e)
  | some (.ok (c, inS, tmp, outS)) =>
    some (.ok {
      count := c
      inS := { inS with
        backedBlockList :=
          (backedBlockListMove tmp.backedBlockList inS.backedBlockList none none).2 }
      outS := outS })

end AndroidSystem.Sparse
