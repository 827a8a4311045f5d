import AndroidSystem.Sparse.BackedBlock
import AndroidSystem.Sparse.Crc32

/-!
# Output files

`output_file.c`. An `output_file` writes chunks through two tables of operations: the outer one
(`sparse_ops`) turns a chunk into sparse format or into plain output, the inner one (`ops`) moves
the bytes to a descriptor or to a callback. `OutputFile σ` is an output file whose inner table
acts on a sink of type `σ`. Every function returns its C return code with the new state.

The gzip table is left out: it hands the same calls to zlib.
-/

namespace AndroidSystem.Sparse

/-! ## Sinks -/

/-- `struct output_file_ops` on a sink. -/
structure OutputFileOps (σ : Type) where
  skip : σ → Int → Int × σ
  pad : σ → Int → Int × σ
  write : σ → Buf → Int → Int × σ

/-- An open file: what it holds and the file position. -/
structure FileState where
  bytes : List UInt8
  pos : Nat
  deriving DecidableEq, Repr

namespace FileState

/-- The file cut or extended with zeros to `n` bytes. -/
def resize (l : List UInt8) (n : Nat) : List UInt8 := l.take n ++ List.replicate (n - l.length) 0

/-- Bytes written at the file position; a gap before them reads as zero. -/
def put (f : FileState) (l : List UInt8) : FileState where
  bytes := resize f.bytes f.pos ++ l ++ f.bytes.drop (f.pos + l.length)
  pos := f.pos + l.length

end FileState

/-- `file_ops`: `lseek64`, `ftruncate64` and `write` on a descriptor. What `write` returns for a number
of bytes is up to the system: how many it takes, or a negative number. -/
def fileOps (accepts : FileState → Nat → Int) : OutputFileOps FileState where
  skip f cnt :=
    if (f.pos : Int) + cnt < 0 then (-1, f) else (0, { f with pos := (f.pos + cnt).toNat })
  pad f len :=
    if len < 0 then (-eInval, f) else (0, { f with bytes := FileState.resize f.bytes len.toNat })
  -- A negative length reaches `write` as a `size_t` above `SSIZE_MAX`.
  write f data len :=
    let ret := accepts f len.toNat
    if len < 0 ∨ ret < 0 then (-1, f)
    else (if ret < len then -1 else 0, f.put (data.bytes (min ret len).toNat))

def intMax : Nat := 2 ^ 31 - 1

section

variable {σ : Type} (write : σ → Option Buf → Int → Int × σ)

/-- The loop of `callback_file_skip`. -/
def callbackSkipLoop :
    Nat → σ → Nat → Int × σ
  | 0, priv, _ => (0, priv)
  | fuel + 1, priv, off =>
    if off = 0 then (0, priv)
    else
      let toWrite := min off intMax
      match write priv none toWrite with
      | (ret, priv) => if ret < 0 then (ret, priv) else callbackSkipLoop fuel priv (off - toWrite)

/-- `callback_file_ops` around the caller's `write`, which gets no data for a skipped region. -/
def callbackFileOps : OutputFileOps σ where
  skip priv off := callbackSkipLoop write off.toNat priv off.toNat
  pad priv _ := (-1, priv)
  write priv data len := write priv (some data) len

end

/-! ## The output file -/

/-- The two tables of `struct sparse_file_ops`. -/
inductive SparseOps where
  | sparse | normal
  deriving DecidableEq, Repr

/-- `struct output_file`. The buffer `zero_buf` holds zeros, and `fill_buf` is rewritten before
every use, so neither is part of the state. -/
structure OutputFile (σ : Type) where
  curOutPtr : Int
  chunkCnt : Nat
  crc32 : UInt32
  ops : OutputFileOps σ
  sparseOps : SparseOps
  useCrc : Bool
  blockSize : Nat
  len : Int
  sink : σ

variable {σ : Type}

section

variable (out : OutputFile σ)

/-- A call of `out->ops->write`. -/
def OutputFile.write (data : Buf) (len : Int) : Int × OutputFile σ :=
  match out.ops.write out.sink data len with
  | (ret, sink) => (ret, { out with sink := sink })

/-- A call of `out->ops->skip`. -/
def OutputFile.skip (len : Int) : Int × OutputFile σ :=
  match out.ops.skip out.sink len with
  | (ret, sink) => (ret, { out with sink := sink })

/-- A call of `out->ops->pad`. -/
def OutputFile.pad (len : Int) : Int × OutputFile σ :=
  match out.ops.pad out.sink len with
  | (ret, sink) => (ret, { out with sink := sink })

def zeroBuf : Buf := fun _ => 0

/-- The bookkeeping after a chunk has been written. -/
def OutputFile.countChunk (len : Int) : OutputFile σ :=
  { out with curOutPtr := out.curOutPtr + len, chunkCnt := u32 (out.chunkCnt + 1) }

section

variable (r : Int × OutputFile σ) (next : OutputFile σ → Int × OutputFile σ)

/-- `if (ret < 0) return -1;` after a call, and what follows it. -/
def orFail : Int × OutputFile σ :=
  if r.1 < 0 then (-1, r.2) else next r.2

/-- `if (ret < 0) return ret;` after a call, and what follows it. -/
def orReturn : Int × OutputFile σ :=
  if r.1 < 0 then r else next r.2

end

@[simp] theorem orFail_zero (next : OutputFile σ → Int × OutputFile σ) :
    orFail (0, out) next = next out := rfl

@[simp] theorem orReturn_zero (next : OutputFile σ → Int × OutputFile σ) :
    orReturn (0, out) next = next out := rfl

end

/-! ## Sparse format -/

/-- The chunk header of a skip chunk. -/
def skipHeader (blockSize : Nat) (skipLen : Int) : ChunkHeader where
  chunkType := chunkTypeDontCare
  reserved1 := 0
  chunkSz := u32OfInt (skipLen / blockSize)
  totalSz := chunkHeaderLen

section

variable (out : OutputFile σ)

def writeSparseSkipChunk (skipLen : Int) : Int × OutputFile σ :=
  if skipLen % out.blockSize ≠ 0 then (-1, out)
  else
    orFail (out.write (.ofList (skipHeader out.blockSize skipLen).encode) chunkHeaderLen)
      fun out => (0, out.countChunk skipLen)

/-- `rnd_up_len` in the sparse writers: the rounded length, as an `int`. -/
def rndUpLen (blockSize len : Nat) : Int := i32 (alignU32 len blockSize)

/-- The chunk header of a fill chunk. -/
def fillHeader (blockSize len : Nat) : ChunkHeader where
  chunkType := chunkTypeFill
  reserved1 := 0
  chunkSz := u32OfInt (rndUpLen blockSize len) / blockSize
  totalSz := chunkHeaderLen + 4

/-- The CRC loop of `write_sparse_fill_chunk`: the fill word once for each word of one block. -/
def fillCrc (blockSize : Nat) (fillVal crc : UInt32) : UInt32 :=
  (fun crc => sparseCrc32 crc (Buf.bytes (fillByte fillVal) 4))^[blockSize / 4] crc

def writeSparseFillChunk (len : Nat) (fillVal : UInt32) : Int × OutputFile σ :=
  orFail (out.write (.ofList (fillHeader out.blockSize len).encode) chunkHeaderLen) fun out =>
  orFail (out.write (fillByte fillVal) 4) fun out =>
    (0, { out with
      crc32 := if out.useCrc then fillCrc out.blockSize fillVal out.crc32 else out.crc32
      }.countChunk (rndUpLen out.blockSize len))

/-- `zero_len` in the sparse writer: the padding of the last block, as an `int`. -/
def zeroLen (blockSize len : Nat) : Int := i32 (rndUpLen blockSize len - len)

/-- The chunk header of a raw chunk. -/
def dataHeader (blockSize len : Nat) : ChunkHeader where
  chunkType := chunkTypeRaw
  reserved1 := 0
  chunkSz := u32OfInt (rndUpLen blockSize len) / blockSize
  totalSz := u32OfInt (chunkHeaderLen + rndUpLen blockSize len)

/-- The CRC of a raw chunk: its data, and its padding if there is any. -/
def dataCrc (blockSize len : Nat) (data : Buf) (crc : UInt32) : UInt32 :=
  if zeroLen blockSize len ≠ 0 then
    sparseCrc32 (sparseCrc32 crc (data.bytes len)) (zeroBuf.bytes (u32OfInt (zeroLen blockSize len)))
  else sparseCrc32 crc (data.bytes len)

def writeSparseDataChunk (len : Nat) (data : Buf) : Int × OutputFile σ :=
  orFail (out.write (.ofList (dataHeader out.blockSize len).encode) chunkHeaderLen) fun out =>
  orFail (out.write data (i32 len)) fun out =>
  orFail (if zeroLen out.blockSize len ≠ 0 then out.write zeroBuf (zeroLen out.blockSize len)
    else (0, out)) fun out =>
    (0, { out with
      crc32 := if out.useCrc then dataCrc out.blockSize len data out.crc32 else out.crc32
      }.countChunk (rndUpLen out.blockSize len))

/-- The chunk header of a CRC chunk. -/
def crc32Header : ChunkHeader where
  chunkType := chunkTypeCrc32
  reserved1 := 0
  chunkSz := 0
  totalSz := chunkHeaderLen + 4

/-- `write_sparse_end_chunk`. The return code of the second write is never looked at. -/
def writeSparseEndChunk : Int × OutputFile σ :=
  if out.useCrc then
    orReturn (out.write (.ofList crc32Header.encode) chunkHeaderLen) fun out =>
      let out := (out.write (.ofList (le 4 out.crc32.toNat)) 4).2
      (0, { out with chunkCnt := u32 (out.chunkCnt + 1) })
  else (0, out)

end

/-! ## Plain output -/

def writeNormalDataChunk (out : OutputFile σ) (len : Nat) (data : Buf) : Int × OutputFile σ :=
  orReturn (out.write data (i32 len)) fun out =>
    if alignU32 len out.blockSize > len then out.skip (alignU32 len out.blockSize - len : Nat)
    else (0, out)

/-- `fill_buf` once it is filled: the words that fit, and zeros after them. -/
def fillBuf (blockSize : Nat) (fillVal : UInt32) : Buf := fun i =>
  if i < 4 * (blockSize / 4) then fillByte fillVal i else 0

/-- The loop of `write_normal_fill_chunk`. -/
def writeNormalFillLoop (fillVal : UInt32) : Nat → OutputFile σ → Nat → Int × OutputFile σ
  | 0, out, _ => (0, out)
  | fuel + 1, out, len =>
    if len = 0 then (0, out)
    else
      orReturn (out.write (fillBuf out.blockSize fillVal) (i32 (min len out.blockSize : Nat)))
        fun out => writeNormalFillLoop fillVal fuel out (len - min len out.blockSize)

def writeNormalFillChunk (out : OutputFile σ) (len : Nat) (fillVal : UInt32) :
    Int × OutputFile σ :=
  writeNormalFillLoop fillVal len out len

def writeNormalSkipChunk (out : OutputFile σ) (len : Int) : Int × OutputFile σ := out.skip len

def writeNormalEndChunk (out : OutputFile σ) : Int × OutputFile σ := out.pad out.len

/-! ## The common entry points -/

def writeDataChunk (out : OutputFile σ) (len : Nat) (data : Buf) : Int × OutputFile σ :=
  match out.sparseOps with
  | .sparse => writeSparseDataChunk out len data
  | .normal => writeNormalDataChunk out len data

def writeFillChunk (out : OutputFile σ) (len : Nat) (fillVal : UInt32) : Int × OutputFile σ :=
  match out.sparseOps with
  | .sparse => writeSparseFillChunk out len fillVal
  | .normal => writeNormalFillChunk out len fillVal

def writeSkipChunk (out : OutputFile σ) (len : Int) : Int × OutputFile σ :=
  match out.sparseOps with
  | .sparse => writeSparseSkipChunk out len
  | .normal => writeNormalSkipChunk out len

/-- `buffer_size` in `write_fd_chunk`: the mapping starts at a page boundary, and its size is an
`int`. -/
def bufferSize (len : Nat) (offset : Int) : Int := i32 (len + offset % 4096)

/-- The error of the mapping `write_fd_chunk` makes of `len` bytes at `offset`. -/
def mapErrno (env : Env) (h : Handle) (len : Nat) (offset : Int) : Nat :=
  env.mmapErrno h (u64OfInt (bufferSize len offset)) (offset - offset % 4096)

def writeFdChunk (env : Env) (out : OutputFile σ) (len : Nat) (h : Handle) (offset : Int) :
    Int × OutputFile σ :=
  if mapErrno env h len offset ≠ 0 then (-(mapErrno env h len offset : Int), out)
  else writeDataChunk out len (fun i => env.byte h (offset + i))

def writeFileChunk (env : Env) (out : OutputFile σ) (len : Nat) (file : Nat) (offset : Int) :
    Int × OutputFile σ :=
  if env.openErrno file ≠ 0 then (-(env.openErrno file : Int), out)
  else writeFdChunk env out len (.file file) offset

/-- The file header `output_file_init` writes. -/
def fileHeader (blockSize : Nat) (len : Int) (chunks : Nat) (crc : Bool) : SparseHeader where
  magic := sparseHeaderMagic
  majorVersion := sparseHeaderMajorVer
  minorVersion := sparseHeaderMinorVer
  fileHdrSz := sparseHeaderLen
  chunkHdrSz := chunkHeaderLen
  blkSz := blockSize
  totalBlks := u32OfInt (len.tdiv blockSize)
  totalChunks := u32 (chunks + if crc then 1 else 0)
  imageChecksum := 0

section

variable (ops : OutputFileOps σ) (sink : σ) (blockSize : Nat) (len : Int)

/-- A fresh output file. -/
def outputFileNew (sparse crc : Bool) : OutputFile σ where
  curOutPtr := 0
  chunkCnt := 0
  crc32 := 0
  ops := ops
  sparseOps := if sparse then .sparse else .normal
  useCrc := crc
  blockSize := blockSize
  len := len
  sink := sink

/-- `output_file_init` with the fields the `open` functions set before it. An error is a failed
allocation, which a block size that is negative as an `int` always gives, or a failed write; it
carries the sink as it is left. The file header has a quotient by the block size. -/
def outputFileInit (sparse : Bool) (chunks : Nat) (crc : Bool) :
    Except Fault (Except σ (OutputFile σ)) :=
  if i32 blockSize < 0 then .ok (.error sink)
  else if sparse then
    if blockSize = 0 then .error .divByZero
    else
      match (outputFileNew ops sink blockSize len sparse crc).write
          (.ofList (fileHeader blockSize len chunks crc).encode) sparseHeaderLen with
      | (ret, out) => .ok (if ret < 0 then .error out.sink else .ok out)
  else .ok (.ok (outputFileNew ops sink blockSize len sparse crc))

end

/-- `output_file_close`: the end chunk is written, whatever its return code. -/
def outputFileClose (out : OutputFile σ) : OutputFile σ :=
  match out.sparseOps with
  | .sparse => (writeSparseEndChunk out).2
  | .normal => (writeNormalEndChunk out).2

end AndroidSystem.Sparse
