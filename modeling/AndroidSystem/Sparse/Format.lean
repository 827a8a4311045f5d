import AndroidSystem.Lib.Machine
import AndroidSystem.Lib.LittleEndian

/-!
# The sparse image format

`sparse_format.h` and the macros of `sparse_defs.h`. The two headers are records of `Nat` fields;
`encode` lays them out as the packed little-endian structures of the C code, so a field that is
too large loses its high bits there, as in an assignment to a `__le16` or `__le32`.
-/

namespace AndroidSystem.Sparse

/-! ## Rounding macros -/

/-- `DIV_ROUND_UP` on `unsigned int` operands: the sum wraps. -/
def divRoundUpU32 (x y : Nat) : Nat := u32 (x + y - 1) / y

/-- `ALIGN` on `unsigned int` operands. -/
def alignU32 (x y : Nat) : Nat := u32 (y * divRoundUpU32 x y)

/-- `DIV_ROUND_UP` of an `int64_t` by an `unsigned int`. -/
def divRoundUpI64 (x : Int) (y : Nat) : Int := (x + y - 1).tdiv y

theorem divRoundUpU32_eq {x y : Nat} (h : x + y ≤ 2 ^ 32) :
    divRoundUpU32 x y = divRoundUp x y := by
  unfold divRoundUpU32 divRoundUp
  rw [u32_of_lt (by omega)]

theorem alignU32_eq {x y : Nat} (hy : 0 < y) (h : x + y ≤ 2 ^ 32) :
    alignU32 x y = divRoundUp x y * y := by
  unfold alignU32
  rw [divRoundUpU32_eq h, mul_comm]
  have := divRoundUp_mul_lt hy x
  exact u32_of_lt (by omega)

/-- Where the rounding sum wraps, the rounded length is zero. -/
theorem alignU32_of_wrap {x y : Nat} (hx : x < 2 ^ 32) (hy : y < 2 ^ 32) (h : 2 ^ 32 < x + y) :
    divRoundUpU32 x y = 0 ∧ alignU32 x y = 0 := by
  have h0 : divRoundUpU32 x y = 0 := by
    unfold divRoundUpU32 u32
    apply Nat.div_eq_of_lt
    omega
  exact ⟨h0, by simp [alignU32, h0, u32]⟩

/-! ## Headers -/

def sparseHeaderMagic : Nat := 0xed26ff3a

def sparseHeaderMajorVer : Nat := 1

def sparseHeaderMinorVer : Nat := 0

/-- `SPARSE_HEADER_LEN`, the size of `sparse_header_t`. -/
def sparseHeaderLen : Nat := 28

/-- `CHUNK_HEADER_LEN`, the size of `chunk_header_t`. -/
def chunkHeaderLen : Nat := 12

def chunkTypeRaw : Nat := 0xCAC1
def chunkTypeFill : Nat := 0xCAC2
def chunkTypeDontCare : Nat := 0xCAC3
def chunkTypeCrc32 : Nat := 0xCAC4

/-- `sparse_header_t`. -/
structure SparseHeader where
  magic : Nat
  majorVersion : Nat
  minorVersion : Nat
  fileHdrSz : Nat
  chunkHdrSz : Nat
  blkSz : Nat
  totalBlks : Nat
  totalChunks : Nat
  imageChecksum : Nat
  deriving DecidableEq, Repr

/-- `chunk_header_t`. -/
structure ChunkHeader where
  chunkType : Nat
  reserved1 : Nat
  chunkSz : Nat
  totalSz : Nat
  deriving DecidableEq, Repr

namespace SparseHeader

/-- The bytes of a header in memory. -/
def encode (h : SparseHeader) : List UInt8 :=
  le 4 h.magic ++ le 2 h.majorVersion ++ le 2 h.minorVersion ++ le 2 h.fileHdrSz ++
    le 2 h.chunkHdrSz ++ le 4 h.blkSz ++ le 4 h.totalBlks ++ le 4 h.totalChunks ++
    le 4 h.imageChecksum

end SparseHeader

namespace ChunkHeader

/-- The bytes of a chunk header in memory. -/
def encode (h : ChunkHeader) : List UInt8 :=
  le 2 h.chunkType ++ le 2 h.reserved1 ++ le 4 h.chunkSz ++ le 4 h.totalSz

end ChunkHeader

/-! ## Fill words -/

/-- Byte `j` of a buffer filled with the 32-bit word `v`. -/
def fillByte (v : UInt32) (j : Nat) : UInt8 := (le 4 v.toNat).getD (j % 4) 0

end AndroidSystem.Sparse
