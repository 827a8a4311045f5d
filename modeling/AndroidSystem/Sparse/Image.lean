import AndroidSystem.Lib.Segments
import AndroidSystem.Sparse.SparseFile

/-!
# What a sparse file stands for

The purpose of a sparse file is a partial map from block numbers to block contents. A region
starts at its block number and covers as many blocks as its bytes need; the last block of a raw
region is padded with zeros, and a block of a fill region is the fill word over and over. Blocks
in no region are unset.

`regions` reads a list of backed blocks as segments of that map, and `SparseFile.denote` is the
map of a cookie.
-/

namespace AndroidSystem.Sparse

open List BackedBlock

variable {bb : BackedBlock} {blockSize k : Nat} {l : List BackedBlock}

/-- The block after a region. -/
def BackedBlock.stop (blockSize : Nat) (bb : BackedBlock) : Nat :=
  bb.block + divRoundUp bb.len blockSize

section

variable (env : Env)

/-- Byte `j` of a raw region, zero past its end. The clause for a fill region is not used. -/
def BackedBlock.rawByte (bb : BackedBlock) (j : Nat) : UInt8 :=
  if j < bb.len then
    match bb.backing with
    | .data data => env.mem (data + j)
    | .file filename offset => env.byte (.file filename) (offset + j)
    | .fd fd offset => env.byte (.fd fd) (offset + j)
    | .fill _ => 0
  else 0

section

variable (blockSize : Nat)

/-- The contents of block `i` of a region. -/
def BackedBlock.contents (bb : BackedBlock) (i : Nat) : List UInt8 :=
  match bb.backing with
  | .fill v => Buf.bytes (fillByte v) blockSize
  | _ => Buf.bytes (fun j => bb.rawByte env (i * blockSize + j)) blockSize

theorem contents_of_fill {v : UInt32} (h : bb.backing = .fill v)
    (i : Nat) : bb.contents env blockSize i = Buf.bytes (fillByte v) blockSize := by
  simp [contents, h]

theorem contents_of_raw (h : bb.backing.type ≠ .fill) (i : Nat) :
    bb.contents env blockSize i =
      Buf.bytes (fun j => bb.rawByte env (i * blockSize + j)) blockSize := by
  unfold contents
  cases hb : bb.backing with
  | fill v => simp [hb, Backing.type] at h
  | data _ | file _ _ | fd _ _ => rfl

/-- Backed blocks as segments of block numbers. -/
def regions : Segments BackedBlock (List UInt8) where
  start := block
  stop := stop blockSize
  val bb p := bb.contents env blockSize (p - bb.block)

end

/-- The map from block numbers to contents a sparse file stands for. -/
def SparseFile.denote (s : SparseFile) : Nat → Option (List UInt8) :=
  (regions env s.blockSize).lookup s.blocks

end

/-- The queue of a sparse file: regions that hold something, sorted and disjoint, with 32-bit
lengths and block numbers below `2 ^ 32`, the number of blocks a sparse file can have. -/
structure Queue (blockSize : Nat) (l : List BackedBlock) : Prop where
  sorted : l.Pairwise fun a b => a.stop blockSize ≤ b.block
  len_pos : ∀ bb ∈ l, 0 < bb.len
  len_lt : ∀ bb ∈ l, bb.len < 2 ^ 32
  stop_le : ∀ bb ∈ l, bb.stop blockSize ≤ 2 ^ 32

theorem Queue.sorted_regions (h : Queue blockSize l) (env : Env) :
    (regions env blockSize).Sorted l := h.sorted

theorem BackedBlock.block_lt_stop (hbs : 0 < blockSize) (h : 0 < bb.len) :
    bb.block < bb.stop blockSize := by
  have := divRoundUp_pos hbs h
  unfold stop
  omega

theorem Queue.tail {blockSize : Nat} {bb : BackedBlock} {l : List BackedBlock}
    (h : Queue blockSize (bb :: l)) : Queue blockSize l where
  sorted := (pairwise_cons.1 h.sorted).2
  len_pos x hx := h.len_pos x (mem_cons_of_mem _ hx)
  len_lt x hx := h.len_lt x (mem_cons_of_mem _ hx)
  stop_le x hx := h.stop_le x (mem_cons_of_mem _ hx)

theorem Queue.append_right {m : List BackedBlock} (h : Queue blockSize (l ++ m)) :
    Queue blockSize m where
  sorted := (pairwise_append.1 h.sorted).2.1
  len_pos x hx := h.len_pos x (mem_append_right _ hx)
  len_lt x hx := h.len_lt x (mem_append_right _ hx)
  stop_le x hx := h.stop_le x (mem_append_right _ hx)

/-! ## Splitting a region -/

theorem Backing.advance_zero (b : Backing) : b.advance 0 = b := by
  cases b <;> simp [Backing.advance]

@[simp] theorem Backing.type_advance (b : Backing) (n : Nat) : (b.advance n).type = b.type := by
  cases b <;> rfl

theorem Backing.eq_fill_of_type {b : Backing} (h : b.type = .fill) : ∃ v, b = .fill v := by
  cases b with
  | fill v => exact ⟨v, rfl⟩
  | data _ | file _ _ | fd _ _ => simp [Backing.type] at h

theorem Backing.advance_add (b : Backing) (m n : Nat) :
    (b.advance m).advance n = b.advance (m + n) := by
  cases b <;> simp [Backing.advance] <;> omega

/-- What `backed_block_split` does to a region, in unbounded arithmetic: cut it after `k` whole
blocks. -/
def BackedBlock.firstBlocks (blockSize k : Nat) (bb : BackedBlock) : BackedBlock :=
  { bb with len := k * blockSize }

def BackedBlock.dropBlocks (blockSize k : Nat) (bb : BackedBlock) : BackedBlock where
  block := bb.block + k
  len := bb.len - k * blockSize
  backing := bb.backing.advance (k * blockSize)

theorem rawByte_firstBlocks (env : Env) (h : k * blockSize ≤ bb.len) {j : Nat}
    (hj : j < k * blockSize) : (bb.firstBlocks blockSize k).rawByte env j = bb.rawByte env j := by
  have hlen : j < bb.len := by omega
  simp [rawByte, firstBlocks, hj, hlen]

theorem rawByte_dropBlocks (env : Env) (h : k * blockSize ≤ bb.len) (j : Nat) :
    (bb.dropBlocks blockSize k).rawByte env j = bb.rawByte env (k * blockSize + j) := by
  unfold rawByte dropBlocks
  by_cases hj : j < bb.len - k * blockSize
  · rw [if_pos hj, if_pos (by omega)]
    cases hb : bb.backing with
    | data p => simp [Backing.advance, add_assoc]
    | file f o => simp [Backing.advance, add_assoc]
    | fd f o => simp [Backing.advance, add_assoc]
    | fill v => simp [Backing.advance]
  · rw [if_neg hj, if_neg (by omega)]

/-- The two parts of a split region hold what the region held. -/
theorem cut_blocks (env : Env) (hbs : 0 < blockSize) (h : k * blockSize ≤ bb.len) :
    (regions env blockSize).Cut bb (bb.firstBlocks blockSize k) (bb.dropBlocks blockSize k) := by
  have hstop : (bb.firstBlocks blockSize k).stop blockSize = bb.block + k := by
    simp only [stop, firstBlocks, divRoundUp_mul_self hbs]
  have hrest : (bb.dropBlocks blockSize k).stop blockSize = bb.stop blockSize := by
    have := divRoundUp_add_mul hbs (bb.len - k * blockSize) k
    rw [show k * blockSize + (bb.len - k * blockSize) = bb.len by omega] at this
    simp only [stop, dropBlocks]
    omega
  refine ⟨rfl, hstop, hrest, ?_, ?_, fun p hp => ?_, fun p hp => ?_⟩
  · show bb.block ≤ (bb.firstBlocks blockSize k).stop blockSize
    omega
  · exact Nat.le_add_right _ _
  · -- Before the cut: the bytes lie in whole blocks of the first part.
    have hp2 : p < bb.block + k := by rw [← hstop]; exact hp.2
    have hp1 : bb.block ≤ p := hp.1
    show (bb.firstBlocks blockSize k).contents env blockSize (p - bb.block) =
      bb.contents env blockSize (p - bb.block)
    by_cases hf : bb.backing.type = .fill
    · obtain ⟨v, hv⟩ := Backing.eq_fill_of_type hf
      rw [contents_of_fill env blockSize hv,
        contents_of_fill env blockSize (show (bb.firstBlocks blockSize k).backing = .fill v from hv)]
    · rw [contents_of_raw env blockSize hf,
        contents_of_raw env blockSize (show (bb.firstBlocks blockSize k).backing.type ≠ .fill from hf)]
      apply Buf.bytes_congr
      intro j hj
      have hk : (p - bb.block + 1) * blockSize ≤ k * blockSize :=
        Nat.mul_le_mul_right _ (by omega)
      rw [add_mul] at hk
      exact rawByte_firstBlocks env h (by omega)
  · have hp1 : bb.block + k ≤ p := hp.1
    show (bb.dropBlocks blockSize k).contents env blockSize (p - (bb.block + k)) =
      bb.contents env blockSize (p - bb.block)
    have hi : p - bb.block = k + (p - (bb.block + k)) := by omega
    have htype : (bb.dropBlocks blockSize k).backing.type = bb.backing.type :=
      Backing.type_advance _ _
    by_cases hf : bb.backing.type = .fill
    · obtain ⟨v, hv⟩ := Backing.eq_fill_of_type hf
      have hv' : (bb.dropBlocks blockSize k).backing = .fill v := by
        simp [dropBlocks, hv, Backing.advance]
      rw [contents_of_fill env blockSize hv, contents_of_fill env blockSize hv']
    · rw [contents_of_raw env blockSize hf, contents_of_raw env blockSize (htype ▸ hf)]
      apply Buf.bytes_congr
      intro j _
      rw [rawByte_dropBlocks env h, hi, add_mul, add_assoc]

/-- The number of the block where a region is cut does not wrap around. -/
theorem block_add_lt (hbs : 0 < blockSize) (hstop : bb.stop blockSize ≤ 2 ^ 32)
    (hk : k * blockSize < bb.len) : bb.block + k < 2 ^ 32 := by
  have := (lt_divRoundUp_iff hbs _ _).2 hk
  unfold stop at hstop
  omega

end AndroidSystem.Sparse
