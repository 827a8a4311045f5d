import AndroidSystem.Sparse.Format

/-!
# The list of backed blocks

`backed_block.c`. A `backed_block` says where the contents of a run of blocks come from: memory,
a named file, an open file, or a fill value. A `backed_block_list` links them by block number and
remembers the node it added last, as the place to start the next search from.

The linked list is a `List`. A node is never renumbered and a list holds one node per block
number, so the saved pointer `last_used` is named by the block number of its node. The one
pointer that needs more care is the one to a node that `merge_bb` has freed: `Hint.freed`.
Reading through it is undefined in C. The read is harmless only when `calloc` has handed the freed
node out again for the very block being queued, because the pointer then points at the new node
itself; `Env.reuse` says whether it does.
-/

namespace AndroidSystem.Sparse

/-! ## Outside the library -/

/-- What stops a run other than a returned error code. -/
inductive Fault where
  /-- An `assert` fails. -/
  | assertFail
  /-- An integer is divided by zero. -/
  | divByZero
  /-- A `NULL` pointer is read. -/
  | nullDeref
  /-- Freed memory is read. -/
  | useAfterFree
  /-- A loop runs past the end of a buffer. -/
  | overrun
  deriving DecidableEq, Repr

/-- A file as the writer reaches it: by the string at a pointer, or by descriptor. -/
inductive Handle where
  | file (filename : Nat)
  | fd (fd : Int)
  deriving DecidableEq, Repr

/-- Memory, files and the C library, as the code sees them. -/
structure Env where
  /-- The byte at an address. -/
  mem : Nat → UInt8
  /-- The byte a file holds at an offset. -/
  byte : Handle → Int → UInt8
  /-- The error of `open` on a file name, zero for success. -/
  openErrno : Nat → Nat
  /-- The error of `mmap64` on a length and an offset, zero for success. -/
  mmapErrno : Handle → Nat → Int → Nat
  /-- Whether `calloc` hands the node freed last out again for the next one. -/
  reuse : Bool

/-- Zeros everywhere, and files that can be opened and mapped; a mapping of no bytes fails. -/
def Env.zeros : Env where
  mem _ := 0
  byte _ _ := 0
  openErrno _ := 0
  mmapErrno _ size _ := if size = 0 then 22 else 0
  reuse := true

def eInval : Int := 22

def eNomem : Int := 12

/-! ## Blocks -/

/-- The type of a `backed_block` with the union member that belongs to it. A file name is the
address of the copy `strdup` made: two names are the same when the pointers are. -/
inductive Backing where
  | data (data : Nat)
  | file (filename : Nat) (offset : Int)
  | fd (fd : Int) (offset : Int)
  | fill (val : UInt32)
  deriving DecidableEq, Repr

inductive BackedBlockType where
  | data | file | fd | fill
  deriving DecidableEq, Repr

/-- The `type` field. -/
def Backing.type : Backing → BackedBlockType
  | .data _ => .data
  | .file .. => .file
  | .fd .. => .fd
  | .fill _ => .fill

/-- `struct backed_block`, without its link. -/
structure BackedBlock where
  block : Nat
  len : Nat
  backing : Backing
  deriving DecidableEq, Repr

/-- The saved pointer `last_used`. -/
inductive Hint where
  | null
  /-- The linked node with this block number. -/
  | node (block : Nat)
  /-- A node that has been freed. -/
  | freed
  deriving DecidableEq, Repr

structure BackedBlockList where
  dataBlocks : List BackedBlock
  lastUsed : Hint
  blockSize : Nat
  deriving DecidableEq, Repr

def backedBlockListNew (blockSize : Nat) : BackedBlockList where
  dataBlocks := []
  lastUsed := .null
  blockSize := blockSize

/-! ## Queueing -/

/-- The `switch` of `merge_bb`: whether the contents of `b` go on where those of `a` end. -/
def continues (a b : BackedBlock) : Bool :=
  match a.backing, b.backing with
  -- Merging data is not supported.
  | .data _, _ => false
  | .fill v, .fill w => v == w
  | .file f o, .file g p => f == g && o + a.len == p
  | .fd f o, .fd g p => f == g && o + a.len == p
  | _, _ => false

section

variable (blockSize : Nat)

/-- `merge_bb` on two nodes. `none` is the `-EINVAL` return; otherwise the result is the node
that is left, and `b` has been freed. -/
def mergeBb (a b : BackedBlock) : Except Fault (Option BackedBlock) :=
  if ¬ a.block < b.block then .error .assertFail
  else if a.backing.type ≠ b.backing.type then .ok none
  else if blockSize = 0 then .error .divByZero
  -- The block count of `a` rounds down.
  else if u32 (a.block + a.len / blockSize) ≠ b.block then .ok none
  else if continues a b then .ok (some { a with len := u32 (a.len + b.len) })
  else .ok none

/-- The first of the two merges of `queue_bb`: the new node with the one after it. -/
def mergeNext (newBb : BackedBlock) :
    List BackedBlock → Except Fault (BackedBlock × List BackedBlock)
  | [] => .ok (newBb, [])
  | next :: rest =>
    match mergeBb blockSize newBb next with
    | .error e => .error e
    | .ok (some m) => .ok (m, rest)
    | .ok none => .ok (newBb, next :: rest)

/-- The end of `queue_bb`: link `newBb` between `bb` and `rest` and try both merges. The flag says
that the second one has freed `newBb`. -/
def linkBb (bb newBb : BackedBlock) (rest : List BackedBlock) :
    Except Fault (List BackedBlock × Bool) :=
  match mergeNext blockSize newBb rest with
  | .error e => .error e
  | .ok (m, rest) =>
    match mergeBb blockSize bb m with
    | .error e => .error e
    | .ok (some m) => .ok (m :: rest, true)
    | .ok none => .ok (bb :: m :: rest, false)

/-- The search loop of `queue_bb`, started at `bb`, followed by the insertion. -/
def searchBb (newBb : BackedBlock) :
    BackedBlock → List BackedBlock → Except Fault (List BackedBlock × Bool)
  | bb, [] => linkBb blockSize bb newBb []
  | bb, next :: rest =>
    if next.block < newBb.block then
      match searchBb newBb next rest with
      | .error e => .error e
      | .ok (l, freed) => .ok (bb :: l, freed)
    else linkBb blockSize bb newBb (next :: rest)

/-- The search from the node with block number `b`, which must be linked. -/
def searchFrom (newBb : BackedBlock) (b : Nat) :
    List BackedBlock → Except Fault (List BackedBlock × Bool)
  | [] => .error .useAfterFree
  | bb :: rest =>
    if bb.block = b then searchBb blockSize newBb bb rest
    else
      match searchFrom newBb b rest with
      | .error e => .error e
      | .ok (l, freed) => .ok (bb :: l, freed)

end

section

variable (env : Env) (bbl : BackedBlockList)

def queueBb (newBb : BackedBlock) : Except Fault BackedBlockList :=
  match bbl.dataBlocks with
  | [] => .ok { bbl with dataBlocks := [newBb] }
  | head :: rest =>
    if head.block > newBb.block then .ok { bbl with dataBlocks := newBb :: head :: rest }
    else
      let found :=
        match bbl.lastUsed with
        | .null => searchBb bbl.blockSize newBb head rest
        | .node b =>
          if newBb.block > b then searchFrom bbl.blockSize newBb b (head :: rest)
          else searchBb bbl.blockSize newBb head rest
        -- A node handed out again is the new one, whose number is not above its own.
        | .freed =>
          if env.reuse then searchBb bbl.blockSize newBb head rest
          else .error .useAfterFree
      match found with
      | .error e => .error e
      | .ok (l, freed) =>
        .ok { bbl with
          dataBlocks := l
          lastUsed := if freed then .freed else .node newBb.block }

def backedBlockAddFill (fillVal : UInt32) (len block : Nat) : Except Fault BackedBlockList :=
  queueBb env bbl { block := block, len := len, backing := .fill fillVal }

def backedBlockAddData (data len block : Nat) : Except Fault BackedBlockList :=
  queueBb env bbl { block := block, len := len, backing := .data data }

/-- `backed_block_add_file`; `filename` is the copy of the name. -/
def backedBlockAddFile (filename : Nat) (offset : Int)
    (len block : Nat) : Except Fault BackedBlockList :=
  queueBb env bbl { block := block, len := len, backing := .file filename offset }

def backedBlockAddFd (fd : Int) (offset : Int) (len block : Nat) : Except Fault BackedBlockList :=
  queueBb env bbl { block := block, len := len, backing := .fd fd offset }

end

/-! ## Splitting and moving -/

/-- The backing of what follows the first `n` bytes. -/
def Backing.advance (n : Nat) : Backing → Backing
  | .data p => .data (p + n)
  | .file f o => .file f (o + n)
  | .fd f o => .fd f (o + n)
  | .fill v => .fill v

/-- `backed_block_split`: the node that stays in place, and the one linked after it if the block
is longer than the limit. -/
def backedBlockSplit (blockSize : Nat) (bb : BackedBlock) (maxLen : Nat) :
    BackedBlock × Option BackedBlock :=
  let maxLen := alignDown maxLen blockSize
  if bb.len ≤ maxLen then (bb, none)
  else
    ({ bb with len := maxLen },
      some {
        block := u32 (bb.block + maxLen / blockSize)
        len := bb.len - maxLen
        backing := bb.backing.advance maxLen })

/-- The insertion loop of `backed_block_list_move`: `nodes` go after the first node whose
successor is missing or has a higher number than their first, `startBlock`. -/
def spliceIn (nodes : List BackedBlock) (startBlock : Nat) : List BackedBlock → List BackedBlock
  | [] => nodes
  | [bb] => bb :: nodes
  | bb :: next :: rest =>
    if next.block > startBlock then bb :: (nodes ++ next :: rest)
    else bb :: spliceIn nodes startBlock (next :: rest)

/-- `backed_block_list_move`. The pointers `start` and `end` into `from` are positions in its
list, `none` being `NULL`. -/
def backedBlockListMove (src dst : BackedBlockList) (start last : Option Nat) :
    BackedBlockList × BackedBlockList :=
  let first := start.getD 0
  let stop := last.getD (src.dataBlocks.length - 1)
  let nodes := (src.dataBlocks.drop first).take (stop + 1 - first)
  match nodes with
  | [] => (src, dst)
  | node :: _ =>
    ({ src with
        dataBlocks := src.dataBlocks.take first ++ src.dataBlocks.drop (stop + 1)
        lastUsed := .null },
      { dst with
        dataBlocks := spliceIn nodes node.block dst.dataBlocks
        lastUsed := .null })

end AndroidSystem.Sparse
