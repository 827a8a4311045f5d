import AndroidSystem.Lib.Except
import AndroidSystem.Lib.Machine

/-!
# Vectors that share their storage

`VectorImpl` keeps its items in a `SharedBuffer`. Copying a vector only counts one more owner of the
buffer, and a vector that is about to change its items first makes sure that it is the only owner.

Memory is kept at the level of items: a buffer holds as many items as its size has room for, those
that were never written included. An access outside of a buffer or of a buffer that was freed is not
given a meaning, it ends the program with `Halt.memory`. `malloc` and `realloc` do not fail.
-/

namespace AndroidSystem.Utils

/-- How a call can end without returning. -/
inductive Halt
  /-- `LOG_ALWAYS_FATAL`. -/
  | fatal
  /-- Memory is used that is not there. -/
  | memory
  /-- Items that are destroyed or built from themselves stay. -/
  | destroyed
  deriving DecidableEq

/-- What a vector knows of the type of its items: their size, which of the `do_` functions it may
leave out, and what a default-constructed item is. `junk a i` is what is found in item `i` of the
memory at `a` before anything is written there. -/
structure ItemType (α : Type) where
  mItemSize : Nat
  pos : 0 < mItemSize
  trivialCtor : Bool
  trivialDtor : Bool
  trivialCopy : Bool
  trivialMove : Bool
  construct : α
  junk : Nat → Nat → α

/-- Items are moved as bytes. -/
def ItemType.movesBytes {α : Type} (t : ItemType α) : Bool :=
  t.trivialDtor && t.trivialCopy || t.trivialMove

/-- `data` has room for `mSize` bytes of items. -/
structure SharedBuffer (α : Type) where
  mRefs : UInt32
  mSize : Nat
  data : List α

/-- The buffers in use, and the first address that was never used. -/
structure Heap (α : Type) where
  buffers : Nat → Option (SharedBuffer α)
  next : Nat

structure VectorImpl where
  mStorage : Option Nat
  mCount : Nat
  deriving DecidableEq

/-! ## Sums and products of sizes -/

def safeAdd (a b : Nat) : Except Halt Nat := if a + b < 2 ^ 64 then .ok (a + b) else .error .fatal

def safeSub (a b : Nat) : Except Halt Nat := if b ≤ a then .ok (a - b) else .error .fatal

def safeMul (a b : Nat) : Except Halt Nat := if a * b < 2 ^ 64 then .ok (a * b) else .error .fatal

/-! ## `SharedBuffer` -/

section

variable {α : Type} (t : ItemType α)

namespace Heap

def deref (h : Heap α) (a : Nat) : Except Halt (SharedBuffer α) :=
  (h.buffers a).elim (.error .memory) .ok

def set (h : Heap α) (a : Nat) (b : Option (SharedBuffer α)) : Heap α :=
  { h with buffers := Function.update h.buffers a b }

/-- The `n` items from position `pos` on. -/
def read (h : Heap α) (s : Option Nat) (pos n : Nat) : Except Halt (List α) :=
  if n = 0 then .ok []
  else match s with
    | none => .error .memory
    | some a => do
      let b ← h.deref a
      if pos + n ≤ b.data.length then .ok ((b.data.drop pos).take n) else .error .memory

/-- The items from position `pos` on are replaced. -/
def write (h : Heap α) (a pos : Nat) (items : List α) : Except Halt (Heap α) := do
  let b ← h.deref a
  if pos + items.length ≤ b.data.length then
    .ok (h.set a (some { b with
      data := b.data.take pos ++ items ++ b.data.drop (pos + items.length) }))
  else .error .memory

/-- `_do_copy`: `n` items at position `pos` of `s` are copied. -/
def copyItems (h : Heap α) (a dest : Nat) (s : Option Nat) (pos n : Nat) :
    Except Halt (Heap α) := do
  let items ← h.read s pos n
  h.write a dest items

/-- `_do_move_forward` and `_do_move_backward`, within one buffer. Unless bytes are moved, each item
is constructed anew or its old place destroyed: one that goes to its own place is lost. -/
def moveItems (h : Heap α) (a dest pos n : Nat) : Except Halt (Heap α) :=
  if dest = pos ∧ n ≠ 0 ∧ t.movesBytes = false then .error .destroyed
  else h.copyItems a dest (some a) pos n

/-- A copy that is made only on a condition. -/
def copyItemsIf (h : Heap α) (c : Prop) [Decidable c] (a dest : Nat) (s : Option Nat)
    (pos n : Nat) : Except Halt (Heap α) :=
  if c then h.copyItems a dest s pos n else .ok h

/-- `sizeof(SharedBuffer)`. -/
def headerSize : Nat := 24

/-- A new buffer with one owner. -/
def alloc (h : Heap α) (size : Nat) : Except Halt (Heap α × Nat) :=
  if size ≥ 2 ^ 64 - 1 - headerSize then .error .fatal
  else .ok ({
    buffers := Function.update h.buffers h.next
      (some ⟨1, size, (List.range (size / t.mItemSize)).map (t.junk h.next)⟩)
    next := h.next + 1 }, h.next)

def acquire (h : Heap α) (a : Nat) : Except Halt (Heap α) := do
  let b ← h.deref a
  .ok (h.set a (some { b with mRefs := b.mRefs + 1 }))

/-- One owner less. The buffer is freed with the last one. -/
def release (h : Heap α) (a : Nat) : Except Halt (Heap α) := do
  let b ← h.deref a
  if b.mRefs = 1 then .ok (h.set a none)
  else .ok (h.set a (some { b with mRefs := b.mRefs - 1 }))

/-- What `realloc` makes of the items. -/
def resized (a : Nat) (data : List α) (n : Nat) : List α :=
  data.take n ++ ((List.range n).drop data.length).map (t.junk a)

/-- A buffer of another size with the same items, as many as fit. -/
def editResize (h : Heap α) (a newSize : Nat) : Except Halt (Heap α × Nat) := do
  let b ← h.deref a
  if b.mRefs = 1 then
    if b.mSize = newSize then .ok (h, a)
    else if newSize ≥ 2 ^ 64 - 1 - headerSize then .error .fatal
    else
      .ok (h.set a (some { b with
        mSize := newSize, data := resized t a b.data (newSize / t.mItemSize) }), a)
  else
    let r ← h.alloc t newSize
    let h ← r.1.copyItems r.2 0 (some a) 0
      ((if newSize < b.mSize then newSize else b.mSize) / t.mItemSize)
    let h ← h.release a
    .ok (h, r.2)

end Heap

/-! ## `VectorImpl` -/

namespace VectorImpl

def noMemory : Int := -12

def badValue : Int := -22

def badIndex : Int := -75

def kMinVectorCapacity : Nat := 4

section

variable (h : Heap α)
include h

def capacity (v : VectorImpl) : Except Halt Nat :=
  match v.mStorage with
  | none => .ok 0
  | some a => do
    let b ← h.deref a
    .ok (b.mSize / t.mItemSize)

def releaseStorage (v : VectorImpl) : Except Halt (Heap α) :=
  match v.mStorage with
  | none => .ok h
  | some a => h.release a

/-- The copy constructor. -/
def copy (rhs : VectorImpl) : Except Halt (Heap α × VectorImpl) :=
  match rhs.mStorage with
  | none => .ok (h, rhs)
  | some a => do
    let h ← h.acquire a
    .ok (h, rhs)

/-- `operator =` with another vector on the right. -/
def assign (v rhs : VectorImpl) : Except Halt (Heap α × VectorImpl) := do
  let h ← v.releaseStorage h
  if rhs.mCount ≠ 0 then
    match rhs.mStorage with
    | none => .error .memory
    | some a => do
      let h ← h.acquire a
      .ok (h, rhs)
  else .ok (h, ⟨none, 0⟩)

section

variable (v : VectorImpl)

def finishVector : Except Halt (Heap α × VectorImpl) := do
  let h ← v.releaseStorage h
  .ok (h, ⟨none, 0⟩)

/-- A vector that is not the only owner of its buffer gets a copy of its own. -/
def editArrayImpl : Except Halt (Heap α × VectorImpl) :=
  match v.mStorage with
  | none => .ok (h, v)
  | some a => do
    let b ← h.deref a
    if b.mRefs = 1 then .ok (h, v)
    else
      let r ← h.alloc t b.mSize
      let h ← r.1.copyItems r.2 0 v.mStorage 0 v.mCount
      let h ← v.releaseStorage h
      .ok (h, { v with mStorage := some r.2 })

/-- Room for more items than the capacity. Items with trivial copies keep their buffer when the new
ones come last, others are copied around the gap. -/
def growStorage (pos amount newAllocSize : Nat) : Except Halt (Heap α × VectorImpl) :=
  match v.mStorage, decide (v.mCount = pos) && t.trivialCopy && t.trivialDtor with
  | some a, true => do
    let r ← h.editResize t a newAllocSize
    .ok (r.1, { v with mStorage := some r.2 })
  | _, _ => do
    let r ← h.alloc t newAllocSize
    let h ← r.1.copyItemsIf (pos ≠ 0) r.2 0 v.mStorage 0 pos
    let h ← h.copyItemsIf (pos ≠ v.mCount) r.2 (pos + amount) v.mStorage pos (v.mCount - pos)
    let h ← v.releaseStorage h
    .ok (h, { v with mStorage := some r.2 })

/-- Room for more items within the capacity. -/
def growInPlace (pos amount : Nat) :
    Except Halt (Heap α × VectorImpl) := do
  let r ← v.editArrayImpl t h
  if pos ≠ v.mCount then
    match r.2.mStorage with
    | none => .error .memory
    | some a => do
      let h ← r.1.moveItems t a (pos + amount) pos (v.mCount - pos)
      .ok (h, r.2)
  else .ok r

/-- The first part of `_grow`: room for `newSize` items. -/
def growRoom (pos amount newSize oldCapacity : Nat) : Except Halt (Heap α × VectorImpl) :=
  if oldCapacity < newSize then do
    let newCapacity ← safeAdd newSize (newSize / 2)
    let newCapacity ← safeAdd newCapacity 1
    let newAllocSize ← safeMul (max kMinVectorCapacity newCapacity) t.mItemSize
    v.growStorage t h pos amount newAllocSize
  else v.growInPlace t h pos amount

/-- `_grow`: where the `amount` new items go, if there is such a place. -/
def grow (pos amount : Nat) :
    Except Halt (Heap α × VectorImpl × Option Nat) := do
  let newSize ← safeAdd v.mCount amount
  let oldCapacity ← v.capacity t h
  let r ← v.growRoom t h pos amount newSize oldCapacity
  let newCapacity ← r.2.capacity t r.1
  .ok (r.1, { r.2 with mCount := newSize },
    if pos < newCapacity then r.2.mStorage.map fun _ => pos else none)

/-- The items go to a smaller buffer. -/
def shrinkStorage (pos amount newSize newAllocSize : Nat) : Except Halt (Heap α × VectorImpl) :=
  match v.mStorage, decide (pos = newSize) && t.trivialCopy && t.trivialDtor with
  | some a, true => do
    let r ← h.editResize t a newAllocSize
    .ok (r.1, { v with mStorage := some r.2 })
  | _, _ => do
    let r ← h.alloc t newAllocSize
    let h ← r.1.copyItemsIf (pos ≠ 0) r.2 0 v.mStorage 0 pos
    let h ← h.copyItemsIf (pos ≠ newSize) r.2 pos v.mStorage (u64 (pos + amount))
      (u64OfInt (newSize - pos))
    let h ← v.releaseStorage h
    .ok (h, { v with mStorage := some r.2 })

def shrinkInPlace (pos amount newSize : Nat) :
    Except Halt (Heap α × VectorImpl) := do
  let r ← v.editArrayImpl t h
  if pos ≠ newSize then
    match r.2.mStorage with
    | none => .error .memory
    | some a => do
      let h ← r.1.moveItems t a pos (u64 (pos + amount)) (u64OfInt (newSize - pos))
      .ok (h, r.2)
  else .ok r

/-- The `amount` items at `pos` are taken out of the storage. -/
def shrinkRoom (pos amount newSize oldCapacity : Nat) : Except Halt (Heap α × VectorImpl) :=
  if newSize < oldCapacity / 2 then
    v.shrinkStorage t h pos amount newSize
      (u64 (max kMinVectorCapacity (newSize * 2) * t.mItemSize))
  else v.shrinkInPlace t h pos amount newSize

def shrink (pos amount : Nat) : Except Halt (Heap α × VectorImpl) :=
  if v.mStorage = none then .ok (h, v)
  else do
    let newSize ← safeSub v.mCount amount
    let oldCapacity ← v.capacity t h
    let r ← v.shrinkRoom t h pos amount newSize oldCapacity
    .ok (r.1, { r.2 with mCount := newSize })

/-- The place of an item, in a buffer that no other vector has. -/
def editItemLocation (index : Nat) :
    Except Halt (Heap α × VectorImpl × Option Nat) := do
  let n ← v.capacity t h
  if index < n then
    let r ← v.editArrayImpl t h
    .ok (r.1, r.2, r.2.mStorage.map fun _ => index)
  else .ok (h, v, none)

/-- Items are written at a place that `grow` or `editItemLocation` gave. -/
def store (pos : Nat) (items : List α) : Except Halt (Heap α) :=
  match v.mStorage with
  | none => .error .memory
  | some a => h.write a pos items

/-- `insertArrayAt`. The array is given by what is read from memory when it is copied. -/
def insertArrayAt (array : Heap α → Except Halt (List α))
    (index length : Nat) : Except Halt (Heap α × VectorImpl × Int) :=
  if index > v.mCount then .ok (h, v, badIndex)
  else do
    let r ← v.grow t h index length
    match r.2.2 with
    | none => .ok (r.1, r.2.1, noMemory)
    | some pos => do
      let items ← array r.1
      let h ← r.2.1.store r.1 pos items
      .ok (h, r.2.1, i64 index)

end

def insertVectorAt (v vector : VectorImpl) (index : Nat) :
    Except Halt (Heap α × VectorImpl × Int) :=
  v.insertArrayAt t h (fun h => h.read vector.mStorage 0 vector.mCount) index vector.mCount

section

variable (v : VectorImpl)

def doConstruct (pos num : Nat) : Except Halt (Heap α) :=
  if t.trivialCtor then .ok h else v.store h pos (List.replicate num t.construct)

/-- `num` items are made at a place, as copies of `item` or by default. -/
def fill (item : Option α) (pos num : Nat) : Except Halt (Heap α) :=
  match item with
  | some item => v.store h pos (List.replicate num item)
  | none => v.doConstruct t h pos num

/-- `insertAt`, without an item where the new ones are default-constructed. -/
def insertAt (item : Option α) (index numItems : Nat) : Except Halt (Heap α × VectorImpl × Int) :=
  if index > v.mCount then .ok (h, v, badIndex)
  else do
    let r ← v.grow t h index numItems
    match r.2.2 with
    | none => .ok (r.1, r.2.1, noMemory)
    | some pos => do
      let h ← r.2.1.fill t r.1 item pos numItems
      .ok (h, r.2.1, i64 index)

def push (item : Option α) : Except Halt (Heap α × VectorImpl × Int) :=
  v.insertAt t h item v.mCount 1

def replaceAt (prototype : Option α) (index : Nat) : Except Halt (Heap α × VectorImpl × Int) :=
  if index ≥ v.mCount then .ok (h, v, badIndex)
  else do
    let r ← v.editItemLocation t h index
    match r.2.2 with
    | none => .ok (r.1, r.2.1, noMemory)
    | some pos => do
      let h ← r.2.1.fill t r.1 prototype pos 1
      .ok (h, r.2.1, i64 index)

def removeItemsAt (index count : Nat) : Except Halt (Heap α × VectorImpl × Int) :=
  if u64 (index + count) > v.mCount then .ok (h, v, badValue)
  else do
    let r ← v.shrink t h index count
    .ok (r.1, r.2, i64 index)

def pop : Except Halt (Heap α × VectorImpl) :=
  if v.mCount = 0 then .ok (h, v)
  else do
    let r ← v.removeItemsAt t h (v.mCount - 1) 1
    .ok (r.1, r.2.1)

def clear : Except Halt (Heap α × VectorImpl) :=
  v.shrink t h 0 v.mCount

def setCapacity (newCapacity : Nat) : Except Halt (Heap α × VectorImpl × Int) :=
  if newCapacity ≤ v.mCount then do
    let n ← v.capacity t h
    .ok (h, v, i64 n)
  else do
    let newAllocationSize ← safeMul newCapacity t.mItemSize
    let r ← h.alloc t newAllocationSize
    let h ← r.1.copyItems r.2 0 v.mStorage 0 v.mCount
    let h ← v.releaseStorage h
    .ok (h, { v with mStorage := some r.2 }, i64 newCapacity)

/-- Items are added or removed at the end. -/
def resizeTo (size : Nat) : Except Halt (Heap α × VectorImpl × Int) :=
  if size > v.mCount then v.insertAt t h none v.mCount (size - v.mCount)
  else if size < v.mCount then v.removeItemsAt t h size (v.mCount - size)
  else .ok (h, v, 0)

def resize (size : Nat) :
    Except Halt (Heap α × VectorImpl × Int) := do
  let r ← v.resizeTo t h size
  .ok (r.1, r.2.1, if r.2.2 < 0 then r.2.2 else i64 size)

end

end

/-! ## The insertion sort -/

section

variable (cmp : α → α → Int)

/-- The `do` loop: the items before `next` that are greater than `temp` go one place up. The result
is the place that is left for `temp`. -/
def sortShift (temp : α) (v : VectorImpl) :
    Nat → Heap α → Except Halt (Heap α × Nat)
  | 0, h => .ok (h, 0)
  | curr + 1, h => do
    let item ← h.read v.mStorage curr 1
    let h ← v.store h (curr + 1) item
    if curr = 0 then .ok (h, 0)
    else
      let item ← h.read v.mStorage (curr - 1) 1
      if item.any fun x => cmp x temp > 0 then sortShift temp v curr h else .ok (h, curr)

/-- The storage is made editable when the first item moves. -/
def editOnce (h : Heap α) (v : VectorImpl) (edited : Bool) : Except Halt (Heap α × VectorImpl) :=
  if edited then .ok (h, v) else v.editArrayImpl t h

/-- One round of the `while` loop. -/
def sortRound (h : Heap α) (v : VectorImpl) (i : Nat) (edited : Bool) :
    Except Halt (Heap α × VectorImpl × Bool) := do
  let item ← h.read v.mStorage i 1
  let curr ← h.read v.mStorage (i - 1) 1
  match item, curr with
  | [temp], [prev] =>
    if cmp prev temp > 0 then
      let r ← v.editOnce t h edited
      let s ← sortShift cmp temp r.2 i r.1
      let h ← r.2.store s.1 s.2 [temp]
      .ok (h, r.2, true)
    else .ok (h, v, edited)
  | _, _ => .error .memory

def sortLoop :
    Nat → Nat → Heap α → VectorImpl → Bool → Except Halt (Heap α × VectorImpl)
  | 0, _, h, v, _ => .ok (h, v)
  | n + 1, i, h, v, edited => do
    let r ← v.sortRound t cmp h i edited
    sortLoop n (i + 1) r.1 r.2.1 r.2.2

/-- `sort`: the rounds are those for the items `1` to `count - 1`. -/
def sort (h : Heap α) (v : VectorImpl) : Except Halt (Heap α × VectorImpl) :=
  sortLoop t cmp (v.mCount - 1) 1 h v false

end

end VectorImpl

end

end AndroidSystem.Utils
