import AndroidSystem.Lib.Machine
import AndroidSystem.Lib.Region

/-!
# `BlobCache`

A model of `libutils/BlobCache.cpp`: a cache for binary keys and values with a limit on the sum of
their sizes. The entries are in a `SortedVector`, which is a list in the order of the keys here. When
a new entry does not fit, `clean` removes entries chosen at random until the cache is half empty.

`mTotalSize` is kept apart from the entries, and `unflatten` removes all entries without setting it.

`size_t` has 64 bits and the words of the serialized form are little-endian. Sums are taken modulo
`2 ^ 64`, since the sizes in a serialized cache can be anything.
-/

namespace AndroidSystem.Utils

/-- Why a call does not return. -/
inductive BlobFault where
  /-- `clean` with no entry to choose from. -/
  | divByZero
  /-- A read or a write outside of the buffer. -/
  | outside
  | endless
  deriving DecidableEq, Repr

inductive Status where
  | ok
  | badValue
  deriving DecidableEq, Repr

def need {α : Type} : Option α → Except BlobFault α
  | some a => .ok a
  | none => .error .outside

/-- `memcmp` finds the first block to be less. -/
def memcmpLt : List UInt8 → List UInt8 → Bool
  | a :: as, b :: bs => a < b || (a = b && memcmpLt as bs)
  | _, _ => false

/-- `Blob::operator<` -/
def blobLt (a b : Region) : Bool :=
  if a.size = b.size then memcmpLt a.bytes b.bytes else a.size < b.size

structure BlobCache where
  maxKeySize : Nat
  maxValueSize : Nat
  maxTotalSize : Nat
  totalSize : Nat
  entries : List (Region × Region)
  /-- What `blob_random` will return. -/
  rand : Nat → Nat

/-- The size of an entry. -/
def entrySize (e : Region × Region) : Nat := e.1.size + e.2.size

namespace BlobCache

def new (maxKeySize maxValueSize maxTotalSize : Nat) (rand : Nat → Nat) : BlobCache :=
  { maxKeySize, maxValueSize, maxTotalSize, totalSize := 0, entries := [], rand }

/-! ## Cleaning -/

def isCleanable (c : BlobCache) : Bool := c.totalSize > c.maxTotalSize / 2

/-- `clean`: one pass of the loop. -/
def removeRandom (c : BlobCache) : BlobCache :=
  let i := c.rand 0 % c.entries.length
  { c with
    totalSize := u64OfInt (c.totalSize - (c.entries[i]?.map entrySize).getD 0)
    entries := c.entries.eraseIdx i
    rand := fun n => c.rand (n + 1) }

def cleanLoop : Nat → BlobCache → Except BlobFault BlobCache
  | 0, _ => .error .endless
  | n + 1, c =>
    if c.isCleanable then
      if c.entries.length = 0 then .error .divByZero else cleanLoop n c.removeRandom
    else .ok c

def clean (c : BlobCache) : Except BlobFault BlobCache := cleanLoop (c.entries.length + 1) c

/-! ## `set` and `get` -/

/-- Whether `set` goes on after its checks. -/
def admits (c : BlobCache) (keySize valueSize : Nat) : Bool :=
  !(c.maxKeySize < keySize || c.maxValueSize < valueSize ||
    c.maxTotalSize < u64 (keySize + valueSize) || keySize = 0 || valueSize = 0)

def indexOf (c : BlobCache) (key : Region) : Option Nat :=
  c.entries.findIdx? fun e => e.1 = key

/-- `SortedVector::add`, for a new key. -/
def insertEntry (e : Region × Region) : List (Region × Region) → List (Region × Region)
  | [] => [e]
  | x :: l => if blobLt e.1 x.1 then e :: x :: l else x :: insertEntry e l

/-- The total size with an entry added or changed, and the entries. -/
def update (c : BlobCache) (key value : Region) : Nat × List (Region × Region) :=
  match c.indexOf key with
  | none => (u64 (c.totalSize + key.size + value.size), insertEntry (key, value) c.entries)
  | some i =>
    (u64OfInt (c.totalSize + value.size - (c.entries[i]?.map fun e => e.2.size).getD 0),
      c.entries.modify i fun e => (e.1, value))

/-- The loop of `set`, in `n` passes. -/
def setLoop : Nat → BlobCache → Region → Region → Except BlobFault BlobCache
  | 0, _, _, _ => .error .endless
  | n + 1, c, key, value =>
    let (newTotalSize, entries) := c.update key value
    if c.maxTotalSize < newTotalSize then
      if c.isCleanable then do
        let c ← c.clean
        setLoop n c key value
      else .ok c
    else .ok { c with totalSize := newTotalSize, entries }

/-- `set` with the sizes of a key and a value that are read when the checks have been passed. After
`clean` there is nothing more to clean, so the loop has two passes. -/
def setSized (c : BlobCache) (keySize valueSize : Nat) (blobs : Except BlobFault (Region × Region)) :
    Except BlobFault BlobCache :=
  if c.admits keySize valueSize then do
    let (key, value) ← blobs
    setLoop 2 c key value
  else .ok c

def set (c : BlobCache) (key value : Region) : Except BlobFault BlobCache :=
  c.setSized key.size value.size (.ok (key, value))

/-- `get`: what it returns, and what it copies to a buffer of `valueSize` bytes. -/
def get (c : BlobCache) (key : Region) (valueSize : Nat) : Nat × Option Region :=
  if c.maxKeySize < key.size then (0, none)
  else match (c.indexOf key).bind fun i => c.entries[i]? with
    | none => (0, none)
    | some e => (e.2.size, if e.2.size ≤ valueSize then some e.2 else none)

/-! ## The serialized form -/

def blobCacheMagic : Nat := 0x5f426224

def blobCacheVersion : Nat := 3

def blobCacheDeviceVersion : Nat := 1

/-- `sizeof(Header)`. The build id is at offset 28. -/
def sizeofHeader : Nat := 32

def sizeofEntryHeader : Nat := 16

def propertyValueMax : Nat := 92

/-- The property `ro.build.id`. -/
structure BuildId where
  bytes : List UInt8
  short : bytes.length < propertyValueMax
  noNul : ∀ b ∈ bytes, b ≠ 0

def align4 (size : Nat) : Nat := u64 (size + 3) - u64 (size + 3) % 4

/-- The size of a serialized entry. -/
def flatSize (keySize valueSize : Nat) : Nat :=
  align4 (u64 (sizeofEntryHeader + keySize + valueSize))

def getFlattenedSize (c : BlobCache) : Nat :=
  c.entries.foldl (fun size e => u64 (size + flatSize e.1.size e.2.size))
    (align4 (sizeofHeader + propertyValueMax))

/-- A serialized entry, with its padding. -/
def flatEntry (e : Region × Region) : List UInt8 :=
  le 8 e.1.size ++ le 8 e.2.size ++ e.1.bytes ++ e.2.bytes ++
    List.replicate (flatSize e.1.size e.2.size - u64 (sizeofEntryHeader + e.1.size + e.2.size)) 0

def flattenLoop : List (Region × Region) → Nat → Region → Except BlobFault (Status × Region)
  | [], _, buffer => .ok (.ok, buffer)
  | e :: entries, byteOffset, buffer =>
    let totalSize := flatSize e.1.size e.2.size
    if u64 (byteOffset + totalSize) > buffer.size then .ok (.badValue, buffer)
    else do
      let buffer ← need (buffer.write byteOffset (flatEntry e))
      flattenLoop entries (u64 (byteOffset + totalSize)) buffer

/-- The fields of the header before and after the gap at offset 12. -/
def flatten (buildId : BuildId) (c : BlobCache) (buffer : Region) :
    Except BlobFault (Status × Region) :=
  if buffer.size < sizeofHeader then .ok (.badValue, buffer)
  else do
    let buffer ← need (buffer.write 0
      (le 4 blobCacheMagic ++ le 4 blobCacheVersion ++ le 4 blobCacheDeviceVersion))
    let buffer ← need (buffer.write 16
      (le 8 c.entries.length ++ le 4 buildId.bytes.length ++ buildId.bytes))
    flattenLoop c.entries (align4 (sizeofHeader + buildId.bytes.length)) buffer

/-- `strncmp`, of a string with as many characters as are compared. -/
def strncmpEq (buffer : Region) : List UInt8 → Nat → Except BlobFault Bool
  | [], _ => .ok true
  | a :: as, offset => do
    let b ← need (buffer.readWord offset 1)
    if b ≠ a.toNat then return false
    else if a = 0 then return true
    else strncmpEq buffer as (offset + 1)

/-- What `unflatten` makes of the header: it stops, or goes on to the entries. -/
inductive HeaderCheck where
  | stop (status : Status)
  | accept (numEntries : Nat)

def readHeader (buildId : BuildId) (buffer : Region) : Except BlobFault HeaderCheck :=
  if buffer.size < sizeofHeader then .ok (.stop .badValue)
  else do
    let magic ← need (buffer.readWord 0 4)
    if magic ≠ blobCacheMagic then return .stop .badValue
    else
      let version ← need (buffer.readWord 4 4)
      let deviceVersion ← need (buffer.readWord 8 4)
      let length ← need (buffer.readWord 24 4)
      if version ≠ blobCacheVersion ∨ deviceVersion ≠ blobCacheDeviceVersion ∨
          buildId.bytes.length ≠ length then return .stop .ok
      else
        let same ← strncmpEq buffer buildId.bytes 28
        if same then
          let numEntries ← need (buffer.readWord 16 8)
          return .accept numEntries
        else return .stop .ok

def unflattenLoop (buffer : Region) : Nat → Nat → BlobCache → Except BlobFault (Status × BlobCache)
  | 0, _, c => .ok (.ok, c)
  | n + 1, byteOffset, c =>
    if u64 (byteOffset + sizeofEntryHeader) > buffer.size then
      .ok (.badValue, { c with entries := [] })
    else do
      let keySize ← need (buffer.readWord byteOffset 8)
      let valueSize ← need (buffer.readWord (byteOffset + 8) 8)
      let totalSize := flatSize keySize valueSize
      if u64 (byteOffset + totalSize) > buffer.size then return (.badValue, { c with entries := [] })
      else
        let data := byteOffset + sizeofEntryHeader
        let c ← c.setSized keySize valueSize do
          let key ← need (buffer.read data keySize)
          let value ← need (buffer.read (data + keySize) valueSize)
          return (key, value)
        unflattenLoop buffer n (u64 (byteOffset + totalSize)) c

/-- `unflatten`. The entries are removed first, and `mTotalSize` stays. -/
def unflatten (buildId : BuildId) (c : BlobCache) (buffer : Region) :
    Except BlobFault (Status × BlobCache) := do
  let c := { c with entries := [] }
  match ← readHeader buildId buffer with
  | .stop status => return (status, c)
  | .accept numEntries =>
    unflattenLoop buffer numEntries (align4 (sizeofHeader + buildId.bytes.length)) c

end BlobCache

end AndroidSystem.Utils
