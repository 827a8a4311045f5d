import AndroidSystem.Lib.Rounding

/-!
# `BasicHashtable`

A model of `libutils/BasicHashtable.cpp` and `BasicHashtable.h`: a hash table with open addressing
and double hashing over a prime number of buckets. The cookie of a bucket holds two flags and 30
bits of the hash code. Entries are of any type `E`, with a key of type `K`.

A bucket that an entry was once pushed past has `COLLISION` set, and keeps it when its own entry is
removed. So `mFilledBuckets` counts the buckets with either flag, and a search goes on as long as it
sees `COLLISION`.

A loop that does not come to its end is `endless`, and `LOG_ALWAYS_FATAL_IF` is `fatal`. The
computations with `float` are those of `Lib/Rounding`.
-/

namespace AndroidSystem.Utils

open Function (update)

/-- Why a call does not return. -/
inductive Stop where
  | fatal
  | endless
  /-- `determineCapacity` reads behind its table, and what follows is undefined. -/
  | pastPrimes
  deriving DecidableEq, Repr

/-! ## Buckets -/

/-- A bucket: the flags and the hash code of its cookie, and the entry. -/
structure Bucket (E : Type) where
  collision : Bool := false
  present : Bool := false
  hash : UInt32 := 0
  entry : Option E := none

/-- Trim a hash code to 30 bits. -/
def trimHash (hash : UInt32) : UInt32 := (hash &&& (0x3fffffff : UInt32)) ^^^ (hash >>> 30)

/-- The first bucket of a collision chain. -/
def chainStart (hash : UInt32) (count : Nat) : Nat := hash.toNat % count

def chainIncrement (hash : UInt32) (count : Nat) : Nat :=
  ((hash >>> 7) ||| (hash <<< 25)).toNat % (count - 1) + 1

/-- The next bucket of a collision chain. -/
def chainSeek (index increment count : Nat) : Nat := (index + increment) % count

/-! ## Capacity -/

def primes : List Nat :=
  [5, 11, 23, 47, 97, 197, 397, 797, 1597, 3203, 6421, 12853, 25717, 51437, 102877, 205759, 411527,
    823117, 1646237, 3292489, 6584983, 13169977, 26339969, 52679969, 105359939, 210719881, 421439783,
    842879579, 1685759167, 0]

/-- The number of buckets asked for: `ceilf(minimumCapacity / loadFactor) + 1`. -/
def bucketsFor (minimumCapacity : Nat) (loadFactor : ℚ) : Nat :=
  ⌊roundSingle (⌈roundSingle (roundSingle minimumCapacity / loadFactor)⌉ + 1)⌋.toNat

/-- `ceilf((count - 1) * loadFactor)`. -/
def capacityOf (count : Nat) (loadFactor : ℚ) : Nat :=
  ⌈roundSingle (roundSingle (count - 1 : Nat) * loadFactor)⌉.toNat

/-- `determineCapacity`: the number of buckets, and the capacity. The loop reads an entry before it
compares the index, so that it reads behind the table when no prime is large enough. -/
def determineCapacity (minimumCapacity : Nat) (loadFactor : ℚ) : Except Stop (Nat × Nat) :=
  if loadFactor ≤ 0 ∨ loadFactor > 1 then .error .fatal
  else match primes.find? fun prime => ¬bucketsFor minimumCapacity loadFactor > prime with
    | none => .error .pastPrimes
    | some count =>
      if count = 0 then .error .fatal else .ok (count, capacityOf count loadFactor)

/-! ## The table -/

structure Hashtable (E : Type) where
  capacity : Nat
  loadFactor : ℚ
  size : Nat
  filledBuckets : Nat
  bucketCount : Nat
  /-- `mBuckets`, or `NULL`. -/
  buckets : Option (Nat → Bucket E)

variable {E K : Type}

/-- The constructor. -/
def Hashtable.new (minimumInitialCapacity : Nat) (loadFactor : ℚ) : Except Stop (Hashtable E) := do
  let (bucketCount, capacity) ← determineCapacity minimumInitialCapacity loadFactor
  return { capacity, loadFactor, size := 0, filledBuckets := 0, bucketCount, buckets := none }

/-- The buckets, as `allocateBuckets` makes them where there are none yet. -/
def Hashtable.cells (t : Hashtable E) : Nat → Bucket E := t.buckets.getD fun _ => {}

/-- From the bucket at `index`, mark every bucket with an entry and go on, up to a bucket without. -/
def probeFree (count inc : Nat) : Nat → (Nat → Bucket E) → Nat →
    Except Stop ((Nat → Bucket E) × Nat)
  | fuel, b, index =>
    if (b index).present then
      match fuel with
      | 0 => .error .endless
      | fuel + 1 =>
        probeFree count inc fuel (update b index { b index with collision := true })
          (chainSeek index inc count)
    else .ok (b, index)

/-- The bucket for an entry with hash code `hash`, among `count` buckets. -/
def findFree (count : Nat) (hash : UInt32) (b : Nat → Bucket E) :
    Except Stop ((Nat → Bucket E) × Nat) :=
  probeFree count (chainIncrement hash count) count b (chainStart hash count)

/-- `rehash`, for one bucket of the old table. -/
def moveBucket (newBucketCount : Nat) (b : Nat → Bucket E) (fromBucket : Bucket E) :
    Except Stop (Nat → Bucket E) :=
  if fromBucket.present then do
    let (b, index) ← findFree newBucketCount fromBucket.hash b
    return update b index { present := true, hash := fromBucket.hash, entry := fromBucket.entry }
  else return b

/-- `rehash`: the first `n` buckets of the old table in a new one. -/
def moveBuckets (newBucketCount : Nat) (old : Nat → Bucket E) : Nat →
    Except Stop (Nat → Bucket E)
  | 0 => return fun _ => {}
  | n + 1 => do
    let b ← moveBuckets newBucketCount old n
    moveBucket newBucketCount b (old n)

def Hashtable.rehash (t : Hashtable E) (minimumCapacity : Nat) (loadFactor : ℚ) :
    Except Stop (Hashtable E) := do
  let (newBucketCount, newCapacity) ← determineCapacity (max minimumCapacity t.size) loadFactor
  if newBucketCount ≠ t.bucketCount ∨ newCapacity ≠ t.capacity then
    match t.buckets with
    | none => return { t with bucketCount := newBucketCount, capacity := newCapacity, loadFactor }
    | some old =>
      if t.size ≠ 0 then
        let b ← moveBuckets newBucketCount old t.bucketCount
        return { t with
          buckets := some b, filledBuckets := t.size
          bucketCount := newBucketCount, capacity := newCapacity, loadFactor }
      else return { t with
        buckets := none, filledBuckets := t.size
        bucketCount := newBucketCount, capacity := newCapacity, loadFactor }
  else return { t with loadFactor }

/-- `add`, from the second statement on. `n` bounds the iterations. -/
def Hashtable.addLoop (hash : UInt32) (entry : E) : Nat → Hashtable E →
    Except Stop (Hashtable E × Nat)
  | 0, _ => .error .endless
  | n + 1, t => do
    let (b, index) ← findFree t.bucketCount hash t.cells
    if (b index).collision then
      return ({ t with
        buckets := some (update b index { collision := true, present := true, hash, entry })
        size := t.size + 1 }, index)
    else if t.filledBuckets ≥ t.capacity then
      let t ← Hashtable.rehash { t with buckets := some b } (t.capacity * 2) t.loadFactor
      Hashtable.addLoop hash entry n t
    else
      return ({ t with
        buckets := some (update b index { collision := false, present := true, hash, entry })
        filledBuckets := t.filledBuckets + 1
        size := t.size + 1 }, index)

/-- `add`. The table has grown enough after one `rehash`. -/
def Hashtable.add (t : Hashtable E) (hash : UInt32) (entry : E) :
    Except Stop (Hashtable E × Nat) :=
  Hashtable.addLoop (trimHash hash) entry 2 t

/-- `removeAt`, for the index of an entry. -/
def Hashtable.removeAt (t : Hashtable E) (index : Nat) : Hashtable E :=
  let bucket := t.cells index
  { t with
    buckets := some (update t.cells index { bucket with present := false })
    filledBuckets := if bucket.collision then t.filledBuckets else t.filledBuckets - 1
    size := t.size - 1 }

def Hashtable.clear (t : Hashtable E) : Hashtable E :=
  match t.buckets with
  | none => t
  | some b =>
    if t.filledBuckets ≠ 0 then { t with
      buckets := some fun i => { b i with collision := false, present := false, hash := 0 }
      filledBuckets := 0
      size := 0 }
    else { t with size := 0 }

/-! ## Searching -/

section Find

variable [DecidableEq K] (getKey : E → K)

def compareBucketKey (bucket : Bucket E) (key : K) : Bool :=
  bucket.entry.map getKey = some key

/-- The loop of `find`, in `n` steps. -/
def findLoop (t : Hashtable E) (hash : UInt32) (key : K) : Nat → Nat → Except Stop (Option Nat)
  | 0, _ => .error .endless
  | n + 1, index =>
    let index := chainSeek index (chainIncrement hash t.bucketCount) t.bucketCount
    let bucket := t.cells index
    if bucket.present ∧ bucket.hash = hash ∧ compareBucketKey getKey bucket key then
      .ok (some index)
    else if ¬bucket.collision then .ok none
    else findLoop t hash key n index

/-- `find`: from the start where `index` is `none`, or after an earlier result. -/
def Hashtable.find (t : Hashtable E) (index : Option Nat) (hash : UInt32) (key : K) :
    Except Stop (Option Nat) :=
  if t.size = 0 then .ok none
  else
    let hash := trimHash hash
    match index with
    | some index => findLoop getKey t hash key t.bucketCount index
    | none =>
      let index := chainStart hash t.bucketCount
      let bucket := t.cells index
      if bucket.present then
        if compareBucketKey getKey bucket key then .ok (some index)
        else findLoop getKey t hash key t.bucketCount index
      else if ¬bucket.collision then .ok none
      else findLoop getKey t hash key t.bucketCount index

end Find

def Hashtable.hasMoreRoom (t : Hashtable E) : Bool := t.capacity > t.filledBuckets

end AndroidSystem.Utils
