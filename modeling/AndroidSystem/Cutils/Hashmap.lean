import AndroidSystem.Lib.Machine

/-!
# `hashmap`

A model of `libcutils/hashmap.c`: a hash map with chained entries. A bucket is the chain of its
entries, from the first one on, and an entry carries its address, since `hashmapForEach` keeps a
pointer to the next entry while its callback runs. A `void*` value is `none` for `NULL`. Allocation
does not fail.
-/

namespace AndroidSystem.Cutils

/-- The two functions a map is created with. -/
structure HashFunctions (K : Type) where
  hash : K → Int32
  equals : K → K → Bool

/-- Hashes the given key. The sums and shifts of `int` wrap around. -/
def hashKey {K : Type} (h : HashFunctions K) (key : K) : Int32 :=
  let x := h.hash key
  let x := x + ~~~(x <<< 9)
  let x := x ^^^ (x.toUInt32 >>> 14).toInt32
  let x := x + (x <<< 4)
  x ^^^ (x.toUInt32 >>> 10).toInt32

/-- The functions fit each other: the equality is an equivalence, and equal keys are hashed alike. -/
structure Hashing (K : Type) extends HashFunctions K where
  equals_refl : ∀ a, equals a a = true
  equals_symm : ∀ {a b}, equals a b = true → equals b a = true
  equals_trans : ∀ {a b c}, equals a b = true → equals b c = true → equals a c = true
  hash_eq : ∀ {a b}, equals a b = true → hashKey ⟨hash, equals⟩ a = hashKey ⟨hash, equals⟩ b

instance {K : Type} : Coe (Hashing K) (HashFunctions K) := ⟨Hashing.toHashFunctions⟩

structure Entry (K V : Type) where
  addr : Nat
  key : K
  hash : Int32
  value : Option V

/-- A map. `fresh` is the address of the next entry that is allocated. -/
structure Hashmap (K V : Type) where
  buckets : List (List (Entry K V))
  size : Nat
  fresh : Nat

variable {K V : Type}

namespace Hashmap

def bucketCount (map : Hashmap K V) : Nat := map.buckets.length

/-- The chain of a bucket. -/
def chain (map : Hashmap K V) (index : Nat) : List (Entry K V) := map.buckets.getD index []

/-- The entries, bucket by bucket. -/
def entries (map : Hashmap K V) : List (Entry K V) := map.buckets.flatten

end Hashmap

/-! ## Creation -/

/-- The loop of `hashmapCreate` doubles the number of buckets until it exceeds the minimum. It runs at
most `minimumBucketCount + 1` times. -/
def doubleBuckets (minimumBucketCount : Nat) : Nat → Nat → Nat
  | 0, bucketCount => bucketCount
  | n + 1, bucketCount =>
    if bucketCount ≤ minimumBucketCount then doubleBuckets minimumBucketCount n (bucketCount <<< 1)
    else bucketCount

def hashmapCreate (initialCapacity : Nat) : Hashmap K V :=
  let minimumBucketCount := initialCapacity * 4 / 3
  let bucketCount := doubleBuckets minimumBucketCount (minimumBucketCount + 1) 1
  ⟨List.replicate bucketCount [], 0, 0⟩

/-! ## Hash codes -/

section

variable (h : HashFunctions K)

def hashmapSize (map : Hashmap K V) : Nat := map.size

def calculateIndex (bucketCount : Nat) (hash : Int32) : Nat :=
  u64OfInt hash.toInt &&& (bucketCount - 1)

/-- Link an entry at the head of its new bucket. -/
def relink (newBucketCount : Nat) (newBuckets : List (List (Entry K V))) (entry : Entry K V) :
    List (List (Entry K V)) :=
  newBuckets.modify (calculateIndex newBucketCount entry.hash) (entry :: ·)

def expandIfNecessary (map : Hashmap K V) : Hashmap K V :=
  if map.size > map.bucketCount * 3 / 4 then
    let newBucketCount := map.bucketCount <<< 1
    let newBuckets := map.buckets.foldl (fun buckets chain => chain.foldl (relink newBucketCount) buckets)
      (List.replicate newBucketCount [])
    { map with buckets := newBuckets }
  else map

variable [DecidableEq K]

/-- Equal pointers are equal keys. -/
def equalKeys (keyA : K) (hashA : Int32) (keyB : K) (hashB : Int32) : Bool :=
  if keyA = keyB then true else if hashA ≠ hashB then false else h.equals keyA keyB

/-! ## Operations -/

/-- The loop over a chain that every operation has: the entries before the key, and those from it
on. -/
def walk (key : K) (chain : List (Entry K V)) : List (Entry K V) × List (Entry K V) :=
  chain.span fun current => !equalKeys h current.key current.hash key (hashKey h key)

section

variable (map : Hashmap K V) (key : K)

/-- The bucket of a key. -/
def indexOf : Nat := calculateIndex map.bucketCount (hashKey h key)

/-- Add a new entry behind the end of a chain. -/
def addEntry (value : Option V) : Hashmap K V :=
  let index := indexOf h map key
  let entry : Entry K V := ⟨map.fresh, key, hashKey h key, value⟩
  expandIfNecessary
    ⟨map.buckets.set index (map.chain index ++ [entry]), map.size + 1, map.fresh + 1⟩

def hashmapPut (value : Option V) : Option V × Hashmap K V :=
  let index := indexOf h map key
  match walk h key (map.chain index) with
  | (_, []) => (none, addEntry h map key value)
  | (before, current :: after) =>
    (current.value,
      { map with buckets := map.buckets.set index (before ++ { current with value } :: after) })

def hashmapGet : Option V :=
  match (walk h key (map.chain (indexOf h map key))).2 with
  | [] => none
  | entry :: _ => entry.value

def hashmapContainsKey : Bool :=
  match (walk h key (map.chain (indexOf h map key))).2 with
  | [] => false
  | _ :: _ => true

/-- `initialValue` is the callback with its context. -/
def hashmapMemoize (initialValue : K → Option V) : Option V × Hashmap K V :=
  match (walk h key (map.chain (indexOf h map key))).2 with
  | [] => (initialValue key, addEntry h map key (initialValue key))
  | current :: _ => (current.value, map)

def hashmapRemove : Option V × Hashmap K V :=
  let index := indexOf h map key
  match walk h key (map.chain index) with
  | (_, []) => (none, map)
  | (before, current :: after) =>
    (current.value,
      { map with buckets := map.buckets.set index (before ++ after), size := map.size - 1 })

end

end

/-! ## Iteration -/

namespace Hashmap

/-- The entry at an address and what follows it in its chain, if the entry has not been freed. -/
def entryAt (map : Hashmap K V) (addr : Nat) : Option (Entry K V × List (Entry K V)) :=
  map.buckets.findSome? fun chain =>
    match chain.dropWhile (·.addr ≠ addr) with
    | [] => none
    | entry :: rest => some (entry, rest)

/-- The address of the first entry of a bucket. -/
def first (map : Hashmap K V) (index : Nat) : Option Nat := (map.chain index).head?.map (·.addr)

end Hashmap

section

variable {C : Type} (callback : K → Option V → Hashmap K V × C → Bool × (Hashmap K V × C))

/-- The loops of `hashmapForEach`, at bucket `i` and the entry a pointer points to. The callback may
change the map and its context, and says whether to go on. The result is `none` if the pointer is
dangling, or if `fuel` does not suffice. -/
def forEachLoop :
    Nat → Nat → Option Nat → Hashmap K V × C → Option (Hashmap K V × C)
  | 0, _, _, _ => none
  | fuel + 1, i, none, s =>
    if i + 1 < s.1.bucketCount then forEachLoop fuel (i + 1) (s.1.first (i + 1)) s else some s
  | fuel + 1, i, some addr, s =>
    match s.1.entryAt addr with
    | none => none
    | some (entry, rest) =>
      let next := rest.head?.map (·.addr)
      let r := callback entry.key entry.value s
      if r.1 then forEachLoop fuel i next r.2 else some r.2

def hashmapForEach (fuel : Nat) (map : Hashmap K V) (context : C) : Option (Hashmap K V × C) :=
  if 0 < map.bucketCount then forEachLoop callback fuel 0 (map.first 0) (map, context)
  else some (map, context)

end

end AndroidSystem.Cutils
