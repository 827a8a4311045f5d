import AndroidSystem.Utils.BasicHashtable

/-!
# `LruCache`

A model of `include/utils/LruCache.h`: a map with a limit on its size, which drops the entry that has
not been used for the longest time. The entries are in a `BasicHashtable`, and each has pointers to
its neighbours in a doubly linked list from `mOldest` to `mYoungest`. A pointer is the index of a
bucket of the table.

The table is replaced when it is full (`rehash`): every entry is put into a new table by `put`, which
could call `rehash` in turn, so the recursion has a depth here. `hashType` is `hash_type`. The calls
of the listener are collected in `notified`; a listener does not call back.
-/

namespace AndroidSystem.Utils

open Function (update)

/-- Why a call does not return. -/
inductive Fault where
  | stop (s : Stop)
  /-- A pointer to no entry. -/
  | dangling
  deriving DecidableEq, Repr

def liftStop {α : Type} : Except Stop α → Except Fault α := Except.mapError .stop

/-! ## Entries -/

structure LruEntry (K V : Type) where
  key : K
  value : V
  parent : Option Nat := none
  child : Option Nat := none

/-- `entryAt`, if there is an entry. -/
def Hashtable.entryAt {E : Type} (t : Hashtable E) (index : Nat) : Option E :=
  if (t.cells index).present then (t.cells index).entry else none

def Hashtable.setEntry {E : Type} (t : Hashtable E) (index : Nat) (entry : E) : Hashtable E :=
  { t with buckets := some (update t.cells index { t.cells index with entry }) }

structure LruCache (K V : Type) where
  table : Hashtable (LruEntry K V)
  oldest : Option Nat
  youngest : Option Nat
  /-- 0 is no limit. -/
  maxCapacity : Nat
  notified : List (K × V)

namespace LruCache

variable {K V : Type}

def new (maxCapacity : Nat) : Except Fault (LruCache K V) := do
  let table ← liftStop (Hashtable.new 0 0.75)
  return { table, oldest := none, youngest := none, maxCapacity, notified := [] }

section

variable (c : LruCache K V)

def size : Nat := c.table.size

/-- What a pointer points to. -/
def deref (p : Nat) : Except Fault (LruEntry K V) :=
  match c.table.entryAt p with
  | some entry => .ok entry
  | none => .error .dangling

/-- `p->parent = q` -/
def setParent (p : Nat) (q : Option Nat) : Except Fault (LruCache K V) := do
  let entry ← c.deref p
  return { c with table := c.table.setEntry p { entry with parent := q } }

/-- `p->child = q` -/
def setChild (p : Nat) (q : Option Nat) : Except Fault (LruCache K V) := do
  let entry ← c.deref p
  return { c with table := c.table.setEntry p { entry with child := q } }

end

/-! ## The list -/

section

variable (c : LruCache K V)

def attachToCache (p : Nat) : Except Fault (LruCache K V) :=
  match c.youngest with
  | none => return { c with youngest := some p, oldest := some p }
  | some youngest => do
    let c ← c.setParent p (some youngest)
    let c ← c.setChild youngest (some p)
    return { c with youngest := some p }

/-- `detachFromCache`, where the entry is linked to the one before it. -/
def detachParent (entry : LruEntry K V) : Except Fault (LruCache K V) :=
  match entry.parent with
  | some q => c.setChild q entry.child
  | none => return { c with oldest := entry.child }

/-- `detachFromCache`, where the entry is linked to the one after it. -/
def detachChild (entry : LruEntry K V) : Except Fault (LruCache K V) :=
  match entry.child with
  | some q => c.setParent q entry.parent
  | none => return { c with youngest := entry.parent }

def detachFromCache (p : Nat) : Except Fault (LruCache K V) := do
  let entry ← c.deref p
  let c ← c.detachParent entry
  let entry ← c.deref p
  let c ← c.detachChild entry
  let c ← c.setParent p none
  c.setChild p none

end

/-- The entries from `p` on. -/
def walk (t : Hashtable (LruEntry K V)) : Nat → Option Nat → Except Fault (List (LruEntry K V))
  | _, none => .ok []
  | 0, some _ => .error (.stop .endless)
  | n + 1, some p =>
    match t.entryAt p with
    | some entry => do
      let l ← walk t n entry.child
      return entry :: l
    | none => .error .dangling

/-! ## The operations -/

section

variable [DecidableEq K] (hashType : K → UInt32)

section

variable (c : LruCache K V)

def find (key : K) : Except Fault (Option Nat) :=
  liftStop (c.table.find LruEntry.key none (hashType key) key)

/-- `get`. `none` is the null value. -/
def get (key : K) : Except Fault (LruCache K V × Option V) := do
  match ← c.find hashType key with
  | none => return (c, none)
  | some p =>
    let c ← c.detachFromCache p
    let c ← c.attachToCache p
    let entry ← c.deref p
    return (c, some entry.value)

def remove (key : K) : Except Fault (LruCache K V × Bool) := do
  match ← c.find hashType key with
  | none => return (c, false)
  | some p =>
    let entry ← c.deref p
    let c ← { c with notified := c.notified ++ [(entry.key, entry.value)] }.detachFromCache p
    return ({ c with table := c.table.removeAt p }, true)

def removeOldest : Except Fault (LruCache K V × Bool) :=
  match c.oldest with
  | some p => do
    let entry ← c.deref p
    c.remove hashType entry.key
  | none => return (c, false)

def clear : Except Fault (LruCache K V) := do
  let entries ← walk c.table c.table.bucketCount c.oldest
  return { c with
    notified := c.notified ++ entries.map fun entry => (entry.key, entry.value)
    youngest := none
    oldest := none
    table := c.table.clear }

end

/-- `rehash`. The entries of the old table are put into a new one. -/
def rehash (put : LruCache K V → K → V → Except Fault (LruCache K V × Bool)) (c : LruCache K V)
    (newCapacity : Nat) : Except Fault (LruCache K V) := do
  let table ← liftStop (Hashtable.new newCapacity 0.75)
  let entries ← walk c.table c.table.bucketCount c.oldest
  entries.foldlM (fun c entry => Prod.fst <$> put c entry.key entry.value)
    { c with oldest := none, youngest := none, table }

/-- `put`: make place for an entry. -/
def evict (c : LruCache K V) : Except Fault (LruCache K V) :=
  if c.maxCapacity ≠ 0 ∧ c.size ≥ c.maxCapacity then Prod.fst <$> c.removeOldest hashType
  else return c

/-- `put`: the last part, where there is room in the table. -/
def insert (c : LruCache K V) (key : K) (value : V) : Except Fault (LruCache K V) := do
  let (table, p) ← liftStop (c.table.add (hashType key) { key, value })
  { c with table }.attachToCache p

/-- `put`, called from at most `depth` calls of `put`. -/
def putDepth : Nat → LruCache K V → K → V → Except Fault (LruCache K V × Bool)
  | 0, _, _, _ => .error (.stop .endless)
  | depth + 1, c, key, value => do
    let c ← c.evict hashType
    match ← c.find hashType key with
    | some _ => return (c, false)
    | none =>
      let c ← if ¬c.table.hasMoreRoom then c.rehash (putDepth depth) (c.table.capacity * 2)
        else pure c
      let c ← c.insert hashType key value
      return (c, true)

/-- `put`. A call from `rehash` does not call `rehash` again. -/
def put (c : LruCache K V) (key : K) (value : V) : Except Fault (LruCache K V × Bool) :=
  putDepth hashType 2 c key value

end

end LruCache

end AndroidSystem.Utils
