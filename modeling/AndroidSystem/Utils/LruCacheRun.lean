import AndroidSystem.Lib.Except
import AndroidSystem.Utils.LruLinks

/-!
# `LruCache` as an ordered map

`LruMap` is what a cache is for: the list of its keys and values, from the least to the most recently
used. Every operation of the cache does to the list what the operation of the same name does there
(`Refines`), or stops the program because the table cannot grow any more.

`lruCache_refines` is about every sequence of calls. The entries are in the order of their last
successful `get` or `put`, since each of these has the time of the call as its stamp (`Stamped`).
-/

namespace AndroidSystem.Utils

open List LruCache

variable {K V : Type}

variable {maxCapacity : Nat} {c₁ : LruCache K V} {key : K}

/-! ## The ordered map -/

/-- The entries from the least to the most recently used, and those the listener was told of. -/
structure LruMap (K V : Type) where
  entries : List (K × V)
  notified : List (K × V)

namespace LruMap

variable [DecidableEq K]

section

variable (m : LruMap K V)

def lookup (key : K) : Option V :=
  (m.entries.find? fun x => x.1 = key).map Prod.snd

def without (key : K) : List (K × V) := m.entries.filter fun x => x.1 ≠ key

/-- A key that is there becomes the most recently used. -/
def get (key : K) : LruMap K V × Option V :=
  match m.lookup key with
  | none => (m, none)
  | some value => ({ m with entries := m.without key ++ [(key, value)] }, some value)

def remove (key : K) : LruMap K V × Bool :=
  match m.lookup key with
  | none => (m, false)
  | some value =>
    ({ entries := m.without key, notified := m.notified ++ [(key, value)] }, true)

/-- The least recently used entry is removed. -/
def removeOldest : LruMap K V × Bool :=
  match m.entries with
  | [] => (m, false)
  | x :: entries => ({ entries, notified := m.notified ++ [x] }, true)

def clear : LruMap K V :=
  { entries := [], notified := m.notified ++ m.entries }

end

/-- Make place for an entry. -/
def evict (maxCapacity : Nat) (m : LruMap K V) : LruMap K V :=
  if maxCapacity ≠ 0 ∧ m.entries.length ≥ maxCapacity then m.removeOldest.1 else m

/-- A key that is there is not put again, though an entry may have been removed. -/
def put (maxCapacity : Nat) (m : LruMap K V) (key : K) (value : V) : LruMap K V × Bool :=
  let m := m.evict maxCapacity
  match m.lookup key with
  | some _ => (m, false)
  | none => ({ m with entries := m.entries ++ [(key, value)] }, true)

section Lookup

variable {m : LruMap K V} {key : K} {value : V} {l₁ l₂ : List (K × V)}

theorem lookup_eq_none : m.lookup key = none ↔ ∀ x ∈ m.entries, x.1 ≠ key := by
  simp [lookup]

/-- Where the key is the only one. -/
theorem lookup_eq_some (h : m.entries = l₁ ++ (key, value) :: l₂) (h1 : ∀ x ∈ l₁, x.1 ≠ key)
    (h2 : ∀ x ∈ l₂, x.1 ≠ key) : m.lookup key = some value ∧ m.without key = l₁ ++ l₂ := by
  have hnone : (l₁.find? fun x => x.1 = key) = none := by simpa using h1
  unfold lookup without
  rw [h, find?_append, hnone, filter_append, filter_cons_of_neg (by simp),
    filter_eq_self.2 (by simpa using h1), filter_eq_self.2 (by simpa using h2)]
  simp

omit [DecidableEq K] in
theorem length_removeOldest (m : LruMap K V) :
    m.removeOldest.1.entries.length = m.entries.length - 1 := by
  unfold removeOldest
  cases h : m.entries with
  | nil => simp [h]
  | cons x entries => simp

omit [DecidableEq K] in
theorem removeOldest_sublist (m : LruMap K V) : m.removeOldest.1.entries.Sublist m.entries := by
  unfold removeOldest
  split
  · rfl
  · rename_i heq
    rw [heq]
    exact sublist_cons_self ..

omit [DecidableEq K] in
theorem evict_sublist (maxCapacity : Nat) (m : LruMap K V) :
    (m.evict maxCapacity).entries.Sublist m.entries := by
  unfold evict
  split_ifs
  · exact m.removeOldest_sublist
  · rfl

theorem get_none (h : m.lookup key = none) : m.get key = (m, none) := by
  unfold get
  rw [h]

theorem get_found (h : m.lookup key = some value) :
    m.get key = ({ m with entries := m.without key ++ [(key, value)] }, some value) := by
  unfold get
  rw [h]

theorem remove_none (h : m.lookup key = none) : m.remove key = (m, false) := by
  unfold remove
  rw [h]

theorem remove_found (h : m.lookup key = some value) : m.remove key =
    ({ entries := m.without key, notified := m.notified ++ [(key, value)] }, true) := by
  unfold remove
  rw [h]

theorem put_found {value' : V} (h : (m.evict maxCapacity).lookup key = some value') :
    m.put maxCapacity key value = (m.evict maxCapacity, false) := by
  unfold put
  dsimp only
  rw [h]

theorem put_new (h : (m.evict maxCapacity).lookup key = none) :
    m.put maxCapacity key value = ({ m.evict maxCapacity with
      entries := (m.evict maxCapacity).entries ++ [(key, value)] }, true) := by
  unfold put
  dsimp only
  rw [h]

end Lookup

end LruMap

/-! ## The operations -/

namespace LruCache

/-- A cache with the entries of an ordered map in its list, in the same order. -/
def Refines (hashType : K → UInt32) (c : LruCache K V) (m : LruMap K V) : Prop :=
  ∃ idx, Inv hashType c idx ∧ order c.table idx = m.entries ∧ c.notified = m.notified

/-- An operation that ends with the result and the map `r`. -/
def Does {R : Type} (hashType : K → UInt32) (maxCapacity : Nat)
    (x : Except Fault (LruCache K V × R)) (r : LruMap K V × R) : Prop :=
  ∃ c', x = .ok (c', r.2) ∧ Refines hashType c' r.1 ∧ c'.maxCapacity = maxCapacity

theorem Does.map {R S : Type} {hashType : K → UInt32} {x : Except Fault (LruCache K V × R)}
    {r : LruMap K V × R} (h : Does hashType maxCapacity x r) (f : R → S) :
    Does hashType maxCapacity ((fun r => (r.1, f r.2)) <$> x) (r.1, f r.2) := by
  obtain ⟨c', rfl, hrest⟩ := h
  exact ⟨c', rfl, hrest⟩

/-- A new key finds room in the table after the eviction, or there is a prime to grow it. -/
def Growable [DecidableEq K] (hashType : K → UInt32) (c : LruCache K V) (key : K) : Prop :=
  ∀ c₁, c.evict hashType = .ok c₁ → c₁.find hashType key = .ok none →
    c₁.table.hasMoreRoom = true ∨ HasPrime (c₁.table.capacity * 2) 0.75

section Operations

variable {hashType : K → UInt32} {c : LruCache K V} {m : LruMap K V} {idx : List Nat}

theorem clear_refines (h : Refines hashType c m) :
    ∃ c', c.clear = .ok c' ∧ Refines hashType c' m.clear ∧ c'.maxCapacity = c.maxCapacity := by
  obtain ⟨idx, hinv, horder, hnotified⟩ := h
  obtain ⟨entries, hwalk, hmap⟩ := hinv.walk
  obtain ⟨hvalid, -, hsize⟩ := clear_valid hinv.valid
  unfold clear
  rw [hwalk]
  refine ⟨_, rfl, ⟨[], inv_nil hvalid hsize rfl rfl, rfl, ?_⟩, rfl⟩
  show c.notified ++ entries.map _ = m.notified ++ m.entries
  rw [hmap, horder, hnotified]

variable [DecidableEq K]

/-- What the map has for the key of an entry: no other entry has it. -/
theorem Inv.lookup {l₁ l₂ : List Nat} {p : Nat} {x : UInt32 × K × V}
    (h : Inv hashType c (l₁ ++ p :: l₂)) (horder : order c.table (l₁ ++ p :: l₂) = m.entries)
    (hx : data c.table p = some x) :
    m.lookup x.2.1 = some x.2.2 ∧
      m.without x.2.1 = order c.table l₁ ++ order c.table l₂ := by
  have hnot := (nodup_cons.1 (perm_middle.nodup_iff.1 h.nodup)).1
  have hother : ∀ l ⊆ l₁ ++ l₂, ∀ y ∈ order c.table l, y.1 ≠ x.2.1 := by
    intro l hl y hy hkey
    obtain ⟨i, hi, z, hz, rfl⟩ := mem_order.1 hy
    have hmem : i ∈ l₁ ++ p :: l₂ := perm_middle.mem_iff.2 (mem_cons_of_mem _ (hl hi))
    obtain rfl : i = p :=
      h.keys i ((h.mem i).1 hmem).1 p ((h.mem p).1 (by simp)).1 z x hz hx hkey
    exact hnot (hl hi)
  apply LruMap.lookup_eq_some
  · rw [← horder, order_append, order_cons hx]
  · exact hother l₁ (subset_append_left ..)
  · exact hother l₂ (subset_append_right ..)

/-- Where `find` leads: the key is in no entry, or in one. -/
theorem find_refines (h : Inv hashType c idx) (horder : order c.table idx = m.entries) (key : K) :
    (c.find hashType key = .ok none ∧ m.lookup key = none) ∨
    ∃ l₁ p l₂ x, idx = l₁ ++ p :: l₂ ∧ c.find hashType key = .ok (some p) ∧
      data c.table p = some x ∧ x.2.1 = key ∧ m.lookup key = some x.2.2 ∧
      m.without key = order c.table l₁ ++ order c.table l₂ := by
  obtain ⟨hfind, hnone⟩ | ⟨p, hp, x, hfind, hx, hkey⟩ := find_cases h key
  · left
    refine ⟨hfind, LruMap.lookup_eq_none.2 fun y hy => ?_⟩
    rw [← horder] at hy
    obtain ⟨i, hi, x, hx, rfl⟩ := mem_order.1 hy
    exact hnone i hi x hx
  · right
    obtain ⟨l₁, l₂, rfl⟩ := append_of_mem hp
    exact ⟨l₁, p, l₂, x, rfl, hfind, hx, hkey, hkey ▸ h.lookup horder hx⟩

section

variable (h : Refines hashType c m)
include h

theorem get_refines (key : K) :
    Does hashType c.maxCapacity (c.get hashType key) (m.get key) := by
  obtain ⟨idx, hinv, horder, hnotified⟩ := h
  unfold get
  obtain ⟨hfind, hlookup⟩ | ⟨l₁, p, l₂, x, rfl, hfind, hx, hkey, hlookup, hwithout⟩ :=
    find_refines hinv horder key
  · rw [hfind, LruMap.get_none hlookup]
    exact ⟨c, rfl, ⟨idx, hinv, horder, hnotified⟩, rfl⟩
  · obtain ⟨c₁, hrun1, hframe1, hring1, hnext, hprev⟩ := hinv.detach
    have hnot := (nodup_cons.1 (perm_middle.nodup_iff.1 hinv.nodup)).1
    have hisSome : ∀ i ∈ l₁ ++ p :: l₂, (c₁.table.entryAt i).isSome := by
      intro i hi
      rw [hframe1.isSome]
      exact hinv.isSome hi
    obtain ⟨c2, hrun2, hframe2, hring2⟩ := attach_ring hframe1.valid hring1 hnot
      (hisSome p (by simp)) (fun i hi => hisSome i (by simp at hi ⊢; tauto)) hnext hprev
    have hframe := hframe1.trans hframe2
    have hperm : (l₁ ++ l₂ ++ [p]).Perm (l₁ ++ p :: l₂) :=
      (perm_append_singleton p _).trans perm_middle.symm
    obtain ⟨entry, hentry, -, hvalue⟩ := entryAt_of_data (hframe.data ▸ hx)
    rw [hfind, LruMap.get_found hlookup]
    refine ⟨c2, ?_, ⟨_, hinv.of_frame hframe hring2 hperm, ?_, ?_⟩, hframe.maxCapacity⟩
    · show (c.detachFromCache p >>= _) = _
      rw [hrun1]
      show (c₁.attachToCache p >>= _) = _
      rw [hrun2]
      show (c2.deref p >>= _) = _
      rw [deref_eq hentry, ← hvalue]
      rfl
    · have hsame : order c2.table = order c.table := by
        unfold order
        rw [hframe.data]
      rw [hsame, order_append, order_append, order_cons hx, hwithout, ← hkey]
      rfl
    · exact hframe.notified.trans hnotified

theorem remove_refines (key : K) :
    Does hashType c.maxCapacity (c.remove hashType key) (m.remove key) := by
  obtain ⟨idx, hinv, horder, hnotified⟩ := h
  unfold remove
  obtain ⟨hfind, hlookup⟩ | ⟨l₁, p, l₂, x, rfl, hfind, hx, hkey, hlookup, hwithout⟩ :=
    find_refines hinv horder key
  · rw [hfind, LruMap.remove_none hlookup]
    exact ⟨c, rfl, ⟨idx, hinv, horder, hnotified⟩, rfl⟩
  · obtain ⟨entry, hentry, hkey', hvalue⟩ := entryAt_of_data hx
    have hinv' : Inv hashType { c with notified := c.notified ++ [(entry.key, entry.value)] }
        (l₁ ++ p :: l₂) := { hinv with }
    obtain ⟨c₁, hrun1, hframe1, hring1, hnext, hprev⟩ := hinv'.detach
    obtain ⟨hinv2, horder2⟩ := hinv'.removeAt hframe1 hring1 hnext hprev
    rw [hfind, LruMap.remove_found hlookup]
    refine ⟨{ c₁ with table := c₁.table.removeAt p }, ?_, ⟨_, hinv2, ?_, ?_⟩, hframe1.maxCapacity⟩
    · show (c.deref p >>= _) = _
      rw [deref_eq hentry]
      show (detachFromCache _ p >>= _) = _
      rw [hrun1]
      rfl
    · rw [horder2, hwithout, order_append]
    · rw [hframe1.notified, ← hnotified, ← hkey, hkey', hvalue]

theorem removeOldest_refines :
    Does hashType c.maxCapacity (c.removeOldest hashType) m.removeOldest := by
  have ⟨idx, hinv, horder, hnotified⟩ := h
  unfold removeOldest
  cases idx with
  | nil =>
    have hnone : c.oldest = none := hinv.ring.segment.1
    have hentries : m.entries = [] := horder.symm
    unfold LruMap.removeOldest
    rw [hnone, hentries]
    exact ⟨c, rfl, h, rfl⟩
  | cons p idx =>
    have holdest : c.oldest = some p := hinv.ring.segment.1.1
    obtain ⟨x, hx⟩ := Option.isSome_iff_exists.1 ((hinv.mem p).1 (by simp)).2
    obtain ⟨entry, hentry, hkey, -⟩ := entryAt_of_data hx
    obtain ⟨hlookup, hwithout⟩ :=
      (show Inv hashType c ([] ++ p :: idx) from hinv).lookup horder hx
    have hremove : m.remove entry.key = m.removeOldest := by
      unfold LruMap.removeOldest
      rw [hkey, LruMap.remove_found hlookup, ← horder, order_cons hx, hwithout]
      rfl
    rw [holdest]
    show Does hashType _ (c.deref p >>= _) _
    rw [deref_eq hentry, ← hremove]
    exact remove_refines h entry.key

omit [DecidableEq K] in
theorem Refines.size : c.size = m.entries.length := by
  obtain ⟨idx, hinv, horder, -⟩ := h
  rw [hinv.size, ← horder, hinv.length_order]

theorem evict_refines :
    ∃ c', c.evict hashType = .ok c' ∧ Refines hashType c' (m.evict c.maxCapacity) ∧
      c'.maxCapacity = c.maxCapacity := by
  unfold evict LruMap.evict
  rw [h.size]
  split_ifs
  · obtain ⟨c', hrun, hrefines, hmax⟩ := removeOldest_refines h
    exact ⟨c', by rw [hrun]; rfl, hrefines, hmax⟩
  · exact ⟨c, rfl, h, rfl⟩

end

theorem putDepth_found {p : Nat} (depth : Nat) (value : V) (hevict : c.evict hashType = .ok c₁)
    (hfind : c₁.find hashType key = .ok (some p)) :
    putDepth hashType (depth + 1) c key value = .ok (c₁, false) := by
  rw [putDepth, hevict]
  show (c₁.find hashType key >>= _) = _
  rw [hfind]
  rfl

theorem putDepth_new (depth : Nat) (value : V) (hevict : c.evict hashType = .ok c₁)
    (hfind : c₁.find hashType key = .ok none) :
    putDepth hashType (depth + 1) c key value =
      ((if c₁.table.hasMoreRoom then .ok c₁
        else c₁.rehash (putDepth hashType depth) (c₁.table.capacity * 2)) >>= fun c =>
          c.insert hashType key value >>= fun c => .ok (c, true)) := by
  rw [putDepth, hevict]
  show (c₁.find hashType key >>= _) = _
  rw [hfind]
  cases hroom : c₁.table.hasMoreRoom with
  | true =>
    rfl
  | false =>
    rfl

section

variable (h : Refines hashType c m)
include h

theorem insert_refines (hroom : c.table.hasMoreRoom = true) (hkey : m.lookup key = none)
    (value : V) :
    ∃ c', c.insert hashType key value = .ok c' ∧
      Refines hashType c' { m with entries := m.entries ++ [(key, value)] } ∧
      c'.table.capacity = c.table.capacity ∧
      c'.table.filledBuckets ≤ c.table.filledBuckets + 1 ∧ c'.maxCapacity = c.maxCapacity := by
  obtain ⟨idx, hinv, horder, hnotified⟩ := h
  obtain ⟨c', p, hrun, hinv', horder', hcap, hfilled, hmax, hnotified'⟩ := hinv.insert hroom
    (fun i hi x hx => LruMap.lookup_eq_none.1 hkey x.2 (horder ▸ mem_order.2 ⟨i, hi, x, hx, rfl⟩))
    value
  exact ⟨c', hrun, ⟨_, hinv', by rw [horder', horder], hnotified'.trans hnotified⟩, hcap, hfilled,
    hmax⟩

/-- A call of `put` that has nothing to make place for. -/
theorem putDepth_room (depth : Nat) (hlimit : c.maxCapacity ≠ 0 → m.entries.length < c.maxCapacity)
    (hroom : c.table.hasMoreRoom = true) (value : V) (hkey : m.lookup key = none) :
    ∃ c', putDepth hashType (depth + 1) c key value = .ok (c', true) ∧
      Refines hashType c' { m with entries := m.entries ++ [(key, value)] } ∧
      c'.table.capacity = c.table.capacity ∧
      c'.table.filledBuckets ≤ c.table.filledBuckets + 1 ∧ c'.maxCapacity = c.maxCapacity := by
  have hevict : c.evict hashType = .ok c := by
    unfold evict
    rw [if_neg]
    · rfl
    · rintro ⟨hne, hge⟩
      rw [h.size] at hge
      exact absurd (hlimit hne) (by omega)
  have hfind : c.find hashType key = .ok none := by
    obtain ⟨idx, hinv, horder, -⟩ := h
    obtain ⟨hfind, -⟩ | ⟨_, _, _, x, -, -, -, -, hsome, -⟩ := find_refines hinv horder key
    · exact hfind
    · cases hkey.symm.trans hsome
  obtain ⟨c', hinsert, hrest⟩ := insert_refines h hroom hkey value
  refine ⟨c', ?_, hrest⟩
  rw [putDepth_new depth value hevict hfind, if_pos hroom, ok_bind, hinsert, ok_bind]

/-- The entries of the old table, put into one with room for all of them. -/
theorem reinsert_ok (depth : Nat) (entries : List (LruEntry K V))
    (hnodup : (m.entries ++ entries.map fun entry => (entry.key, entry.value)).Pairwise
      fun x y => x.1 ≠ y.1)
    (hlimit : c.maxCapacity ≠ 0 → m.entries.length + entries.length ≤ c.maxCapacity)
    (hroom : c.table.filledBuckets + entries.length < c.table.capacity) :
    ∃ c', entries.foldlM (fun c entry =>
        Prod.fst <$> putDepth hashType (depth + 1) c entry.key entry.value) c = .ok c' ∧
      Refines hashType c'
        { m with entries := m.entries ++ entries.map fun entry => (entry.key, entry.value) } ∧
      c'.table.hasMoreRoom = true ∧ c'.maxCapacity = c.maxCapacity := by
  induction entries generalizing c m with
  | nil =>
    refine ⟨c, rfl, by simpa using h, ?_, rfl⟩
    simpa [Hashtable.hasMoreRoom] using hroom
  | cons entry entries ih =>
    simp only [length_cons] at hlimit hroom
    have hkey : m.lookup entry.key = none := LruMap.lookup_eq_none.2 fun x hx =>
      (pairwise_append.1 hnodup).2.2 x hx (entry.key, entry.value) (by simp)
    obtain ⟨c₁, hput, hrefines, hcap, hfilled, hmax⟩ := putDepth_room h depth
      (fun hne => by have := hlimit hne; omega) (by simp [Hashtable.hasMoreRoom]; omega)
      entry.value hkey
    obtain ⟨c', hrun, hrefines', hroom', hmax'⟩ := ih hrefines (by simpa using hnodup)
      (fun hne => by have := hlimit (hmax ▸ hne); simp; omega) (by omega)
    refine ⟨c', ?_, by simpa using hrefines', hroom', hmax'.trans hmax⟩
    rw [foldlM_cons, hput]
    exact hrun

theorem rehash_refines (depth : Nat)
    (hlimit : c.maxCapacity ≠ 0 → m.entries.length ≤ c.maxCapacity) :
    (c.rehash (putDepth hashType (depth + 1)) (c.table.capacity * 2) = .error (.stop .pastPrimes) ∧
      ¬HasPrime (c.table.capacity * 2) 0.75) ∨
    HasPrime (c.table.capacity * 2) 0.75 ∧
      ∃ c', c.rehash (putDepth hashType (depth + 1)) (c.table.capacity * 2) = .ok c' ∧
      Refines hashType c' m ∧ c'.table.hasMoreRoom = true ∧ c'.maxCapacity = c.maxCapacity := by
  unfold rehash Hashtable.new
  obtain ⟨hfits, count, capacity, hdet⟩ | ⟨hfits, herror⟩ :=
    determineCapacity_cases (c.table.capacity * 2) factor_bounds
  swap
  · left
    rw [herror]
    exact ⟨rfl, hfits⟩
  · right
    refine ⟨hfits, ?_⟩
    rw [hdet]
    set t : Hashtable (LruEntry K V) := {
      capacity, loadFactor := 0.75, size := 0, filledBuckets := 0, bucketCount := count
      buckets := none } with ht
    have hnew : Hashtable.new (c.table.capacity * 2) 0.75 = .ok t := by
      unfold Hashtable.new
      rw [hdet]
      rfl
    have ⟨idx, hinv, horder, hnotified⟩ := h
    have hgrown : c.table.capacity < capacity :=
      determineCapacity_double hinv.valid.capacity_pos (Nat.mul_comm .. ▸ hdet)
    obtain ⟨entries, hwalk, hmap⟩ := hinv.walk
    have hpairwise := hinv.pairwise_order
    rw [horder] at hmap hpairwise
    have hlen : entries.length = m.entries.length := by rw [← hmap, length_map]
    have hsize : m.entries.length ≤ c.table.capacity := h.size ▸ hinv.valid.size_le
    have hempty : Refines hashType { c with oldest := none, youngest := none, table := t }
      { m with entries := [] } := ⟨[], inv_nil (new_valid hnew).1 rfl rfl rfl, rfl, hnotified⟩
    obtain ⟨c', hrun, hrefines', hroom', hmax'⟩ := reinsert_ok hempty depth entries
      (by rw [hmap]; exact hpairwise) (fun hne => by simpa [hlen] using hlimit hne)
      (by rw [hlen]; simpa [ht] using hsize.trans_lt hgrown)
    rw [hmap] at hrefines'
    refine ⟨c', ?_, hrefines', hroom', hmax'⟩
    rw [hwalk]
    exact hrun

theorem put_refines (hlimit : c.maxCapacity ≠ 0 → m.entries.length ≤ c.maxCapacity) (key : K)
    (value : V) :
    (c.put hashType key value = .error (.stop .pastPrimes) ∧ ¬c.Growable hashType key) ∨
      Does hashType c.maxCapacity (c.put hashType key value) (m.put c.maxCapacity key value) ∧
        c.Growable hashType key := by
  obtain ⟨c₁, hevict, hrefines, hmax⟩ := evict_refines h
  have hgrowable : c.Growable hashType key ↔ (c₁.find hashType key = .ok none →
      c₁.table.hasMoreRoom = true ∨ HasPrime (c₁.table.capacity * 2) 0.75) := by
    simp [Growable, hevict]
  rw [hgrowable]
  have ⟨idx, hinv, horder, _⟩ := hrefines
  unfold put
  obtain ⟨hfind, hlookup⟩ | ⟨l₁, p, l₂, x, rfl, hfind, hx, hkey, hlookup, -⟩ :=
    find_refines hinv horder key
  · rw [putDepth_new 1 value hevict hfind, LruMap.put_new hlookup]
    have hinsert {c₂ : LruCache K V} (h2 : Refines hashType c₂ (m.evict c.maxCapacity))
        (hroom : c₂.table.hasMoreRoom = true) (hmax2 : c₂.maxCapacity = c₁.maxCapacity) :
        Does hashType c.maxCapacity (c₂.insert hashType key value >>= fun c => .ok (c, true))
          ({ m.evict c.maxCapacity with
            entries := (m.evict c.maxCapacity).entries ++ [(key, value)] }, true) := by
      obtain ⟨c', hrun, hrefines', -, -, hmax'⟩ := insert_refines h2 hroom hlookup value
      exact ⟨c', by rw [hrun, ok_bind], hrefines', by rw [hmax', hmax2, hmax]⟩
    cases hroom : c₁.table.hasMoreRoom with
    | true => exact .inr ⟨hinsert hrefines hroom rfl, fun _ => .inl rfl⟩
    | false =>
      obtain ⟨herror, hfits⟩ | ⟨hfits, c₂, hrun, h2, hroom2, hmax2⟩ :=
        rehash_refines hrefines 0 fun hne => by
          rw [hmax] at hne ⊢
          exact (m.evict_sublist _).length_le.trans (hlimit hne)
      · left
        rw [herror]
        exact ⟨rfl, fun hgrow => by simp [hfits] at hgrow; exact hgrow hfind⟩
      · right
        rw [hrun]
        exact ⟨hinsert h2 hroom2 hmax2, fun _ => .inr hfits⟩
  · right
    rw [putDepth_found 1 value hevict hfind, LruMap.put_found hlookup]
    exact ⟨⟨c₁, rfl, hrefines, hmax⟩, fun hnone => by cases hnone.symm.trans hfind⟩

end

end Operations

end LruCache

/-! ## Runs -/

inductive LruOp (K V : Type) where
  | get (key : K)
  | put (key : K) (value : V)
  | remove (key : K)
  | removeOldest
  | clear

/-- What a call returns. -/
inductive LruResult (V : Type) where
  | value (value : Option V)
  | done (result : Bool)
  | unit

/-- The key of a successful `get` or `put`. -/
def LruOp.used : LruOp K V → LruResult V → Option K
  | .get key, .value (some _) => some key
  | .put key _, .done true => some key
  | _, _ => none

section Run

variable [DecidableEq K] (hashType : K → UInt32)

def LruCache.step (c : LruCache K V) : LruOp K V → Except Fault (LruCache K V × LruResult V)
  | .get key => (fun r => (r.1, .value r.2)) <$> c.get hashType key
  | .put key value => (fun r => (r.1, .done r.2)) <$> c.put hashType key value
  | .remove key => (fun r => (r.1, .done r.2)) <$> c.remove hashType key
  | .removeOldest => (fun r => (r.1, .done r.2)) <$> c.removeOldest hashType
  | .clear => (fun c => (c, .unit)) <$> c.clear

def LruCache.run (c : LruCache K V) : List (LruOp K V) →
    Except Fault (LruCache K V × List (LruResult V))
  | [] => .ok (c, [])
  | op :: ops => do
    let (c, result) ← c.step hashType op
    let (c, results) ← c.run ops
    return (c, result :: results)

/-- The table can grow at every `put` of a run. -/
def LruCache.Growing (c : LruCache K V) : List (LruOp K V) → Prop
  | [] => True
  | op :: ops => (∀ key value, op = .put key value → c.Growable hashType key) ∧
    ∀ c' result, c.step hashType op = .ok (c', result) → c'.Growing ops

def LruMap.step (maxCapacity : Nat) (m : LruMap K V) : LruOp K V → LruMap K V × LruResult V
  | .get key => ((m.get key).1, .value (m.get key).2)
  | .put key value => ((m.put maxCapacity key value).1, .done (m.put maxCapacity key value).2)
  | .remove key => ((m.remove key).1, .done (m.remove key).2)
  | .removeOldest => (m.removeOldest.1, .done m.removeOldest.2)
  | .clear => (m.clear, .unit)

def LruMap.run (maxCapacity : Nat) (m : LruMap K V) : List (LruOp K V) →
    LruMap K V × List (LruResult V)
  | [] => (m, [])
  | op :: ops =>
    let (m, result) := m.step maxCapacity op
    let (m, results) := m.run maxCapacity ops
    (m, result :: results)

/-- The stamps after a call at a time. -/
def stampAfter (stamp : K → Nat) (time : Nat) : Option K → K → Nat
  | some key => Function.update stamp key time
  | none => stamp

/-- The time of the last successful `get` or `put` of every key, where the first call is at `time`. -/
def lastUse (stamp : K → Nat) (time : Nat) : List (LruOp K V) → List (LruResult V) → K → Nat
  | op :: ops, result :: results =>
    lastUse (stampAfter stamp time (op.used result)) (time + 1) ops results
  | _, _ => stamp

end Run

/-! ### The order of the entries -/

/-- The entries are in the order of their stamps, all from before `time`. -/
def Stamped (l : List (K × V)) (stamp : K → Nat) (time : Nat) : Prop :=
  (∀ x ∈ l, stamp x.1 < time) ∧ l.Pairwise fun x y => stamp x.1 < stamp y.1

section Stamp

variable {l l' : List (K × V)} {stamp : K → Nat} {time maxCapacity : Nat} {m : LruMap K V}

theorem stamped_nil : Stamped ([] : List (K × V)) (fun _ => 0) 1 := ⟨by simp, by simp⟩

theorem Stamped.sublist (h : Stamped l stamp time) (hsub : l'.Sublist l) :
    Stamped l' stamp (time + 1) :=
  ⟨fun x hx => (h.1 x (hsub.subset hx)).trans (Nat.lt_succ_self _), h.2.sublist hsub⟩

variable [DecidableEq K]

theorem Stamped.concat (h : Stamped l stamp time) (hkey : ∀ x ∈ l, x.1 ≠ key) (value : V) :
    Stamped (l ++ [(key, value)]) (stampAfter stamp time (some key)) (time + 1) := by
  have hkeep : ∀ x ∈ l, stampAfter stamp time (some key) x.1 = stamp x.1 := by
    intro x hx
    exact Function.update_of_ne (hkey x hx) ..
  have hnew : stampAfter stamp time (some key) key = time := Function.update_self ..
  refine ⟨?_, pairwise_append.2 ⟨?_, pairwise_singleton .., ?_⟩⟩
  · intro x hx
    rw [mem_append, mem_singleton] at hx
    obtain hx | rfl := hx
    · rw [hkeep x hx]
      exact (h.1 x hx).trans (Nat.lt_succ_self _)
    · rw [hnew]
      exact Nat.lt_succ_self _
  · apply h.2.imp_of_mem
    intro x y hx hy hlt
    rwa [hkeep x hx, hkeep y hy]
  · intro x hx y hy
    rw [mem_singleton] at hy
    subst hy
    rw [hkeep x hx, hnew]
    exact h.1 x hx

theorem LruMap.remove_sublist (m : LruMap K V) (key : K) :
    (m.remove key).1.entries.Sublist m.entries := by
  cases hlookup : m.lookup key with
  | none =>
    rw [LruMap.remove_none hlookup]
  | some value =>
    rw [LruMap.remove_found hlookup]
    exact filter_sublist

theorem LruMap.step_stamped (h : Stamped m.entries stamp time) (op : LruOp K V) :
    Stamped (m.step maxCapacity op).1.entries
      (stampAfter stamp time (op.used (m.step maxCapacity op).2)) (time + 1) := by
  cases op with
  | get key =>
    rw [LruMap.step]
    cases hlookup : m.lookup key with
    | none =>
      rw [LruMap.get_none hlookup]
      exact h.sublist (List.Sublist.refl _)
    | some value =>
      rw [LruMap.get_found hlookup]
      apply Stamped.concat
      · exact ⟨fun x hx => h.1 x (mem_of_mem_filter hx), h.2.sublist filter_sublist⟩
      · intro x hx
        simpa using (mem_filter.1 hx).2
  | put key value =>
    rw [LruMap.step]
    cases hlookup : (m.evict maxCapacity).lookup key with
    | some value' =>
      rw [LruMap.put_found hlookup]
      exact h.sublist (m.evict_sublist maxCapacity)
    | none =>
      rw [LruMap.put_new hlookup]
      apply Stamped.concat
      · have hsub := m.evict_sublist maxCapacity
        exact ⟨fun x hx => h.1 x (hsub.subset hx), h.2.sublist hsub⟩
      · exact LruMap.lookup_eq_none.1 hlookup
  | remove key => exact h.sublist (m.remove_sublist key)
  | removeOldest => exact h.sublist m.removeOldest_sublist
  | clear => exact h.sublist (nil_sublist _)

theorem LruMap.step_length (hne : maxCapacity ≠ 0) (h : m.entries.length ≤ maxCapacity)
    (op : LruOp K V) : (m.step maxCapacity op).1.entries.length ≤ maxCapacity := by
  cases op with
  | get key =>
    rw [LruMap.step]
    cases hlookup : m.lookup key with
    | none =>
      rw [LruMap.get_none hlookup]
      exact h
    | some value =>
      rw [LruMap.get_found hlookup]
      -- one entry is left out, and one added
      refine le_trans ?_ h
      obtain ⟨x, hx, -⟩ := Option.map_eq_some_iff.1 hlookup
      have hkey : x.1 = key := by simpa using find?_some hx
      have hlt : (m.without key).length < m.entries.length :=
        length_filter_lt_length_iff_exists.2
          ⟨x, mem_of_find?_eq_some hx, by simp [hkey]⟩
      rw [length_append]
      exact hlt
  | put key value =>
    have hevict : (m.evict maxCapacity).entries.length < maxCapacity := by
      unfold LruMap.evict
      split_ifs with hfull
      · rw [LruMap.length_removeOldest]
        omega
      · exact not_le.1 fun hge => hfull ⟨hne, hge⟩
    rw [LruMap.step]
    cases hlookup : (m.evict maxCapacity).lookup key with
    | some value' =>
      rw [LruMap.put_found hlookup]
      exact hevict.le
    | none =>
      rw [LruMap.put_new hlookup, length_append]
      exact hevict
  | remove key => exact (m.remove_sublist key).length_le.trans h
  | removeOldest => exact m.removeOldest_sublist.length_le.trans h
  | clear => exact Nat.zero_le _

end Stamp

section Main

variable [DecidableEq K] {hashType : K → UInt32} {c : LruCache K V} {m : LruMap K V}

/-- A call does what it does to the ordered map, unless the table cannot grow. -/
theorem step_refines (h : c.Refines hashType m)
    (hlimit : c.maxCapacity ≠ 0 → m.entries.length ≤ c.maxCapacity) (op : LruOp K V) :
    (c.step hashType op = .error (.stop .pastPrimes) ∧
      ¬∀ key value, op = .put key value → c.Growable hashType key) ∨
    Does hashType c.maxCapacity (c.step hashType op) (m.step c.maxCapacity op) ∧
      ∀ key value, op = .put key value → c.Growable hashType key := by
  cases op with
  | get key => exact .inr ⟨(get_refines h key).map LruResult.value, by simp⟩
  | put key value =>
    obtain ⟨herror, hfull⟩ | ⟨hput, hgrow⟩ := put_refines h hlimit key value
    · exact .inl ⟨by rw [step, herror]; rfl, fun hgrow => hfull (hgrow key value rfl)⟩
    · exact .inr ⟨hput.map LruResult.done, by simpa using hgrow⟩
  | remove key => exact .inr ⟨(remove_refines h key).map LruResult.done, by simp⟩
  | removeOldest => exact .inr ⟨(removeOldest_refines h).map LruResult.done, by simp⟩
  | clear =>
    obtain ⟨c', hrun, hrest⟩ := clear_refines h
    exact .inr ⟨⟨c', by rw [step, hrun]; rfl, hrest⟩, by simp⟩

theorem run_refines (ops : List (LruOp K V)) (h : c.Refines hashType m)
    (hlimit : c.maxCapacity ≠ 0 → m.entries.length ≤ c.maxCapacity) {stamp : K → Nat} {time : Nat}
    (hstamp : Stamped m.entries stamp time) :
    (c.run hashType ops = .error (.stop .pastPrimes) ∧ ¬c.Growing hashType ops) ∨
    c.Growing hashType ops ∧ ∃ c', c.run hashType ops = .ok (c', (m.run c.maxCapacity ops).2) ∧
      c'.Refines hashType (m.run c.maxCapacity ops).1 ∧ c'.maxCapacity = c.maxCapacity ∧
      (c.maxCapacity ≠ 0 → (m.run c.maxCapacity ops).1.entries.length ≤ c.maxCapacity) ∧
      (m.run c.maxCapacity ops).1.entries.Pairwise fun x y =>
        lastUse stamp time ops (m.run c.maxCapacity ops).2 x.1
          < lastUse stamp time ops (m.run c.maxCapacity ops).2 y.1 := by
  induction ops generalizing c m stamp time with
  | nil => exact .inr ⟨trivial, c, rfl, h, rfl, hlimit, hstamp.2⟩
  | cons op ops ih =>
    obtain ⟨herror, hfull⟩ | ⟨⟨c₁, hstep, hrefines, hmax⟩, hgrow⟩ := step_refines h hlimit op
    · left
      rw [run, herror]
      exact ⟨rfl, fun hgrow => hfull hgrow.1⟩
    · obtain ⟨herror, hfull⟩ | ⟨hgrow', c', hrun, hrest⟩ := ih hrefines
        (by rw [hmax]; exact fun hne => LruMap.step_length hne (hlimit hne) op)
        (LruMap.step_stamped hstamp op)
      · left
        refine ⟨?_, fun hgrow => hfull (hgrow.2 _ _ hstep)⟩
        rw [run, hstep]
        show (c₁.run hashType ops >>= _) = _
        rw [herror]
        rfl
      · right
        rw [hmax] at hrun hrest
        refine ⟨⟨hgrow, fun _ _ hstep' => ?_⟩, c', ?_, hrest⟩
        · cases hstep.symm.trans hstep'
          exact hgrow'
        · rw [run, hstep]
          show (c₁.run hashType ops >>= _) = _
          rw [hrun]
          rfl

/-- A cache without entries. -/
def LruCache.empty (maxCapacity : Nat) : LruCache K V where
  table := {
    capacity := 3, loadFactor := 0.75, size := 0, filledBuckets := 0, bucketCount := 5
    buckets := none }
  oldest := none
  youngest := none
  maxCapacity := maxCapacity
  notified := []

omit [DecidableEq K] in
theorem hashtable_new (maxCapacity : Nat) :
    Hashtable.new 0 0.75 = .ok (LruCache.empty (K := K) (V := V) maxCapacity).table := by
  have hdet : determineCapacity 0 0.75 = .ok (5, 3) :=
    determineCapacity_eval (b := 0) (c := 0) (d := 1) (f := 4) (g := 3) (by norm_num)
      (roundSingle_of_lt (by decide)) (by norm_num) (roundSingle_of_lt (by decide))
      (roundSingle_of_lt (by decide)) (by decide) (by decide) (roundSingle_of_lt (by decide))
      (by norm_num) (roundSingle_of_lt (by decide))
  rw [Hashtable.new, hdet]
  rfl

omit [DecidableEq K] in
theorem new_eq : new maxCapacity = .ok (LruCache.empty (K := K) (V := V) maxCapacity) := by
  rw [new, hashtable_new maxCapacity]
  rfl

omit [DecidableEq K] in
theorem empty_refines (hashType : K → UInt32) (maxCapacity : Nat) :
    (LruCache.empty (V := V) maxCapacity).Refines hashType { entries := [], notified := [] } :=
  ⟨[], inv_nil (new_valid (hashtable_new maxCapacity)).1 rfl rfl rfl, rfl, rfl⟩

/-- A sequence of calls of a new cache does what it does to an empty ordered map exactly if the table
can grow at every `put`. The entries are then in the order of their last successful `get` or `put`,
and not more than the limit. -/
theorem lruCache_refines (hashType : K → UInt32) (maxCapacity : Nat) (ops : List (LruOp K V)) :
    ∃ c, new maxCapacity = .ok c ∧ ((
      ∃ c' m results, c.run hashType ops = .ok (c', results) ∧
        LruMap.run maxCapacity { entries := [], notified := [] } ops = (m, results) ∧
        c'.Refines hashType m ∧ c'.size = m.entries.length ∧
        (maxCapacity ≠ 0 → c'.size ≤ maxCapacity) ∧
        m.entries.Pairwise fun x y =>
          lastUse (fun _ => 0) 1 ops results x.1 < lastUse (fun _ => 0) 1 ops results y.1) ↔
      c.Growing hashType ops) := by
  refine ⟨_, new_eq, ?_⟩
  obtain ⟨herror, hfull⟩ | ⟨hgrow, c', hrun, hrefines', -, hlimit, horder⟩ :=
    run_refines ops (empty_refines hashType maxCapacity) (fun _ => Nat.zero_le _) stamped_nil
  · exact iff_of_false (fun ⟨_, _, _, hrun, _⟩ => by cases herror.symm.trans hrun) hfull
  · have hsize := hrefines'.size
    exact iff_of_true
      ⟨c', _, _, hrun, rfl, hrefines', hsize, fun hne => hsize ▸ hlimit hne, horder⟩ hgrow

/-- Different keys are put into a map without a limit. -/
theorem LruMap.length_run_puts (value : V) {keys : List K} (hkeys : keys.Nodup) (m : LruMap K V)
    (hnew : ∀ key ∈ keys, m.lookup key = none) :
    (m.run 0 (keys.map (.put · value))).1.entries.length = m.entries.length + keys.length := by
  induction keys generalizing m with
  | nil => rfl
  | cons key keys ih =>
    obtain ⟨hkey, hkeys⟩ := nodup_cons.1 hkeys
    have hevict : m.evict 0 = m := if_neg (by simp)
    have hlookup := hnew key mem_cons_self
    have hput : m.put 0 key value = ({ m with entries := m.entries ++ [(key, value)] }, true) := by
      rw [LruMap.put_new (hevict.symm ▸ hlookup), hevict]
    show ((m.put 0 key value).1.run 0 (keys.map (.put · value))).1.entries.length = _
    rw [hput, ih hkeys]
    · simp only [length_append, length_cons, length_nil]
      omega
    · intro other hother
      rw [LruMap.lookup_eq_none] at hlookup ⊢
      have hold := LruMap.lookup_eq_none.1 (hnew other (mem_cons_of_mem _ hother))
      simp only [mem_append, mem_singleton]
      rintro x (hx | rfl)
      · exact hold x hx
      · rintro rfl
        exact hkey hother

/-- More entries than the largest table has buckets. -/
theorem lruCache_past_primes : ∃ c : LruCache Nat Nat, new 0 = .ok c ∧
    c.run UInt32.ofNat ((range 1685759167).map (.put · 0)) = .error (.stop .pastPrimes) := by
  refine ⟨_, new_eq, ?_⟩
  generalize hn : 1685759167 = n
  obtain ⟨herror, -⟩ | ⟨-, c', hrun, hrefines, -⟩ := run_refines ((range n).map (.put · 0))
    (empty_refines UInt32.ofNat 0) (fun _ => Nat.zero_le _) stamped_nil
  · exact herror
  · have hsize := hrefines.size.trans
      (LruMap.length_run_puts 0 (nodup_range (n := n)) _ fun _ _ => rfl)
    obtain ⟨idx, hinv, -⟩ := hrefines
    have hle := hinv.valid.size_le
    have hlt := hinv.valid.capacity_lt
    have hcount := hinv.valid.count_le
    simp only [LruCache.size, length_nil, length_range] at hsize
    omega

/-! ### A key that is there -/

/-- The keys and values from the least to the most recently used. -/
def LruCache.entries (c : LruCache K V) : Except Fault (List (K × V)) := do
  let entries ← walk c.table c.table.bucketCount c.oldest
  return entries.map fun entry => (entry.key, entry.value)

omit [DecidableEq K] in
theorem LruCache.Refines.entries (h : c.Refines hashType m) : c.entries = .ok m.entries := by
  obtain ⟨idx, hinv, horder, -⟩ := h
  obtain ⟨entries, hwalk, hmap⟩ := hinv.walk
  rw [LruCache.entries, hwalk, ← horder, ← hmap]
  rfl

/-- A full cache loses an entry, if the key is not put again. -/
theorem LruMap.length_put_full {value : V}
    (hfull : maxCapacity ≠ 0 ∧ m.entries.length ≥ maxCapacity)
    (hfalse : (m.put maxCapacity key value).2 = false) :
    (m.put maxCapacity key value).1.entries.length = m.entries.length - 1 := by
  cases hlookup : (m.evict maxCapacity).lookup key with
  | none =>
    rw [LruMap.put_new hlookup] at hfalse
    cases hfalse
  | some value' =>
    rw [LruMap.put_found hlookup, LruMap.evict, if_pos hfull, LruMap.length_removeOldest]

/-- `put` of a key that is there leaves the cache as it is, unless it is full. -/
theorem put_present_iff (ops : List (LruOp K V)) {results : List (LruResult V)} {l : List (K × V)}
    (hnew : new maxCapacity = .ok c₁) (hrun : c₁.run hashType ops = .ok (c, results))
    (hl : c.entries = .ok l) (hkey : ∃ x ∈ l, x.1 = key) (value : V) :
    (∃ c', c.put hashType key value = .ok (c', false) ∧ c'.entries = .ok l) ↔
      (maxCapacity = 0 ∨ l.length < maxCapacity) := by
  cases hnew.symm.trans new_eq
  obtain ⟨herror, -⟩ | ⟨-, c', hrun', hrefines, hmax, hlimit, -⟩ :=
    run_refines ops (empty_refines hashType maxCapacity) (fun _ => Nat.zero_le _) stamped_nil
  · cases hrun.symm.trans herror
  cases hrun.symm.trans hrun'
  cases hl.symm.trans hrefines.entries
  change c.maxCapacity = maxCapacity at hmax
  change maxCapacity ≠ 0 → _ at hlimit
  subst hmax
  constructor
  · rintro ⟨c', hput, hentries⟩
    by_contra hnot
    obtain ⟨herror, -⟩ | ⟨⟨c₂, hput', hrefines', -⟩, -⟩ := put_refines hrefines hlimit key value
    · cases hput.symm.trans herror
    · have heq := hput.symm.trans hput'
      injection heq with heq
      injection heq with hc hfalse
      subst hc
      have hlen := congrArg length (Except.ok.inj (hentries.symm.trans hrefines'.entries))
      rw [LruMap.length_put_full (by omega) hfalse.symm] at hlen
      obtain ⟨x, hx, -⟩ := hkey
      omega
  · intro hroom
    have hevict : c.evict hashType = .ok c := if_neg (by rw [hrefines.size]; omega)
    have ⟨idx, hinv, horder, _⟩ := hrefines
    obtain ⟨-, hnone⟩ | ⟨_, p, _, _, -, hfind, -⟩ := find_refines hinv horder key
    · obtain ⟨x, hx, hxkey⟩ := hkey
      exact absurd hxkey (LruMap.lookup_eq_none.1 hnone x hx)
    · exact ⟨c, putDepth_found 1 value hevict hfind, hl⟩

/-- Two entries. -/
def twoKeys : List (LruOp Nat Nat) := [.put 1 10, .put 2 20]

theorem put_present_three : ∃ c₁ c results, new 3 = .ok c₁ ∧
    c₁.run UInt32.ofNat twoKeys = .ok (c, results) ∧
      c.entries = .ok [(1, 10), (2, 20)] ∧
      ((∃ c', c.put UInt32.ofNat 2 30 = .ok (c', false) ∧ c'.entries = .ok [(1, 10), (2, 20)]) ↔
        (3 = 0 ∨ 2 < 3)) :=
  ⟨_, _, _, new_eq, rfl, rfl, put_present_iff twoKeys new_eq rfl rfl ⟨(2, 20), by simp, rfl⟩ 30⟩

/-- A full cache loses its oldest entry. -/
theorem put_present_evicts : ∃ c₁ c results c', new 2 = .ok c₁ ∧
    c₁.run UInt32.ofNat twoKeys = .ok (c, results) ∧
      c.entries = .ok [(1, 10), (2, 20)] ∧ c.put UInt32.ofNat 2 30 = .ok (c', false) ∧
      c'.entries = .ok [(2, 20)] :=
  ⟨_, _, _, _, new_eq, rfl, rfl, rfl, rfl⟩

end Main

end AndroidSystem.Utils
