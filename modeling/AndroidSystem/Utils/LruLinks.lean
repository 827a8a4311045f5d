import AndroidSystem.Lib.LinkedRing
import AndroidSystem.Utils.HashtableRun
import AndroidSystem.Utils.LruCache

/-!
# The linked list of an `LruCache`

The list from `mOldest` to `mYoungest` is a ring of `Lib/LinkedRing` whose head is the null pointer,
and `attachToCache` and `detachFromCache` link an entry in before the head and unlink it. They change
pointers only (`Frame`).

`Inv` says that the list has exactly the entries of the table, each once, and that no two entries
have the same key; `order` is what is in them, from the oldest to the youngest.
-/

namespace AndroidSystem.Utils.LruCache

open Function Option
open List

variable {K V : Type}

variable {t : Hashtable (LruEntry K V)} {i : Nat} {entry : LruEntry K V} {E : Type}

variable {p : Nat} {l₁ l₂ : List Nat}

/-! ## What a cache stands for -/

/-- The hash code, the key and the value in a bucket. -/
def data (t : Hashtable (LruEntry K V)) (i : Nat) : Option (UInt32 × K × V) :=
  (item t.cells i).map fun x => (x.1, x.2.key, x.2.value)

/-- The pointers of the list. It is a ring whose head is the null pointer: the oldest entry comes
after the head, and the youngest before it. -/
def links (c : LruCache K V) : Links (Option Nat) where
  next := fun p => p.elim c.oldest fun i => (c.table.entryAt i).bind LruEntry.child
  prev := fun p => p.elim c.youngest fun i => (c.table.entryAt i).bind LruEntry.parent

/-- The second cache differs from the first in the pointers only. -/
structure Frame (c c' : LruCache K V) : Prop where
  valid : Valid c'.table
  bucketCount : c'.table.bucketCount = c.table.bucketCount
  capacity : c'.table.capacity = c.table.capacity
  filledBuckets : c'.table.filledBuckets = c.table.filledBuckets
  data : data c'.table = data c.table
  maxCapacity : c'.maxCapacity = c.maxCapacity
  notified : c'.notified = c.notified

section Pointers

variable {c c' c'' : LruCache K V} {p : Nat} {q : Option Nat}

theorem Frame.trans (h : Frame c c') (h' : Frame c' c'') : Frame c c'' where
  valid := h'.valid
  bucketCount := h'.bucketCount.trans h.bucketCount
  capacity := h'.capacity.trans h.capacity
  filledBuckets := h'.filledBuckets.trans h.filledBuckets
  data := h'.data.trans h.data
  maxCapacity := h'.maxCapacity.trans h.maxCapacity
  notified := h'.notified.trans h.notified

theorem entryAt_eq (t : Hashtable E) (i : Nat) : t.entryAt i = (item t.cells i).map Prod.snd := by
  unfold Hashtable.entryAt item
  split_ifs
  · cases (t.cells i).entry <;> rfl
  · rfl

theorem isSome_data (t : Hashtable (LruEntry K V)) (i : Nat) :
    (data t i).isSome = (t.entryAt i).isSome := by
  rw [data, entryAt_eq, isSome_map, isSome_map]

theorem entryAt_of_data {x : UInt32 × K × V} (h : data t i = some x) :
    ∃ entry, t.entryAt i = some entry ∧ entry.key = x.2.1 ∧ entry.value = x.2.2 := by
  obtain ⟨y, hy, rfl⟩ := map_eq_some_iff.1 h
  exact ⟨y.2, by rw [entryAt_eq, hy]; rfl, rfl, rfl⟩

section

variable {t' : Hashtable (LruEntry K V)} {x : Option (UInt32 × LruEntry K V)}
  (h : item t'.cells = update (item t.cells) p x)
include h

theorem data_update : data t' = update (data t) p (x.map fun x => (x.1, x.2.key, x.2.value)) := by
  show Option.map _ ∘ item t'.cells = _
  rw [h, comp_update]
  rfl

theorem entryAt_update : t'.entryAt = update t.entryAt p (x.map Prod.snd) := by
  rw [show t'.entryAt = Option.map Prod.snd ∘ item t'.cells from funext (entryAt_eq t'), h,
    comp_update, show t.entryAt = Option.map Prod.snd ∘ item t.cells from funext (entryAt_eq t)]

end

theorem item_setEntry {t : Hashtable E} {x : UInt32 × E} (h : item t.cells p = some x) (e : E) :
    item (t.setEntry p e).cells = update (item t.cells) p (some (x.1, e)) := by
  obtain ⟨hp, hhash, -⟩ := item_eq_some.1 h
  funext i
  show item (update t.cells p { t.cells p with entry := some e }) i = _
  by_cases hi : i = p
  · subst hi
    simp [item, hp, hhash]
  · rw [update_of_ne hi]
    unfold item
    rw [update_of_ne hi]

theorem setEntry_valid {t : Hashtable E} (h : Valid t) {x : UInt32 × E}
    (hx : item t.cells p = some x) (e : E) : Valid (t.setEntry p e) := by
  have hsame : ∀ i, ((t.setEntry p e).cells i).present = (t.cells i).present ∧
      ((t.setEntry p e).cells i).collision = (t.cells i).collision ∧
      ((t.setEntry p e).cells i).hash = (t.cells i).hash ∧
      ((t.cells i).entry.isSome → ((t.setEntry p e).cells i).entry.isSome) := by
    intro i
    show ((update t.cells p { t.cells p with entry := some e }) i).present = _ ∧
      ((update t.cells p { t.cells p with entry := some e }) i).collision = _ ∧
      ((update t.cells p { t.cells p with entry := some e }) i).hash = _ ∧
      (_ → ((update t.cells p { t.cells p with entry := some e }) i).entry.isSome)
    by_cases hi : i = p
    · subst hi
      simp
    · rw [update_of_ne hi]
      exact ⟨rfl, rfl, rfl, id⟩
  refine { h with cells := ⟨?_, ?_, ?_, ?_⟩ }
  · rw [show (t.setEntry p e).size = t.size from rfl, h.cells.size]
    exact (countWhere_congr fun i _ => (hsame i).1).symm
  · rw [show (t.setEntry p e).filledBuckets = t.filledBuckets from rfl, h.cells.filled]
    apply (countWhere_congr fun i _ => ?_).symm
    unfold isFilled
    rw [(hsame i).1, (hsame i).2.1]
  · intro i hi hpi
    rw [(hsame i).1] at hpi
    exact (hsame i).2.2.2 (h.cells.entries i hi hpi)
  · intro i hi hpi
    rw [(hsame i).1] at hpi
    obtain ⟨k, hk, hcoll⟩ := h.cells.chains i hi hpi
    rw [(hsame i).2.2.1]
    exact ⟨k, hk, fun j hj => by rw [(hsame _).2.1]; exact hcoll j hj⟩

theorem deref_eq (h : c.table.entryAt p = some entry) : c.deref p = .ok entry := by
  unfold deref
  rw [h]

theorem links_of_update {entry : Option (LruEntry K V)}
    (h : t.entryAt = update c.table.entryAt p entry) :
    links { c with table := t } =
      { next := update c.links.next (some p) (entry.bind LruEntry.child)
        prev := update c.links.prev (some p) (entry.bind LruEntry.parent) } := by
  unfold links
  rw [h, Links.mk.injEq]
  refine ⟨?_, ?_⟩
  all_goals
    funext i
    cases i with
    | none => rfl
    | some i =>
      by_cases hi : i = p
      · subst hi
        simp
      · simp [hi]

/-- Writing to an entry, when the key and the value stay. -/
theorem setEntry_frame (h : Valid c.table) (hentry : c.table.entryAt p = some entry)
    (entry' : LruEntry K V) (hkey : entry'.key = entry.key) (hvalue : entry'.value = entry.value) :
    Frame c { c with table := c.table.setEntry p entry' } ∧
      links { c with table := c.table.setEntry p entry' } =
        { next := update c.links.next (some p) entry'.child
          prev := update c.links.prev (some p) entry'.parent } := by
  rw [entryAt_eq] at hentry
  obtain ⟨x, hx, rfl⟩ := map_eq_some_iff.1 hentry
  have hitem := item_setEntry hx entry'
  refine ⟨⟨setEntry_valid h hx entry', rfl, rfl, rfl, ?_, rfl, rfl⟩,
    links_of_update (entryAt_update hitem)⟩
  rw [data_update hitem, update_eq_self_iff, data, hx]
  simp [hkey, hvalue]

section

variable {entry : Option (LruEntry K V)} (h : c.table.entryAt p = entry)
include h

theorem next_eq : c.links.next (some p) = entry.bind LruEntry.child := by
  rw [← h]
  rfl

theorem prev_eq : c.links.prev (some p) = entry.bind LruEntry.parent := by
  rw [← h]
  rfl

end

section

variable (h : Valid c.table) (hp : (c.table.entryAt p).isSome) (q : Option Nat)
include h hp

theorem setParent_ok :
    ∃ c', c.setParent p q = .ok c' ∧ Frame c c' ∧
      c'.links = { c.links with prev := update c.links.prev (some p) q } := by
  obtain ⟨entry, hentry⟩ := isSome_iff_exists.1 hp
  obtain ⟨hframe, hlinks⟩ := setEntry_frame h hentry { entry with parent := q } rfl rfl
  refine ⟨_, ?_, hframe, hlinks.trans ?_⟩
  · unfold setParent
    rw [deref_eq hentry]
    rfl
  · rw [show entry.child = c.links.next (some p) from (next_eq hentry).symm, update_eq_self]

theorem setChild_ok :
    ∃ c', c.setChild p q = .ok c' ∧ Frame c c' ∧
      c'.links = { c.links with next := update c.links.next (some p) q } := by
  obtain ⟨entry, hentry⟩ := isSome_iff_exists.1 hp
  obtain ⟨hframe, hlinks⟩ := setEntry_frame h hentry { entry with child := q } rfl rfl
  refine ⟨_, ?_, hframe, hlinks.trans ?_⟩
  · unfold setChild
    rw [deref_eq hentry]
    rfl
  · rw [show entry.parent = c.links.prev (some p) from (prev_eq hentry).symm, update_eq_self]

end

theorem setOldest_links (c : LruCache K V) (q : Option Nat) :
    links { c with oldest := q } = { c.links with next := update c.links.next none q } := by
  unfold links
  rw [Links.mk.injEq]
  refine ⟨?_, rfl⟩
  funext i
  cases i <;> simp

theorem setYoungest_links (c : LruCache K V) (q : Option Nat) :
    links { c with youngest := q } = { c.links with prev := update c.links.prev none q } := by
  unfold links
  rw [Links.mk.injEq]
  refine ⟨rfl, ?_⟩
  funext i
  cases i <;> simp

theorem Frame.isSome (h : Frame c c') (i : Nat) :
    (c'.table.entryAt i).isSome = (c.table.entryAt i).isSome := by
  rw [← isSome_data, ← isSome_data, h.data]

theorem attachToCache_ok (h : Valid c.table) (hp : (c.table.entryAt p).isSome)
    (hyoungest : ∀ y, c.youngest = some y → (c.table.entryAt y).isSome)
    (hnext : c.links.next (some p) = none) (hprev : c.links.prev (some p) = none) :
    ∃ c', c.attachToCache p = .ok c' ∧ Frame c c' ∧
      c'.links = c.links.insertBefore none (some p) := by
  have hlast : c.links.prev none = c.youngest := rfl
  have hkeep : update c.links.next (some p) none = c.links.next := by
    rw [← hnext, update_eq_self]
  unfold attachToCache Links.insertBefore
  rw [hkeep, hlast]
  cases hy : c.youngest with
  | none =>
    have hkeep' : update c.links.prev (some p) none = c.links.prev := by
      rw [← hprev, update_eq_self]
    refine ⟨_, rfl, ⟨h, rfl, rfl, rfl, rfl, rfl, rfl⟩, ?_⟩
    rw [setYoungest_links { c with oldest := some p }, setOldest_links, hkeep']
  | some y =>
    obtain ⟨c1, hrun1, hframe1, hlinks1⟩ := setParent_ok h hp (some y)
    obtain ⟨c2, hrun2, hframe2, hlinks2⟩ := setChild_ok hframe1.valid
      (by rw [hframe1.isSome]; exact hyoungest y hy) (some p)
    have hframe := hframe1.trans hframe2
    refine ⟨{ c2 with youngest := some p }, ?_, ?_, ?_⟩
    · dsimp only
      rw [hrun1]
      show (c1.setChild y (some p) >>= _) = _
      rw [hrun2]
      rfl
    · exact { hframe with }
    · rw [setYoungest_links, hlinks2, hlinks1]

theorem detachParent_ok (h : Valid c.table) (hentry : c.table.entryAt p = some entry)
    (hparent : ∀ q, entry.parent = some q → (c.table.entryAt q).isSome) :
    ∃ c', c.detachParent entry = .ok c' ∧ Frame c c' ∧ c'.links = { c.links with
      next := update c.links.next (c.links.prev (some p)) (c.links.next (some p)) } := by
  unfold detachParent
  rw [prev_eq hentry, next_eq hentry, bind_some]
  cases hq : entry.parent with
  | none => exact ⟨_, rfl, ⟨h, rfl, rfl, rfl, rfl, rfl, rfl⟩, setOldest_links ..⟩
  | some q => exact setChild_ok h (hparent q hq) entry.child

theorem detachChild_ok (h : Valid c.table) (hentry : c.table.entryAt p = some entry)
    (hchild : ∀ q, entry.child = some q → (c.table.entryAt q).isSome) :
    ∃ c', c.detachChild entry = .ok c' ∧ Frame c c' ∧ c'.links = { c.links with
      prev := update c.links.prev (c.links.next (some p)) (c.links.prev (some p)) } := by
  unfold detachChild
  rw [prev_eq hentry, next_eq hentry, bind_some]
  cases hq : entry.child with
  | none => exact ⟨_, rfl, ⟨h, rfl, rfl, rfl, rfl, rfl, rfl⟩, setYoungest_links ..⟩
  | some q => exact setParent_ok h (hchild q hq) entry.parent

theorem detachFromCache_ok (h : Valid c.table) (hp : (c.table.entryAt p).isSome)
    (hprev : ∀ q, c.links.prev (some p) = some q → (c.table.entryAt q).isSome)
    (hnext : ∀ q, c.links.next (some p) = some q → (c.table.entryAt q).isSome) :
    ∃ c', c.detachFromCache p = .ok c' ∧ Frame c c' ∧ c'.links =
      { next := update (c.links.unlink (some p)).next (some p) none
        prev := update (c.links.unlink (some p)).prev (some p) none } := by
  obtain ⟨entry, hentry⟩ := isSome_iff_exists.1 hp
  obtain ⟨c1, hrun1, hframe1, hlinks1⟩ :=
    detachParent_ok h hentry fun q hq => hprev q ((prev_eq hentry).trans hq)
  obtain ⟨entry1, hentry1⟩ := isSome_iff_exists.1 ((hframe1.isSome p).trans hp)
  have hchild : c1.links.next (some p) = entry1.child := by simp [links, hentry1]
  have hsame : c1.links.next (some p) = c.links.next (some p) := by
    rw [hlinks1]
    dsimp only
    rw [update_apply, ite_self]
  obtain ⟨c2, hrun2, hframe2, hlinks2⟩ := detachChild_ok hframe1.valid hentry1 (fun q hq => by
    rw [hframe1.isSome]
    exact hnext q (hsame.symm.trans (hchild.trans hq)))
  have hframe12 := hframe1.trans hframe2
  obtain ⟨c3, hrun3, hframe3, hlinks3⟩ :=
    setParent_ok hframe2.valid ((hframe12.isSome p).trans hp) none
  have hframe13 := hframe12.trans hframe3
  obtain ⟨c4, hrun4, hframe4, hlinks4⟩ :=
    setChild_ok hframe3.valid ((hframe13.isSome p).trans hp) none
  refine ⟨c4, ?_, hframe13.trans hframe4, ?_⟩
  · unfold detachFromCache
    rw [deref_eq hentry]
    show (c.detachParent entry >>= _) = _
    rw [hrun1]
    show (c1.deref p >>= _) = _
    rw [deref_eq hentry1]
    show (c1.detachChild entry1 >>= _) = _
    rw [hrun2]
    show (c2.setParent p none >>= _) = _
    rw [hrun3]
    exact hrun4
  · rw [hlinks4, hlinks3, hlinks2, hsame, hlinks1]
    rfl

end Pointers

/-! ## The invariant -/

section Invariant

variable {hashType : K → UInt32} {c c' : LruCache K V} {idx : List Nat}

/-- The list has the entries of the table, and no two have the same key. -/
structure Inv (hashType : K → UInt32) (c : LruCache K V) (idx : List Nat) : Prop where
  valid : Valid c.table
  ring : c.links.Ring none (idx.map some)
  mem : ∀ i, i ∈ idx ↔ i < c.table.bucketCount ∧ (data c.table i).isSome
  hash : ∀ i < c.table.bucketCount, ∀ x, data c.table i = some x → x.1 = trimHash (hashType x.2.1)
  keys : ∀ i < c.table.bucketCount, ∀ j < c.table.bucketCount, ∀ x y,
    data c.table i = some x → data c.table j = some y → x.2.1 = y.2.1 → i = j

/-- The keys and values, in the order of the list. -/
def order (t : Hashtable (LruEntry K V)) (idx : List Nat) : List (K × V) :=
  idx.filterMap fun i => (data t i).map Prod.snd

section

variable (h : Inv hashType c idx)
include h

theorem Inv.nodup : idx.Nodup :=
  (nodup_cons.1 h.ring.nodup).2.of_map _

theorem Inv.isSome (hi : i ∈ idx) : (c.table.entryAt i).isSome := by
  rw [← isSome_data]
  exact ((h.mem i).1 hi).2

theorem Inv.links_isSome {q : Nat} (hp : p ∈ idx)
    (hq : c.links.next (some p) = some q ∨ c.links.prev (some p) = some q) :
    (c.table.entryAt q).isSome := by
  obtain ⟨hnext, hprev⟩ := h.ring.mem (mem_map_of_mem hp)
  have hmem : some q ∈ none :: idx.map some := by
    obtain hq | hq := hq
    · exact hq ▸ hnext
    · exact hq ▸ hprev
  apply h.isSome
  simpa using hmem

theorem Inv.of_frame (hframe : Frame c c') {idx' : List Nat}
    (hring : c'.links.Ring none (idx'.map some)) (hperm : idx'.Perm idx) :
    Inv hashType c' idx' where
  valid := hframe.valid
  ring := hring
  mem := by
    intro i
    rw [hperm.mem_iff, h.mem, hframe.bucketCount, hframe.data]
  hash := by
    rw [hframe.bucketCount, hframe.data]
    exact h.hash
  keys := by
    rw [hframe.bucketCount, hframe.data]
    exact h.keys

omit h in
theorem countWhere_eq_length {count : Nat} {f : Nat → Bool} (hnodup : idx.Nodup)
    (hmem : ∀ i, i ∈ idx ↔ i < count ∧ f i = true) : countWhere count f = idx.length := by
  rw [countWhere, ← toFinset_card_of_nodup hnodup]
  congr 1
  ext i
  simp [hmem]

omit h in
theorem isSome_data_iff (h : Valid c.table) (hi : i < c.table.bucketCount) :
    (data c.table i).isSome ↔ isPresent c.table.cells i = true := by
  unfold data item isPresent
  rw [isSome_map]
  cases hp : (c.table.cells i).present with
  | false => simp
  | true => simpa using h.cells.entries i hi hp

theorem Inv.size : c.size = idx.length := by
  rw [LruCache.size, h.valid.cells.size]
  apply countWhere_eq_length h.nodup
  intro i
  rw [h.mem]
  exact and_congr_right fun hi => isSome_data_iff h.valid hi

omit h in
theorem order_append (t : Hashtable (LruEntry K V)) (l₁ l₂ : List Nat) :
    order t (l₁ ++ l₂) = order t l₁ ++ order t l₂ :=
  filterMap_append

omit h in
theorem order_cons {x : UInt32 × K × V} (h : data t i = some x) (l : List Nat) :
    order t (i :: l) = x.2 :: order t l :=
  filterMap_cons_some (by rw [h]; rfl)

omit h in
theorem mem_order {y : K × V} : y ∈ order t idx ↔ ∃ i ∈ idx, ∃ x, data t i = some x ∧ x.2 = y := by
  simp [order]

omit h in
theorem order_congr {t' : Hashtable (LruEntry K V)} (h : ∀ i ∈ idx, data t' i = data t i) :
    order t' idx = order t idx := by
  apply List.filterMap_congr
  intro i hi
  rw [h i hi]

theorem Inv.length_order : (order c.table idx).length = idx.length := by
  apply filterMap_length_eq_length.2
  intro i hi
  rw [isSome_map]
  exact ((h.mem i).1 hi).2

theorem Inv.pairwise_order : (order c.table idx).Pairwise fun x y => x.1 ≠ y.1 := by
  apply pairwise_filterMap.2
  apply h.nodup.imp_of_mem
  intro i j hi hj hne y hy z hz hkey
  obtain ⟨x, hx, rfl⟩ := map_eq_some_iff.1 hy
  obtain ⟨x', hx', rfl⟩ := map_eq_some_iff.1 hz
  exact hne (h.keys i ((h.mem i).1 hi).1 j ((h.mem j).1 hj).1 x x' hx hx' hkey)

theorem find_cases [DecidableEq K] (key : K) :
    (c.find hashType key = .ok none ∧ ∀ i ∈ idx, ∀ x, data c.table i = some x → x.2.1 ≠ key) ∨
    ∃ p ∈ idx, ∃ x, c.find hashType key = .ok (some p) ∧ data c.table p = some x ∧ x.2.1 = key := by
  obtain ⟨l, hl, -, hmem⟩ := find_enumerates LruEntry.key h.valid (hashType key) key
  unfold find
  cases hl with
  | nil hfind =>
    left
    refine ⟨by rw [hfind]; rfl, ?_⟩
    intro i hi x hx hkey
    obtain ⟨hlt, -⟩ := (h.mem i).1 hi
    obtain ⟨y, hy, rfl⟩ := map_eq_some_iff.1 hx
    obtain ⟨hp, hhash, hentry⟩ := item_eq_some.1 hy
    have hin : i ∈ ([] : List Nat) := by
      refine (hmem i).2 ⟨hlt, hp, ?_, .inl ?_⟩
      · simpa [compareBucketKey, hentry] using hkey
      · have := h.hash i hlt _ hx
        rw [hkey] at this
        rw [hhash]
        exact this
    cases hin
  | @cons _ p l hfind hl =>
    right
    obtain ⟨hlt, hp, hkey, -⟩ := (hmem p).1 (by simp)
    obtain ⟨entry, hentry⟩ := isSome_iff_exists.1 (h.valid.cells.entries p hlt hp)
    have hdata : data c.table p = some ((c.table.cells p).hash, entry.key, entry.value) := by
      unfold data
      rw [item_eq_some (x := ((c.table.cells p).hash, entry)) |>.2 ⟨hp, rfl, hentry⟩]
      rfl
    refine ⟨p, (h.mem p).2 ⟨hlt, by rw [hdata]; rfl⟩, _, by rw [hfind]; rfl, hdata, ?_⟩
    simpa [compareBucketKey, hentry] using hkey

end

theorem Inv.detach (h : Inv hashType c (l₁ ++ p :: l₂)) :
    ∃ c', c.detachFromCache p = .ok c' ∧ Frame c c' ∧
      c'.links.Ring none ((l₁ ++ l₂).map some) ∧ c'.links.next (some p) = none ∧
      c'.links.prev (some p) = none := by
  have hp : p ∈ l₁ ++ p :: l₂ := by simp
  obtain ⟨c', hrun, hframe, hlinks⟩ := detachFromCache_ok h.valid (h.isSome hp)
    (fun q hq => h.links_isSome hp (.inr hq)) (fun q hq => h.links_isSome hp (.inl hq))
  refine ⟨c', hrun, hframe, ?_, ?_, ?_⟩
  · have hring := h.ring
    rw [map_append] at hring
    rw [map_append]
    apply hring.unlink.congr
    intro y hy
    have hne : y ≠ some p := by
      rintro rfl
      have hnot := (nodup_cons.1 (perm_middle.nodup_iff.1 h.nodup)).1
      exact hnot (by simpa using hy)
    rw [hlinks]
    exact ⟨update_of_ne hne .., update_of_ne hne ..⟩
  · rw [hlinks]
    exact update_self ..
  · rw [hlinks]
    exact update_self ..

theorem attach_ring (hvalid : Valid c.table) (hring : c.links.Ring none (idx.map some))
    (hp : p ∉ idx) (hentry : (c.table.entryAt p).isSome)
    (hidx : ∀ i ∈ idx, (c.table.entryAt i).isSome) (hnext : c.links.next (some p) = none)
    (hprev : c.links.prev (some p) = none) :
    ∃ c', c.attachToCache p = .ok c' ∧ Frame c c' ∧ c'.links.Ring none ((idx ++ [p]).map some) := by
  obtain ⟨c', hrun, hframe, hlinks⟩ := attachToCache_ok hvalid hentry (fun y hy => by
    have hmem : c.links.prev none ∈ none :: idx.map some := hring.segment.prev_mem
    rw [show c.links.prev none = some y from hy] at hmem
    apply hidx
    simpa using hmem) hnext hprev
  refine ⟨c', hrun, hframe, ?_⟩
  rw [hlinks, map_append]
  exact hring.insertBefore (by simpa using hp)

/-- An entry that is not in the list any more is removed from the table. -/
theorem Inv.removeAt (h : Inv hashType c (l₁ ++ p :: l₂)) (hframe : Frame c c')
    (hring : c'.links.Ring none ((l₁ ++ l₂).map some)) (hnext : c'.links.next (some p) = none)
    (hprev : c'.links.prev (some p) = none) :
    Inv hashType { c' with table := c'.table.removeAt p } (l₁ ++ l₂) ∧
      order (c'.table.removeAt p) (l₁ ++ l₂) = order c.table (l₁ ++ l₂) := by
  obtain ⟨hlt, hsome⟩ := (h.mem p).1 (by simp)
  have hnot := (nodup_cons.1 (perm_middle.nodup_iff.1 h.nodup)).1
  have hcount : (c'.table.removeAt p).bucketCount = c.table.bucketCount := hframe.bucketCount
  have hitem := removeAt_items c'.table p
  have hdata : data (c'.table.removeAt p) = update (data c.table) p none := by
    rw [data_update hitem, hframe.data]
    rfl
  have hkeep : ∀ i x, data (c'.table.removeAt p) i = some x → i ≠ p ∧ data c.table i = some x := by
    intro i x hx
    rw [hdata] at hx
    by_cases hi : i = p
    · subst hi
      rw [update_self] at hx
      cases hx
    · rw [update_of_ne hi] at hx
      exact ⟨hi, hx⟩
  rw [← hframe.data] at hsome
  obtain ⟨x, hx⟩ := isSome_iff_exists.1 ((isSome_map ..).symm.trans hsome)
  have hlinks : links { c' with table := c'.table.removeAt p } = c'.links := by
    rw [links_of_update (entryAt_update hitem), map_none, bind_none, bind_none]
    nth_rewrite 1 [← hnext]
    rw [← hprev, update_eq_self, update_eq_self]
  refine ⟨⟨(removeAt_valid hframe.valid (hframe.bucketCount ▸ hlt) hx).1, ?_, ?_, ?_, ?_⟩, ?_⟩
  · rw [hlinks]
    exact hring
  · intro i
    rw [Links.mem_unlinked h.nodup, h.mem, hcount, hdata, and_assoc]
    refine and_congr_right fun _ => ?_
    by_cases hi : i = p
    · simp [hi]
    · simp [hi]
  · intro i hi y hy
    exact h.hash i (hcount ▸ hi) y (hkeep i y hy).2
  · intro i hi j hj y z hy hz hkey
    exact h.keys i (hcount ▸ hi) j (hcount ▸ hj) y z (hkeep i y hy).2 (hkeep j z hz).2 hkey
  · apply order_congr
    intro i hi
    rw [hdata, update_of_ne]
    rintro rfl
    exact hnot hi

theorem Inv.insert (h : Inv hashType c idx) (hroom : c.table.hasMoreRoom = true) {key : K}
    (hkey : ∀ i ∈ idx, ∀ x, data c.table i = some x → x.2.1 ≠ key) (value : V) :
    ∃ c' p, c.insert hashType key value = .ok c' ∧ Inv hashType c' (idx ++ [p]) ∧
      order c'.table (idx ++ [p]) = order c.table idx ++ [(key, value)] ∧
      c'.table.capacity = c.table.capacity ∧
      c'.table.filledBuckets ≤ c.table.filledBuckets + 1 ∧ c'.maxCapacity = c.maxCapacity ∧
      c'.notified = c.notified := by
  obtain ⟨t, p, hadd, hvalid, hadded⟩ :=
    add_room h.valid hroom (hashType key) ({ key, value } : LruEntry K V)
  have hdata : data t = update (data c.table) p (some (trimHash (hashType key), key, value)) :=
    data_update hadded.items
  have hnone : data c.table p = none := by simp [data, hadded.free]
  have hp : p ∉ idx := by
    intro hp
    have := ((h.mem p).1 hp).2
    rw [hnone] at this
    cases this
  have hentry : t.entryAt = update c.table.entryAt p (some { key, value }) :=
    entryAt_update hadded.items
  -- the new entry has no links
  have hlinks : links { c with table := t } = c.links := by
    have hfree : c.table.entryAt p = none := by simp [entryAt_eq, hadded.free]
    have hnext := next_eq hfree
    have hprev := prev_eq hfree
    rw [links_of_update hentry]
    simp only [bind_some, bind_none] at hnext hprev ⊢
    rw [← hnext, update_eq_self]
    rw [hnext, ← hprev, update_eq_self]
  obtain ⟨c', hrun, hframe, hring⟩ := attach_ring (p := p)
    hvalid (hlinks ▸ h.ring) hp (by simp [hentry])
    (fun i hi => by
      have hne : i ≠ p := by
        rintro rfl
        exact hp hi
      simpa [hentry, hne] using h.isSome hi)
    (by simp [links, hentry]) (by simp [links, hentry])
  have hdata' : data c'.table = data t := hframe.data
  have hcount : c'.table.bucketCount = c.table.bucketCount :=
    hframe.bucketCount.trans hadded.bucketCount
  have hcases : ∀ i < c.table.bucketCount, ∀ x, data c'.table i = some x →
      i = p ∧ x = (trimHash (hashType key), key, value) ∨
      i ∈ idx ∧ data c.table i = some x := by
    intro i hi x hx
    rw [hdata', hdata] at hx
    by_cases hip : i = p
    · subst hip
      rw [update_self, some_inj] at hx
      exact .inl ⟨rfl, hx.symm⟩
    · rw [update_of_ne hip] at hx
      exact .inr ⟨(h.mem i).2 ⟨hi, by rw [hx]; rfl⟩, hx⟩
  refine ⟨c', p, ?_, ⟨hframe.valid, hring, ?_, ?_, ?_⟩, ?_, hframe.capacity.trans hadded.capacity,
    ?_, hframe.maxCapacity, hframe.notified⟩
  · unfold LruCache.insert
    rw [hadd]
    exact hrun
  · intro i
    rw [mem_append, h.mem, hcount, hdata', hdata]
    by_cases hip : i = p
    · subst hip
      simp [hadded.lt]
    · simp [hip]
  · intro i hi x hx
    rw [hcount] at hi
    obtain ⟨-, rfl⟩ | ⟨-, hx⟩ := hcases i hi x hx
    · rfl
    · exact h.hash i hi x hx
  · intro i hi j hj x y hx hy hxy
    rw [hcount] at hi hj
    obtain ⟨rfl, rfl⟩ | ⟨hi', hx⟩ := hcases i hi x hx
    · obtain ⟨rfl, -⟩ | ⟨hj', hy⟩ := hcases j hj y hy
      · rfl
      · exact absurd hxy.symm (hkey j hj' y hy)
    · obtain ⟨rfl, rfl⟩ | ⟨-, hy⟩ := hcases j hj y hy
      · exact absurd hxy (hkey i hi' x hx)
      · exact h.keys i hi j hj x y hx hy hxy
  · rw [order_append, order_cons (by rw [hdata', hdata, update_self])]
    congr 1
    apply order_congr
    intro i hi
    rw [hdata', hdata, update_of_ne]
    rintro rfl
    exact hp hi
  · rw [hframe.filledBuckets]
    exact hadded.filled_le

theorem inv_nil (hvalid : Valid c.table) (hsize : c.table.size = 0) (holdest : c.oldest = none)
    (hyoungest : c.youngest = none) : Inv hashType c [] := by
  have hnone : ∀ i < c.table.bucketCount, ¬(data c.table i).isSome = true := by
    intro i hi hsome
    rw [isSome_data_iff hvalid hi] at hsome
    have := countWhere_pos hi hsome
    rw [← hvalid.cells.size] at this
    omega
  refine ⟨hvalid, ⟨by simp, holdest, hyoungest⟩, ?_, ?_, ?_⟩
  · intro i
    constructor
    · intro hi
      cases hi
    · rintro ⟨hi, hsome⟩
      exact absurd hsome (hnone i hi)
  · intro i hi x hx
    exact absurd (by rw [hx]; rfl) (hnone i hi)
  · intro i hi j _ x _ hx
    exact absurd (by rw [hx]; rfl) (hnone i hi)

theorem walk_ok {l : Links (Option Nat)} {p : Option Nat}
    (hlinks : ∀ i ∈ idx, ∃ entry, t.entryAt i = some entry ∧ entry.child = l.next (some i))
    (hsegment : l.Segment p (idx.map some) none) {n : Nat} (hn : idx.length ≤ n) :
    ∃ entries, walk t n (l.next p) = .ok entries ∧
      entries.map (fun entry => (entry.key, entry.value)) = order t idx := by
  induction idx generalizing p n with
  | nil =>
    refine ⟨[], ?_, rfl⟩
    rw [hsegment.1]
    cases n <;> rfl
  | cons i idx ih =>
    obtain ⟨n, rfl⟩ : ∃ m, n = m + 1 := ⟨n - 1, by simp at hn; omega⟩
    obtain ⟨⟨hnext, -⟩, hrest⟩ := hsegment
    obtain ⟨entry, hentry, hchild⟩ := hlinks i (by simp)
    obtain ⟨entries, hwalk, hmap⟩ := ih (fun j hj => hlinks j (by simp [hj])) hrest
      (by simpa using hn)
    refine ⟨entry :: entries, ?_, ?_⟩
    · rw [hnext, walk, hentry]
      dsimp only
      rw [hchild, hwalk]
      rfl
    · rw [entryAt_eq] at hentry
      obtain ⟨x, hx, rfl⟩ := map_eq_some_iff.1 hentry
      rw [map_cons, hmap, order_cons (x := (x.1, x.2.key, x.2.value)) (by simp [data, hx])]

theorem Inv.walk (h : Inv hashType c idx) :
    ∃ entries, walk c.table c.table.bucketCount c.oldest = .ok entries ∧
      entries.map (fun entry => (entry.key, entry.value)) = order c.table idx := by
  apply walk_ok ?_ h.ring.segment ?_
  · intro i hi
    obtain ⟨entry, hentry⟩ := isSome_iff_exists.1 (h.isSome hi)
    exact ⟨entry, hentry, by simp [links, hentry]⟩
  · rw [← h.size]
    exact (h.valid.size_le.trans_lt h.valid.capacity_lt).le

end Invariant

end AndroidSystem.Utils.LruCache
