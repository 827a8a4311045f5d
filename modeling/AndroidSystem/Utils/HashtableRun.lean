import AndroidSystem.Utils.HashtableCells

/-!
# `BasicHashtable` as a multimap

The counters of a hash table are right in every state it reaches, and `find` gives the entries with
a key one after the other (`Consistent`). A search ends at the latest at a bucket with no flag at
all, and there is one because the number of filled buckets is at most the capacity.

That last fact can fail after a call of `rehash`, where the capacity is computed in single precision:
`hashtable_consistent` is for runs whose calls of `rehash` have enough room (`Roomy`), and
`rehash_overfills` is a run with a call that has not. `add` calls `rehash` with twice the capacity,
which is always enough.
-/

namespace AndroidSystem.Utils

open Finset Hashtable Multiset
open Function

variable {E K : Type}

variable {stop : Stop} {i e : Nat}

/-! ## The operations -/

/-- A table with its counters and its chains. -/
structure Valid (t : Hashtable E) : Prop where
  prime : t.bucketCount.Prime
  capacity_pos : 0 < t.capacity
  capacity_lt : t.capacity < t.bucketCount
  filled_le : t.filledBuckets ≤ t.capacity
  cells : Cells t.bucketCount t.cells t.size t.filledBuckets
  count_le : t.bucketCount ≤ 1685759167
  factor : 0 < t.loadFactor ∧ t.loadFactor ≤ 1

/-- What is in a table. -/
def Hashtable.content (t : Hashtable E) : Multiset (UInt32 × E) :=
  Utils.content t.bucketCount t.cells

section Operations

variable {t t' : Hashtable E} {minimumCapacity count capacity : Nat} {loadFactor : ℚ}

theorem Valid.size_le (h : Valid t) : t.size ≤ t.capacity := h.cells.size_le.trans h.filled_le

theorem Valid.exists_free (h : Valid t) : ∃ i < t.bucketCount, (t.cells i).present = false := by
  apply exists_false_of_countWhere (f := isPresent t.cells)
  rw [← h.cells.size]
  exact h.size_le.trans_lt h.capacity_lt

theorem new_valid (h : new minimumCapacity loadFactor = .ok t) :
    Valid t ∧ t.content = 0 := by
  unfold new at h
  cases hdet : determineCapacity minimumCapacity loadFactor with
  | error e =>
    rw [hdet] at h
    cases h
  | ok r =>
    obtain ⟨hprime, hpos, hlt, -⟩ := determineCapacity_ok hdet
    obtain ⟨hlow, hone, hmem, -⟩ := determineCapacity_inv hdet
    rw [hdet] at h
    cases h
    exact ⟨⟨hprime, hpos, hlt, Nat.zero_le _, Cells.empty _, le_of_mem_primes hmem, hlow, hone⟩,
      (Cells.empty _).content_eq_zero⟩

theorem cells_of_some {b : Nat → Bucket E} (h : t.buckets = some b) : t.cells = b := by
  unfold cells
  rw [h]
  rfl

theorem empty_of_none (h : t.buckets = none)
    (hcells : Cells t.bucketCount t.cells t.size t.filledBuckets) :
    t.size = 0 ∧ t.filledBuckets = 0 ∧ t.content = 0 := by
  have hnone : t.cells = fun _ => {} := by
    unfold cells
    rw [h]
    rfl
  have hfresh := Cells.empty (E := E) t.bucketCount
  rw [Hashtable.content, hnone, hfresh.content_eq_zero]
  rw [hnone] at hcells
  exact ⟨hcells.size.trans hfresh.size.symm, hcells.filled.trans hfresh.filled.symm, rfl⟩

/-- What `rehash` does, if the entries have room in the new table. -/
theorem rehash_ok (hcells : Cells t.bucketCount t.cells t.size t.filledBuckets)
    (hdet : determineCapacity (max minimumCapacity t.size) loadFactor = .ok (count, capacity))
    (hroom : t.size ≤ count) :
    ∃ t', t.rehash minimumCapacity loadFactor = .ok t' ∧ t'.bucketCount = count ∧
      t'.capacity = capacity ∧ t'.loadFactor = loadFactor ∧ t'.size = t.size ∧
      t'.content = t.content ∧ Cells count t'.cells t.size t'.filledBuckets ∧
      t'.filledBuckets =
        if count = t.bucketCount ∧ capacity = t.capacity then t.filledBuckets else t.size := by
  obtain ⟨hprime, -⟩ := determineCapacity_ok hdet
  unfold rehash
  rw [hdet]
  show ∃ t', (if count ≠ t.bucketCount ∨ capacity ≠ t.capacity then _ else _) = _ ∧ _
  by_cases hsame : count = t.bucketCount ∧ capacity = t.capacity
  · obtain ⟨rfl, rfl⟩ := hsame
    rw [if_neg (by simp), if_pos ⟨rfl, rfl⟩]
    exact ⟨_, rfl, rfl, rfl, rfl, rfl, rfl, hcells, rfl⟩
  rw [if_pos (not_and_or.1 hsame), if_neg hsame]
  cases hbuckets : t.buckets with
  | none =>
    obtain ⟨hsize, hfilled, hcontent⟩ := empty_of_none hbuckets hcells
    refine ⟨_, rfl, rfl, rfl, rfl, rfl, ?_, ?_, hfilled.trans hsize.symm⟩
    · rw [hcontent]
      exact (Cells.empty count).content_eq_zero
    · rw [hsize, hfilled]
      exact Cells.empty _
  | some old =>
    have hold := cells_of_some hbuckets
    dsimp only
    by_cases hsize : t.size = 0
    · rw [if_neg (by simp [hsize])]
      refine ⟨_, rfl, rfl, rfl, rfl, rfl, ?_, ?_, rfl⟩
      · rw [hsize] at hcells
        rw [Hashtable.content, Hashtable.content, hcells.content_eq_zero]
        exact (Cells.empty count).content_eq_zero
      · rw [hsize]
        exact Cells.empty _
    · rw [if_pos hsize]
      rw [hold] at hcells
      obtain ⟨b', hmove, hcells', hcontent, -⟩ :=
        moveBuckets_ok hprime hcells hroom t.bucketCount le_rfl
      rw [← hcells.size] at hcells'
      rw [hmove]
      refine ⟨_, rfl, rfl, rfl, rfl, rfl, ?_, hcells', rfl⟩
      rw [Hashtable.content, Hashtable.content, hold]
      exact hcontent

theorem rehash_error
    (hdet : determineCapacity (max minimumCapacity t.size) loadFactor = .error stop) :
    t.rehash minimumCapacity loadFactor = .error stop := by
  unfold rehash
  rw [hdet]
  rfl

/-- A call of `rehash` for which single precision is enough: there are less than `2 ^ 21` entries, or
the capacity asked for exceeds their number by one part in `2 ^ 21`. There is a prime for it. -/
def Roomy (t : Hashtable E) (minimumCapacity : Nat) (loadFactor : ℚ) : Prop :=
  (t.size < 2 ^ 21 ∨ 2 ^ 21 * t.size ≤ (2 ^ 21 - 1) * minimumCapacity) ∧
    HasPrime (max minimumCapacity t.size) loadFactor

theorem Roomy.size_le (h : Roomy t minimumCapacity loadFactor)
    (hdet : determineCapacity (max minimumCapacity t.size) loadFactor = .ok (count, capacity)) :
    t.size ≤ capacity := by
  obtain ⟨-, -, -, hle⟩ := determineCapacity_ok hdet
  have hmax : (t.size : ℚ) ≤ (max minimumCapacity t.size : Nat) := by
    exact_mod_cast le_max_right _ _
  obtain h | h := h.1
  · have hlt : (t.size : ℚ) < 2 ^ 21 := by exact_mod_cast h
    have : (t.size : ℚ) < capacity + 1 := by linarith
    exact Nat.lt_succ_iff.1 (by exact_mod_cast this)
  · have hmax' : (minimumCapacity : ℚ) ≤ (max minimumCapacity t.size : Nat) := by
      exact_mod_cast le_max_left _ _
    have hnat : 2097152 * t.size ≤ 2097151 * minimumCapacity := h
    have hcast : (2097152 : ℚ) * t.size ≤ 2097151 * minimumCapacity := by exact_mod_cast hnat
    have : (t.size : ℚ) ≤ capacity := by linarith
    exact_mod_cast this

theorem rehash_valid (h : Valid t)
    (hdet : determineCapacity (max minimumCapacity t.size) loadFactor = .ok (count, capacity))
    (hsize : t.size ≤ capacity) :
    ∃ t', t.rehash minimumCapacity loadFactor = .ok t' ∧ Valid t' ∧ t'.content = t.content := by
  obtain ⟨hprime, hpos, hlt, -⟩ := determineCapacity_ok hdet
  obtain ⟨hlow, hone, hmem, -⟩ := determineCapacity_inv hdet
  obtain ⟨t', hrun, rfl, rfl, rfl, hsize', hcontent, hcells, hfilled⟩ :=
    rehash_ok h.cells hdet (hsize.trans hlt.le)
  rw [← hsize'] at hcells
  refine ⟨t', hrun, ⟨hprime, hpos, hlt, ?_, hcells, le_of_mem_primes hmem, hlow, hone⟩, hcontent⟩
  rw [hfilled]
  split_ifs with hsame
  · rw [hsame.2]
    exact h.filled_le
  · exact hsize

/-! ### `add` -/

/-- An entry has been put into the free bucket `i`. -/
structure Added (t t' : Hashtable E) (i : Nat) (hash : UInt32) (e : E) : Prop where
  bucketCount : t'.bucketCount = t.bucketCount
  capacity : t'.capacity = t.capacity
  loadFactor : t'.loadFactor = t.loadFactor
  size : t'.size = t.size + 1
  filled_le : t'.filledBuckets ≤ t.filledBuckets + 1
  lt : i < t.bucketCount
  free : item t.cells i = none
  items : item t'.cells = update (item t.cells) i (some (hash, e))

theorem Added.content {hash : UInt32} {e : E} (h : Added t t' i hash e) :
    t'.content = (hash, e) ::ₘ t.content := by
  unfold Hashtable.content
  rw [h.bucketCount]
  apply content_cons h.lt h.free
  · rw [h.items, update_self]
  · intro j _ hj
    rw [h.items, update_of_ne hj]

/-- A pass of the loop of `add` either puts the entry in its place, or finds the table full. -/
theorem addLoop_cases (h : Valid t) (hash : UInt32) (e : E) (n : Nat) :
    (∃ t' i, t.addLoop hash e (n + 1) = .ok (t', i) ∧ Valid t' ∧ Added t t' i hash e) ∨
    t.filledBuckets = t.capacity ∧ ∃ b, Marks t.cells b ∧
      t.addLoop hash e (n + 1) =
        (rehash { t with buckets := some b } (t.capacity * 2) t.loadFactor >>=
          addLoop hash e n) := by
  obtain ⟨b, m, hfind, hmarks, hfree, hcoll⟩ := findFree_ok h.prime hash h.exists_free
  set p := chainAt t.bucketCount hash m
  have hfree' : (b p).present = false := by
    rw [hmarks.present]
    exact hfree
  obtain ⟨hins, -⟩ := (h.cells.marks hmarks).insert e h.prime.pos hfree' hcoll
  have hlt : p < t.bucketCount := chainAt_lt h.prime.pos hash m
  have hnone : item t.cells p = none := by simp [item, hfree]
  have hitems (collision : Bool) : item (update b p
      { collision, present := true, hash, entry := some e })
      = update (item t.cells) p (some (hash, e)) := by
    funext j
    by_cases hj : j = p
    · subst hj
      simp [item]
    · rw [update_of_ne hj]
      unfold item
      rw [update_of_ne hj, hmarks.present, hmarks.hash, hmarks.entry]
  rw [addLoop, hfind]
  show (∃ t' i, (if (b p).collision then _ else _) = _ ∧ _) ∨ _
  cases hc : (b p).collision with
  | true =>
    left
    rw [hc] at hins
    exact ⟨_, _, rfl, { h with cells := hins }, rfl, rfl, rfl, rfl, Nat.le_succ _, hlt, hnone,
      hitems true⟩
  | false =>
    rw [hc] at hins
    by_cases hfull : t.filledBuckets ≥ t.capacity
    · right
      refine ⟨le_antisymm h.filled_le hfull, b, hmarks, ?_⟩
      show (if (b p).collision then _
        else if t.filledBuckets ≥ t.capacity then _ else _) = _
      rw [hc, if_neg (by simp), if_pos hfull]
    · left
      rw [if_neg hfull]
      exact ⟨_, _, rfl, { h with filled_le := not_le.1 hfull, cells := hins }, rfl, rfl, rfl, rfl,
        le_rfl, hlt, hnone, hitems false⟩

theorem add_room (h : Valid t) (hroom : t.hasMoreRoom = true) (hash : UInt32) (e : E) :
    ∃ t' i, t.add hash e = .ok (t', i) ∧ Valid t' ∧ Added t t' i (trimHash hash) e := by
  obtain hadd | ⟨hfull, -⟩ := addLoop_cases h (trimHash hash) e 1
  · exact hadd
  · simp [hasMoreRoom, hfull] at hroom

/-- The table has grown after one `rehash`, so `add` returns, unless it has to grow and there is no
prime for it. -/
theorem add_ok (h : Valid t) (hash : UInt32) (e : E) :
    (t.add hash e = .error .pastPrimes ∧ t.hasMoreRoom = false ∧
      ¬HasPrime (t.capacity * 2) t.loadFactor) ∨
      ∃ t' i, t.add hash e = .ok (t', i) ∧ Valid t' ∧
        t'.content = (trimHash hash, e) ::ₘ t.content ∧ t'.size = t.size + 1 := by
  unfold add
  obtain ⟨t', i, hadd, hvalid, hadded⟩ | ⟨hfull, b, hmarks, hrun⟩ :=
    addLoop_cases h (trimHash hash) e 1
  · exact .inr ⟨t', i, hadd, hvalid, hadded.content, hadded.size⟩
  rw [hrun]
  set t1 : Hashtable E := { t with buckets := some b } with ht1
  have hcells1 : Cells t1.bucketCount t1.cells t1.size t1.filledBuckets := h.cells.marks hmarks
  have hcontent1 : t1.content = t.content := hmarks.content _
  have hmax : max (t.capacity * 2) t1.size = t.capacity * 2 := by
    have : t1.size ≤ t.capacity := h.size_le
    omega
  obtain ⟨-, count, capacity, hdet⟩ | ⟨hfits, herror⟩ :=
    determineCapacity_cases (t.capacity * 2) h.factor
  swap
  · left
    rw [← hmax] at herror
    rw [rehash_error herror]
    exact ⟨rfl, by simp [hasMoreRoom, hfull], hfits⟩
  · right
    obtain ⟨hprime, hpos, hlt, -⟩ := determineCapacity_ok hdet
    obtain ⟨-, -, hmem, -⟩ := determineCapacity_inv hdet
    have hgrown : t.capacity < capacity :=
      determineCapacity_double h.capacity_pos (Nat.mul_comm .. ▸ hdet)
    rw [← hmax] at hdet
    have hsize : t1.size < capacity := h.size_le.trans_lt hgrown
    obtain ⟨t2, hrehash, rfl, rfl, hfactor, hsize2, hcontent2, hcells2, hfilled2⟩ :=
      rehash_ok hcells1 hdet (hsize.trans hlt).le
    rw [if_neg (fun hsame => hgrown.ne' hsame.2)] at hfilled2
    rw [← hsize2] at hcells2
    have hvalid2 : Valid t2 := ⟨hprime, hpos, hlt, by rw [hfilled2]; exact hsize.le, hcells2,
      le_of_mem_primes hmem, hfactor ▸ h.factor⟩
    rw [hrehash]
    obtain ⟨t', i, hadd, hvalid, hadded⟩ | ⟨hfull2, -⟩ :=
      addLoop_cases hvalid2 (trimHash hash) e 0
    · refine ⟨t', i, hadd, hvalid, ?_, ?_⟩
      · rw [hadded.content, hcontent2, hcontent1]
      · rw [hadded.size, hsize2]
    · omega

/-! ### `removeAt` and `clear` -/

theorem removeAt_valid (h : Valid t) (hi : i < t.bucketCount) {x : UInt32 × E}
    (hx : item t.cells i = some x) :
    Valid (t.removeAt i) ∧ t.content = x ::ₘ (t.removeAt i).content := by
  obtain ⟨hp, hhash, hentry⟩ := item_eq_some.1 hx
  obtain ⟨hcells, e, he, hcontent⟩ := h.cells.remove hi hp
  rw [hentry, Option.some_inj] at he
  refine ⟨{ h with filled_le := ?_, cells := hcells }, ?_⟩
  · refine le_trans ?_ h.filled_le
    show (if _ then _ else _) ≤ _
    split_ifs
    · exact le_rfl
    · exact Nat.sub_le _ _
  · rw [Hashtable.content, hcontent, hhash, ← he]
    rfl

theorem removeAt_items (t : Hashtable E) (i : Nat) :
    item (t.removeAt i).cells = update (item t.cells) i none := by
  funext j
  show item (update t.cells i { t.cells i with present := false }) j = _
  by_cases hj : j = i
  · subst hj
    simp [item]
  · rw [update_of_ne hj]
    unfold item
    rw [update_of_ne hj]

theorem clear_valid (h : Valid t) :
    Valid t.clear ∧ t.clear.content = 0 ∧ t.clear.size = 0 := by
  unfold clear
  cases hbuckets : t.buckets with
  | none =>
    obtain ⟨hsize, -, hcontent⟩ := empty_of_none hbuckets h.cells
    exact ⟨h, hcontent, hsize⟩
  | some b =>
    dsimp only
    by_cases hfilled : t.filledBuckets = 0
    · -- no bucket has a flag already
      have hsize : t.size = 0 := by
        have := h.cells.size_le
        omega
      have hcells := h.cells
      rw [hsize, cells_of_some hbuckets] at hcells
      rw [if_neg (by simp [hfilled])]
      exact ⟨{ h with cells := hcells }, hcells.content_eq_zero, rfl⟩
    · have hcells : Cells t.bucketCount (fun i =>
          { b i with collision := false, present := false, hash := 0 }) 0 0 :=
        .of_free (fun _ => rfl) (fun _ => rfl)
      rw [if_pos hfilled]
      exact ⟨{ h with filled_le := Nat.zero_le _, cells := hcells }, hcells.content_eq_zero, rfl⟩

end Operations

/-! ## Searching -/

section Find

variable [DecidableEq K] (getKey : E → K) {t : Hashtable E} {hash : UInt32} {key : K}

/-- The results of `find`, called first with `index` and then with every result. -/
inductive Enumerates (t : Hashtable E) (hash : UInt32) (key : K) : Option Nat → List Nat → Prop
  | nil {index} (h : t.find getKey index hash key = .ok none) : Enumerates t hash key index []
  | cons {index i l} (h : t.find getKey index hash key = .ok (some i))
      (hl : Enumerates t hash key (some i) l) : Enumerates t hash key index (i :: l)

/-- There is a match at place `k` of the collision chain. -/
def Hit (t : Hashtable E) (hash : UInt32) (key : K) (k : Nat) : Prop :=
  let bucket := t.cells (chainAt t.bucketCount hash k)
  bucket.present = true ∧ bucket.hash = hash ∧ compareBucketKey getKey bucket key = true

/-- The chain ends at a bucket that is not marked. -/
theorem not_hit_of_unmarked (h : Valid t) {s j : Nat}
    (hs : (t.cells (chainAt t.bucketCount hash s)).collision = false) (hsj : s < j)
    (hj : j < t.bucketCount) : ¬Hit getKey t hash key j := by
  rintro ⟨hp, hhash, -⟩
  obtain ⟨k, hk, hcoll⟩ := h.cells.chains _ (chainAt_lt h.prime.pos hash j) hp
  rw [hhash] at hk hcoll
  rcases lt_or_ge s k with hsk | hks
  · rw [hcoll s hsk] at hs
    cases hs
  · have := chainAt_inj h.prime (hks.trans_lt (hsj.trans hj)) hj hk
    omega

/-- There is a match in bucket `i`, at a place of the chain after `k`. -/
def Later (t : Hashtable E) (hash : UInt32) (key : K) (k i : Nat) : Prop :=
  ∃ j, k < j ∧ j < t.bucketCount ∧ Hit getKey t hash key j ∧ chainAt t.bucketCount hash j = i

theorem not_later_self (h : Valid t) {m : Nat} (hm : m < t.bucketCount) :
    ¬Later getKey t hash key m (chainAt t.bucketCount hash m) := by
  rintro ⟨j, hmj, hj, -, heq⟩
  exact hmj.ne' (chainAt_inj h.prime hj hm heq)

/-- No flag is set at place `e` of the chain. -/
structure Unflagged (t : Hashtable E) (hash : UInt32) (e : Nat) : Prop where
  lt : e < t.bucketCount
  present : (t.cells (chainAt t.bucketCount hash e)).present = false
  collision : (t.cells (chainAt t.bucketCount hash e)).collision = false

/-- The loop of `find` gives the next match after place `k`. It has to end at place `e`, where no
flag is set. -/
theorem findLoop_ok (h : Valid t) (he : Unflagged t hash e) {n k : Nat} (hk : k < e)
    (hn : e ≤ k + n) :
    (∃ m, k < m ∧ m < e ∧ Hit getKey t hash key m ∧ (∀ j, k < j → j < m → ¬Hit getKey t hash key j) ∧
      findLoop getKey t hash key n (chainAt t.bucketCount hash k)
        = .ok (some (chainAt t.bucketCount hash m))) ∨
    (∀ j, k < j → j < t.bucketCount → ¬Hit getKey t hash key j) ∧
      findLoop getKey t hash key n (chainAt t.bucketCount hash k) = .ok none := by
  induction n generalizing k with
  | zero => omega
  | succ n ih =>
    rw [findLoop, chainSeek_chainAt]
    by_cases hhit : Hit getKey t hash key (k + 1)
    · left
      have hne : k + 1 ≠ e := by
        rintro rfl
        exact Bool.false_ne_true (he.present.symm.trans hhit.1)
      exact ⟨k + 1, by omega, by omega, hhit, fun j h1 h2 => by omega, if_pos hhit⟩
    · have hmiss := hhit
      dsimp only [Hit] at hmiss
      rw [if_neg hmiss]
      have hstep {bound : Nat} (hrest : ∀ j, k + 1 < j → j < bound → ¬Hit getKey t hash key j) :
          ∀ j, k < j → j < bound → ¬Hit getKey t hash key j := by
        intro j h1 h2
        rcases Nat.eq_or_lt_of_le h1 with rfl | hlt
        · exact hhit
        · exact hrest j hlt h2
      cases hc : (t.cells (chainAt t.bucketCount hash (k + 1))).collision with
      | false => exact .inr ⟨hstep fun _ => not_hit_of_unmarked getKey h hc, rfl⟩
      | true =>
        have hne : k + 1 ≠ e := by
          rintro rfl
          exact Bool.false_ne_true (he.collision.symm.trans hc)
        obtain ⟨m, h1, h2, hm, hbetween, hrun⟩ | ⟨hnone, hrun⟩ := @ih (k + 1) (by omega) (by omega)
        · exact .inl ⟨m, by omega, h2, hm, hstep hbetween, hrun⟩
        · exact .inr ⟨hstep hnone, hrun⟩

/-- A search from `index` on gives the buckets with `P`, each once. -/
def Finds (t : Hashtable E) (hash : UInt32) (key : K) (index : Option Nat) (P : Nat → Prop) : Prop :=
  ∃ l, Enumerates getKey t hash key index l ∧ l.Nodup ∧ ∀ i, i ∈ l ↔ P i

section

variable {getKey} {index : Option Nat} {P Q : Nat → Prop}

theorem Finds.nil (h : t.find getKey index hash key = .ok none) (hP : ∀ i, ¬P i) :
    Finds getKey t hash key index P :=
  ⟨[], .nil h, List.nodup_nil, fun i => iff_of_false List.not_mem_nil (hP i)⟩

theorem Finds.cons {i : Nat} (h : t.find getKey index hash key = .ok (some i))
    (hQ : Finds getKey t hash key (some i) Q) (hi : ¬Q i) (hP : ∀ j, P j ↔ j = i ∨ Q j) :
    Finds getKey t hash key index P := by
  obtain ⟨l, hl, hnodup, hmem⟩ := hQ
  refine ⟨i :: l, .cons h hl, List.nodup_cons.2 ⟨mt (hmem i).1 hi, hnodup⟩, fun j => ?_⟩
  rw [List.mem_cons, hmem, hP]

end

theorem finds_later (h : Valid t) (hsize : t.size ≠ 0) (he : Unflagged t (trimHash hash) e)
    {d k : Nat} (hd : d = e - k) (hk : k < e) {index : Option Nat}
    (hindex : t.find getKey index hash key = findLoop getKey t (trimHash hash) key t.bucketCount
      (chainAt t.bucketCount (trimHash hash) k)) :
    Finds getKey t hash key index (Later getKey t (trimHash hash) key k) := by
  induction d using Nat.strong_induction_on generalizing k index with
  | h d ih =>
    have hlt := he.lt
    obtain ⟨m, h1, h2, hm, hbetween, hrun⟩ | ⟨hnone, hrun⟩ :=
      findLoop_ok getKey h he hk (show e ≤ k + t.bucketCount by omega)
    · refine .cons (hindex.trans hrun) (ih (e - m) (by omega) rfl h2 (if_neg hsize))
        (not_later_self getKey h (h2.trans hlt)) fun i => ?_
      constructor
      · rintro ⟨j, hkj, hj, hhit, rfl⟩
        rcases lt_trichotomy j m with hlt | rfl | hgt
        · exact absurd hhit (hbetween j hkj hlt)
        · exact .inl rfl
        · exact .inr ⟨j, hgt, hj, hhit, rfl⟩
      · rintro (rfl | ⟨j, hmj, hj, hhit, rfl⟩)
        · exact ⟨m, h1, h2.trans hlt, hm, rfl⟩
        · exact ⟨j, h1.trans hmj, hj, hhit, rfl⟩
    · refine .nil (hindex.trans hrun) ?_
      rintro i ⟨j, hkj, hj, hhit, -⟩
      exact hnone j hkj hj hhit

/-- What a search is for: the first bucket of the chain, and the matches after it. -/
theorem sought_iff (h : Valid t) (hash : UInt32) (key : K) (i : Nat) :
    i < t.bucketCount ∧ (t.cells i).present = true ∧
        compareBucketKey getKey (t.cells i) key = true ∧
        ((t.cells i).hash = trimHash hash ∨ i = chainStart (trimHash hash) t.bucketCount) ↔
      i = chainStart (trimHash hash) t.bucketCount ∧ (t.cells i).present = true ∧
        compareBucketKey getKey (t.cells i) key = true ∨
      Later getKey t (trimHash hash) key 0 i := by
  constructor
  · rintro ⟨hi, hp, hkey, hhash⟩
    obtain ⟨j, hj, rfl⟩ := exists_chainAt h.prime (trimHash hash) hi
    rcases eq_zero_or_pos j with rfl | hpos
    · exact .inl ⟨chainAt_zero h.prime.pos, hp, hkey⟩
    · obtain hhash | hstart := hhash
      · exact .inr ⟨j, hpos, hj, ⟨hp, hhash, hkey⟩, rfl⟩
      · rw [← chainAt_zero h.prime.pos] at hstart
        have := chainAt_inj h.prime hj h.prime.pos hstart
        omega
  · rintro (⟨rfl, hp, hkey⟩ | ⟨j, -, hj, ⟨hp, hhash, hkey⟩, rfl⟩)
    · exact ⟨Nat.mod_lt _ h.prime.pos, hp, hkey, .inr rfl⟩
    · exact ⟨chainAt_lt h.prime.pos _ _, hp, hkey, .inl hhash⟩

/-- A search started at -1 and continued from every result. The first bucket of the chain is compared
by its key alone. -/
theorem find_enumerates (h : Valid t) (hash : UInt32) (key : K) :
    Finds getKey t hash key none fun i =>
      i < t.bucketCount ∧ (t.cells i).present = true ∧
        compareBucketKey getKey (t.cells i) key = true ∧
        ((t.cells i).hash = trimHash hash ∨ i = chainStart (trimHash hash) t.bucketCount) := by
  by_cases hsize : t.size = 0
  · refine .nil (if_pos hsize) ?_
    rintro i ⟨hi, hp, -⟩
    have := countWhere_pos (f := isPresent t.cells) hi hp
    rw [← h.cells.size] at this
    omega
  -- some bucket has no flag, at place `e` of the chain
  have hless : countWhere t.bucketCount (isFilled t.cells) < t.bucketCount := by
    rw [← h.cells.filled]
    exact h.filled_le.trans_lt h.capacity_lt
  obtain ⟨i, hi, hempty⟩ := exists_false_of_countWhere hless
  obtain ⟨e, he, rfl⟩ := exists_chainAt h.prime (trimHash hash) hi
  obtain ⟨hpresent, hcollision⟩ := Bool.or_eq_false_iff.1 hempty
  simp only [sought_iff getKey h]
  rw [← chainAt_zero h.prime.pos]
  set start := chainAt t.bucketCount (trimHash hash) 0 with hstart
  have hafter {index : Option Nat} (hk : 0 < e) (hindex : t.find getKey index hash key =
      findLoop getKey t (trimHash hash) key t.bucketCount start) :=
    finds_later getKey h hsize ⟨he, hpresent, hcollision⟩ rfl hk hindex
  have hfind : t.find getKey none hash key =
      if (t.cells start).present then
        if compareBucketKey getKey (t.cells start) key then .ok (some start)
        else findLoop getKey t (trimHash hash) key t.bucketCount start
      else if ¬(t.cells start).collision then .ok none
      else findLoop getKey t (trimHash hash) key t.bucketCount start := by
    rw [hstart, chainAt_zero h.prime.pos]
    exact if_neg hsize
  have hzero (hflag : (t.cells start).present = true ∨ (t.cells start).collision = true) : 0 < e := by
    rcases eq_zero_or_pos e with rfl | hpos
    · rw [hpresent, hcollision] at hflag
      simp at hflag
    · exact hpos
  by_cases hkey : (t.cells start).present = true ∧ compareBucketKey getKey (t.cells start) key = true
  · rw [if_pos hkey.1, if_pos hkey.2] at hfind
    refine .cons hfind (hafter (hzero (.inl hkey.1)) (if_neg hsize))
      (not_later_self getKey h h.prime.pos) fun i => or_congr_left ⟨And.left, ?_⟩
    rintro rfl
    exact ⟨rfl, hkey⟩
  · have hfree (i : Nat) : ¬(i = start ∧ (t.cells i).present = true ∧
        compareBucketKey getKey (t.cells i) key = true) := by
      rintro ⟨rfl, hboth⟩
      exact hkey hboth
    simp only [or_iff_right (hfree _)]
    cases hp : (t.cells start).present with
    | true =>
      rw [hp, if_pos rfl, if_neg fun hcompare => hkey ⟨hp, hcompare⟩] at hfind
      exact hafter (hzero (.inl hp)) hfind
    | false =>
      rw [hp, if_neg (by simp)] at hfind
      cases hc : (t.cells start).collision with
      | false =>
        rw [hc] at hfind
        refine .nil hfind ?_
        rintro i ⟨j, hpos, hj, hhit, -⟩
        exact not_hit_of_unmarked getKey h hc hpos hj hhit
      | true =>
        rw [hc] at hfind
        exact hafter (hzero (.inr hc)) hfind

end Find

/-! ## Runs -/

/-- The states a table comes to, with what has been put into it and not taken out. An entry is taken
out by the index of its bucket, as `removeAt` asks for. `ok` is a condition on the calls of `rehash`
from outside. A call of `add` that has to grow the table needs a prime for it. -/
inductive Reach (ok : Hashtable E → Nat → ℚ → Prop) : Hashtable E → Multiset (UInt32 × E) → Prop
  | new {minimumInitialCapacity loadFactor t}
      (h : new minimumInitialCapacity loadFactor = .ok t) : Reach ok t 0
  | add {t m t' i} (hash : UInt32) (e : E) (ht : Reach ok t m) (h : t.add hash e = .ok (t', i)) :
      Reach ok t' ((trimHash hash, e) ::ₘ m)
  | removeAt {t m i x} (ht : Reach ok t (x ::ₘ m)) (hi : i < t.bucketCount)
      (hx : item t.cells i = some x) : Reach ok (t.removeAt i) m
  | clear {t m} (ht : Reach ok t m) : Reach ok t.clear 0
  | rehash {t m t' minimumCapacity loadFactor} (ht : Reach ok t m)
      (hok : ok t minimumCapacity loadFactor) (h : t.rehash minimumCapacity loadFactor = .ok t') :
      Reach ok t' m

/-- A table that is a multimap with the entries `m`. -/
structure Consistent [DecidableEq K] (getKey : E → K) (t : Hashtable E)
    (m : Multiset (UInt32 × E)) : Prop where
  size : t.size = countWhere t.bucketCount (isPresent t.cells)
  filled : t.filledBuckets = countWhere t.bucketCount (isFilled t.cells)
  filled_le : t.filledBuckets ≤ t.capacity
  capacity_lt : t.capacity < t.bucketCount
  content : t.content = m
  /-- A search gives every entry with the key once, where entries with the key have its hash code. -/
  find : ∀ hash key, (∀ x ∈ m, getKey x.2 = key → x.1 = trimHash hash) →
    ∃ l, Enumerates getKey t hash key none l ∧ l.Nodup ∧
      (∀ i, i ∈ l ↔ i < t.bucketCount ∧ (t.cells i).present = true ∧
        compareBucketKey getKey (t.cells i) key = true) ∧
      (l.filterMap (item t.cells) : Multiset _) = m.filter fun x => getKey x.2 = key
  /-- Every search comes to its end. -/
  find_ends : ∀ hash key, ∃ l, Enumerates getKey t hash key none l
  /-- `add` returns, unless it has to grow the table and there is no prime for it. -/
  add_ends : ∀ hash e, t.hasMoreRoom = true ∨ HasPrime (t.capacity * 2) t.loadFactor →
    ∃ r, t.add hash e = .ok r
  rehash_ends : ∀ minimumCapacity loadFactor, 0 < loadFactor ∧ loadFactor ≤ 1 →
    Roomy t minimumCapacity loadFactor → ∃ t', t.rehash minimumCapacity loadFactor = .ok t'

section Run

variable {ok : Hashtable E → Nat → ℚ → Prop} {t : Hashtable E} {m : Multiset (UInt32 × E)}

/-- Where single precision is enough, every state is valid. -/
theorem Reach.valid (h : Reach Roomy t m) : Valid t ∧ t.content = m := by
  induction h with
  | new h => exact new_valid h
  | add hash e _ h ih =>
    obtain ⟨hvalid, rfl⟩ := ih
    obtain ⟨herror, -⟩ | ⟨t', i, hadd, hvalid', hcontent, -⟩ := add_ok hvalid hash e
    · rw [h] at herror
      cases herror
    · rw [h] at hadd
      cases hadd
      exact ⟨hvalid', hcontent⟩
  | removeAt _ hi hx ih =>
    obtain ⟨hvalid, hcontent⟩ := ih
    obtain ⟨hvalid', hcontent'⟩ := removeAt_valid hvalid hi hx
    rw [hcontent, cons_inj_right] at hcontent'
    exact ⟨hvalid', hcontent'.symm⟩
  | clear _ ih =>
    obtain ⟨hvalid, hcontent, -⟩ := clear_valid ih.1
    exact ⟨hvalid, hcontent⟩
  | @rehash t m t' minimumCapacity loadFactor _ hok h ih =>
    cases hdet : determineCapacity (max minimumCapacity t.size) loadFactor with
    | error stop => cases h.symm.trans (rehash_error hdet)
    | ok r =>
      obtain ⟨t', hrun, hvalid, hcontent⟩ := rehash_valid ih.1 hdet (hok.size_le hdet)
      cases h.symm.trans hrun
      exact ⟨hvalid, hcontent.trans ih.2⟩

theorem filterMap_item [DecidableEq K] (getKey : E → K) {key : K} {l : List Nat} (hnodup : l.Nodup)
    (hmem : ∀ i, i ∈ l ↔ i < t.bucketCount ∧ (t.cells i).present = true ∧
      compareBucketKey getKey (t.cells i) key = true) :
    (l.filterMap (item t.cells) : Multiset _) = t.content.filter fun x => getKey x.2 = key := by
  have hl : (l : Multiset Nat) = (Multiset.range t.bucketCount).filter fun i =>
      (t.cells i).present = true ∧ compareBucketKey getKey (t.cells i) key = true := by
    rw [Nodup.ext (coe_nodup.2 hnodup) ((nodup_range _).filter _)]
    intro i
    rw [Multiset.mem_coe, hmem, Multiset.mem_filter, Multiset.mem_range]
  show filterMap (item t.cells) l = _
  rw [hl, Hashtable.content, Utils.content, filterMap_filter, filter_filterMap]
  apply filterMap_congr
  intro i _
  unfold item compareBucketKey
  cases (t.cells i).present with
  | false => simp
  | true =>
    cases (t.cells i).entry with
    | none => simp
    | some e => by_cases hkey : getKey e = key <;> simp [hkey, Option.filter]

theorem Valid.consistent [DecidableEq K] (h : Valid t) (getKey : E → K) :
    Consistent getKey t t.content where
  size := h.cells.size
  filled := h.cells.filled
  filled_le := h.filled_le
  capacity_lt := h.capacity_lt
  content := rfl
  find := by
    intro hash key hhash
    obtain ⟨l, hl, hnodup, hmem⟩ := find_enumerates getKey h hash key
    have hmem' : ∀ i, i ∈ l ↔ i < t.bucketCount ∧ (t.cells i).present = true ∧
        compareBucketKey getKey (t.cells i) key = true := by
      intro i
      rw [hmem]
      refine ⟨fun ⟨hi, hp, hkey, _⟩ => ⟨hi, hp, hkey⟩, ?_⟩
      rintro ⟨hi, hp, hkey⟩
      refine ⟨hi, hp, hkey, .inl ?_⟩
      obtain ⟨e, he⟩ := Option.isSome_iff_exists.1 (h.cells.entries i hi hp)
      have hmemc : ((t.cells i).hash, e) ∈ t.content :=
        mem_content.2 ⟨i, hi, item_eq_some.2 ⟨hp, rfl, he⟩⟩
      apply hhash _ hmemc
      simpa [compareBucketKey, he] using hkey
    exact ⟨l, hl, hnodup, hmem', filterMap_item getKey hnodup hmem'⟩
  find_ends := by
    intro hash key
    obtain ⟨l, hl, -⟩ := find_enumerates getKey h hash key
    exact ⟨l, hl⟩
  add_ends := by
    intro hash e hgrow
    obtain ⟨-, hroom, hfits⟩ | ⟨t', i, hok, -⟩ := add_ok h hash e
    · exact absurd hgrow (by simp [hroom, hfits])
    · exact ⟨_, hok⟩
  rehash_ends := by
    intro minimumCapacity loadFactor hfactor hroomy
    obtain ⟨-, count, capacity, hdet⟩ | ⟨hfits, -⟩ :=
      determineCapacity_cases (max minimumCapacity t.size) hfactor
    · obtain ⟨t', hrun, -⟩ := rehash_valid h hdet (hroomy.size_le hdet)
      exact ⟨t', hrun⟩
    · exact absurd hroomy.2 hfits

/-- A hash table is a multimap, in every state of a run whose calls of `rehash` have room, and the
calls that ask for no more than the largest prime return. -/
theorem hashtable_consistent [DecidableEq K] (getKey : E → K) (h : Reach Roomy t m) :
    Consistent getKey t m := by
  obtain ⟨hvalid, rfl⟩ := h.valid
  exact hvalid.consistent getKey

theorem reach_adds (e : E) {n : Nat} (hn : n ≤ 39509976) :
    ∃ t m, Reach ok t m ∧ Valid t ∧ t.capacity = 39509976 ∧ t.bucketCount = 52679969 ∧
      t.size = n ∧ t.filledBuckets ≤ n := by
  induction n with
  | zero =>
    have hnew : new (E := E) 25165824 0.75 = .ok {
        capacity := 39509976, loadFactor := 0.75, size := 0, filledBuckets := 0
        bucketCount := 52679969, buckets := none } := by
      unfold new
      rw [determineCapacity_large]
      rfl
    exact ⟨_, _, .new hnew, (new_valid hnew).1, rfl, rfl, rfl, le_rfl⟩
  | succ n ih =>
    obtain ⟨t, m, ht, hvalid, hcap, hcount, hsize, hfilled⟩ := ih (by omega)
    have hroom : t.hasMoreRoom = true := by
      unfold hasMoreRoom
      rw [decide_eq_true_iff]
      omega
    obtain ⟨t', i, hadd, hvalid', hadded⟩ := add_room hvalid hroom 0 e
    refine ⟨t', _, .add 0 e ht hadd, hvalid', ?_, ?_, ?_, ?_⟩
    · rw [hadded.capacity, hcap]
    · rw [hadded.bucketCount, hcount]
    · rw [hadded.size, hsize]
    · have := hadded.filled_le
      omega

end Run

/-- A table with an entry, enlarged and emptied again. -/
theorem one_entry_consistent :
    ∃ t : Hashtable Nat, Reach Roomy t 0 ∧ t.bucketCount = 52679969 ∧ Consistent id t 0 := by
  obtain ⟨t, m, ht, hvalid, hcap, hcount, hsize, -⟩ :=
    reach_adds 7 (show 1 ≤ 39509976 by decide)
  have hdet : determineCapacity (max 25165824 t.size) 0.75 = .ok (52679969, 39509976) := by
    rw [hsize]
    exact determineCapacity_large
  obtain ⟨t', hrun, hcount', -⟩ := rehash_ok hvalid.cells hdet (by rw [hsize]; decide)
  have hroomy : Roomy t 25165824 0.75 := by
    refine ⟨.inl (by rw [hsize]; decide), ?_⟩
    obtain ⟨hfits, -⟩ | ⟨-, herror⟩ :=
      determineCapacity_cases (max 25165824 t.size) factor_bounds
    · exact hfits
    · cases herror.symm.trans hdet
  have hreach := (Reach.rehash ht hroomy hrun).clear
  refine ⟨t'.clear, hreach, ?_, hashtable_consistent id hreach⟩
  rw [← hcount']
  unfold clear
  split
  · rfl
  · split_ifs <;> rfl

/-- With 19754977 entries, `rehash (0, 0.75)` makes a table with room for one less. -/
theorem rehash_overfills :
    ∃ (t : Hashtable Nat) (m : Multiset (UInt32 × Nat)), Reach (fun _ _ _ => True) t m ∧
      t.filledBuckets = 19754977 ∧ t.capacity = 19754976 ∧ ¬Consistent id t m := by
  obtain ⟨t, m, ht, hvalid, hcap, hcount, hsize, -⟩ :=
    reach_adds 7 (show 19754977 ≤ 39509976 by decide)
  have hdet : determineCapacity (max 0 t.size) 0.75 = .ok (26339969, 19754976) := by
    rw [hsize]
    exact determineCapacity_short
  obtain ⟨t', hrun, -, hcap', -, -, -, -, hfilled⟩ :=
    rehash_ok hvalid.cells hdet (by rw [hsize]; decide)
  rw [if_neg (by omega), hsize] at hfilled
  refine ⟨t', m, .rehash ht trivial hrun, hfilled, hcap', fun hconsistent => ?_⟩
  have := hconsistent.filled_le
  omega

end AndroidSystem.Utils
