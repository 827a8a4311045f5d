import AndroidSystem.Ext4.BestFit
import AndroidSystem.Ext4.Extent

/-!
# The regions of a file

What `reduce_allocation` and `reserve_oob_blocks` leave of the list of regions that
`allocate_blocks` has made, and which extents are written for a list. Both take one block off the
first region. If it has no other block, `reduce_allocation` drops the whole list, and
`reserve_oob_blocks` moves every region but the first out of it.
-/

namespace AndroidSystem.Ext4

open List Option Allocator

/-! ## Lists in memory -/

/-- Where a region is, without its links. -/
def Region.span (r : Region) : Nat × Nat := (r.block, r.len)

/-- From pointer `p` on, the memory holds regions with the blocks of `rs`, linked in this order. -/
def Linked (m : Nat → Option Region) : Option Nat → List Region → Prop
  | p, [] => p = none
  | p, r :: rs => ∃ i r', p = some i ∧ m i = some r' ∧ r'.block = r.block ∧ r'.len = r.len ∧
    Linked m r'.next rs

section Lists

variable {m : Nat → Option Region} {s : Allocator} {rs : List Region} {prev p : Option Nat}
  {i fuel : Nat} {r : Region}

theorem Chain.linked (h : Chain m prev i rs) : Linked m (if rs = [] then none else some i) rs := by
  induction rs generalizing prev i with
  | nil => rfl
  | cons r rs ih =>
    exact ⟨i, _, rfl, h.1, rfl, rfl, ih h.2⟩

theorem Chain.relink {m' : Nat → Option Region} {prev' : Option Nat} (h : Chain m prev i rs)
    (hfirst : rs ≠ [] → m' i = (m i).map fun r => { r with prev := prev' })
    (hrest : ∀ j, i < j → j < i + rs.length → m' j = m j) : Chain m' prev' i rs := by
  cases rs with
  | nil => trivial
  | cons r rs =>
    refine ⟨?_, h.2.congr fun j h1 h2 => hrest j (by omega) (by rw [length_cons]; omega)⟩
    rw [hfirst (cons_ne_nil _ _), h.1]
    rfl

theorem numRegionsFrom_ok (fuel : Nat) (h : Linked s.regions p rs) (hfuel : rs.length ≤ fuel) :
    numRegionsFrom fuel p s = .ok rs.length s := by
  induction rs generalizing p fuel with
  | nil =>
    obtain rfl : p = none := h
    cases fuel <;> rfl
  | cons r rs ih =>
    obtain ⟨i, r', rfl, hi, -, -, hrest⟩ := h
    cases fuel with
    | zero => simp at hfuel
    | succ fuel =>
      rw [numRegionsFrom, bind_ok (deref_ok hi), bind_ok (ih _ hrest (by simpa using hfuel))]
      rfl

/-- The extents of regions. -/
def extentsOf : Nat → List Region → List Extent
  | _, [] => []
  | fileBlock, r :: rs =>
    { block := fileBlock, len := u16 r.len, start := r.block }
      :: extentsOf (u32 (fileBlock + r.len)) rs

theorem writeExtents_ok (list : RegionList) (h : Linked s.regions list.iter rs)
    (hpart : list.partialIter = 0) (hlen : ∀ r ∈ rs, r.len < 2 ^ 32) (fileBlock : Nat)
    (hfuel : rs.length < fuel) :
    writeExtents fuel list fileBlock s = .ok (extentsOf fileBlock rs) s := by
  induction rs generalizing list fileBlock fuel with
  | nil =>
    have hnone : list.iter = none := h
    cases fuel with
    | zero => simp at hfuel
    | succ fuel =>
      rw [writeExtents, if_pos hnone]
      rfl
  | cons r rs ih =>
    obtain ⟨i, r', hi, hat, hblock, hlen', hrest⟩ := h
    cases fuel with
    | zero => simp at hfuel
    | succ fuel =>
      have hregion : u32OfInt ((r'.len : Int) - list.partialIter) = r.len := by
        rw [hpart, hlen', u32OfInt_sub (Nat.zero_le _) (hlen r (mem_cons_self ..)),
          Nat.sub_zero]
      rw [writeExtents, if_neg (by rw [hi]; exact some_ne_none i), hi,
        bind_ok (deref_ok hat), hregion]
      rw [bind_ok (ih { list with iter := r'.next, partialIter := 0 } hrest rfl
        (fun r hr => hlen r (mem_cons_of_mem _ hr)) _ (by simpa using hfuel)), hblock]
      rfl

end Lists

/-! ## Giving the block back -/

/-- What `allocate_blocks` returns for the regions from number `i` on. -/
def allocationAt (i : Nat) : BlockAllocation where
  list := {
    first := some i
    last := some i
    iter := some i }

section Reduce

variable {s : Allocator} {i : Nat} {r : Region} {rs : List Region} {b : BlockGroupInfo}

theorem reduce_long (h : Chain s.regions none i (r :: rs)) (hlen : 1 < r.len)
    (hfree : freeBlocks r.bg 1 s = .ok () (s.setBg r.bg b)) :
    ∃ s', reduceAllocation (allocationAt i) 1 s = .ok (allocationAt i) s' ∧
      s'.bgs = (s.setBg r.bg b).bgs ∧ s'.fresh = s.fresh ∧
      Linked s'.regions (some i) ({ r with len := r.len - 1 } :: rs) := by
  obtain ⟨hat, hrest⟩ := h
  refine ⟨(s.setBg r.bg b).setRegion i (some { r with
      len := r.len - 1
      next := if rs = [] then none else some (i + 1)
      prev := none }), ?_, rfl, rfl, i, _, rfl, if_pos rfl, rfl, rfl,
    (hrest.congr fun j h1 _ => if_neg (by omega)).linked⟩
  · unfold reduceAllocation reduceLoop
    refine (bind_ok (deref_ok hat)).trans ?_
    rw [if_pos hlen, bind_ok hfree]
    exact bind_ok (update_ok (s := s.setBg r.bg b) hat)

theorem reduce_single (h : Chain s.regions none i (r :: rs)) (hlen : r.len = 1)
    (hfree : freeBlocks r.bg 1 s = .ok () (s.setBg r.bg b)) :
    ∃ s', reduceAllocation (allocationAt i) 1 s = .ok {} s' ∧
      s'.bgs = (s.setBg r.bg b).bgs ∧ s'.fresh = s.fresh := by
  refine ⟨(s.setBg r.bg b).setRegion i none, ?_, rfl, rfl⟩
  unfold reduceAllocation reduceLoop
  refine (bind_ok (deref_ok h.1)).trans ?_
  rw [if_neg (by dsimp only; omega), show _ = 1 from hlen, bind_ok hfree]
  rfl

end Reduce

/-! ## Splitting the block off -/

section Split

variable {s : Allocator} {i j : Nat} {r q : Region} {f : Region → Region} {a : BlockAllocation}

theorem updateIfSome_ok (h : s.regions i = some r) :
    updateIfSome (some i) f s = .ok () (s.setRegion i (some (f r))) := by
  unfold updateIfSome
  exact update_ok h

/-- What a change of the region that a pointer leads to does to the memory. -/
theorem updateIfSome_spec (p : Option Nat) (f : Region → Region)
    (h : ∀ k, p = some k → (s.regions k).isSome) :
    ∃ s', updateIfSome p f s = .ok () s' ∧ s'.bgs = s.bgs ∧ s'.fresh = s.fresh ∧
      ∀ k, s'.regions k = if p = some k then (s.regions k).map f else s.regions k := by
  cases p with
  | none => exact ⟨s, rfl, rfl, rfl, fun k => by simp⟩
  | some p =>
    obtain ⟨q, hq⟩ := isSome_iff_exists.1 (h p rfl)
    refine ⟨_, updateIfSome_ok hq, rfl, rfl, fun k => ?_⟩
    rw [setRegion_regions]
    by_cases hk : k = p
    · rw [if_pos hk, hk, if_pos rfl, hq]
      rfl
    · rw [if_neg hk, if_neg (by simpa using Ne.symm hk)]

theorem skipRegions_stop {fuel len : Nat} (h : s.regions i = some r) (hlen : len < r.len) :
    skipRegions (fuel + 1) (some i) len s = .ok (some i, len) s := by
  rw [skipRegions, bind_ok (deref_ok h), if_neg (by omega)]
  rfl

section

variable (hiter : a.list.iter = some i)
include hiter

theorem doSplitAllocation_zero (h : s.regions i = some r) (hlen : 0 < r.len) (hi : i < s.fresh) :
    doSplitAllocation a 0 s = .ok (a, some i) s := by
  obtain ⟨n, hn⟩ : ∃ n, s.fresh = n + 1 := ⟨s.fresh - 1, by omega⟩
  unfold doSplitAllocation
  rw [get_bind, hiter, hn, bind_ok (skipRegions_stop h hlen)]
  rfl

theorem doSplitAllocation_long (h : s.regions i = some r) (hlen : 1 < r.len) (hi : i < s.fresh) :
    doSplitAllocation a 1 s = .ok ({ a with list := { a.list with iter := some s.fresh } }, some i)
      ((s.malloc { block := u32 (r.block + 1)
                   len := r.len - 1
                   bg := r.bg
                   next := r.next
                   prev := some i }).setRegion i
        (some { r with next := some s.fresh, len := 1 })) := by
  obtain ⟨n, hn⟩ : ∃ n, s.fresh = n + 1 := ⟨s.fresh - 1, by omega⟩
  unfold doSplitAllocation
  rw [get_bind, hiter, hn, bind_ok (skipRegions_stop h hlen), ← hn, splitRegion, if_neg (by simp),
    if_pos (one_pos), bind_ok (deref_ok h), hiter]
  refine bind_ok (update_ok ?_)
  exact (if_neg (by omega)).trans h

theorem doSplitAllocation_single (h : s.regions i = some r) (hlen : r.len = 1)
    (hnext : r.next = some j) (hj : s.regions j = some q) (hq : 0 < q.len) (hfresh : 2 ≤ s.fresh) :
    doSplitAllocation a 1 s = .ok (a, some j) s := by
  obtain ⟨n, hn⟩ : ∃ n, s.fresh = n + 1 + 1 := ⟨s.fresh - 2, by omega⟩
  have hskip : skipRegions (n + 1 + 1) (some i) 1 s = .ok (some j, 0) s := by
    rw [skipRegions, bind_ok (deref_ok h), hnext, hlen]
    exact skipRegions_stop hj hq
  unfold doSplitAllocation
  rw [get_bind, hiter, hn, bind_ok hskip]
  rfl

theorem splitAllocation_ok {a' : BlockAllocation} {p : Option Nat} {s' : Allocator}
    (hpart : a.list.partialIter = 0) (h : s.regions i = some r) (hlen : 0 < r.len)
    (hi : i < s.fresh) (hsplit : doSplitAllocation a 1 s = .ok (a', p) s') :
    splitAllocation a 1 s
      = .ok ({ a' with list := { a'.list with partialIter := 0 } }, p) s' := by
  unfold splitAllocation
  rw [hpart, bind_ok (doSplitAllocation_zero hiter h hlen hi)]
  exact bind_ok hsplit

end

theorem getOobBlock_zero (hiter : a.oobList.iter = some i) (hpart : a.oobList.partialIter = 0)
    (h : s.regions i = some r) (hlen : 0 < r.len) (hblock : r.block < 2 ^ 32) (hi : 0 < s.fresh) :
    getOobBlock a 0 s = .ok r.block s := by
  obtain ⟨n, hn⟩ : ∃ n, s.fresh = n + 1 := ⟨s.fresh - 1, by omega⟩
  unfold getOobBlock
  rw [get_bind, hiter, hpart, hn, getBlockFrom, bind_ok (deref_ok h)]
  rw [if_pos (show u32 (0 + 0) < r.len from hlen)]
  show EStateM.Result.ok (u32 (r.block + u32 (0 + 0))) s = _
  rw [show u32 (0 + 0) = 0 from rfl, add_zero, u32_of_lt hblock]

/-- What `region_list_remove` does to the memory: the neighbours of the region are linked. -/
theorem regionListRemove_ok (list : RegionList) (h : s.regions i = some r)
    (hprev : ∀ p, r.prev = some p → p ≠ i ∧ r.next ≠ some p ∧ (s.regions p).isSome)
    (hnext : ∀ n, r.next = some n → n ≠ i ∧ (s.regions n).isSome) :
    ∃ s', regionListRemove list i s = .ok { list with
        first := if list.first = some i then r.next else list.first
        last := if list.last = some i then r.prev else list.last } s' ∧
      s'.bgs = s.bgs ∧ s'.fresh = s.fresh ∧ (∀ k, s'.regions k =
        if k = i then some { r with next := none, prev := none }
        else if r.prev = some k then (s.regions k).map fun p => { p with next := r.next }
        else if r.next = some k then (s.regions k).map fun n => { n with prev := r.prev }
        else s.regions k) ∧
      ∀ k, (s'.regions k).map Region.span = (s.regions k).map Region.span := by
  obtain ⟨s1, hrun1, hbgs1, hfresh1, hat1⟩ := updateIfSome_spec r.prev
    (fun p => { p with next := r.next }) fun p hp => (hprev p hp).2.2
  obtain ⟨s2, hrun2, hbgs2, hfresh2, hat2⟩ := updateIfSome_spec r.next
    (fun n => { n with prev := r.prev }) fun n hn => by
      rw [hat1, if_neg fun hp => (hprev n hp).2.1 hn]
      exact (hnext n hn).2
  have hi2 : s2.regions i = some r := by
    rw [hat2, if_neg fun hn => (hnext i hn).1 rfl, hat1, if_neg fun hp => (hprev i hp).1 rfl, h]
  refine ⟨s2.setRegion i (some { r with next := none, prev := none }), ?_, hbgs2.trans hbgs1,
    hfresh2.trans hfresh1, fun k => ?_, fun k => ?_⟩
  · unfold regionListRemove
    rw [bind_ok (deref_ok h), bind_ok hrun1, bind_ok hrun2, bind_ok (update_ok hi2)]
    rfl
  · rw [setRegion_regions]
    by_cases hk : k = i
    · rw [if_pos hk, if_pos hk]
    · rw [if_neg hk, if_neg hk, hat2, hat1]
      by_cases hn : r.next = some k
      · have hp : r.prev ≠ some k := fun hp => (hprev k hp).2.1 hn
        rw [if_neg hp, if_neg hp]
      · rw [if_neg hn, if_neg hn]
  · rw [setRegion_regions, hat2, hat1]
    split_ifs with h1
    · rw [h1, h]
      rfl
    all_goals cases s.regions k <;> rfl

/-- What `region_list_append` does to the memory: only links are set, and only those of the region
and of the last one. -/
theorem regionListAppend_ok (list : RegionList) (h : s.regions i = some r)
    (hlast : list.first ≠ none → ∃ l, list.last = some l ∧ l ≠ i ∧ (s.regions l).isSome) :
    ∃ s', regionListAppend list i s = .ok
        (if list.first = none then { first := some i, last := some i, iter := some i }
          else { list with last := some i }) s' ∧
      s'.bgs = s.bgs ∧ s'.fresh = s.fresh ∧
      (∀ k, k ≠ i → (list.first ≠ none → list.last ≠ some k) → s'.regions k = s.regions k) ∧
      ∀ k, (s'.regions k).map Region.span = (s.regions k).map Region.span := by
  unfold regionListAppend
  by_cases hfirst : list.first = none
  · rw [if_pos hfirst, if_pos hfirst]
    refine ⟨_, bind_ok (update_ok h), rfl, rfl, fun k hk _ => if_neg hk, fun k => ?_⟩
    rw [setRegion_regions]
    split_ifs with hk
    · rw [hk, h]
      rfl
    · rfl
  · rw [if_neg hfirst, if_neg hfirst]
    obtain ⟨l, hl, hli, hsome⟩ := hlast hfirst
    obtain ⟨q, hq⟩ := isSome_iff_exists.1 hsome
    rw [hl, bind_ok (update_ok hq)]
    refine ⟨_, bind_ok (update_ok ((if_neg (Ne.symm hli)).trans h)), rfl, rfl,
      fun k hk hkl => ?_, fun k => ?_⟩
    · have hkl' : k ≠ l := fun hkl' => hkl hfirst (hkl' ▸ rfl)
      exact (if_neg hk).trans (if_neg hkl')
    · rw [setRegion_regions, setRegion_regions]
      split_ifs with hk hkl
      · rw [hk, h]
        rfl
      · rw [hkl, hq]
        rfl
      · rfl

end Split

section Reserve

variable {s : Allocator} {i : Nat} {r : Region} {rs : List Region}

/-- The first block of a longer region becomes the extent block. -/
theorem reserveOob_long (r : Region) (rs : List Region)
    (h : Chain s.regions none i (r :: rs)) (hlen : 1 < r.len)
    (hi : i + 1 + rs.length ≤ s.fresh) (hblock : r.block + 1 < 2 ^ 32) :
    ∃ a s', reserveOobBlocks (allocationAt i) 1 s = .ok (true, a) s' ∧
      a.list.iter = some s.fresh ∧ a.list.partialIter = 0 ∧
      Linked s'.regions (some s.fresh) ({ r with block := r.block + 1, len := r.len - 1 } :: rs) ∧
      s'.bgs = s.bgs ∧ s'.fresh = s.fresh + 1 ∧ getOobBlock a 0 s' = .ok r.block s' := by
  obtain ⟨hat, hrest⟩ := h
  have hsplit := splitAllocation_ok (a := allocationAt i) rfl rfl hat (by dsimp only; omega)
    (by omega) (doSplitAllocation_long rfl hat hlen (by omega))
  rw [u32_of_lt hblock] at hsplit
  generalize hs1 : (setRegion _ _ _ : Allocator) = s1 at hsplit
  have hfirst : s1.regions i = some { r with next := some s.fresh, len := 1, prev := none } := by
    rw [← hs1]
    exact if_pos rfl
  have hnew : s1.regions s.fresh = some { r with
      block := r.block + 1
      len := r.len - 1
      next := if rs = [] then none else some (i + 1)
      prev := some i } := by
    rw [← hs1]
    exact (if_neg (by omega)).trans (if_pos rfl)
  have hold (k : Nat) (h1 : k ≠ i) (h2 : k ≠ s.fresh) : s1.regions k = s.regions k := by
    rw [← hs1]
    exact (if_neg h1).trans (if_neg h2)
  have hs1' : s1.bgs = s.bgs ∧ s1.fresh = s.fresh + 1 := hs1 ▸ ⟨rfl, rfl⟩
  obtain ⟨s2, hremove, hbgs2, hfresh2, hat2, -⟩ := regionListRemove_ok
    { first := some i, last := some i, iter := some s.fresh } hfirst (by simp) (by
      rintro n ⟨⟩
      exact ⟨by omega, hnew ▸ rfl⟩)
  have hi2 : s2.regions i = some { r with len := 1, next := none, prev := none } :=
    (hat2 i).trans (if_pos rfl)
  have hnew2 : s2.regions s.fresh = some { r with
      block := r.block + 1
      len := r.len - 1
      next := if rs = [] then none else some (i + 1)
      prev := none } := by
    rw [hat2, if_neg (by omega), if_pos rfl, hnew]
    rfl
  rw [if_pos rfl, if_pos rfl] at hremove
  obtain ⟨s3, happend, hbgs3, hfresh3, hold3, hspan⟩ := regionListAppend_ok {} hi2 (by simp)
  obtain ⟨r', hr', hspan'⟩ := map_eq_some_iff.1 ((hspan i).trans (by rw [hi2]; rfl))
  obtain ⟨hblock', hlen'⟩ := Prod.mk.inj hspan'
  dsimp only at hblock' hlen'
  have hnew3 := (hold3 s.fresh (by omega) (by simp)).trans hnew2
  refine ⟨{ list := { first := some s.fresh, iter := some s.fresh }
            oobList := { first := some i, last := some i, iter := some i } }, s3, ?_, rfl, rfl, ?_,
    ?_, ?_, ?_⟩
  · obtain ⟨n, hn⟩ : ∃ n, s1.fresh = n + 1 + 1 := ⟨s1.fresh - 2, by omega⟩
    unfold reserveOobBlocks
    rw [bind_ok hsplit, if_neg (some_ne_none i), get_bind, hn, moveToOob,
      if_neg (by simp; omega)]
    refine bind_ok ((bind_ok (deref_ok hfirst)).trans ((bind_ok hremove).trans
      ((bind_ok happend).trans ?_)))
    rw [moveToOob, if_pos rfl]
    rfl
  · refine ⟨s.fresh, _, rfl, hnew3, rfl, rfl, ((hrest.congr fun j h1 h2 => ?_).linked)⟩
    rw [hold3 j (by omega) (by simp), hat2, if_neg (by omega), if_neg (by simp),
      if_neg (by simp; omega), hold j (by omega) (by omega)]
  · rw [hbgs3, hbgs2, hs1'.1]
  · rw [hfresh3, hfresh2, hs1'.2]
  · have := getOobBlock_zero (a := { list := { first := some s.fresh, iter := some s.fresh }
                                     oobList := { first := some i, last := some i, iter := some i } })
      rfl rfl hr' (by omega) (by omega) (by omega)
    rwa [hblock'] at this

/-- The loop of `reserve_oob_blocks` on a list whose first region stays: all others are moved. -/
theorem moveToOob_all {a : BlockAllocation} {f : Region} {j : Nat} (fuel : Nat)
    (hlist : a.list = (allocationAt i).list) (hat : s.regions i = some f) (hprev : f.prev = none)
    (hnext : f.next = if rs = [] then none else some j) (hij : i < j)
    (hchain : Chain s.regions (some i) j rs)
    (hoob : a.oobList.first ≠ none → ∃ l, a.oobList.last = some l ∧ i < l ∧ l < j ∧
      (s.regions l).isSome) (hfuel : rs.length ≤ fuel) :
    ∃ a' s', moveToOob fuel f.next a s = .ok a' s' ∧ a'.list = a.list ∧ s'.bgs = s.bgs ∧
      s'.fresh = s.fresh ∧ (∃ f', s'.regions i = some f' ∧ f'.next = none) ∧
      (∀ k, (s'.regions k).map Region.span = (s.regions k).map Region.span) ∧
      (a.oobList.first ≠ none → a'.oobList.iter = a.oobList.iter ∧
        a'.oobList.partialIter = a.oobList.partialIter) ∧
      (a.oobList.first = none → rs ≠ [] → a'.oobList.iter = some j ∧ a'.oobList.partialIter = 0) := by
  induction rs generalizing a s f j fuel with
  | nil =>
    rw [hnext]
    refine ⟨a, s, ?_, rfl, rfl, rfl, ⟨f, hat, hnext⟩, fun k => rfl, fun _ => ⟨rfl, rfl⟩,
      fun _ h => absurd rfl h⟩
    cases fuel <;> rfl
  | cons r rs ih =>
    rw [if_neg (cons_ne_nil _ _)] at hnext
    obtain ⟨hj, hrest⟩ := hchain
    obtain ⟨n, rfl⟩ : ∃ n, fuel = n + 1 := ⟨fuel - 1, by rw [length_cons] at hfuel; omega⟩
    have hsecond (hne : rs ≠ []) : (s.regions (j + 1)).isSome := by
      obtain ⟨r2, rs2, rfl⟩ := exists_cons_of_ne_nil hne
      rw [hrest.1]
      rfl
    have hother (k : Nat) (hk : k ≠ j + 1) : (if rs = [] then none else some (j + 1)) ≠ some k := by
      split_ifs
      · simp
      · simpa using hk.symm
    obtain ⟨s1, hremove, hbgs1, hfresh1, hat1, hspan1⟩ := regionListRemove_ok a.list hj
      (by
        rintro p ⟨⟩
        exact ⟨by omega, hother i (by omega), hat ▸ rfl⟩)
      (by
        intro k hk
        split_ifs at hk with hnil
        cases hk
        exact ⟨by omega, hsecond hnil⟩)
    rw [hlist, if_neg (by simp [allocationAt]; omega), if_neg (by simp [allocationAt]; omega)] at hremove
    have hj1 := (hat1 j).trans (if_pos rfl)
    have hold1 (k : Nat) (h1 : i < k) (h2 : k < j) : s1.regions k = s.regions k := by
      rw [hat1, if_neg (by omega), if_neg (by simp; omega), if_neg (hother k (by omega))]
    obtain ⟨s2, happend, hbgs2, hfresh2, hold2, hspan2⟩ := regionListAppend_ok a.oobList hj1
      (by
        intro hne
        obtain ⟨l, hl, h1, h2, hsome⟩ := hoob hne
        exact ⟨l, hl, by omega, by rwa [hold1 l h1 h2]⟩)
    have hlast (k : Nat) (hk : k ≤ i ∨ j < k) : a.oobList.first ≠ none →
        a.oobList.last ≠ some k := by
      intro hne hk'
      obtain ⟨l, hl, h1, h2, -⟩ := hoob hne
      rw [hl] at hk'
      cases hk'
      omega
    have hi2 : s2.regions i = some { f with next := if rs = [] then none else some (j + 1) } := by
      rw [hold2 i (by omega) (hlast i (by omega)), hat1, if_neg (by omega), if_pos rfl, hat]
      rfl
    have hrest2 : Chain s2.regions (some i) (j + 1) rs := by
      refine hrest.relink (fun hne => ?_) fun k h1 h2 => ?_
      · rw [hold2 (j + 1) (by omega) (hlast (j + 1) (by omega)), hat1, if_neg (by omega),
          if_neg (by simp; omega), if_pos (by simp [hne])]
      · rw [hold2 k (by omega) (hlast k (by omega)), hat1, if_neg (by omega),
          if_neg (by simp; omega), if_neg (hother k (by omega))]
    obtain ⟨a', s', hrun, hlist', hbgs', hfresh', hf', hspan', hiter', -⟩ := ih
      (a := { list := (allocationAt i).list
              oobList := if a.oobList.first = none then
                  { first := some j, last := some j, iter := some j }
                else { a.oobList with last := some j } })
      n rfl hi2 hprev rfl (by omega) hrest2
      (by
        intro _
        refine ⟨j, ?_, by omega, by omega, ?_⟩
        · split_ifs <;> rfl
        · have := hspan2 j
          rw [hj1] at this
          obtain ⟨q, hq, -⟩ := map_eq_some_iff.1 this
          rw [hq]
          rfl)
      (by rw [length_cons] at hfuel; omega)
    have hnone : ¬(if a.oobList.first = none then
        ({ first := some j, last := some j, iter := some j } : RegionList)
        else { a.oobList with last := some j }).first = none := by
      split_ifs with h
      · simp
      · exact h
    refine ⟨a', s', ?_, hlist'.trans hlist.symm, ?_, ?_, hf', fun k => ?_, fun hne => ?_,
      fun hnil _ => ?_⟩
    · rw [hnext, moveToOob, if_neg (by rw [hlist]; simp [allocationAt]; omega)]
      rw [hlist]
      exact (bind_ok (deref_ok hj)).trans ((bind_ok hremove).trans ((bind_ok happend).trans hrun))
    · rw [hbgs', hbgs2, hbgs1]
    · rw [hfresh', hfresh2, hfresh1]
    · rw [hspan', hspan2, hspan1]
    · have := hiter' hnone
      rwa [if_neg hne] at this
    · have := hiter' hnone
      rwa [if_pos hnil] at this

/-- If the first region has one block, it is the only one that stays in the list. -/
theorem reserveOob_single {r2 : Region} (h : Chain s.regions none i (r :: r2 :: rs))
    (hlen : r.len = 1) (hlen2 : 0 < r2.len) (hi : i + 2 + rs.length ≤ s.fresh)
    (hblock : r2.block < 2 ^ 32) :
    ∃ a s', reserveOobBlocks (allocationAt i) 1 s = .ok (true, a) s' ∧
      a.list.iter = some i ∧ a.list.partialIter = 0 ∧ Linked s'.regions (some i) [r] ∧
      s'.bgs = s.bgs ∧ s'.fresh = s.fresh ∧ getOobBlock a 0 s' = .ok r2.block s' := by
  obtain ⟨hat, hsecond⟩ := h
  have hat2 := hsecond.1
  have hsplit := splitAllocation_ok (a := allocationAt i) rfl rfl hat (by dsimp only; omega)
    (by omega) (doSplitAllocation_single rfl hat hlen rfl hat2 hlen2 (by omega))
  obtain ⟨a', s', hrun, hlist, hbgs, hfresh, ⟨f, hf, hnext⟩, hspan, -, hiter⟩ := moveToOob_all
    s.fresh rfl hat rfl rfl (Nat.lt_succ_self i) hsecond
    (fun hne => absurd rfl hne) (by rw [length_cons]; omega)
  obtain ⟨hiter, hpart⟩ := hiter rfl (cons_ne_nil _ _)
  have hfspan := hspan i
  rw [hf, hat] at hfspan
  obtain ⟨hfblock, hflen⟩ := Prod.mk.inj (some.inj hfspan)
  obtain ⟨q, hq, hqspan⟩ := map_eq_some_iff.1 ((hspan (i + 1)).trans (by rw [hat2]; rfl))
  obtain ⟨hqblock, hqlen⟩ := Prod.mk.inj hqspan
  dsimp only at hqblock hqlen
  refine ⟨a', s', ?_, by rw [hlist]; rfl, by rw [hlist]; rfl,
    ⟨i, f, rfl, hf, hfblock, hflen, hnext⟩, hbgs, hfresh, ?_⟩
  · unfold reserveOobBlocks
    rw [bind_ok hsplit]
    exact bind_ok hrun
  · rw [getOobBlock_zero hiter hpart hq (by omega) (by omega) (by omega), hqblock]

end Reserve

end AndroidSystem.Ext4
