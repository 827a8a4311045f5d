import AndroidSystem.Lib.Probe
import AndroidSystem.Utils.Capacity

/-!
# The buckets of a `BasicHashtable`

What the loops over collision chains do. The invariant (`Cells`) is that every bucket on the way to
an entry has `COLLISION` set: the search for a free bucket marks the buckets it passes
(`findFree_ok`), an entry is put at the end of a marked chain (`Cells.insert`), and a bucket that
loses its entry keeps the mark (`Cells.remove`). A prime number of buckets makes every chain pass
through every bucket, so a chain comes to a free bucket if there is one.

`moveBuckets_ok` says that `rehash` makes a new table with the same content.
-/

namespace AndroidSystem.Utils

open Finset
open Function

variable {E K : Type}

variable {i count m : Nat}

/-! ## Collision chains -/

/-- The bucket at place `k` of the collision chain of `hash`. -/
def chainAt (count : Nat) (hash : UInt32) (k : Nat) : Nat :=
  probe count (chainStart hash count) (chainIncrement hash count) k

section Chain

variable {count : Nat} {hash : UInt32}

theorem chainAt_zero (hcount : 0 < count) : chainAt count hash 0 = chainStart hash count :=
  probe_zero (Nat.mod_lt _ hcount)

theorem chainSeek_chainAt (count : Nat) (hash : UInt32) (k : Nat) :
    chainSeek (chainAt count hash k) (chainIncrement hash count) count
      = chainAt count hash (k + 1) :=
  probe_succ ..

theorem chainAt_lt (hcount : 0 < count) (hash : UInt32) (k : Nat) : chainAt count hash k < count :=
  probe_lt hcount ..

/-- The increment has no divisor in common with a prime number of buckets. -/
theorem coprime_chainIncrement (hprime : count.Prime) (hash : UInt32) :
    Nat.Coprime count (chainIncrement hash count) := by
  have htwo := hprime.two_le
  have hmod : ((hash >>> 7) ||| (hash <<< 25)).toNat % (count - 1) < count - 1 :=
    Nat.mod_lt _ (by omega)
  apply Nat.coprime_of_lt_prime _ _ hprime
  · exact Nat.succ_ne_zero _
  · unfold chainIncrement
    omega

theorem exists_chainAt (hprime : count.Prime) (hash : UInt32) (hi : i < count) :
    ∃ k < count, chainAt count hash k = i :=
  exists_probe (coprime_chainIncrement hprime hash) hprime.pos _ hi

theorem chainAt_inj (hprime : count.Prime) {k l : Nat} (hk : k < count) (hl : l < count)
    (h : chainAt count hash k = chainAt count hash l) : k = l :=
  probe_inj (coprime_chainIncrement hprime hash) hk hl h

end Chain

/-! ## Marking buckets -/

/-- Some buckets with an entry have been marked. -/
def Marks (b b' : Nat → Bucket E) : Prop :=
  ∀ i, b' i = b i ∨ (b i).present = true ∧ b' i = { b i with collision := true }

section Marks

variable {b b' : Nat → Bucket E}

theorem Marks.refl (b : Nat → Bucket E) : Marks b b := fun _ => .inl rfl

section

variable (h : Marks b b')
include h

theorem Marks.present (i : Nat) : (b' i).present = (b i).present := by
  obtain h | ⟨-, h⟩ := h i <;> rw [h]

theorem Marks.hash (i : Nat) : (b' i).hash = (b i).hash := by
  obtain h | ⟨-, h⟩ := h i <;> rw [h]

theorem Marks.entry (i : Nat) : (b' i).entry = (b i).entry := by
  obtain h | ⟨-, h⟩ := h i <;> rw [h]

theorem Marks.collision (hi : (b i).collision = true) : (b' i).collision = true := by
  obtain h | ⟨-, h⟩ := h i
  · rwa [h]
  · rw [h]

theorem Marks.eq_of_free (hi : (b i).present = false) : b' i = b i := by
  obtain h | ⟨hp, -⟩ := h i
  · exact h
  · rw [hi] at hp
    cases hp

theorem Marks.filled (i : Nat) :
    ((b' i).present || (b' i).collision) = ((b i).present || (b i).collision) := by
  obtain h | ⟨hp, h⟩ := h i
  · rw [h]
  · rw [h]
    simp [hp]

end

theorem Marks.cons (i : Nat) (hi : (b i).present = true)
    (h : Marks (update b i { b i with collision := true }) b') : Marks b b' := by
  intro j
  have hj := h j
  by_cases hji : j = i
  · subst hji
    rw [update_self] at hj
    obtain hj | ⟨-, hj⟩ := hj <;> exact .inr ⟨hi, hj⟩
  · rwa [update_of_ne hji] at hj

/-- The search for a free bucket marks the buckets it passes. -/
theorem probeFree_ok {hash : UInt32} {e : Nat} (fuel k : Nat)
    (hend : (b (chainAt count hash e)).present = false) (hke : k ≤ e) (hfuel : e ≤ k + fuel) :
    ∃ b' m, probeFree count (chainIncrement hash count) fuel b (chainAt count hash k)
        = .ok (b', chainAt count hash m) ∧ Marks b b' ∧
      (b (chainAt count hash m)).present = false ∧ k ≤ m ∧
      ∀ j, k ≤ j → j < m → (b' (chainAt count hash j)).collision = true := by
  induction fuel generalizing b k with
  | zero =>
    obtain rfl : e = k := by omega
    refine ⟨b, e, ?_, .refl b, hend, le_rfl, fun j h h' => by omega⟩
    rw [probeFree, if_neg (by simp [hend])]
  | succ fuel ih =>
    cases hk : (b (chainAt count hash k)).present with
    | false =>
      refine ⟨b, k, ?_, .refl b, hk, le_rfl, fun j h h' => by omega⟩
      rw [probeFree, if_neg (by simp [hk])]
    | true =>
      have hne : k ≠ e := by
        rintro rfl
        rw [hend] at hk
        cases hk
      set b1 := update b (chainAt count hash k)
        { b (chainAt count hash k) with collision := true } with hb1
      have hmarks1 : Marks b b1 := .cons _ hk (.refl _)
      obtain ⟨b', m, hrun, hmarks, hfree, hkm, hcoll⟩ := ih (k + 1)
        (by rw [hmarks1.present]; exact hend) (by omega) (by omega)
      refine ⟨b', m, ?_, .cons _ hk hmarks, ?_, by omega, fun j h h' => ?_⟩
      · rw [probeFree, if_pos hk, chainSeek_chainAt]
        exact hrun
      · rwa [← hmarks1.present]
      · rcases lt_or_ge k j with hlt | hge
        · exact hcoll j hlt h'
        · obtain rfl : j = k := by omega
          apply hmarks.collision
          rw [hb1, update_self]

theorem findFree_ok (hprime : count.Prime) (hash : UInt32)
    (hfree : ∃ i < count, (b i).present = false) :
    ∃ b' m, findFree count hash b = .ok (b', chainAt count hash m) ∧ Marks b b' ∧
      (b (chainAt count hash m)).present = false ∧
      ∀ j < m, (b' (chainAt count hash j)).collision = true := by
  obtain ⟨i, hi, hfree⟩ := hfree
  obtain ⟨e, he, rfl⟩ := exists_chainAt hprime hash hi
  obtain ⟨b', m, hrun, hmarks, hm, -, hcoll⟩ :=
    probeFree_ok count 0 hfree (Nat.zero_le _) (by omega)
  rw [chainAt_zero hprime.pos] at hrun
  exact ⟨b', m, hrun, hmarks, hm, fun j hj => hcoll j (Nat.zero_le _) hj⟩

end Marks

/-! ## Counting buckets -/

/-- How many of the buckets have a property. -/
def countWhere (count : Nat) (f : Nat → Bool) : Nat := #{i ∈ range count | f i = true}

section Count

variable {count : Nat} {f f' : Nat → Bool} {i : Nat}

theorem countWhere_congr (h : ∀ i < count, f' i = f i) :
    countWhere count f' = countWhere count f := by
  unfold countWhere
  congr 1
  apply filter_congr
  intro i hi
  rw [h i (mem_range.1 hi)]

theorem countWhere_add_one (hi : i < count) (hfalse : f i = false) (htrue : f' i = true)
    (hother : ∀ j < count, j ≠ i → f' j = f j) : countWhere count f' = countWhere count f + 1 := by
  unfold countWhere
  rw [← card_insert_of_notMem (a := i) (by simp [hfalse])]
  congr 1
  ext j
  rw [mem_insert, mem_filter, mem_filter, mem_range]
  by_cases hj : j = i
  · subst hj
    simp [hi, htrue]
  · simp only [hj, false_or]
    refine and_congr_right fun hj' => ?_
    rw [hother j hj' hj]

theorem countWhere_le (h : ∀ i, f i = true → f' i = true) :
    countWhere count f ≤ countWhere count f' :=
  card_le_card (monotone_filter_right _ fun i _ => h i)

theorem exists_false_of_countWhere (h : countWhere count f < count) : ∃ i < count, f i = false := by
  obtain ⟨i, hi, hf⟩ := exists_not_of_card (fun i => f i = true) h
  exact ⟨i, hi, by simpa using hf⟩

theorem countWhere_pos (hi : i < count) (h : f i = true) : 0 < countWhere count f :=
  card_pos.2 ⟨i, mem_filter.2 ⟨mem_range.2 hi, h⟩⟩

end Count

section

variable (b : Nat → Bucket E) (i : Nat)

def isPresent : Bool := (b i).present

def isFilled : Bool := (b i).present || (b i).collision

/-- What is in a bucket: the hash code and the entry. -/
def item : Option (UInt32 × E) :=
  if (b i).present then (b i).entry.map (Prod.mk (b i).hash) else none

end

/-- What is in the first `count` buckets. -/
def content (count : Nat) (b : Nat → Bucket E) : Multiset (UInt32 × E) :=
  (Multiset.range count).filterMap (item b)

section Content

variable {count i : Nat} {b b' : Nat → Bucket E}

theorem filterMap_congr {α β : Type} {s : Multiset α} {f g : α → Option β}
    (h : ∀ a ∈ s, f a = g a) : s.filterMap f = s.filterMap g := by
  induction s using Quotient.inductionOn with
  | h l => exact congrArg _ (List.filterMap_congr h)

theorem content_congr (h : ∀ i < count, item b' i = item b i) :
    content count b' = content count b := by
  apply filterMap_congr
  intro i hi
  exact h i (mem_range.1 hi)

theorem mem_content {x : UInt32 × E} : x ∈ content count b ↔ ∃ i < count, item b i = some x := by
  simp [content, Multiset.mem_filterMap]

theorem item_eq_some {x : UInt32 × E} :
    item b i = some x ↔ (b i).present = true ∧ (b i).hash = x.1 ∧ (b i).entry = some x.2 := by
  unfold item
  cases hp : (b i).present with
  | false => simp
  | true =>
    cases he : (b i).entry with
    | none => simp
    | some e => simp [Prod.ext_iff]

theorem content_cons {x : UInt32 × E} (hi : i < count) (hnone : item b i = none)
    (hsome : item b' i = some x) (hother : ∀ j < count, j ≠ i → item b' j = item b j) :
    content count b' = x ::ₘ content count b := by
  unfold content
  have hmem : i ∈ Multiset.range count := mem_range.2 hi
  rw [← Multiset.cons_erase hmem, Multiset.filterMap_cons_some _ _ _ hsome,
    Multiset.filterMap_cons_none _ _ hnone]
  congr 1
  apply filterMap_congr
  intro j hj
  rw [(Multiset.nodup_range count).mem_erase_iff, Multiset.mem_range] at hj
  exact hother j hj.2 hj.1

end Content

/-! ## The invariant -/

/-- The buckets are as the counters say, and every entry can be found. -/
structure Cells (count : Nat) (b : Nat → Bucket E) (size filled : Nat) : Prop where
  size : size = countWhere count (isPresent b)
  filled : filled = countWhere count (isFilled b)
  entries : ∀ i < count, (b i).present = true → (b i).entry.isSome
  /-- Every bucket on the way to an entry is marked. -/
  chains : ∀ i < count, (b i).present = true → ∃ k, chainAt count (b i).hash k = i ∧
    ∀ j < k, (b (chainAt count (b i).hash j)).collision = true

section Cells

variable {count size filled : Nat} {b b' : Nat → Bucket E}

theorem Cells.of_free (hpresent : ∀ i, (b i).present = false)
    (hcollision : ∀ i, (b i).collision = false) : Cells count b 0 0 := by
  refine ⟨?_, ?_, ?_, ?_⟩
  · simp [countWhere, isPresent, hpresent]
  · simp [countWhere, isFilled, hpresent, hcollision]
  · intro i _ h
    rw [hpresent] at h
    cases h
  · intro i _ h
    rw [hpresent] at h
    cases h

theorem Cells.empty (count : Nat) : Cells count (fun _ => ({} : Bucket E)) 0 0 :=
  .of_free (fun _ => rfl) (fun _ => rfl)

theorem Cells.content_eq_zero (h : Cells count b 0 filled) : content count b = 0 := by
  apply Multiset.eq_zero_of_forall_notMem
  intro x hx
  obtain ⟨i, hi, hitem⟩ := mem_content.1 hx
  have hpos := countWhere_pos (f := isPresent b) hi (item_eq_some.1 hitem).1
  rw [← h.size] at hpos
  omega

section

variable (h : Cells count b size filled)
include h

theorem Cells.size_le : size ≤ filled := by
  rw [h.size, h.filled]
  apply countWhere_le
  intro i hi
  unfold isPresent at hi
  unfold isFilled
  rw [hi]
  rfl

theorem Cells.marks (hm : Marks b b') : Cells count b' size filled := by
  refine ⟨?_, ?_, ?_, ?_⟩
  · rw [h.size]
    exact (countWhere_congr fun i _ => hm.present i).symm
  · rw [h.filled]
    exact (countWhere_congr fun i _ => hm.filled i).symm
  · intro i hi hp
    rw [hm.present] at hp
    rw [hm.entry]
    exact h.entries i hi hp
  · intro i hi hp
    rw [hm.present] at hp
    obtain ⟨k, hk, hcoll⟩ := h.chains i hi hp
    rw [hm.hash]
    exact ⟨k, hk, fun j hj => hm.collision (hcoll j hj)⟩

omit h in
theorem Marks.content (hm : Marks b b') (count : Nat) : content count b' = content count b := by
  apply content_congr
  intro i _
  unfold item
  rw [hm.present, hm.hash, hm.entry]

theorem Cells.insert {hash : UInt32} (e : E) (hcount : 0 < count)
    (hfree : (b (chainAt count hash m)).present = false)
    (hcoll : ∀ j < m, (b (chainAt count hash j)).collision = true) :
    Cells count (update b (chainAt count hash m)
        { collision := (b (chainAt count hash m)).collision, present := true, hash, entry := some e })
      (size + 1) (if (b (chainAt count hash m)).collision then filled else filled + 1) ∧
    content count (update b (chainAt count hash m)
        { collision := (b (chainAt count hash m)).collision, present := true, hash, entry := some e })
      = (hash, e) ::ₘ content count b := by
  have hi := chainAt_lt hcount hash m
  have hkeep : ∀ j, (b j).collision = true → (update b (chainAt count hash m)
      { collision := (b (chainAt count hash m)).collision, present := true, hash, entry := some e }
      j).collision = true := by
    intro j hj
    by_cases hji : j = chainAt count hash m
    · subst hji
      rwa [update_self]
    · rwa [update_of_ne hji]
  refine ⟨⟨?_, ?_, ?_, ?_⟩, ?_⟩
  · rw [h.size]
    symm
    apply countWhere_add_one hi hfree
    · simp [isPresent]
    · intro j _ hj
      simp [isPresent, hj]
  · rw [h.filled]
    symm
    cases hc : (b (chainAt count hash m)).collision with
    | true =>
      apply countWhere_congr
      intro j _
      by_cases hj : j = chainAt count hash m
      · subst hj
        simp [isFilled, hc]
      · simp [isFilled, hj]
    | false =>
      apply countWhere_add_one hi
      · simp [isFilled, hfree, hc]
      · simp [isFilled]
      · intro j _ hj
        simp [isFilled, hj]
  · intro i hi' hp
    by_cases hii : i = chainAt count hash m
    · subst hii
      simp
    · rw [update_of_ne hii] at hp ⊢
      exact h.entries i hi' hp
  · intro i hi' hp
    by_cases hii : i = chainAt count hash m
    · subst hii
      rw [update_self]
      exact ⟨m, rfl, fun j hj => hkeep _ (hcoll j hj)⟩
    · rw [update_of_ne hii] at hp
      obtain ⟨k, hk, hc⟩ := h.chains i hi' hp
      rw [update_of_ne hii]
      exact ⟨k, hk, fun j hj => hkeep _ (hc j hj)⟩
  · apply content_cons hi
    · simp [item, hfree]
    · simp [item]
    · intro j _ hj
      simp [item, hj]

theorem Cells.remove (hi : i < count) (hp : (b i).present = true) :
    Cells count (update b i { b i with present := false }) (size - 1)
      (if (b i).collision then filled else filled - 1) ∧
    ∃ e, (b i).entry = some e ∧ content count b
      = ((b i).hash, e) ::ₘ content count (update b i { b i with present := false }) := by
  have hkeep : ∀ j, (update b i { b i with present := false } j).collision = (b j).collision := by
    intro j
    by_cases hji : j = i
    · subst hji
      rw [update_self]
    · rw [update_of_ne hji]
  have hother : ∀ j, (update b i { b i with present := false } j).present = true →
      j ≠ i ∧ (b j).present = true := by
    intro j hj
    by_cases hji : j = i
    · subst hji
      rw [update_self] at hj
      cases hj
    · rw [update_of_ne hji] at hj
      exact ⟨hji, hj⟩
  refine ⟨⟨?_, ?_, ?_, ?_⟩, ?_⟩
  · rw [h.size, countWhere_add_one (f := isPresent (update b i { b i with present := false })) hi
      (by simp [isPresent]) hp (fun j _ hj => by simp [isPresent, hj]), Nat.add_sub_cancel]
  · rw [h.filled]
    cases hc : (b i).collision with
    | true =>
      apply countWhere_congr
      intro j _
      by_cases hj : j = i
      · subst hj
        simp [isFilled, hc]
      · simp [isFilled, hj]
    | false =>
      rw [if_neg (by simp), countWhere_add_one
        (f := isFilled (update b i { b i with present := false })) hi (by simp [isFilled, hc])
        (by simp [isFilled, hp]) (fun j _ hj => by simp [isFilled, hj]), Nat.add_sub_cancel]
  · intro j hj hpj
    obtain ⟨hne, hpj⟩ := hother j hpj
    rw [update_of_ne hne]
    exact h.entries j hj hpj
  · intro j hj hpj
    obtain ⟨hne, hpj⟩ := hother j hpj
    obtain ⟨k, hk, hcoll⟩ := h.chains j hj hpj
    rw [update_of_ne hne]
    exact ⟨k, hk, fun l hl => by rw [hkeep]; exact hcoll l hl⟩
  · obtain ⟨e, he⟩ := Option.isSome_iff_exists.1 (h.entries i hi hp)
    refine ⟨e, he, ?_⟩
    apply content_cons hi
    · simp [item]
    · simp [item, hp, he]
    · intro j _ hj
      simp [item, hj]

end

theorem countWhere_succ (n : Nat) (f : Nat → Bool) :
    countWhere (n + 1) f = countWhere n f + if f n then 1 else 0 := by
  unfold countWhere
  rw [range_add_one, filter_insert]
  split_ifs with h
  · rw [card_insert_of_notMem (by simp)]
  · rfl

theorem countWhere_mono (f : Nat → Bool) {n : Nat} (h : m ≤ n) : countWhere m f ≤ countWhere n f :=
  card_le_card (filter_subset_filter _ (range_subset_range.2 h))

/-- The entries of the first `n` buckets in a new table. No bucket of the new table is marked
without an entry. -/
theorem moveBuckets_ok {newCount : Nat} (hprime : newCount.Prime) (h : Cells count b size filled)
    (hroom : size ≤ newCount) (n : Nat) (hn : n ≤ count) :
    ∃ b', moveBuckets newCount b n = .ok b' ∧
      Cells newCount b' (countWhere n (isPresent b)) (countWhere n (isPresent b)) ∧
      content newCount b' = content n b ∧
      ∀ i, (b' i).collision = true → (b' i).present = true := by
  induction n with
  | zero => exact ⟨fun _ => {}, rfl, Cells.empty newCount,
    (Cells.empty newCount).content_eq_zero, fun i hi => hi⟩
  | succ n ih =>
    obtain ⟨b1, hrun, hcells, hcontent, hmarked⟩ := ih (by omega)
    rw [moveBuckets, hrun, countWhere_succ]
    show ∃ b', moveBucket newCount b1 (b n) = .ok b' ∧ _
    unfold moveBucket
    have hrange : content (n + 1) b = (n ::ₘ Multiset.range n).filterMap (item b) := by
      rw [content, Multiset.range_succ]
    cases hp : (b n).present with
    | false =>
      have hnone : item b n = none := by simp [item, hp]
      refine ⟨b1, rfl, ?_, ?_, hmarked⟩
      · rw [if_neg (by simp [isPresent, hp])]
        exact hcells
      · rw [hrange, Multiset.filterMap_cons_none _ _ hnone, hcontent]
        rfl
    | true =>
      obtain ⟨e, he⟩ := Option.isSome_iff_exists.1 (h.entries n (by omega) hp)
      have hsome : item b n = some ((b n).hash, e) := by simp [item, hp, he]
      -- there is room for one more entry
      have hless : countWhere newCount (isPresent b1) < newCount := by
        have hmono := countWhere_mono (isPresent b) hn
        rw [countWhere_succ, if_pos (show isPresent b n = true from hp), ← h.size] at hmono
        rw [← hcells.size]
        omega
      obtain ⟨b2, m, hfind, hmarks, hfree, hcoll⟩ :=
        findFree_ok hprime (b n).hash (exists_false_of_countWhere hless)
      have hfree2 : (b2 (chainAt newCount (b n).hash m)).present = false := by
        rw [hmarks.present]
        exact hfree
      have hplain : (b2 (chainAt newCount (b n).hash m)).collision = false := by
        rw [hmarks.eq_of_free hfree]
        by_contra hc
        rw [hmarked _ (by simpa using hc)] at hfree
        cases hfree
      obtain ⟨hins, hcont⟩ := (hcells.marks hmarks).insert e hprime.pos hfree2 hcoll
      rw [hplain] at hins
      rw [hplain] at hcont
      refine ⟨update b2 (chainAt newCount (b n).hash m)
        { present := true, hash := (b n).hash, entry := (b n).entry }, ?_, ?_, ?_, ?_⟩
      · rw [hfind]
        rfl
      · rw [if_pos (show isPresent b n = true from hp), he]
        exact hins
      · rw [he, hcont, hmarks.content, hcontent, hrange, Multiset.filterMap_cons_some _ _ _ hsome]
        rfl
      · intro i hi
        by_cases hii : i = chainAt newCount (b n).hash m
        · rw [hii, update_self]
        · rw [update_of_ne hii] at hi ⊢
          rw [hmarks.present]
          obtain hsame | ⟨hpi, -⟩ := hmarks i
          · rw [hsame] at hi
            exact hmarked i hi
          · exact hpi

end Cells

end AndroidSystem.Utils
