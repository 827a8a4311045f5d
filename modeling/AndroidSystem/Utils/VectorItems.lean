import AndroidSystem.Utils.VectorOwners

/-!
# The operations of a vector on its items

`_grow` opens a gap and `_shrink` closes one, each along one of several paths: in the same buffer, in
one that was resized, or in a new one to which the items are copied around the gap. On the items of
the vector all paths do the same, as they do for a list, and the items of the vectors that share the
storage stay as they are.
-/

namespace AndroidSystem.Utils

open List

variable {α : Type} {t : ItemType α} {h : Heap α} {owners : List (Option Nat)} {s : Option Nat}
  {a : Nat} {v : VectorImpl} {pos amount : Nat}

variable {d d₀ : List α} {m n newAllocSize : Nat}

/-! ## Gaps in lists -/

theorem take_open_gap (hpos : pos ≤ m) (hroom : m + amount ≤ d.length) (hm : m ≤ d₀.length)
    (hbefore : d.take pos = d₀.take pos) :
    (d.take (pos + amount) ++ (d₀.drop pos).take (m - pos) ++
        d.drop (pos + amount + (m - pos))).take (m + amount) =
      (d₀.take m).take pos ++ (d.drop pos).take amount ++ (d₀.take m).drop pos := by
  have hlen : (d.take (pos + amount) ++ (d₀.drop pos).take (m - pos)).length = m + amount := by
    simp
    omega
  rw [take_left' hlen, take_add, hbefore, take_take, min_eq_left hpos,
    drop_take]

theorem take_close_gap (hpos : pos + amount ≤ m) (hn : n = m - amount) (hroom : n ≤ d.length)
    (hm : m ≤ d₀.length) (hbefore : d.take pos = d₀.take pos) :
    (d.take pos ++ (d₀.drop (pos + amount)).take (n - pos) ++ d.drop (pos + (n - pos))).take n =
      (d₀.take m).take pos ++ (d₀.take m).drop (pos + amount) := by
  have hlen : (d.take pos ++ (d₀.drop (pos + amount)).take (n - pos)).length = n := by
    simp
    omega
  have hrest : n - pos = m - (pos + amount) := by omega
  rw [take_left' hlen, hbefore, take_take, min_eq_left (by omega), drop_take, hrest]

namespace VectorImpl

/-- The items go to a new buffer, `front` of them to its start and `n` of the others to `dest`. -/
theorem rebuild_gives {size front dest src : Nat} {c : Prop} [Decidable c] (hc : ¬c → n = 0)
    (ho : Owned t h (v.mStorage :: owners)) (hfront : front ≤ (h.data v.mStorage).length)
    (hroom : front ≤ size / t.mItemSize) (hsrc : src + n ≤ (h.data v.mStorage).length)
    (hdest : dest + n ≤ size / t.mItemSize) :
    Gives (do
      let r ← h.alloc t size
      let h ← r.1.copyItemsIf (front ≠ 0) r.2 0 v.mStorage 0 front
      let h ← h.copyItemsIf c r.2 dest v.mStorage src n
      let h ← v.releaseStorage h
      .ok (h, { v with mStorage := some r.2 })) fun r =>
        Step t owners h r.1 r.2.mStorage ∧ r.2.Alone owners ∧
        (r.1.data r.2.mStorage).length = size / t.mItemSize ∧
        ∃ d : List α, d.length = size / t.mItemSize ∧
          d.take front = (h.data v.mStorage).take front ∧
          r.1.data r.2.mStorage = d.take dest ++ ((h.data v.mStorage).drop src).take n ++
            d.drop (dest + n) := by
  refine copyFresh_gives (by simp) (fun _ => rfl) ho hroom hfront ?_
  intro r h1 hstep hnot hlen htake
  have hold : h1.data v.mStorage = h.data v.mStorage := hstep.frame _ mem_cons_self
  refine (copyItemsIf_gives hc hstep.owned hnot (by rwa [hold]) (by rwa [hlen])).bind ?_
  rintro h2 ⟨hstep2, hdata2, hlen2⟩
  rw [hold] at hdata2
  refine (releaseStorage_gives (hstep.trans hstep2)).bind ?_
  rintro h3 ⟨hstep3, hdata3⟩
  rw [← hdata3] at hdata2 hlen2
  refine .ok ⟨hstep3, ?_, hlen2.trans hlen, _, hlen, htake, hdata2⟩
  intro a ha
  cases ha
  exact fun hmem => hnot (mem_cons_of_mem _ hmem)

/-- Moving the items from `pos` on by `amount` does not leave one in its place, unless bytes are
moved. -/
def Keeps (t : ItemType α) (count pos amount : Nat) : Prop :=
  amount = 0 → pos < count → t.movesBytes = true

theorem moveItems_eq {a dest n : Nat} (hkeeps : dest = pos → n ≠ 0 → t.movesBytes = true) :
    h.moveItems t a dest pos n = h.copyItems a dest (some a) pos n := by
  refine if_neg ?_
  rintro ⟨hdest, hn, hbytes⟩
  exact Bool.false_ne_true (hbytes.symm.trans (hkeeps hdest hn))

/-! ## `_grow` -/

/-- The vector has room for `amount` more items, and those from `pos` on have been moved up. -/
structure Opened (t : ItemType α) (owners : List (Option Nat)) (h : Heap α) (v : VectorImpl)
    (pos amount : Nat) (r : Heap α × VectorImpl) : Prop where
  step : Step t owners h r.1 r.2.mStorage
  alone : r.2.Alone owners
  room : v.mCount + amount ≤ (r.1.data r.2.mStorage).length
  items : ∃ gap : List α, gap.length = amount ∧
    (r.1.data r.2.mStorage).take (v.mCount + amount) =
      (v.contents h).take pos ++ gap ++ (v.contents h).drop pos

section

variable (ho : Owned t h (v.mStorage :: owners)) (hfits : v.Fits h)
include ho hfits

section

variable (hpos : pos ≤ v.mCount)
include hpos

theorem growStorage_gives (hroom : v.mCount + amount ≤ newAllocSize / t.mItemSize) :
    Gives (v.growStorage t h pos amount newAllocSize) (Opened t owners h v pos amount) := by
  rw [growStorage]
  split
  next a hs hlast =>
    -- the new items come last, and what was there stays where it is
    simp only [Bool.and_eq_true, decide_eq_true_eq] at hlast
    obtain ⟨⟨rfl, -⟩, -⟩ := hlast
    rw [Fits, hs] at hfits
    rw [hs] at ho
    refine (editResize_gives ho newAllocSize).bind ?_
    intro r hr
    obtain ⟨hstep, hnot, hlen, hkept⟩ := hr
    refine .ok ⟨hstep, ?_, hroom.trans hlen.ge, ((r.1.data (some r.2)).drop v.mCount).take amount,
      ?_, ?_⟩
    · intro c hc
      cases hc
      exact hnot
    · rw [length_take, length_drop]
      omega
    · have hcontents : v.contents h = (h.data (some a)).take v.mCount := by rw [contents, hs]
      rw [hcontents, take_add, hkept _ (by omega) hfits, take_take, min_self,
        drop_take, Nat.sub_self, take_zero, append_nil]
  next =>
    rw [Fits] at hfits
    refine (rebuild_gives (fun hnot => by omega) ho (by omega) (by omega) (by omega)
      (by omega)).mono ?_
    rintro r ⟨hstep, halone, hlen, d, hd, hbefore, hdata⟩
    have hgap := take_open_gap hpos (hroom.trans hd.ge) hfits hbefore
    rw [← hdata] at hgap
    refine ⟨hstep, halone, hroom.trans hlen.ge, _, ?_, hgap⟩
    rw [length_take, length_drop]
    omega

omit ho hfits hpos in
/-- Items that stay in their places do not outlive the move. -/
theorem growInPlace_ne_ok (hlt : pos < v.mCount) (hbytes : t.movesBytes = false)
    (r : Heap α × VectorImpl) : v.growInPlace t h pos 0 ≠ .ok r := by
  rw [growInPlace]
  cases v.editArrayImpl t h with
  | error e => nofun
  | ok r =>
    rw [ok_bind, if_pos hlt.ne]
    split
    · nofun
    · rw [Heap.moveItems, if_pos ⟨rfl, by omega, hbytes⟩]
      nofun

variable (hkeeps : Keeps t v.mCount pos amount)
include hkeeps

theorem growInPlace_gives (hroom : v.mCount + amount ≤ (h.data v.mStorage).length) :
    Gives (v.growInPlace t h pos amount) (Opened t owners h v pos amount) := by
  refine (editArrayImpl_gives ho hfits).bind ?_
  intro r hr
  obtain ⟨hstep, halone, hcount, -, hlen, hcontents⟩ := hr
  have hcontents' : v.contents h = (r.1.data r.2.mStorage).take v.mCount := by
    rw [← hcontents, contents, hcount]
  rw [← hlen] at hroom
  have hfits' : v.mCount ≤ (r.1.data r.2.mStorage).length := hlen.symm ▸ hfits
  have hgap := take_open_gap hpos hroom hfits' rfl
  rw [← hcontents'] at hgap
  have hgaplen : (((r.1.data r.2.mStorage).drop pos).take amount).length = amount := by
    rw [length_take, length_drop]
    omega
  refine .ite (fun hne => ?_) fun heq => .ok ⟨hstep, halone, hroom, _, hgaplen, ?_⟩
  · split
    next hnone =>
      rw [hnone, Heap.data_none, length_nil] at hfits'
      omega
    next a hs =>
      have hnot := halone a hs
      have howned := hstep.owned
      rw [hs] at howned hroom hgap hfits'
      rw [moveItems_eq fun _ _ => hkeeps (by omega) (by omega)]
      refine (copyItems_gives howned hnot (by omega) (by omega)).bind ?_
      intro h1 hh1
      obtain ⟨hstep1, hdata1, hlen1⟩ := hh1
      rw [← hdata1] at hgap
      exact .ok ⟨hs ▸ hstep.trans hstep1, halone, hs ▸ hroom.trans hlen1.ge, _, hgaplen, hs ▸ hgap⟩
  · rw [← hgap]
    have hzero : v.mCount - pos = 0 := by omega
    rw [hzero, take_zero, append_nil, add_zero, take_append_drop]

theorem growRoom_gives :
    Gives (v.growRoom t h pos amount (v.mCount + amount) (h.data v.mStorage).length)
      (Opened t owners h v pos amount) := by
  refine .ite (fun _ => ?_) fun hroom => growInPlace_gives ho hfits hpos hkeeps (by omega)
  refine (safeAdd_gives _ _).bind fun c hc => (safeAdd_gives c 1).bind fun d hd =>
    (safeMul_gives _ _).bind fun size hsize => growStorage_gives ho hfits hpos ?_
  rw [hsize, Nat.mul_div_cancel _ t.pos]
  exact le_max_of_le_right (by omega)

/-- `_grow` makes place for the new items. There is no place to give only when there is nothing to
insert. -/
theorem grow_gives :
    Gives (v.grow t h pos amount) fun r => Opened t owners h v pos amount (r.1, r.2.1) ∧
      r.2.1.mCount = v.mCount + amount ∧
      ((r.2.2 = some pos ∧ r.2.1.mStorage ≠ none) ∨ (r.2.2 = none ∧ amount = 0)) := by
  refine (safeAdd_gives v.mCount amount).bind ?_
  intro newSize hnew
  subst hnew
  rw [capacity_eq ho]
  refine (growRoom_gives ho hfits hpos hkeeps).bind ?_
  intro r hr
  rw [capacity_eq hr.step.owned]
  refine .ok ⟨{ hr with }, rfl, ?_⟩
  have hroom := hr.room
  by_cases hlt : pos < (r.1.data r.2.mStorage).length
  · have hne : r.2.mStorage ≠ none := by
      intro hnone
      rw [hnone] at hlt
      exact Nat.not_lt_zero _ hlt
    obtain ⟨c, hc⟩ := Option.ne_none_iff_exists'.1 hne
    exact .inl ⟨by rw [if_pos hlt, hc]; rfl, hne⟩
  · exact .inr ⟨if_neg hlt, by omega⟩

end

/-! ## `_shrink` -/

/-- The `amount` items at `pos` are gone from the storage. -/
structure Closed (t : ItemType α) (owners : List (Option Nat)) (h : Heap α) (v : VectorImpl)
    (pos amount : Nat) (r : Heap α × VectorImpl) : Prop where
  step : Step t owners h r.1 r.2.mStorage
  room : v.mCount - amount ≤ (r.1.data r.2.mStorage).length
  items : (r.1.data r.2.mStorage).take (v.mCount - amount) =
    (v.contents h).take pos ++ (v.contents h).drop (pos + amount)

section

variable (hpos : pos + amount ≤ v.mCount)
include hpos

theorem u64_sum : u64 (pos + amount) = pos + amount :=
  u64_of_lt (hpos.trans_lt (mCount_lt ho hfits))

theorem u64OfInt_rest :
    u64OfInt ((v.mCount - amount : Nat) - (pos : Int)) = v.mCount - amount - pos := by
  have hlt := mCount_lt ho hfits
  rw [u64OfInt]
  omega

theorem shrinkStorage_gives (hroom : v.mCount - amount ≤ newAllocSize / t.mItemSize) :
    Gives (v.shrinkStorage t h pos amount (v.mCount - amount) newAllocSize)
      (Closed t owners h v pos amount) := by
  have hsum := u64_sum ho hfits hpos
  have hrest := u64OfInt_rest ho hfits hpos
  rw [shrinkStorage, hsum, hrest]
  split
  next a hs hlast =>
    -- the last items are removed, and the others stay where they are
    simp only [Bool.and_eq_true, decide_eq_true_eq] at hlast
    obtain ⟨⟨hlast, -⟩, -⟩ := hlast
    rw [Fits, hs] at hfits
    rw [hs] at ho
    refine (editResize_gives ho newAllocSize).bind ?_
    intro r hr
    obtain ⟨hstep, hnot, hlen, hkept⟩ := hr
    refine .ok ⟨hstep, hroom.trans hlen.ge, ?_⟩
    have hcontents : v.contents h = (h.data (some a)).take v.mCount := by rw [contents, hs]
    have hall : pos + amount = v.mCount := by omega
    rw [hcontents, hkept _ hroom (by omega), hall, take_take, drop_take, Nat.sub_self,
      take_zero, append_nil, hlast, min_eq_left (Nat.sub_le _ _)]
  next =>
    rw [Fits] at hfits
    refine (rebuild_gives (fun hnot => by omega) ho (by omega) (by omega) (by omega)
      (by omega)).mono ?_
    rintro r ⟨hstep, -, hlen, d, hd, hbefore, hdata⟩
    have hgap := take_close_gap hpos rfl (hroom.trans hd.ge) hfits hbefore
    rw [← hdata] at hgap
    exact ⟨hstep, hroom.trans hlen.ge, hgap⟩

theorem shrinkInPlace_gives (hkeeps : Keeps t v.mCount pos amount) :
    Gives (v.shrinkInPlace t h pos amount (v.mCount - amount)) (Closed t owners h v pos amount) := by
  rw [shrinkInPlace, u64_sum ho hfits hpos, u64OfInt_rest ho hfits hpos]
  refine (editArrayImpl_gives ho hfits).bind ?_
  intro r hr
  obtain ⟨hstep, halone, hcount, -, hlen, hcontents⟩ := hr
  have hcontents' : v.contents h = (r.1.data r.2.mStorage).take v.mCount := by
    rw [← hcontents, contents, hcount]
  have hfits' : v.mCount ≤ (r.1.data r.2.mStorage).length := hlen.symm ▸ hfits
  have hgap := take_close_gap hpos rfl ((Nat.sub_le _ _).trans hfits') hfits' rfl
  rw [← hcontents'] at hgap
  refine .ite (fun hne => ?_) fun heq => .ok ⟨hstep, (Nat.sub_le _ _).trans hfits', ?_⟩
  · split
    next hnone =>
      rw [hnone, Heap.data_none, length_nil] at hfits'
      omega
    next a hs =>
      have hnot := halone a hs
      have howned := hstep.owned
      rw [hs] at howned hgap hfits'
      rw [moveItems_eq fun _ _ => hkeeps (by omega) (by omega)]
      refine (copyItems_gives howned hnot (by omega) (by omega)).bind ?_
      intro h1 hh1
      obtain ⟨hstep1, hdata1, hlen1⟩ := hh1
      rw [← hdata1] at hgap
      refine .ok ⟨hs ▸ hstep.trans hstep1, ?_, hs ▸ hgap⟩
      rw [hs, hlen1]
      omega
  · rw [← hgap]
    have hzero : v.mCount - amount - pos = 0 := by omega
    rw [hzero, take_zero, append_nil, add_zero, take_append_drop]

theorem shrinkRoom_gives (hkeeps : Keeps t v.mCount pos amount) :
    Gives (v.shrinkRoom t h pos amount (v.mCount - amount) (h.data v.mStorage).length)
      (Closed t owners h v pos amount) := by
  refine .ite (fun hsmall => ?_) fun _ => shrinkInPlace_gives ho hfits hpos hkeeps
  refine shrinkStorage_gives ho hfits hpos ?_
  -- the old size did not overflow, and the new one is not larger unless nothing is left
  by_cases hzero : v.mCount - amount = 0
  · rw [hzero]
    exact Nat.zero_le _
  cases hs : v.mStorage with
  | none =>
    rw [hs, Heap.data_none, length_nil] at hsmall
    omega
  | some a =>
    rw [hs] at ho hsmall
    obtain ⟨b, hb⟩ := ho.buffer mem_cons_self
    rw [Heap.data_some hb, ho.size hb] at hsmall
    have hle : max kMinVectorCapacity ((v.mCount - amount) * 2) ≤ b.mSize / t.mItemSize := by
      rw [kMinVectorCapacity]
      omega
    have hmul : max kMinVectorCapacity ((v.mCount - amount) * 2) * t.mItemSize ≤ b.mSize :=
      (Nat.mul_le_mul_right _ hle).trans (Nat.div_mul_le_self _ _)
    rw [u64_of_lt (hmul.trans_lt ((ho.bytes hb).trans (by decide))), Nat.mul_div_cancel _ t.pos]
    exact le_max_of_le_right (by omega)

/-- What a call has made of a vector: its items are `l`, and the other vectors have theirs. -/
structure Has (t : ItemType α) (owners : List (Option Nat)) (h : Heap α) (l : List α)
    (r : Heap α × VectorImpl) : Prop where
  step : Step t owners h r.1 r.2.mStorage
  fits : r.2.Fits r.1
  contents : r.2.contents r.1 = l

omit hpos in
theorem Has.refl : Has t owners h (v.contents h) (h, v) :=
  ⟨.refl ho, hfits, rfl⟩

theorem shrink_gives (hkeeps : Keeps t v.mCount pos amount) :
    Gives (v.shrink t h pos amount)
      (Has t owners h ((v.contents h).take pos ++ (v.contents h).drop (pos + amount))) := by
  refine .ite (fun hnone => .ok ?_) fun _ => ?_
  · have hempty : v.contents h = [] := by rw [contents, hnone, Heap.data_none, take_nil]
    have hhas := Has.refl ho hfits
    rw [hempty] at hhas ⊢
    simpa using hhas
  · refine (safeSub_gives v.mCount amount).bind ?_
    intro newSize hnew
    subst hnew
    rw [capacity_eq ho]
    refine (shrinkRoom_gives ho hfits hpos hkeeps).bind ?_
    intro r hr
    exact .ok ⟨hr.step, hr.room, hr.items⟩

end

end

end VectorImpl

end AndroidSystem.Utils
