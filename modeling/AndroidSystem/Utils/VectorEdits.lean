import AndroidSystem.Utils.VectorItems

/-!
# What each operation makes of the items

One result for each operation of `VectorImpl`: it ends with a message, or it does to the items of its
vector what the operation of the same name does to a list, and nothing to those of the other vectors.
-/

namespace AndroidSystem.Utils

open List

variable {α : Type} {t : ItemType α} {h : Heap α} {owners : List (Option Nat)} {v : VectorImpl}
  {item : Option α} {index : Nat}

variable {items : List α} {h' : Heap α} {s : Option Nat} {amount : Nat} {r : Heap α × VectorImpl}

/-! ## Operations on lists -/

/-- Items are inserted, unless the place is behind the end. -/
def insertItems (l : List α) (index : Nat) (items : List α) : List α :=
  if index ≤ l.length then l.take index ++ items ++ l.drop index else l

/-- Items are removed, unless there are not so many. -/
def removeItems (l : List α) (index count : Nat) : List α :=
  if index + count ≤ l.length then l.take index ++ l.drop (index + count) else l

/-- The items that are made from `item`: copies of it, or default-constructed ones. Nothing is known
of the latter when the constructor is trivial. -/
def Made (t : ItemType α) (item : Option α) (items : List α) : Prop :=
  ∀ x ∈ items, ∀ y, item.or (if t.trivialCtor then none else some t.construct) = some y → x = y

/-- Items are made from `item` by copying it, or by copying a default-constructed one. -/
theorem made_replicate (t : ItemType α) (item : Option α) (n : Nat) :
    Made t item (replicate n (item.getD t.construct)) := by
  intro x hx y hy
  rw [eq_of_mem_replicate hx]
  cases item with
  | some z => simpa using hy
  | none =>
    split at hy
    · cases hy
    · simpa using hy

theorem take_replace_gap {d l1 l2 gap : List α} {n : Nat} (hn : n ≤ d.length)
    (hd : d.take n = l1 ++ gap ++ l2) (hgap : gap.length = items.length) :
    (d.take l1.length ++ items ++ d.drop (l1.length + items.length)).take n = l1 ++ items ++ l2 := by
  have hlen : (l1 ++ items ++ l2).length = n := by
    rw [← length_take_of_le hn, hd]
    simp only [length_append, hgap]
  have hsplit : d = l1 ++ gap ++ (l2 ++ d.drop n) := by
    rw [← append_assoc, ← hd, take_append_drop]
  have htake : d.take l1.length = l1 := by
    rw [hsplit, append_assoc, take_left]
  have hdrop : d.drop (l1.length + items.length) = l2 ++ d.drop n := by
    conv_lhs => rw [hsplit]
    rw [← hgap, ← length_append, drop_left]
  rw [htake, hdrop, ← append_assoc, take_left' hlen]

namespace VectorImpl

/-! ## Insertion -/

theorem Opened.store (hopen : Opened t owners h v index amount (h', ⟨s, v.mCount + amount⟩))
    (hfits : v.Fits h) (hindex : index ≤ v.mCount) (hs : s ≠ none) (hlen : items.length = amount) :
    Gives ((⟨s, v.mCount + amount⟩ : VectorImpl).store h' index items) fun h'' =>
      Has t owners h ((v.contents h).take index ++ items ++ (v.contents h).drop index)
        (h'', ⟨s, v.mCount + amount⟩) := by
  obtain ⟨hstep, halone, hroom, gap, hgap, hdata⟩ := hopen
  simp only at hstep hroom hdata
  have hend : index + items.length ≤ (h'.data s).length := by omega
  refine (store_gives hstep.owned halone hs hend).mono ?_
  intro h'' hh''
  obtain ⟨hstep', hdata', hlen'⟩ := hh''
  have hpos : ((v.contents h).take index).length = index :=
    length_take_of_le (hindex.trans (length_contents hfits).ge)
  have htake := take_replace_gap hroom hdata (hgap.trans hlen.symm)
  rw [hpos] at htake
  refine ⟨hstep.trans hstep', hroom.trans hlen'.ge, ?_⟩
  rw [contents]
  simp only [hdata', htake]

/-- A vector in which a gap was opened, and nothing stored. -/
theorem Opened.has (hopen : Opened t owners h v index amount r)
    (hcount : r.2.mCount = v.mCount + amount) :
    ∃ gap : List α, gap.length = amount ∧
      Has t owners h ((v.contents h).take index ++ gap ++ (v.contents h).drop index) r := by
  obtain ⟨gap, hgap, hdata⟩ := hopen.items
  refine ⟨gap, hgap, hopen.step, ?_, ?_⟩
  · rw [Fits, hcount]
    exact hopen.room
  · rw [contents, hcount, hdata]

/-- Items are made in the gap that `_grow` has opened. -/
theorem Opened.fill (hopen : Opened t owners h v index amount (h', ⟨s, v.mCount + amount⟩))
    (hfits : v.Fits h) (hindex : index ≤ v.mCount) (hs : s ≠ none) (item : Option α) :
    Gives ((⟨s, v.mCount + amount⟩ : VectorImpl).fill t h' item index amount) fun h'' =>
      ∃ items, items.length = amount ∧ Made t item items ∧
        Has t owners h ((v.contents h).take index ++ items ++ (v.contents h).drop index)
          (h'', ⟨s, v.mCount + amount⟩) := by
  have hstore (x : α) := hopen.store hfits hindex hs (length_replicate (a := x))
  cases item with
  | some x =>
    refine (hstore x).mono ?_
    intro h'' hh''
    exact ⟨_, length_replicate, made_replicate t (some x) amount, hh''⟩
  | none =>
    refine .ite (fun htrivial => .ok ?_) fun _ => (hstore t.construct).mono ?_
    · obtain ⟨gap, hgap, hhas⟩ := hopen.has rfl
      exact ⟨gap, hgap, by simp [Made, htrivial], hhas⟩
    · intro h'' hh''
      exact ⟨_, length_replicate, made_replicate t none amount, hh''⟩

theorem Has.store {l : List α} {x : α} (hhas : Has t owners h l r) (halone : r.2.Alone owners)
    (hindex : index < (r.1.data r.2.mStorage).length) :
    Gives (r.2.store r.1 index [x]) fun h' => Has t owners h (l.set index x) (h', r.2) := by
  have hs : r.2.mStorage ≠ none := by
    intro hnone
    rw [hnone] at hindex
    exact Nat.not_lt_zero _ hindex
  refine (store_gives hhas.step.owned halone hs hindex).mono ?_
  intro h' hh'
  obtain ⟨hstep, hdata, hlen⟩ := hh'
  have hset : h'.data r.2.mStorage = (r.1.data r.2.mStorage).set index x := by
    rw [hdata, set_eq_take_append_cons_drop, if_pos hindex, append_assoc]
    rfl
  refine ⟨hhas.step.trans hstep, hhas.fits.trans hlen.ge, ?_⟩
  rw [VectorImpl.contents, hset, take_set, ← VectorImpl.contents, hhas.contents]

section

variable (ho : Owned t h (v.mStorage :: owners)) (hfits : v.Fits h)
include ho hfits

/-- The array may be in the storage of another vector: `_grow` leaves it as it is. -/
theorem insertArrayAt_gives {array : Heap α → Except Halt (List α)}
    (harray : ∀ h' s, Step t owners h h' s → array h' = .ok items)
    (hkeeps : Keeps t v.mCount index items.length) :
    Gives (v.insertArrayAt t h array index items.length) fun r =>
      Has t owners h (insertItems (v.contents h) index items) (r.1, r.2.1) := by
  rw [insertItems, length_contents hfits]
  refine .ite (fun hgt => .ok ?_) fun hle => ?_
  · rw [if_neg (by omega)]
    exact .refl ho hfits
  · rw [if_pos (by omega)]
    refine (grow_gives ho hfits (by omega) hkeeps).bind ?_
    rintro ⟨h1, ⟨s, n⟩, place⟩ ⟨hopen, hcount, hplace⟩
    obtain rfl : n = v.mCount + items.length := hcount
    obtain ⟨rfl, hs⟩ | ⟨rfl, hzero⟩ := hplace
    · simp only [harray h1 s hopen.step]
      refine (hopen.store hfits (by omega) hs rfl).bind ?_
      intro h2 hh2
      exact .ok hh2
    · obtain ⟨gap, hgap, hhas⟩ := hopen.has rfl
      rw [eq_nil_of_length_eq_zero (hgap.trans hzero)] at hhas
      rw [eq_nil_of_length_eq_zero hzero] at hhas ⊢
      exact .ok hhas

/-- Inserting nothing in front of an item loses items. -/
theorem insertArrayAt_ne_ok {array : Heap α → Except Halt (List α)} (hlt : index < v.mCount)
    (hbytes : t.movesBytes = false) (r : Heap α × VectorImpl × Int) :
    v.insertArrayAt t h array index 0 ≠ .ok r := by
  rw [insertArrayAt, if_neg (by omega), grow, safeAdd, add_zero, if_pos (mCount_lt ho hfits),
    ok_bind, capacity_eq ho, ok_bind, growRoom, if_neg (not_lt.2 hfits)]
  cases hgrow : v.growInPlace t h index 0 with
  | error e => nofun
  | ok r => exact absurd hgrow (growInPlace_ne_ok hlt hbytes r)

theorem insertVectorAt_gives {vector : VectorImpl} (hmem : vector.mStorage ∈ owners)
    (hfits' : vector.Fits h) (hkeeps : Keeps t v.mCount index (vector.contents h).length) :
    Gives (v.insertVectorAt t h vector index) fun r =>
      Has t owners h (insertItems (v.contents h) index (vector.contents h)) (r.1, r.2.1) := by
  rw [insertVectorAt]
  have hlen := length_contents hfits'
  rw [← hlen]
  refine insertArrayAt_gives ho hfits ?_ hkeeps
  intro h' s hstep
  have hdata := hstep.frame _ hmem
  rw [hlen, Heap.read_eq (by rw [hdata, zero_add]; exact hfits'), hdata]
  rfl

theorem insertAt_gives {numItems : Nat} (hkeeps : Keeps t v.mCount index numItems) :
    Gives (v.insertAt t h item index numItems) fun r =>
      ∃ items, items.length = numItems ∧ Made t item items ∧
        Has t owners h (insertItems (v.contents h) index items) (r.1, r.2.1) := by
  simp only [insertItems, length_contents hfits]
  refine .ite (fun hgt => .ok ?_) fun hle => ?_
  · simp only [if_neg (Nat.not_le_of_lt hgt)]
    exact ⟨_, length_replicate, made_replicate t item numItems, .refl ho hfits⟩
  · simp only [if_pos (Nat.le_of_not_lt hle)]
    refine (grow_gives ho hfits (by omega) hkeeps).bind ?_
    rintro ⟨h1, ⟨s, n⟩, place⟩ ⟨hopen, hcount, hplace⟩
    obtain rfl : n = v.mCount + numItems := hcount
    obtain ⟨rfl, hs⟩ | ⟨rfl, hzero⟩ := hplace
    · refine (hopen.fill hfits (by omega) hs item).bind ?_
      intro h2 hh2
      exact .ok hh2
    · obtain ⟨gap, hgap, hhas⟩ := hopen.has rfl
      have hnil := eq_nil_of_length_eq_zero (hgap.trans hzero)
      refine .ok ⟨gap, hgap, ?_, hhas⟩
      rw [hnil]
      intro x hx
      cases hx

/-! ## Removal -/

theorem removeItemsAt_gives {count : Nat} (hlt : index + count < 2 ^ 64)
    (hkeeps : Keeps t v.mCount index count) :
    Gives (v.removeItemsAt t h index count) fun r =>
      Has t owners h (removeItems (v.contents h) index count) (r.1, r.2.1) := by
  rw [removeItemsAt, u64_of_lt hlt, removeItems, length_contents hfits]
  refine .ite (fun hgt => .ok ?_) fun hle => ?_
  · rw [if_neg (by omega)]
    exact .refl ho hfits
  · rw [if_pos (by omega)]
    refine (shrink_gives ho hfits (by omega) hkeeps).bind ?_
    intro r hr
    exact .ok hr

theorem clear_gives : Gives (v.clear t h) (Has t owners h []) := by
  have hshrink := shrink_gives ho hfits (zero_add _).le fun hzero hpos => by omega
  rwa [take_zero, nil_append, zero_add, ← length_contents hfits,
    drop_length, length_contents hfits] at hshrink

theorem pop_gives : Gives (v.pop t h) (Has t owners h (v.contents h).dropLast) := by
  have hlen := length_contents hfits
  refine .ite (fun hzero => .ok ?_) fun hne => ?_
  · have hnil := eq_nil_of_length_eq_zero (hlen.trans hzero)
    have hhas := Has.refl ho hfits
    rw [hnil] at hhas ⊢
    exact hhas
  · have hone : v.mCount - 1 + 1 = v.mCount := by omega
    refine (removeItemsAt_gives ho hfits (hone.trans_lt (mCount_lt ho hfits)) nofun).bind ?_
    intro r hr
    rw [removeItems, hone, hlen, if_pos le_rfl, ← hlen, drop_length, append_nil,
      ← dropLast_eq_take] at hr
    exact .ok hr

/-! ## Replacement -/

theorem editItemLocation_gives :
    Gives (v.editItemLocation t h index) fun r =>
      Has t owners h (v.contents h) (r.1, r.2.1) ∧
        ((r.2.2 = none ∧ v.mCount ≤ index) ∨ (r.2.2 = some index ∧ r.2.1.Alone owners ∧
          r.2.1.mCount = v.mCount ∧ index < (r.1.data r.2.1.mStorage).length)) := by
  rw [editItemLocation, capacity_eq ho]
  refine .ite (fun hlt => ?_) fun hge => .ok ⟨.refl ho hfits, .inl ⟨rfl, ?_⟩⟩
  · refine (editArrayImpl_gives ho hfits).bind ?_
    intro r hr
    obtain ⟨hstep, halone, hcount, hnone, hlen, hcontents⟩ := hr
    have hs : r.2.mStorage ≠ none := by
      intro heq
      rw [hnone.1 heq] at hlt
      exact Nat.not_lt_zero _ hlt
    obtain ⟨a, ha⟩ := Option.ne_none_iff_exists'.1 hs
    refine .ok ⟨⟨hstep, ?_, hcontents⟩, .inr ⟨by rw [ha]; rfl, halone, hcount, hlen ▸ hlt⟩⟩
    rw [Fits, hcount, hlen]
    exact hfits
  · rw [Fits] at hfits
    omega

theorem replaceAt_gives :
    Gives (v.replaceAt t h item index) fun r =>
      ∃ x, Made t item [x] ∧ Has t owners h ((v.contents h).set index x) (r.1, r.2.1) := by
  have hlen := length_contents hfits
  refine .ite (fun hge => .ok ⟨_, made_replicate t item 1, ?_⟩) fun hlt => ?_
  · rw [set_eq_of_length_le (hlen.le.trans hge)]
    exact .refl ho hfits
  · refine (editItemLocation_gives ho hfits).bind ?_
    rintro ⟨h1, v1, place⟩ ⟨hhas, hplace⟩
    obtain ⟨rfl, hle⟩ | ⟨rfl, halone, -, hin⟩ := hplace
    · exact absurd hle hlt
    · have hstore (x : α) := hhas.store (x := x) halone hin
      cases item with
      | some x =>
        exact (hstore x).bind fun h2 hh2 => .ok ⟨x, made_replicate t (some x) 1, hh2⟩
      | none =>
        simp only [fill, doConstruct]
        by_cases htrivial : t.trivialCtor = true
        · -- the item is left as it is
          rw [if_pos htrivial]
          have hsame : (v.contents h).set index ((v.contents h)[index]) = v.contents h :=
            set_getElem_self _
          refine .ok ⟨(v.contents h)[index], by simp [Made, htrivial], hsame.symm ▸ hhas⟩
        · rw [if_neg htrivial]
          exact (hstore t.construct).bind fun h2 hh2 => .ok ⟨_, made_replicate t none 1, hh2⟩

/-! ## Capacity -/

theorem setCapacity_gives {newCapacity : Nat} :
    Gives (v.setCapacity t h newCapacity) fun r =>
      Has t owners h (v.contents h) (r.1, r.2.1) := by
  refine .ite (fun _ => ?_) fun hgt => ?_
  · rw [capacity_eq ho]
    exact .ok (.refl ho hfits)
  · refine (safeMul_gives newCapacity t.mItemSize).bind ?_
    intro size hsize
    subst hsize
    have hroom : v.mCount ≤ newCapacity * t.mItemSize / t.mItemSize := by
      rw [Nat.mul_div_cancel _ t.pos]
      omega
    refine copyFresh_gives (absurd trivial) (fun _ => rfl) ho hroom hfits ?_
    intro r h1 hstep hnot hlen htake
    refine (releaseStorage_gives hstep).bind ?_
    rintro h2 ⟨hstep2, hdata2⟩
    rw [← hdata2] at hlen htake
    exact .ok ⟨hstep2, hroom.trans hlen.ge, htake⟩

/-- Items are cut off, or new ones are added. -/
def resized (l : List α) (size : Nat) (items : List α) : List α := l.take size ++ items

theorem resize_gives {size : Nat} :
    Gives (v.resize t h size) fun r =>
      ∃ items, items.length = size - v.mCount ∧ Made t none items ∧
        Has t owners h (resized (v.contents h) size items) (r.1, r.2.1) := by
  have hlen := length_contents hfits
  have hto : Gives (v.resizeTo t h size) fun r =>
      ∃ items, items.length = size - v.mCount ∧ Made t none items ∧
        Has t owners h (resized (v.contents h) size items) (r.1, r.2.1) := by
    refine .ite (fun hgt => ?_) fun hle => .ite (fun hlt => ?_) fun hge => .ok ?_
    · refine (insertAt_gives ho hfits fun _ hlt => absurd hlt (lt_irrefl _)).mono ?_
      intro r hr
      obtain ⟨items, hitems, hmade, hhas⟩ := hr
      refine ⟨items, hitems, hmade, ?_⟩
      rwa [insertItems, hlen, if_pos le_rfl, ← hlen, take_length, drop_length,
        append_nil, ← take_of_length_le (hlen.le.trans hgt.le)] at hhas
    · have hsum : size + (v.mCount - size) = v.mCount := by omega
      refine (removeItemsAt_gives ho hfits (hsum.trans_lt (mCount_lt ho hfits))
        fun _ _ => by omega).mono ?_
      intro r hr
      refine ⟨[], by simp; omega, by simp [Made], ?_⟩
      rwa [removeItems, hsum, hlen, if_pos le_rfl, ← hlen, drop_length] at hr
    · refine ⟨[], by simp; omega, by simp [Made], ?_⟩
      rw [resized, append_nil, take_of_length_le (by omega)]
      exact .refl ho hfits
  refine hto.bind ?_
  intro r hr
  exact .ok hr

end

end VectorImpl

end AndroidSystem.Utils
