import AndroidSystem.Utils.VectorEdits
import Mathlib.Data.List.DropRight

/-!
# The sort of a vector

`sort` inserts one item after the other into those before it, by moving the greater ones up one by
one (`sortShift`). The storage is left alone as long as no item has to move, and is made the vector's
own before the first write.

The result is a stable sort of the items when the comparison is an order, and has the same items in
any case (`StableSort`).
-/

namespace AndroidSystem.Utils

open List

variable {α : Type} {t : ItemType α} {h : Heap α} {owners : List (Option Nat)} {v : VectorImpl}
  {cmp : α → α → Int}

variable {p q : List α} {x y : α} {edited : Bool} {E : Halt → Prop}

/-! ## Insertion sort of a list -/

/-- `y` is greater than `x`. -/
def greater (cmp : α → α → Int) (x y : α) : Bool := cmp y x > 0

theorem greater_iff : greater cmp x y = true ↔ cmp y x > 0 := decide_eq_true_iff

/-- `x` is put behind the last item that is not greater. -/
def insertSorted (cmp : α → α → Int) (p : List α) (x : α) : List α :=
  p.rdropWhile (greater cmp x) ++ x :: p.rtakeWhile (greater cmp x)

def sortList (cmp : α → α → Int) (l : List α) : List α := l.foldl (insertSorted cmp) []

/-- The comparison is a total order up to items that compare as equal. -/
structure IsOrder (cmp : α → α → Int) : Prop where
  total : ∀ x y, cmp x y > 0 → cmp y x ≤ 0
  trans : ∀ x y z, cmp x y ≤ 0 → cmp y z ≤ 0 → cmp x z ≤ 0

/-- `l'` has the items of `l`, and if the comparison is an order they are sorted, with items in the
order they had where it does not tell them apart. -/
structure StableSort (cmp : α → α → Int) (l l' : List α) : Prop where
  perm : l'.Perm l
  sorted : IsOrder cmp → l'.Pairwise (fun x y => cmp x y ≤ 0)
  stable : ∀ x y, [x, y].Sublist l → cmp x y ≤ 0 → [x, y].Sublist l'

theorem insertSorted_perm (p : List α) (x : α) : (insertSorted cmp p x).Perm (p ++ [x]) := by
  refine perm_middle.trans ?_
  rw [rdropWhile_append_rtakeWhile]
  exact (perm_append_singleton x p).symm

theorem insertSorted_pairwise (hcmp : IsOrder cmp) (hp : p.Pairwise (fun x y => cmp x y ≤ 0)) :
    (insertSorted cmp p x).Pairwise (fun x y => cmp x y ≤ 0) := by
  have hsplit := rdropWhile_append_rtakeWhile (p := greater cmp x) (l := p)
  rw [← hsplit, pairwise_append] at hp
  obtain ⟨hlow, hhigh, hcross⟩ := hp
  have hgreater (y : α) (hy : y ∈ p.rtakeWhile (greater cmp x)) : cmp x y ≤ 0 :=
    hcmp.total y x (greater_iff.1 (mem_rtakeWhile_imp hy))
  -- all lower items are at most the last of them, and that is at most `x`
  have hless (y : α) (hy : y ∈ p.rdropWhile (greater cmp x)) : cmp y x ≤ 0 := by
    have hne := ne_nil_of_mem hy
    have hlast := rdropWhile_last_not _ _ hne
    rw [greater_iff, not_lt] at hlast
    rw [← dropLast_concat_getLast hne] at hy hlow
    obtain hy | hy := mem_append.1 hy
    · exact hcmp.trans _ _ _ ((pairwise_append.1 hlow).2.2 y hy _ (mem_singleton.2 rfl))
        hlast
    · rwa [mem_singleton.1 hy]
  refine pairwise_append.2 ⟨hlow, pairwise_cons.2 ⟨hgreater, hhigh⟩, ?_⟩
  intro y hy z hz
  obtain rfl | hz := mem_cons.1 hz
  · exact hless y hy
  · exact hcross y hy z hz

theorem sublist_insertSorted (p : List α) (x : α) : p.Sublist (insertSorted cmp p x) := by
  conv_lhs => rw [← rdropWhile_append_rtakeWhile (p := greater cmp x) (l := p)]
  exact (List.Sublist.refl _).append (sublist_cons_self x _)

theorem pair_sublist_insertSorted (hx : x ∈ p) (hxy : cmp x y ≤ 0) :
    [x, y].Sublist (insertSorted cmp p y) := by
  rw [← rdropWhile_append_rtakeWhile (l := p)] at hx
  obtain hx | hx := mem_append.1 hx
  · exact (singleton_sublist.2 hx).append (singleton_sublist.2 mem_cons_self)
  · have hgreater := greater_iff.1 (mem_rtakeWhile_imp hx)
    omega

theorem sortList_concat (l : List α) (x : α) :
    sortList cmp (l ++ [x]) = insertSorted cmp (sortList cmp l) x := by
  rw [sortList, foldl_append]
  rfl

theorem sortList_stableSort (cmp : α → α → Int) (l : List α) :
    StableSort cmp l (sortList cmp l) := by
  induction l using reverseRecOn with
  | nil => exact ⟨List.Perm.nil, fun _ => List.Pairwise.nil, fun _ _ hsub => by simp at hsub⟩
  | append_singleton l x ih =>
    rw [sortList_concat]
    refine ⟨(insertSorted_perm _ x).trans (ih.perm.append_right [x]),
      fun hcmp => insertSorted_pairwise hcmp (ih.sorted hcmp), ?_⟩
    intro y z hsub hyz
    -- both items are among the first ones, or the second is the one that is inserted
    obtain ⟨l1, l2, heq, h1, h2⟩ := sublist_append_iff.1 hsub
    obtain rfl | rfl := sublist_singleton.1 h2
    · rw [append_nil] at heq
      subst heq
      exact (ih.stable y z h1 hyz).trans (sublist_insertSorted _ x)
    · obtain ⟨rfl, rfl⟩ : l1 = [y] ∧ z = x := by
        have hlen := congrArg length heq
        obtain ⟨u, rfl⟩ : ∃ u, l1 = [u] := length_eq_one_iff.1 (by simpa using hlen.symm)
        simpa [eq_comm] using heq
      exact pair_sublist_insertSorted (ih.perm.mem_iff.2 (singleton_sublist.1 h1)) hyz

/-- Items that the comparison does not tell apart. -/
def alike (cmp : α → α → Int) (x y : α) : Bool := cmp x y ≤ 0 ∧ cmp y x ≤ 0

theorem filter_insertSorted (hcmp : IsOrder cmp) (p : List α) (x z : α) :
    (insertSorted cmp p x).filter (alike cmp z) = (p ++ [x]).filter (alike cmp z) := by
  have hsplit := rdropWhile_append_rtakeWhile (p := greater cmp x) (l := p)
  conv_rhs => rw [← hsplit]
  rw [insertSorted, append_assoc, filter_append, filter_append, filter_append]
  congr 1
  by_cases hx : alike cmp z x = true
  · -- what is greater than `x` is not like it
    have hnone : (p.rtakeWhile (greater cmp x)).filter (alike cmp z) = [] := by
      refine filter_eq_nil_iff.2 fun y hy hzy => ?_
      simp only [alike, decide_eq_true_eq] at hx hzy
      have hgreater := greater_iff.1 (mem_rtakeWhile_imp hy)
      exact absurd (hcmp.trans y z x hzy.2 hx.1) (not_le.2 hgreater)
    rw [filter_cons_of_pos hx, hnone]
    simp [hx]
  · simp [hx]

theorem filter_sortList (hcmp : IsOrder cmp) (l : List α) (z : α) :
    (sortList cmp l).filter (alike cmp z) = l.filter (alike cmp z) := by
  induction l using reverseRecOn with
  | nil => rfl
  | append_singleton l x ih =>
    rw [sortList_concat, filter_insertSorted hcmp, filter_append, filter_append, ih]

namespace VectorImpl

/-! ## The loops -/

theorem read_one {s : Option Nat} (hdata : h.data s = p ++ x :: q) :
    h.read s p.length 1 = .ok [x] := by
  rw [Heap.read_eq (by rw [hdata]; simp), hdata, drop_left]
  rfl

theorem store_one (ho : Owned t h (v.mStorage :: owners)) (halone : v.Alone owners)
    (hdata : h.data v.mStorage = p ++ x :: q) :
    Ends E (v.store h p.length [y]) fun h' => Step t owners h h' v.mStorage ∧
      h'.data v.mStorage = p ++ y :: q := by
  have hs : v.mStorage ≠ none := by
    intro hnone
    rw [hnone] at hdata
    simp at hdata
  refine (store_gives ho halone hs (by rw [hdata]; simp)).mono ?_
  intro h' hh'
  obtain ⟨hstep, hdata', -⟩ := hh'
  refine ⟨hstep, ?_⟩
  rw [hdata', hdata]
  simp

/-- The greater items before the place `p.length` move up. -/
theorem sortShift_gives (temp : α) {rest : List α} {prev hole : α}
    (ho : Owned t h (v.mStorage :: owners)) (halone : v.Alone owners)
    (hdata : h.data v.mStorage = p ++ [prev] ++ hole :: rest) (hprev : cmp prev temp > 0) :
    Ends E (sortShift cmp temp v (p.length + 1) h) fun r => Step t owners h r.1 v.mStorage ∧
      r.2 = (p.rdropWhile (greater cmp temp)).length ∧
      ∃ hole', r.1.data v.mStorage = p.rdropWhile (greater cmp temp) ++ hole' ::
        (p.rtakeWhile (greater cmp temp) ++ [prev] ++ rest) := by
  induction p using reverseRecOn generalizing h prev hole rest with
  | nil =>
    rw [sortShift, read_one (p := []) hdata]
    refine (store_one (y := prev) ho halone hdata).bind ?_
    intro h1 hh1
    exact .ok ⟨hh1.1, rfl, prev, hh1.2⟩
  | append_singleton p last ih =>
    have hlen : (p ++ [last]).length = p.length + 1 := by simp
    rw [sortShift, read_one (by rw [hdata, append_assoc]; rfl)]
    have hstore := store_one (E := E) (y := prev) ho halone hdata
    rw [length_append] at hstore
    refine hstore.bind ?_
    intro h1 hh1
    obtain ⟨hstep1, hdata1⟩ := hh1
    rw [if_neg (by rw [hlen]; omega), hlen, Nat.add_sub_cancel,
      read_one (q := prev :: prev :: rest) (x := last) (by rw [hdata1]; simp)]
    refine .ite (fun hany => ?_) fun hany => .ok ⟨hstep1, ?_⟩
    · simp only [any_cons, any_nil, Bool.or_false, decide_eq_true_eq] at hany
      have hdata' : h1.data v.mStorage = p ++ [last] ++ prev :: (prev :: rest) := by
        rw [hdata1, append_assoc]
        rfl
      refine (ih hstep1.owned hdata' hany).mono ?_
      intro r hr
      obtain ⟨hstep2, hplace, hole', hdata2⟩ := hr
      rw [rdropWhile_concat_pos _ _ _ (greater_iff.2 hany),
        rtakeWhile_concat_pos _ _ _ (greater_iff.2 hany)]
      refine ⟨hstep1.trans hstep2, hplace, hole', ?_⟩
      rw [hdata2, append_assoc _ [prev] rest]
      rfl
    · simp only [any_cons, any_nil, Bool.or_false, decide_eq_true_eq,
        ← greater_iff] at hany
      rw [rdropWhile_concat_neg _ _ _ hany, rtakeWhile_concat_neg _ _ _ hany]
      refine ⟨by rw [hlen], prev, ?_⟩
      rw [hdata1, append_assoc]
      rfl

theorem data_eq_append (hfits : v.Fits h) :
    ∃ tail, ∀ l, v.contents h = l → h.data v.mStorage = l ++ tail ∧ l.length = v.mCount := by
  refine ⟨(h.data v.mStorage).drop v.mCount, ?_⟩
  intro l hl
  subst hl
  exact ⟨(take_append_drop _ _).symm, length_contents hfits⟩

section

variable (ho : Owned t h (v.mStorage :: owners))
include ho

theorem editOnce_gives (hfits : v.Fits h) (hedited : edited = true → v.Alone owners) :
    Ends E (v.editOnce t h edited) fun r => Has t owners h (v.contents h) r ∧ r.2.Alone owners ∧
      r.2.mCount = v.mCount := by
  refine .ite (fun heq => .ok ⟨.refl ho hfits, hedited heq, rfl⟩) fun _ => ?_
  refine (editArrayImpl_gives ho hfits).mono ?_
  intro r hr
  obtain ⟨hstep, halone, hcount, -, hlen, hcontents⟩ := hr
  refine ⟨⟨hstep, ?_, hcontents⟩, halone, hcount⟩
  rw [Fits, hcount, hlen]
  exact hfits

/-- One round inserts the item at `i` into those before it. -/
theorem sortRound_gives {i : Nat} (hfits : v.Fits h) (hedited : edited = true → v.Alone owners)
    (hcontents : v.contents h = p ++ x :: q) (hi : i = p.length) (hp : p ≠ []) :
    Ends E (v.sortRound t cmp h i edited) fun r =>
      Has t owners h (insertSorted cmp p x ++ q) (r.1, r.2.1) ∧
        (r.2.2 = true → r.2.1.Alone owners) := by
  subst hi
  obtain ⟨tail, htail⟩ := data_eq_append hfits
  obtain ⟨hdata, hcount⟩ := htail _ hcontents
  obtain ⟨p', prev, rfl⟩ : ∃ p' prev, p = p' ++ [prev] :=
    ⟨p.dropLast, p.getLast hp, (dropLast_concat_getLast hp).symm⟩
  have hlen : (p' ++ [prev]).length = p'.length + 1 := by simp
  rw [sortRound, read_one (by rw [hdata, append_assoc]; rfl), hlen, Nat.add_sub_cancel,
    read_one (q := x :: (q ++ tail)) (x := prev) (by rw [hdata]; simp)]
  refine .ite (fun hgt => ?_) fun hle => .ok ⟨?_, hedited⟩
  · refine (editOnce_gives ho hfits hedited).bind ?_
    rintro ⟨h1, v1⟩ ⟨hhas, halone, hcount1⟩
    obtain ⟨tail1, htail1⟩ := data_eq_append hhas.fits
    obtain ⟨hdata1, -⟩ := htail1 _ (hhas.contents.trans hcontents)
    rw [append_assoc _ (x :: q) tail1] at hdata1
    refine (sortShift_gives x hhas.step.owned halone hdata1 hgt).bind ?_
    rintro ⟨h2, place⟩ ⟨hstep2, rfl, hole, hdata2⟩
    refine (store_one hstep2.owned halone hdata2).bind ?_
    intro h3 hh3
    obtain ⟨hstep3, hdata3⟩ := hh3
    have hdata3' : h3.data v1.mStorage = insertSorted cmp (p' ++ [prev]) x ++ q ++ tail1 := by
      rw [hdata3, insertSorted, rdropWhile_concat_pos _ _ _ (greater_iff.2 hgt),
        rtakeWhile_concat_pos _ _ _ (greater_iff.2 hgt)]
      simp
    have hlen3 : (insertSorted cmp (p' ++ [prev]) x ++ q).length = v1.mCount := by
      have hperm : (insertSorted cmp (p' ++ [prev]) x).length = _ := (insertSorted_perm _ x).length_eq
      rw [hcount1, ← hcount, length_append, hperm]
      simp
      omega
    refine .ok ⟨⟨(hhas.step.trans hstep2).trans hstep3, ?_, ?_⟩, fun _ => halone⟩
    · show v1.mCount ≤ (h3.data v1.mStorage).length
      rw [hdata3', length_append, hlen3]
      exact Nat.le_add_right _ _
    · show (h3.data v1.mStorage).take v1.mCount = _
      rw [hdata3', take_left' hlen3]
  · have hnot : ¬greater cmp x prev = true := fun hg => hle (greater_iff.1 hg)
    rw [insertSorted, rdropWhile_concat_neg _ _ _ hnot, rtakeWhile_concat_neg _ _ _ hnot,
      append_assoc, singleton_append, ← hcontents]
    exact .refl ho hfits

omit ho in
theorem Has.trans {l l' : List α} {r r' : Heap α × VectorImpl} (h1 : Has t owners h l r)
    (h2 : Has t owners r.1 l' r') : Has t owners h l' r' :=
  ⟨h1.step.trans h2.step, h2.fits, h2.contents⟩

theorem sortLoop_gives {i : Nat} (hfits : v.Fits h) (hedited : edited = true → v.Alone owners)
    (hcontents : v.contents h = p ++ q) (hi : i = p.length) (hp : p ≠ []) :
    Ends E (sortLoop t cmp q.length i h v edited)
      (Has t owners h (q.foldl (insertSorted cmp) p)) := by
  induction q generalizing h v edited p i with
  | nil =>
    rw [append_nil] at hcontents
    exact .ok (hcontents ▸ .refl ho hfits)
  | cons x q ih =>
    refine (sortRound_gives ho hfits hedited hcontents hi hp).bind ?_
    rintro ⟨h1, v1, edited1⟩ ⟨hhas, hedited1⟩
    have hlen : (insertSorted cmp p x).length = _ := (insertSorted_perm p x).length_eq
    refine (ih hhas.step.owned hhas.fits hedited1 hhas.contents ?_ ?_).mono ?_
    · rw [hi, hlen, length_append, length_singleton]
    · intro hnil
      rw [hnil] at hlen
      simp at hlen
    · intro r hr
      exact hhas.trans hr

theorem sort_gives (hfits : v.Fits h) :
    Ends E (v.sort t cmp h) (Has t owners h (sortList cmp (v.contents h))) := by
  have hlen := length_contents hfits
  cases hl : v.contents h with
  | nil =>
    rw [hl] at hlen
    rw [sort, ← hlen]
    have hhas := Has.refl ho hfits
    rw [hl] at hhas
    exact .ok hhas
  | cons x q =>
    rw [hl] at hlen
    rw [sort, ← hlen]
    exact sortLoop_gives (p := [x]) ho hfits (by simp) hl rfl (by simp)

end

end VectorImpl

end AndroidSystem.Utils
