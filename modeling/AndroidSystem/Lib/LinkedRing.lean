import Mathlib.Data.List.Basic

/-!
# Circular doubly linked lists

Intrusive lists as C programs write them: every node has a `next` and a `prev` link, a list is a
head node whose links lead around a ring, and nodes are linked in before the head and unlinked
through their own links. `Links.Ring` says which list of nodes a head stands for; the operations are
shown to append to that list, to remove from it and to leave other rings alone.

Unlinking asks nothing of the node. If the node is in no ring, its stale links are followed and
whatever they lead to is rewritten, so every user of `Ring.unlink` has to know the membership.
-/

namespace AndroidSystem

open List Function

/-- The links of all nodes. -/
structure Links (α : Type*) where
  next : α → α
  prev : α → α

namespace Links

variable {α : Type*} {l : Links α} {xs ys : List α} {x h a b : α}

/-- `b` follows `a`. -/
def Joined (l : Links α) (a b : α) : Prop := l.next a = b ∧ l.prev b = a

/-- The links lead from `a` through the nodes `xs` to `b`. -/
def Segment (l : Links α) (a : α) : List α → α → Prop
  | [], b => l.Joined a b
  | x :: xs, b => l.Joined a x ∧ l.Segment x xs b

/-- The list with head `h` has the nodes `xs`. -/
structure Ring (l : Links α) (h : α) (xs : List α) : Prop where
  nodup : (h :: xs).Nodup
  segment : l.Segment h xs h

theorem segment_append : l.Segment a (xs ++ x :: ys) b ↔ l.Segment a xs x ∧ l.Segment x ys b := by
  induction xs generalizing a with
  | nil => rfl
  | cons c cs ih =>
    simp only [cons_append, Segment, ih, and_assoc]

/-- A segment depends on the `next` of its nodes but the last and the `prev` of its nodes but the
first. -/
theorem Segment.congr {l' : Links α} (h : l.Segment a xs b)
    (hnext : ∀ y ∈ a :: xs, l'.next y = l.next y) (hprev : ∀ y ∈ xs ++ [b], l'.prev y = l.prev y) :
    l'.Segment a xs b := by
  induction xs generalizing a with
  | nil =>
    exact ⟨(hnext a (by simp)).trans h.1, (hprev b (by simp)).trans h.2⟩
  | cons c cs ih =>
    refine ⟨⟨(hnext a (by simp)).trans h.1.1, (hprev c (by simp)).trans h.1.2⟩, ih h.2 ?_ ?_⟩
    · exact fun y hy => hnext y (mem_cons_of_mem _ hy)
    · exact fun y hy => hprev y (by simp only [cons_append, mem_cons]; exact .inr hy)

theorem Segment.next_mem (h : l.Segment a xs b) : l.next a ∈ xs ++ [b] := by
  cases xs with
  | nil => simp [h.1]
  | cons c cs => simp [h.1.1]

theorem Segment.prev_mem (h : l.Segment a xs b) : l.prev b ∈ a :: xs := by
  induction xs generalizing a with
  | nil => simp [h.2]
  | cons c cs ih => exact mem_cons_of_mem _ (ih h.2)

theorem Ring.mem (hr : l.Ring h xs) (hx : x ∈ xs) : l.next x ∈ h :: xs ∧ l.prev x ∈ h :: xs := by
  obtain ⟨ys, zs, rfl⟩ := append_of_mem hx
  obtain ⟨h1, h2⟩ := segment_append.1 hr.segment
  have hnext := h2.next_mem
  have hprev := h1.prev_mem
  simp only [mem_cons, mem_append] at hnext hprev ⊢
  tauto

theorem Ring.congr {l' : Links α} (hr : l.Ring h xs)
    (heq : ∀ y ∈ h :: xs, l'.next y = l.next y ∧ l'.prev y = l.prev y) : l'.Ring h xs := by
  refine ⟨hr.nodup, hr.segment.congr (fun y hy => (heq y hy).1) (fun y hy => (heq y ?_).2)⟩
  simpa [or_comm] using hy

/-! ## Walking -/

section Walk

variable [DecidableEq α]

/-- The nodes from `x` up to the head `h`, at most `fuel` many. -/
def walk (l : Links α) (h : α) : Nat → α → List α
  | 0, _ => []
  | fuel + 1, x => if x = h then [] else x :: l.walk h fuel (l.next x)

theorem Segment.walk {fuel : Nat} (hs : l.Segment a xs h) (hh : h ∉ xs) (hfuel : xs.length < fuel) :
    l.walk h fuel (l.next a) = xs := by
  induction xs generalizing a fuel with
  | nil =>
    obtain ⟨n, rfl⟩ := Nat.exists_eq_add_of_lt hfuel
    simp [Links.walk, hs.1]
  | cons c cs ih =>
    obtain ⟨n, rfl⟩ : ∃ n, fuel = n + 1 := ⟨fuel - 1, by omega⟩
    rw [mem_cons, not_or] at hh
    rw [hs.1.1, Links.walk, if_neg (Ne.symm hh.1), ih hs.2 hh.2 (by simpa using hfuel)]

theorem Ring.walk {fuel : Nat} (hr : l.Ring h xs) (hfuel : xs.length < fuel) :
    l.walk h fuel (l.next h) = xs :=
  hr.segment.walk (nodup_cons.1 hr.nodup).1 hfuel

end Walk

/-! ## Linking and unlinking -/

/-- What remains of a ring when a node is unlinked. -/
theorem mem_unlinked {y : α} (h : (xs ++ x :: ys).Nodup) :
    y ∈ xs ++ ys ↔ y ∈ xs ++ x :: ys ∧ y ≠ x := by
  have hperm : (xs ++ x :: ys).Perm (x :: (xs ++ ys)) := perm_middle
  have hnot := (nodup_cons.1 (hperm.nodup_iff.1 h)).1
  rw [hperm.mem_iff, mem_cons]
  exact ⟨fun hy => ⟨.inr hy, fun e => hnot (e ▸ hy)⟩, fun hy => hy.1.resolve_left hy.2⟩

section Operations

variable [DecidableEq α]

/-- `x->next->prev = x->prev; x->prev->next = x->next` -/
def unlink (l : Links α) (x : α) : Links α where
  next := update l.next (l.prev x) (l.next x)
  prev := update l.prev (l.next x) (l.prev x)

/-- `x->next = h; x->prev = h->prev; x->next->prev = x; x->prev->next = x` -/
def insertBefore (l : Links α) (h x : α) : Links α where
  next := update (update l.next x h) (l.prev h) x
  prev := update (update l.prev x (l.prev h)) h x

theorem Segment.unlink (h1 : l.Segment a xs x) (h2 : l.Segment x ys b) (hxs : (a :: xs).Nodup)
    (hys : (ys ++ [b]).Nodup) (hdisj : ∀ c ∈ xs, c ∉ ys ++ [b]) (ha : a ∉ ys) :
    (l.unlink x).Segment a (xs ++ ys) b := by
  induction xs generalizing a with
  | nil =>
    obtain ⟨-, hprev⟩ := h1
    cases ys with
    | nil =>
      obtain ⟨hnext, -⟩ := h2
      simp [Segment, Joined, Links.unlink, hnext, hprev]
    | cons y ys =>
      obtain ⟨⟨hnext, -⟩, hrest⟩ := h2
      refine ⟨by simp [Joined, Links.unlink, hnext, hprev], hrest.congr ?_ ?_⟩
      · intro c hc
        have : c ≠ a := fun h => ha (h ▸ hc)
        simp [Links.unlink, hprev, this]
      · intro c hc
        have : c ≠ y := fun h => (nodup_cons.1 hys).1 (h ▸ hc)
        simp [Links.unlink, hnext, this]
  | cons c cs ih =>
    obtain ⟨ha', hcs⟩ := nodup_cons.1 hxs
    have hc := hdisj c (by simp)
    have hac : a ≠ l.prev x := fun h => ha' (h ▸ h1.2.prev_mem)
    have hcn : c ≠ l.next x := fun h => hc (h ▸ h2.next_mem)
    refine ⟨?_, ih h1.2 hcs (fun d hd => hdisj d (mem_cons_of_mem _ hd)) ?_⟩
    · simpa [Joined, Links.unlink, hac, hcn] using h1.1
    · exact fun hmem => hc (mem_append_left _ hmem)

theorem Ring.unlink (hr : l.Ring h (xs ++ x :: ys)) : (l.unlink x).Ring h (xs ++ ys) := by
  obtain ⟨h1, h2⟩ := segment_append.1 hr.segment
  have hnd : (h :: xs ++ x :: ys).Nodup := hr.nodup
  obtain ⟨hxs, hys, hdisj⟩ := nodup_append.1 hnd
  have hys' := nodup_cons.1 hys
  have hh := (nodup_cons.1 hr.nodup).1
  refine ⟨hr.nodup.sublist ?_, h1.unlink h2 hxs ?_ ?_ ?_⟩
  · exact ((sublist_cons_self x ys).append_left xs).cons_cons h
  · refine nodup_append.2 ⟨hys'.2, by simp, ?_⟩
    rintro c hc d hd rfl
    exact hh (by simp_all)
  · intro c hc hmem
    rcases mem_append.1 hmem with hmem | hmem
    · exact hdisj c (mem_cons_of_mem _ hc) c (mem_cons_of_mem _ hmem) rfl
    · exact hh (by simp_all)
  · exact fun hmem => hh (by simp [hmem])

/-- Retargeting the last link of a segment to a new node. -/
theorem Segment.insertBefore (hs : l.Segment a xs h) (hxs : (a :: xs).Nodup) (hh : h ∉ xs)
    (hx : x ∉ a :: xs) (hxh : x ≠ h) : (l.insertBefore h x).Segment a xs x := by
  induction xs generalizing a with
  | nil =>
    simp [Segment, Joined, Links.insertBefore, hs.2, hxh]
  | cons c cs ih =>
    obtain ⟨ha, hcs⟩ := nodup_cons.1 hxs
    have hac : a ≠ l.prev h := fun e => ha (e ▸ hs.2.prev_mem)
    simp only [mem_cons, not_or] at hx hh
    refine ⟨?_, ih hs.2 hcs hh.2 (by simp [hx])⟩
    simpa [Joined, Links.insertBefore, hac, Ne.symm hx.1, Ne.symm hh.1, Ne.symm hx.2.1] using hs.1

theorem Ring.insertBefore (hr : l.Ring h xs) (hx : x ∉ h :: xs) :
    (l.insertBefore h x).Ring h (xs ++ [x]) := by
  have hh := (nodup_cons.1 hr.nodup).1
  have hxh : x ≠ h := fun e => hx (by simp [e])
  refine ⟨?_, segment_append.2 ⟨hr.segment.insertBefore hr.nodup hh hx hxh, ?_⟩⟩
  · exact nodup_append.2 ⟨hr.nodup, by simp, by rintro c hc d hd rfl; simp_all⟩
  · -- the ring ends with the new node, whose `next` is the head
    have hlast : x ≠ l.prev h := fun e => hx (e ▸ hr.segment.prev_mem)
    simp [Segment, Joined, Links.insertBefore, hlast]

theorem Ring.unlink_other {h' : α} {zs : List α} (hr : l.Ring h (xs ++ x :: ys))
    (hr' : l.Ring h' zs) (hdisj : ∀ c ∈ h :: (xs ++ ys), c ∉ h' :: zs) :
    (l.unlink x).Ring h' zs := by
  obtain ⟨h1, h2⟩ := segment_append.1 hr.segment
  have hprev : l.prev x ∉ h' :: zs := by
    refine hdisj _ ?_
    have := h1.prev_mem
    simp only [mem_cons, mem_append] at this ⊢
    tauto
  have hnext : l.next x ∉ h' :: zs := by
    refine hdisj _ ?_
    have := h2.next_mem
    simp only [mem_cons, mem_append] at this ⊢
    tauto
  refine ⟨hr'.nodup, hr'.segment.congr ?_ ?_⟩
  · intro c hc
    have : c ≠ l.prev x := fun e => hprev (e ▸ hc)
    simp [Links.unlink, this]
  · intro c hc
    have : c ≠ l.next x := fun e => hnext (e ▸ by simpa [or_comm] using hc)
    simp [Links.unlink, this]

theorem Ring.insertBefore_other {h' : α} {zs : List α} (hr : l.Ring h xs) (hr' : l.Ring h' zs)
    (hx : x ∉ h' :: zs) (hdisj : ∀ c ∈ h :: xs, c ∉ h' :: zs) :
    (l.insertBefore h x).Ring h' zs := by
  have hprev : l.prev h ∉ h' :: zs := hdisj _ hr.segment.prev_mem
  have hh : h ∉ h' :: zs := hdisj _ (by simp)
  refine ⟨hr'.nodup, hr'.segment.congr ?_ ?_⟩
  · intro c hc
    have h1 : c ≠ l.prev h := fun e => hprev (e ▸ hc)
    have h2 : c ≠ x := fun e => hx (e ▸ hc)
    simp [Links.insertBefore, h1, h2]
  · intro c hc
    have hc' : c ∈ h' :: zs := by simpa [or_comm] using hc
    have h1 : c ≠ h := fun e => hh (e ▸ hc')
    have h2 : c ≠ x := fun e => hx (e ▸ hc')
    simp [Links.insertBefore, h1, h2]

end Operations

end Links

end AndroidSystem
