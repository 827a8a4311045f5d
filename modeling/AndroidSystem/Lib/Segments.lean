import Mathlib.Data.List.Pairwise
import Mathlib.Data.List.Forall2
import Mathlib.Order.Basic

/-!
# Lists of segments

A list whose elements each stand for a run of positions, with a value at each position, denotes a
partial map. `Segments α β` says how an element is read: where it starts, where it stops and what
it holds. The list is *sorted* when every element stops before the next one starts; elements that
stop where they start hold nothing and may stand anywhere between.

* `lookup_append` reads a list piece by piece.
* `lookup_cut` and `Sorted.cut` replace an element by two that cut it at a position, and
  `Refines` does so any number of times.
-/

namespace AndroidSystem

open List

/-- How the elements of a list are read as segments of positions with values. -/
structure Segments (α β : Type*) where
  start : α → Nat
  stop : α → Nat
  val : α → Nat → β

namespace Segments

variable {α β γ : Type*} (S : Segments α β)

/-- The position `p` lies in the segment `a`. -/
def Covers (a : α) (p : Nat) : Prop := S.start a ≤ p ∧ p < S.stop a

instance (a : α) (p : Nat) : Decidable (S.Covers a p) :=
  inferInstanceAs (Decidable (S.start a ≤ p ∧ p < S.stop a))

/-- The partial map a list denotes; the first segment that covers a position counts. -/
def lookup : List α → Nat → Option β
  | [], _ => none
  | a :: l, p => if S.Covers a p then some (S.val a p) else lookup l p

/-- Every segment stops before the next one starts. -/
def Sorted (l : List α) : Prop := l.Pairwise fun a b => S.stop a ≤ S.start b

variable {S} {l m : List α} {p : Nat} {a b c : α} {v : β}

@[simp] theorem lookup_nil (p : Nat) : S.lookup [] p = none := rfl

theorem lookup_cons (a : α) (l : List α) (p : Nat) :
    S.lookup (a :: l) p = if S.Covers a p then some (S.val a p) else S.lookup l p := rfl

theorem lookup_append (l m : List α) (p : Nat) :
    S.lookup (l ++ m) p = (S.lookup l p).or (S.lookup m p) := by
  induction l with
  | nil => simp
  | cons a l ih =>
    rw [cons_append, lookup_cons, lookup_cons, ih]
    split_ifs <;> simp

theorem lookup_eq_none_iff : S.lookup l p = none ↔ ∀ a ∈ l, ¬ S.Covers a p := by
  induction l with
  | nil => simp
  | cons a l ih =>
    rw [lookup_cons]
    by_cases h : S.Covers a p
    · simp [h]
    · simp [h, ih]

/-- In a sorted list the value at a position is that of any segment that covers it. -/
theorem lookup_of_mem (hs : S.Sorted l) (ha : a ∈ l) (hp : S.Covers a p) :
    S.lookup l p = some (S.val a p) := by
  induction l with
  | nil => simp at ha
  | cons b l ih =>
    obtain ⟨hb, hl⟩ := pairwise_cons.1 hs
    rw [lookup_cons]
    rcases mem_cons.1 ha with rfl | ha
    · rw [if_pos hp]
    · have hba := hb a ha
      have hnb : ¬ S.Covers b p := by
        rintro ⟨-, h⟩
        exact absurd hp.1 (by omega)
      rw [if_neg hnb, ih hl ha]

theorem mem_of_lookup (h : S.lookup l p = some v) : ∃ a ∈ l, S.Covers a p ∧ S.val a p = v := by
  induction l with
  | nil => simp at h
  | cons a l ih =>
    rw [lookup_cons] at h
    by_cases hp : S.Covers a p
    · rw [if_pos hp] at h
      exact ⟨a, mem_cons_self, hp, Option.some.inj h⟩
    · rw [if_neg hp] at h
      obtain ⟨b, hb, hcov⟩ := ih h
      exact ⟨b, mem_cons_of_mem _ hb, hcov⟩

theorem Sorted.lookup_eq_some_iff (hs : S.Sorted l) :
    S.lookup l p = some v ↔ ∃ a ∈ l, S.Covers a p ∧ S.val a p = v := by
  refine ⟨mem_of_lookup, ?_⟩
  rintro ⟨a, ha, hp, rfl⟩
  exact lookup_of_mem hs ha hp

theorem lookup_isSome_iff : (S.lookup l p).isSome ↔ ∃ a ∈ l, S.Covers a p := by
  rw [← not_iff_not, Bool.not_eq_true, Option.isSome_eq_false_iff, Option.isNone_iff_eq_none,
    lookup_eq_none_iff]
  simp

variable (S) in
/-- No position is covered by two segments. -/
def Disjoint (l : List α) : Prop := l.Pairwise fun a b => ∀ p, ¬ (S.Covers a p ∧ S.Covers b p)

theorem Sorted.disjoint (hs : S.Sorted l) : S.Disjoint l := by
  apply hs.imp
  rintro a b hab p ⟨⟨-, h1⟩, ⟨h2, -⟩⟩
  omega

theorem Disjoint.perm (h : S.Disjoint l) (hp : l.Perm m) : S.Disjoint m :=
  (hp.pairwise_iff fun hab p hp => hab p ⟨hp.2, hp.1⟩).1 h

/-- A list of disjoint segments holds a value exactly where one of them does. -/
theorem Disjoint.lookup_eq_some_iff (hd : S.Disjoint l) :
    S.lookup l p = some v ↔ ∃ a ∈ l, S.Covers a p ∧ S.val a p = v := by
  refine ⟨mem_of_lookup, ?_⟩
  rintro ⟨a, ha, hp, rfl⟩
  induction l with
  | nil => simp at ha
  | cons b l ih =>
    obtain ⟨hb, hd⟩ := pairwise_cons.1 hd
    rw [lookup_cons]
    rcases mem_cons.1 ha with rfl | ha
    · rw [if_pos hp]
    · rw [if_neg fun hbp => hb a ha p ⟨hbp, hp⟩, ih hd ha]

theorem lookup_perm (hp : l.Perm m) (hd : S.Disjoint l) (p : Nat) :
    S.lookup l p = S.lookup m p := by
  induction hp with
  | nil => rfl
  | cons a _ ih => rw [lookup_cons, lookup_cons, ih (pairwise_cons.1 hd).2]
  | swap a b l =>
    have hab := (pairwise_cons.1 hd).1 a (by simp) p
    simp only [lookup_cons]
    split_ifs with h1 h2
    · exact absurd ⟨h1, h2⟩ hab
    all_goals rfl
  | trans h1 _ ih1 ih2 => rw [ih1 hd, ih2 (hd.perm h1)]

/-! ## Cutting a segment -/

/-- `b` and `c` are the parts of `a` before and from some position of it. -/
structure Cut (S : Segments α β) (a b c : α) : Prop where
  start_eq : S.start b = S.start a
  mid_eq : S.stop b = S.start c
  stop_eq : S.stop c = S.stop a
  left_le : S.start b ≤ S.stop b
  right_le : S.start c ≤ S.stop c
  left_val : ∀ p, S.Covers b p → S.val b p = S.val a p
  right_val : ∀ p, S.Covers c p → S.val c p = S.val a p

theorem Cut.lookup (h : S.Cut a b c) (p : Nat) : S.lookup [b, c] p = S.lookup [a] p := by
  have hb := h.start_eq
  have hm := h.mid_eq
  have hc := h.stop_eq
  have hl := h.left_le
  have hr := h.right_le
  simp only [lookup_cons]
  by_cases h1 : S.Covers b p
  · have ha : S.Covers a p := ⟨by have := h1.1; omega, by have := h1.2; omega⟩
    rw [if_pos h1, if_pos ha, h.left_val p h1]
  · by_cases h2 : S.Covers c p
    · have ha : S.Covers a p := ⟨by have := h2.1; omega, by have := h2.2; omega⟩
      rw [if_neg h1, if_pos h2, if_pos ha, h.right_val p h2]
    · have ha : ¬ S.Covers a p := by
        unfold Covers at h1 h2 ⊢
        omega
      rw [if_neg h1, if_neg h2, if_neg ha]

theorem lookup_cut (h : S.Cut a b c) (l m : List α) (p : Nat) :
    S.lookup (l ++ b :: c :: m) p = S.lookup (l ++ a :: m) p := by
  have e1 : l ++ b :: c :: m = l ++ ([b, c] ++ m) := rfl
  have e2 : l ++ a :: m = l ++ ([a] ++ m) := rfl
  rw [e1, e2, lookup_append, lookup_append, lookup_append l, lookup_append [a], h.lookup]

theorem Sorted.cut {a b c : α} (h : S.Cut a b c) {l m : List α} (hs : S.Sorted (l ++ a :: m)) :
    S.Sorted (l ++ b :: c :: m) := by
  obtain ⟨hl, hm, hlm⟩ := pairwise_append.1 hs
  obtain ⟨ham, hm⟩ := pairwise_cons.1 hm
  have hb := h.start_eq
  have hmid := h.mid_eq
  have hc := h.stop_eq
  have hle := h.right_le
  refine pairwise_append.2 ⟨hl, pairwise_cons.2 ⟨fun x hx => ?_,
    pairwise_cons.2 ⟨fun x hx => ?_, hm⟩⟩, fun x hx y hy => ?_⟩
  · rcases mem_cons.1 hx with rfl | hx
    · omega
    · have := ham x hx
      omega
  · have := ham x hx
    omega
  · have hxa := hlm x hx a mem_cons_self
    have hleft := h.left_le
    rcases mem_cons.1 hy with rfl | hy
    · omega
    · rcases mem_cons.1 hy with rfl | hy
      · omega
      · exact hlm x hx y (mem_cons_of_mem _ hy)

/-- `m` is `l` with some of its segments cut. -/
inductive Refines (S : Segments α β) (l : List α) : List α → Prop where
  | refl : Refines S l l
  | cut {p q : List α} {a b c : α} :
      Refines S l (p ++ a :: q) → S.Cut a b c → Refines S l (p ++ b :: c :: q)

theorem Refines.trans {n : List α} (h : S.Refines l m) (h' : S.Refines m n) : S.Refines l n := by
  induction h' with
  | refl => exact h
  | cut _ hc ih => exact ih.cut hc

theorem Refines.append_left (p : List α) (h : S.Refines l m) : S.Refines (p ++ l) (p ++ m) := by
  induction h with
  | refl => exact .refl
  | cut _ hc ih =>
    rw [← append_assoc] at ih ⊢
    exact ih.cut hc

theorem Refines.append_right (q : List α) (h : S.Refines l m) : S.Refines (l ++ q) (m ++ q) := by
  induction h with
  | refl => exact .refl
  | cut _ hc ih =>
    rw [append_assoc] at ih ⊢
    exact ih.cut hc

/-- Cutting segments changes neither the map a list denotes nor that it is sorted. -/
theorem Refines.lookup (h : S.Refines l m) (p : Nat) : S.lookup m p = S.lookup l p := by
  induction h with
  | refl => rfl
  | cut _ hc ih => rw [lookup_cut hc, ih]

theorem Refines.sorted (h : S.Refines l m) (hs : S.Sorted l) : S.Sorted m := by
  induction h with
  | refl => exact hs
  | cut _ hc ih => exact ih.cut hc

end Segments

end AndroidSystem
